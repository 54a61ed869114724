/-
An unreliable datagram channel as the list of the datagrams in flight. Any of
them may be taken next, whatever its place (delay and reordering), any may be
lost, and any may be copied.
-/

namespace OsNetworks.Channel

variable {α : Type} {ch : List α} {x : α} {i : Nat}

/-- The channel without its `i`-th datagram: it was delivered, or lost. -/
def take (ch : List α) (i : Nat) : List α := ch.eraseIdx i

/-- The channel with a second copy of its `i`-th datagram. -/
def copy (ch : List α) (i : Nat) : List α := ch ++ ch[i]?.toList

theorem mem_of_mem_take (h : x ∈ take ch i) : x ∈ ch := List.mem_of_mem_eraseIdx h

theorem mem_copy : x ∈ copy ch i ↔ x ∈ ch := by
  simp only [copy, List.mem_append, Option.mem_toList]
  constructor
  · intro hx
    rcases hx with h | h
    · exact h
    · exact List.mem_of_getElem? h
  · exact .inl

/-- Taking one datagram leaves every other one in flight. -/
theorem mem_take_of_ne {y : α} (hi : ch[i]? = some y) (hx : x ∈ ch) (hne : x ≠ y) : x ∈ take ch i := by
  obtain ⟨j, hj⟩ := List.mem_iff_getElem?.mp hx
  refine List.mem_eraseIdx_iff_getElem?.mpr ⟨j, fun he => ?_, hj⟩
  subst he
  rw [hi] at hj
  exact hne (Option.some.inj hj).symm

/-- A datagram in flight has a place to be taken from. -/
theorem exists_getElem? (hx : x ∈ ch) : ∃ i : Nat, ch[i]? = some x := List.mem_iff_getElem?.mp hx

end OsNetworks.Channel
