/-
Unsigned numbers as little-endian bytes, and back.
-/

namespace OsNetworks.LittleEndian

/-- The `w` low bytes of `n`, least significant first. -/
def encode : Nat → Nat → List UInt8
  | 0, _ => []
  | w + 1, n => UInt8.ofNat n :: encode w (n / 256)

def decode : List UInt8 → Nat
  | [] => 0
  | b :: bs => b.toNat + 256 * decode bs

@[simp] theorem length_encode (w n : Nat) : (encode w n).length = w := by
  induction w generalizing n with
  | zero => rfl
  | succ w ih => simp [encode, ih]

theorem decode_encode (w n : Nat) : decode (encode w n) = n % Nat.pow 256 w := by
  induction w generalizing n with
  | zero => simp [encode, decode, Nat.mod_one]
  | succ w ih =>
    have hb : (UInt8.ofNat n).toNat = n % 256 := UInt8.toNat_ofNat'
    have hp : Nat.pow 256 (w + 1) = 256 * Nat.pow 256 w := Nat.mul_comm _ _
    rw [encode, decode, ih, hb, hp, Nat.mod_mul]

end OsNetworks.LittleEndian
