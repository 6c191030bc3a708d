import Mathlib.Data.Nat.Digits.Lemmas

/-! # Numbers in memory

    The bytes of a number, least significant first, and the number of given bytes.
    Reversing the bytes of a number is what a conversion between the two byte orders does;
    it is its own inverse, and the conversion of a number can be put together from those of
    its parts, in the other order.

    Nothing here knows what the numbers are for. -/

namespace CoioByteOrder

/-- The first `w` bytes of `x`. -/
def leBytes : Nat → Nat → List UInt8
  | 0, _ => []
  | w + 1, x => UInt8.ofNat x :: leBytes w (x / 256)

def leValue (bs : List UInt8) : Nat := Nat.ofDigits 256 (bs.map UInt8.toNat)

/-- The number with the bytes in the other order. -/
def bswap (w x : Nat) : Nat := leValue (leBytes w x).reverse

@[simp] theorem length_leBytes (w x : Nat) : (leBytes w x).length = w := by
  induction w generalizing x with
  | zero => rfl
  | succ w ih => rw [leBytes, List.length_cons, ih]

theorem leValue_cons (b : UInt8) (bs : List UInt8) :
    leValue (b :: bs) = b.toNat + 256 * leValue bs :=
  Nat.ofDigits_cons ..

theorem leValue_append (as bs : List UInt8) :
    leValue (as ++ bs) = leValue as + 256 ^ as.length * leValue bs := by
  rw [leValue, List.map_append, Nat.ofDigits_append, List.length_map]
  rfl

theorem leValue_lt (bs : List UInt8) : leValue bs < 256 ^ bs.length := by
  induction bs with
  | nil => exact Nat.one_pos
  | cons b bs ih =>
      have hb := b.toNat_lt
      rw [leValue_cons, List.length_cons, Nat.pow_succ]
      omega

theorem leValue_leBytes (w x : Nat) : leValue (leBytes w x) = x % 256 ^ w := by
  induction w generalizing x with
  | zero => exact (Nat.mod_one x).symm
  | succ w ih =>
      rw [leBytes, leValue_cons, ih, Nat.pow_succ, Nat.mul_comm (256 ^ w), Nat.mod_mul]
      rfl

theorem leBytes_leValue (bs : List UInt8) : leBytes bs.length (leValue bs) = bs := by
  induction bs with
  | nil => rfl
  | cons b bs ih =>
      have hb := b.toNat_lt
      have hlow : UInt8.ofNat (leValue (b :: bs)) = b := by
        refine UInt8.toNat_inj.mp ?_
        rw [leValue_cons, UInt8.toNat_ofNat']
        omega
      have hhigh : leValue (b :: bs) / 256 = leValue bs := by
        rw [leValue_cons]
        omega
      rw [List.length_cons, leBytes, hlow, hhigh, ih]

/-- Bytes beyond those that are asked for do not matter. -/
theorem leBytes_mod (w x : Nat) : leBytes w (x % 256 ^ w) = leBytes w x := by
  have hself := leBytes_leValue (leBytes w x)
  rwa [length_leBytes, leValue_leBytes] at hself

theorem leBytes_add (v w x : Nat) : leBytes (v + w) x = leBytes v x ++ leBytes w (x / 256 ^ v) := by
  induction v generalizing x with
  | zero => rw [Nat.zero_add, Nat.pow_zero, Nat.div_one, leBytes, List.nil_append]
  | succ v ih =>
      rw [Nat.succ_add, leBytes, leBytes, ih, List.cons_append, Nat.div_div_eq_div_mul,
        Nat.pow_succ, Nat.mul_comm 256]

theorem bswap_lt (w x : Nat) : bswap w x < 256 ^ w := by
  have hlt := leValue_lt (leBytes w x).reverse
  rwa [List.length_reverse, length_leBytes] at hlt

/-- **OTHER ORDER**: the bytes of the converted number are those of the number, reversed. -/
theorem leBytes_bswap (w x : Nat) : leBytes w (bswap w x) = (leBytes w x).reverse := by
  have hself := leBytes_leValue (leBytes w x).reverse
  rwa [List.length_reverse, length_leBytes] at hself

theorem bswap_bswap (w x : Nat) : bswap w (bswap w x) = x % 256 ^ w := by
  rw [bswap, leBytes_bswap, List.reverse_reverse, leValue_leBytes]

theorem bswap_mod (w x : Nat) : bswap w (x % 256 ^ w) = bswap w x := by
  rw [bswap, leBytes_mod, bswap]

/-- The conversion of a number from those of its low and its high part. -/
theorem bswap_add (v w x : Nat) :
    bswap (v + w) x = bswap v x * 256 ^ w + bswap w (x / 256 ^ v) := by
  rw [bswap, leBytes_add, List.reverse_append, leValue_append, List.length_reverse,
    length_leBytes, Nat.add_comm, Nat.mul_comm (256 ^ w)]
  rfl

end CoioByteOrder
