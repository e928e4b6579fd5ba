import Rola.MixedRadix
import Mathlib.Data.Nat.Bitwise
import Mathlib.Data.Finset.Card

/-!
# The bits of a mixed-radix index

Under radices that are powers of two a digit is a field of bits, at the offset of the digits below it.
-/

namespace MixedRadix

open Finset

variable {e b d : ℕ → ℕ} {D l l' i i' j : ℕ}

/-- The bits below level `l`'s. -/
def bitPos (e : ℕ → ℕ) (D l : ℕ) : ℕ := ∑ i ∈ Ico (l + 1) D, e i

/-- The level a bit of an index is in, and its place in the digit. -/
def bitPlace (e : ℕ → ℕ) : ℕ → ℕ → ℕ × ℕ
  | 0, j => (0, j)
  | D + 1, j => if j < e D then (D, j) else bitPlace e D (j - e D)

theorem bitPos_last (e : ℕ → ℕ) (D : ℕ) : bitPos e (D + 1) D = 0 := by simp [bitPos]

theorem bitPos_succ (h : l < D) : bitPos e (D + 1) l = bitPos e D l + e D := by
  unfold bitPos
  rw [sum_Ico_succ_top (by omega)]

theorem weight_two_pow (hb : ∀ l < D, b l = 2 ^ e l) (l : ℕ) : weight b D l = 2 ^ bitPos e D l := by
  unfold weight bitPos
  rw [← prod_pow_eq_pow_sum]
  exact prod_congr rfl fun i hi => hb i (mem_Ico.1 hi).2

theorem size_two_pow (hb : ∀ l < D, b l = 2 ^ e l) : size b D = 2 ^ ∑ l ∈ range D, e l := by
  unfold size
  rw [← prod_pow_eq_pow_sum]
  exact prod_congr rfl fun i hi => hb i (mem_range.1 hi)

theorem bitPos_add_lt (hl : l < D) (hi : i < e l) : bitPos e D l + i < ∑ l ∈ range D, e l := by
  induction D with
  | zero => omega
  | succ D ih =>
    rw [sum_range_succ]
    rcases Nat.lt_succ_iff_lt_or_eq.1 hl with hl | rfl
    · have := ih hl
      rw [bitPos_succ hl]
      omega
    · rw [bitPos_last]
      omega

theorem bitPlace_bitPos (hl : l < D) (hi : i < e l) : bitPlace e D (bitPos e D l + i) = (l, i) := by
  induction D with
  | zero => omega
  | succ D ih =>
    rw [bitPlace]
    rcases Nat.lt_succ_iff_lt_or_eq.1 hl with hl | rfl
    · rw [bitPos_succ hl, if_neg (by omega), show bitPos e D l + e D + i - e D = bitPos e D l + i by omega]
      exact ih hl
    · rw [bitPos_last, Nat.zero_add, if_pos hi]

/-- Every bit of an index is some digit's. -/
theorem bitPlace_spec (hj : j < ∑ l ∈ range D, e l) : (bitPlace e D j).1 < D ∧
    (bitPlace e D j).2 < e (bitPlace e D j).1 ∧ bitPos e D (bitPlace e D j).1 + (bitPlace e D j).2 = j := by
  induction D generalizing j with
  | zero => simp at hj
  | succ D ih =>
    rw [sum_range_succ] at hj
    rw [bitPlace]
    split
    · rename_i hlt
      exact ⟨Nat.lt_succ_self D, hlt, by rw [bitPos_last, Nat.zero_add]⟩
    · rename_i hge
      obtain ⟨h1, h2, h3⟩ := @ih (j - e D) (by omega)
      refine ⟨h1.trans (Nat.lt_succ_self D), h2, ?_⟩
      rw [bitPos_succ h1]
      omega

theorem bitPos_inj (hl : l < D) (hi : i < e l) (hl' : l' < D) (hi' : i' < e l')
    (h : bitPos e D l + i = bitPos e D l' + i') : l = l' ∧ i = i' := by
  have heq := bitPlace_bitPos hl hi
  rw [h, bitPlace_bitPos hl' hi'] at heq
  exact ⟨(congrArg Prod.fst heq).symm, (congrArg Prod.snd heq).symm⟩

/-- A digit's bits are the index's, at the digit's offset. -/
theorem testBit_digit (hb : ∀ l < D, b l = 2 ^ e l) (x : ℕ) (hl : l < D) (hi : i < e l) :
    (digit b D x l).testBit i = x.testBit (bitPos e D l + i) := by
  unfold digit
  rw [weight_two_pow hb, hb l hl, Nat.testBit_mod_two_pow, Nat.testBit_div_two_pow, decide_eq_true hi,
    Bool.true_and, Nat.add_comm]

theorem testBit_encode (hb : ∀ l < D, b l = 2 ^ e l) (h : Bounded b d D) (hl : l < D) (hi : i < e l) :
    (encode b d D).testBit (bitPos e D l + i) = (d l).testBit i := by
  rw [← testBit_digit hb _ hl hi, digit_encode h hl]

end MixedRadix
