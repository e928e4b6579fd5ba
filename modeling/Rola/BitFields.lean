import Mathlib.Data.Nat.Bitwise
import Mathlib.Tactic.Positivity
import Mathlib.Tactic.Ring

/-!
# Fields of bits

A word is its low field, the field above it and the rest; exchanging the two fields is undone by
exchanging them back.
-/

namespace BitFields

variable {a b x : ℕ}

/-- A word made of three disjoint fields is their sum. -/
theorem or_eq_add {lo mid rest : ℕ} (hlo : lo < 2 ^ a) (hmid : mid < 2 ^ b) :
    lo ||| (mid <<< a) ||| (rest <<< (a + b)) = lo + 2 ^ a * (mid + 2 ^ b * rest) := by
  have h1 : lo ||| (mid <<< a) = 2 ^ a * mid + lo := by
    rw [Nat.or_comm, ← Nat.shiftLeft_add_eq_or_of_lt hlo, Nat.shiftLeft_eq, Nat.mul_comm]
  have hlt : 2 ^ a * mid + lo < 2 ^ (a + b) := by
    rw [pow_add]
    calc 2 ^ a * mid + lo < 2 ^ a * mid + 2 ^ a := by omega
      _ = 2 ^ a * (mid + 1) := by ring
      _ ≤ 2 ^ a * 2 ^ b := Nat.mul_le_mul_left _ hmid
  rw [h1, Nat.or_comm, ← Nat.shiftLeft_add_eq_or_of_lt hlt, Nat.shiftLeft_eq, pow_add]
  ring

/-- The low `a` bits and the `b` above them change places. -/
def swap (a b x : ℕ) : ℕ := x / 2 ^ a % 2 ^ b + 2 ^ b * (x % 2 ^ a + 2 ^ a * (x / 2 ^ (a + b)))

theorem low_eq {lo rest : ℕ} (hlo : lo < 2 ^ a) : (lo + 2 ^ a * rest) % 2 ^ a = lo := by
  rw [Nat.add_mul_mod_self_left, Nat.mod_eq_of_lt hlo]

theorem high_eq {lo rest : ℕ} (hlo : lo < 2 ^ a) : (lo + 2 ^ a * rest) / 2 ^ a = rest := by
  rw [Nat.add_mul_div_left _ _ (by positivity), Nat.div_eq_of_lt hlo, Nat.zero_add]

theorem fields_eq (a b x : ℕ) : x % 2 ^ a + 2 ^ a * (x / 2 ^ a % 2 ^ b + 2 ^ b * (x / 2 ^ (a + b))) = x := by
  rw [pow_add, ← Nat.div_div_eq_div_mul, Nat.mod_add_div, Nat.mod_add_div]

theorem swap_high (a b x : ℕ) : swap a b x / 2 ^ (b + a) = x / 2 ^ (a + b) := by
  unfold swap
  rw [pow_add 2 b a, ← Nat.div_div_eq_div_mul, high_eq (Nat.mod_lt _ (by positivity)),
    high_eq (Nat.mod_lt _ (by positivity))]

theorem swap_swap (a b x : ℕ) : swap b a (swap a b x) = x := by
  have hlo : x / 2 ^ a % 2 ^ b < 2 ^ b := Nat.mod_lt _ (by positivity)
  have hmid : x % 2 ^ a < 2 ^ a := Nat.mod_lt _ (by positivity)
  have hhigh := swap_high a b x
  unfold swap at hhigh ⊢
  rw [hhigh, high_eq hlo, low_eq hmid, low_eq hlo, fields_eq]

/-- An exchange inside the low `n` bits stays inside them. -/
theorem swap_lt {n : ℕ} (hn : a + b ≤ n) (hx : x < 2 ^ n) : swap a b x < 2 ^ n := by
  obtain ⟨c, rfl⟩ := Nat.exists_eq_add_of_le hn
  have hpos : 0 < 2 ^ (a + b) := by positivity
  have hhigh := swap_high a b x
  rw [pow_add] at hx ⊢
  rw [Nat.add_comm b a] at hhigh
  rw [Nat.mul_comm, ← Nat.div_lt_iff_lt_mul hpos, hhigh, Nat.div_lt_iff_lt_mul hpos, Nat.mul_comm]
  exact hx

/-! ### Bits set one at a time -/

theorem getLsbD_one_shift {k t : ℕ} (ht : t < 32) : (1#32 <<< k).getLsbD t = decide (k = t) := by
  rw [BitVec.getLsbD_shiftLeft, BitVec.getLsbD_one, decide_eq_true ht]
  rcases Nat.lt_trichotomy t k with h | rfl | h
  · simp [h, h.ne']
  · simp
  · have : t - k ≠ 0 := by omega
    simp [this, h.ne]

theorem getLsbD_foldl_or (live : ℕ → Bool) (n : ℕ) {t : ℕ} (ht : t < 32) :
    ((List.range n).foldl (fun bits i => if live i then bits ||| 1#32 <<< i else bits) 0).getLsbD t =
      (decide (t < n) && live t) := by
  induction n with
  | zero => simp
  | succ n ih =>
    rw [List.range_succ, List.foldl_append, List.foldl_cons, List.foldl_nil]
    rcases Nat.lt_trichotomy t n with h | rfl | h
    · split
      · rw [BitVec.getLsbD_or, ih, getLsbD_one_shift ht]
        simp [h, h.ne', Nat.lt_succ_of_lt h]
      · rw [ih]
        simp [h, Nat.lt_succ_of_lt h]
    · split
      · rename_i hlive
        rw [BitVec.getLsbD_or, ih, getLsbD_one_shift ht]
        simp [hlive]
      · rename_i hlive
        rw [ih]
        simp [hlive]
    · have hno : ¬ t < n := by omega
      have hno' : ¬ t < n + 1 := by omega
      split
      · rw [BitVec.getLsbD_or, ih, getLsbD_one_shift ht, decide_eq_false hno, decide_eq_false hno', decide_eq_false h.ne]
        rfl
      · rw [ih, decide_eq_false hno, decide_eq_false hno']

end BitFields
