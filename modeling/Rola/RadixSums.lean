import Mathlib.Algebra.BigOperators.Ring.Finset
import Rola.MixedRadix
import Rola.RangeSums

/-!
# Sums over mixed-radix indices

A product of one factor a digit, summed over the indices, is the product of each digit's sum; and a sum
over the indices is one over the cells of a coarser index and the places inside a cell.
-/

namespace MixedRadix

open Finset

variable {b q side : ℕ → ℕ} {D : ℕ}

/-- The digits of an index with one more. -/
theorem digit_mul_add {x d l : ℕ} (hd : d < b D) (hl : l < D) : digit b (D + 1) (x * b D + d) l = digit b D x l := by
  unfold digit
  rw [weight_succ hl, Nat.mul_comm (weight b D l), ← Nat.div_div_eq_div_mul, Nat.add_comm, Nat.add_mul_div_right _ _ (Nat.zero_lt_of_lt hd),
    Nat.div_eq_of_lt hd, Nat.zero_add]

theorem digit_mul_add_last {x d : ℕ} (hd : d < b D) : digit b (D + 1) (x * b D + d) D = d := by
  rw [digit, weight_last, Nat.div_one, Nat.mul_add_mod', Nat.mod_eq_of_lt hd]

/-- The sum of products is the product of sums. -/
theorem sum_prod_digit {K : Type*} [CommSemiring K] (f : ℕ → ℕ → K) :
    ∑ x ∈ range (size b D), ∏ l ∈ range D, f l (digit b D x l) = ∏ l ∈ range D, ∑ d ∈ range (b l), f l d := by
  induction D with
  | zero => simp
  | succ D ih =>
    rw [size_succ, Rola.sum_blocks, prod_range_succ, ← ih, sum_mul]
    refine sum_congr rfl fun x _ => ?_
    rw [mul_sum]
    refine sum_congr rfl fun d hd => ?_
    rw [mem_range] at hd
    rw [prod_range_succ, digit_mul_add_last hd]
    exact congrArg (· * f D d) (prod_congr rfl fun l hl => by rw [digit_mul_add hd (mem_range.1 hl)])

/-- The digits of cell `O` and place `loc`. -/
def nested (q side : ℕ → ℕ) (D O loc l : ℕ) : ℕ := digit q D O l * side l + digit side D loc l

theorem nested_bounded (hb : ∀ l < D, b l = q l * side l) (hq : ∀ l < D, 0 < q l) (hside : ∀ l < D, 0 < side l) (O loc : ℕ) :
    Bounded b (nested q side D O loc) D := by
  intro l hl
  rw [nested, hb l hl]
  calc _ < digit q D O l * side l + side l := Nat.add_lt_add_left (digit_lt hside hl) _
    _ = (digit q D O l + 1) * side l := (Nat.succ_mul _ _).symm
    _ ≤ _ := Nat.mul_le_mul_right _ (digit_lt hq hl)

/-- A sum over the indices, cell by cell. -/
theorem sum_nested {M : Type*} [AddCommMonoid M] (hb : ∀ l < D, b l = q l * side l) (hq : ∀ l < D, 0 < q l)
    (hside : ∀ l < D, 0 < side l) (f : ℕ → M) :
    ∑ O ∈ range (size q D), ∑ loc ∈ range (size side D), f (encode b (nested q side D O loc) D) = ∑ x ∈ range (size b D), f x := by
  rw [← sum_product']
  refine sum_bij (fun p _ => encode b (nested q side D p.1 p.2) D) (fun p _ => ?_) (fun p hp p' hp' heq => ?_) (fun x hx => ?_)
    fun _ _ => rfl
  · exact mem_range.2 (encode_lt (nested_bounded hb hq hside _ _))
  · simp only [mem_product, mem_range] at hp hp'
    have hdigits := encode_inj (nested_bounded hb hq hside p.1 p.2) (nested_bounded hb hq hside p'.1 p'.2) heq
    have hboth := fun l hl => mul_add_inj (digit_lt hside hl) (digit_lt hside hl) (hdigits l hl)
    have hO : p.1 = p'.1 := by
      rw [← encode_digit hp.1, ← encode_digit hp'.1]
      exact encode_congr (fun _ _ => rfl) fun l hl => (hboth l hl).1
    have hloc : p.2 = p'.2 := by
      rw [← encode_digit hp.2, ← encode_digit hp'.2]
      exact encode_congr (fun _ _ => rfl) fun l hl => (hboth l hl).2
    exact Prod.ext hO hloc
  · rw [mem_range] at hx
    have hd := digit_bounded (x := x) fun l hl => hb l hl ▸ Nat.mul_pos (hq l hl) (hside l hl)
    have hO : Bounded q (fun l => digit b D x l / side l) D := fun l hl => by
      rw [Nat.div_lt_iff_lt_mul (hside l hl), ← hb l hl]
      exact hd l hl
    have hloc : Bounded side (fun l => digit b D x l % side l) D := fun l hl => Nat.mod_lt _ (hside l hl)
    refine ⟨(encode q (fun l => digit b D x l / side l) D, encode side (fun l => digit b D x l % side l) D), ?_, ?_⟩
    · exact mem_product.2 ⟨mem_range.2 (encode_lt hO), mem_range.2 (encode_lt hloc)⟩
    · have heq : encode b (digit b D x) D = x := encode_digit hx
      rw [← heq]
      refine encode_congr (fun _ _ => rfl) fun l hl => ?_
      rw [heq, nested, digit_encode hO hl, digit_encode hloc hl]
      exact Nat.div_add_mod' _ _

end MixedRadix
