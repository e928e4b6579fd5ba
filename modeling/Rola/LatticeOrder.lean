import Rola.BoxAgreement
import Rola.DecodeStep
import Rola.DigitBits
import Mathlib.Data.Set.Function

/-!
# The lattice order is a permutation

`rola/ops/lattice.py`, `permutation`: a leaf's lattice index is its owner's and its run offset's. Each is a
digit of the canonical index cut in two, so the order permutes the index's bits, and the two conversions
of a plane are inverse.
-/

namespace Rola

open MixedRadix Finset

variable {D k m l x y j : ℕ} {w e sb : ℕ → ℕ} {b : Box}

theorem bijOn_below {f : ℕ → ℕ} {n : ℕ} (hlt : ∀ x < n, f x < n) (hinj : Set.InjOn f {x | x < n}) :
    Set.BijOn f {x | x < n} {x | x < n} := by
  have hset : {x | x < n} = (range n : Set ℕ) := by
    ext x
    simp
  rw [hset] at hinj ⊢
  have hmaps : Set.MapsTo f (range n) (range n) := fun x hx => by simpa using hlt x (by simpa using hx)
  exact ⟨hmaps, hinj, surjOn_of_injOn_of_card_le _ hmaps hinj le_rfl⟩

/-! ### A box that tiles its widths -/

structure Box.Tiles (D : ℕ) (w : ℕ → ℕ) (b : Box) : Prop where
  span_pos : ∀ l < D, 0 < b.s l
  width : ∀ l < D, b.s l * b.g l = w l
  width_pos : ∀ l < D, 0 < w l
  bc : b.bc = size b.s D

theorem boxShape_tiles (hw : ∀ l < D, 0 < w l) (h : boxShape D w k m = .ok b) : b.Tiles D w := by
  obtain ⟨j, kappa, -, rfl, -, hs, hbc, -⟩ := boxShape_ok h
  exact ⟨fun l _ => by rw [hs]; positivity, (boxShape_law h).width, hw, hbc⟩

namespace Box.Tiles

variable (h : b.Tiles D w)
include h

theorem grid_pos (hl : l < D) : 0 < b.g l := by
  have hpos := h.width_pos l hl
  rw [← h.width l hl] at hpos
  exact Nat.pos_of_mul_pos_left hpos

theorem size_eq : size b.g D * b.bc = size w D := by
  rw [h.bc, ← size_mul]
  exact prod_congr rfl fun l hl => (Nat.mul_comm _ _).trans (h.width l (mem_range.1 hl))

theorem owner_bounded (x : ℕ) : Bounded b.g (fun l => digit w D x l / b.s l) D := fun l hl => by
  rw [Nat.div_lt_iff_lt_mul (h.span_pos l hl), Nat.mul_comm, h.width l hl]
  exact digit_lt h.width_pos hl

theorem run_bounded (x : ℕ) : Bounded b.s (fun l => digit w D x l % b.s l) D := fun l hl => Nat.mod_lt _ (h.span_pos l hl)

theorem run_lt (x : ℕ) : encode b.s (fun l => digit w D x l % b.s l) D < b.bc := by
  rw [h.bc]
  exact encode_lt (h.run_bounded x)

/-- The owner and the run offset of a lattice index. -/
theorem permutation_div (x : ℕ) : b.permutation D w x / b.bc = encode b.g (fun l => digit w D x l / b.s l) D := by
  change (encode b.g (fun l => digit w D x l / b.s l) D * b.bc + encode b.s (fun l => digit w D x l % b.s l) D) / _ = _
  have hrun := h.run_lt x
  rw [Nat.mul_comm, Nat.mul_add_div (by omega), Nat.div_eq_of_lt hrun, Nat.add_zero]

theorem permutation_mod (x : ℕ) : b.permutation D w x % b.bc = encode b.s (fun l => digit w D x l % b.s l) D := by
  change (encode b.g (fun l => digit w D x l / b.s l) D * b.bc + encode b.s (fun l => digit w D x l % b.s l) D) % _ = _
  rw [Nat.mul_comm, Nat.mul_add_mod, Nat.mod_eq_of_lt (h.run_lt x)]

theorem permutation_lt (x : ℕ) : b.permutation D w x < size w D := by
  have hrun := h.run_lt x
  have howner := encode_lt (h.owner_bounded x)
  rw [← h.size_eq, ← Nat.div_lt_iff_lt_mul (by omega), h.permutation_div]
  exact howner

/-- A leaf's digits are read off its owner and its run. -/
theorem digit_eq_of_permutation_eq (heq : b.permutation D w x = b.permutation D w y) (hl : l < D) :
    digit w D x l = digit w D y l := by
  have howner := encode_inj (h.owner_bounded x) (h.owner_bounded y) (by rw [← h.permutation_div, heq, h.permutation_div]) l hl
  have hrun := encode_inj (h.run_bounded x) (h.run_bounded y) (by rw [← h.permutation_mod, heq, h.permutation_mod]) l hl
  rw [← Nat.div_add_mod (digit w D x l) (b.s l), howner, hrun, Nat.div_add_mod]

theorem permutation_injOn : Set.InjOn (b.permutation D w) {x | x < size w D} := by
  intro x hx y hy heq
  rw [← encode_digit hx, ← encode_digit hy]
  exact encode_congr (fun _ _ => rfl) fun l hl => h.digit_eq_of_permutation_eq heq hl

theorem permutation_bijOn : Set.BijOn (b.permutation D w) {x | x < size w D} {x | x < size w D} :=
  bijOn_below (fun x _ => h.permutation_lt x) h.permutation_injOn

end Box.Tiles

/-! ### Bits -/

/-- Where the order puts a bit of the canonical index: `e` and `sb` are the levels' bits and their spans'. -/
def bitOrder (e sb : ℕ → ℕ) (D j : ℕ) : ℕ :=
  let (l, i) := bitPlace e D j
  if i < sb l then bitPos sb D l + i
  else ∑ l ∈ range D, sb l + (bitPos (fun l => e l - sb l) D l + (i - sb l))

theorem bitOrder_spec (hsb : ∀ l < D, sb l ≤ e l) (hj : j < ∑ l ∈ range D, e l) : bitOrder e sb D j < ∑ l ∈ range D, e l := by
  obtain ⟨hl, hi, -⟩ := bitPlace_spec hj
  have hsplit : ∑ l ∈ range D, e l = ∑ l ∈ range D, sb l + ∑ l ∈ range D, (e l - sb l) := by
    rw [← sum_add_distrib]
    exact sum_congr rfl fun l hl => (Nat.add_sub_cancel' (hsb l (mem_range.1 hl))).symm
  unfold bitOrder
  dsimp only
  split
  · rename_i hlt
    have := bitPos_add_lt hl hlt
    omega
  · rename_i hge
    have := @bitPos_add_lt (fun l => e l - sb l) D _ ((bitPlace e D j).2 - sb (bitPlace e D j).1) hl (by omega)
    omega

theorem bitOrder_injOn : Set.InjOn (bitOrder e sb D) {j | j < ∑ l ∈ range D, e l} := by
  intro j hj j' hj' heq
  obtain ⟨hl, hi, hpos⟩ := bitPlace_spec hj
  obtain ⟨hl', hi', hpos'⟩ := bitPlace_spec hj'
  suffices hplace : (bitPlace e D j).1 = (bitPlace e D j').1 ∧ (bitPlace e D j).2 = (bitPlace e D j').2 by
    rw [← hpos, ← hpos', hplace.1, hplace.2]
  unfold bitOrder at heq
  dsimp only at heq
  split_ifs at heq with h1 h2 h2
  · exact bitPos_inj hl h1 hl' h2 heq
  · have := bitPos_add_lt hl h1
    omega
  · have := bitPos_add_lt hl' h2
    omega
  · obtain ⟨hlevel, hbit⟩ := @bitPos_inj (fun l => e l - sb l) D _ _ _ _ hl (by omega) hl' (by omega)
      (Nat.add_left_cancel heq)
    refine ⟨hlevel, ?_⟩
    rw [hlevel] at hbit h1
    omega

theorem bitOrder_bijOn (hsb : ∀ l < D, sb l ≤ e l) :
    Set.BijOn (bitOrder e sb D) {j | j < ∑ l ∈ range D, e l} {j | j < ∑ l ∈ range D, e l} :=
  bijOn_below (fun _ => bitOrder_spec hsb) bitOrder_injOn

/-- A level's low bits are its run's, its high bits its owner's. -/
theorem Box.Tiles.permutation_testBit (h : b.Tiles D w) (hw : ∀ l < D, w l = 2 ^ e l) (hs : ∀ l < D, b.s l = 2 ^ sb l)
    (hsb : ∀ l < D, sb l ≤ e l) (x : ℕ) (hj : j < ∑ l ∈ range D, e l) :
    (b.permutation D w x).testBit (bitOrder e sb D j) = x.testBit j := by
  obtain ⟨hl, hi, hpos⟩ := bitPlace_spec hj
  have hg : ∀ l < D, b.g l = 2 ^ (e l - sb l) := fun l hl => by
    have hwidth := h.width l hl
    rw [hw l hl, hs l hl] at hwidth
    rw [← Nat.mul_right_inj (pow_pos two_pos (sb l)).ne', hwidth, ← pow_add, Nat.add_sub_cancel' (hsb l hl)]
  have hbc : b.bc = 2 ^ ∑ l ∈ range D, sb l := by rw [h.bc, size_two_pow hs]
  have hx := testBit_digit hw x hl hi
  rw [hpos] at hx
  rw [← hx]
  unfold bitOrder
  dsimp only
  split
  · rename_i hlt
    have hmod := h.permutation_mod x
    rw [hbc] at hmod
    have hbit := testBit_encode hs (h.run_bounded x) hl hlt
    rw [← hmod, Nat.testBit_mod_two_pow, decide_eq_true (bitPos_add_lt hl hlt), Bool.true_and] at hbit
    rw [hbit, hs _ hl, Nat.testBit_mod_two_pow, decide_eq_true hlt, Bool.true_and]
  · rename_i hge
    have hdiv := h.permutation_div x
    rw [hbc] at hdiv
    have hbit := testBit_encode hg (h.owner_bounded x) hl (i := (bitPlace e D j).2 - sb (bitPlace e D j).1) (by omega)
    rw [← hdiv, Nat.testBit_div_two_pow] at hbit
    rw [Nat.add_comm, hbit, hs _ hl, Nat.testBit_div_two_pow, Nat.sub_add_cancel (not_lt.1 hge)]

/-! ### Planes -/

/-- `to_lattice`: `index_copy_` into a plane that held anything. -/
def toLattice {α : Type*} (pi : ℕ → ℕ) (N : ℕ) (out plane : ℕ → α) : ℕ → α :=
  (List.range N).foldl (fun out i => Function.update out (pi i) (plane i)) out

/-- `to_canonical`: `index_select`. -/
def toCanonical {α : Type*} (pi : ℕ → ℕ) (plane : ℕ → α) : ℕ → α := fun i => plane (pi i)

theorem toLattice_apply {α : Type*} {pi : ℕ → ℕ} {N : ℕ} (hinj : Set.InjOn pi {x | x < N}) (out plane : ℕ → α)
    (hx : x < N) : toLattice pi N out plane (pi x) = plane x := by
  induction N with
  | zero => omega
  | succ N ih =>
    rw [toLattice, List.range_succ, List.foldl_append, List.foldl_cons, List.foldl_nil]
    rcases Nat.lt_succ_iff_lt_or_eq.1 hx with hlt | rfl
    · have hne : pi x ≠ pi N := fun heq => hlt.ne (hinj hx (Nat.lt_succ_self N) heq)
      rw [Function.update_of_ne hne]
      exact ih (hinj.mono fun y hy => Nat.lt_succ_of_lt hy) hlt
    · exact Function.update_self ..

end Rola
