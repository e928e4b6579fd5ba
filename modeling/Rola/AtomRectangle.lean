import Rola.LatticeOrder

/-!
# An atom is a digit rectangle

`rola/ops/lattice.py`, `atom_rectangle`: sixteen consecutive lattice indices are the trailing levels'
spans taken whole and an aligned run of the next level out, wherever an owner holds an atom.
-/

namespace MixedRadix

open Finset

variable {b q side d : ℕ → ℕ} {D l : ℕ}

/-- Sides that fill the innermost radices before they open the next one out. -/
def Trailing (b side : ℕ → ℕ) (D : ℕ) : Prop := ∀ l < D, side l = b l ∨ ∀ l' < l, side l' = 1

/-- Dropping such sides off an index drops them off its digits. -/
theorem encode_div_sides (h : Trailing b side D) (hside : ∀ l < D, b l = q l * side l) (hd : Bounded b d D) :
    encode b d D / size side D = encode q (fun l => d l / side l) D := by
  induction D with
  | zero => simp
  | succ D ih =>
    have hpos : 0 < side D := by
      have := hd D (Nat.lt_succ_self D)
      rw [hside D (Nat.lt_succ_self D)] at this
      exact Nat.pos_of_mul_pos_left (Nat.zero_lt_of_lt this)
    have ih := ih (fun l hl => h l (by omega)) (fun l hl => hside l (by omega)) hd.mono
    have hb := hside D (Nat.lt_succ_self D)
    rw [encode_succ, encode_succ, size_succ]
    rcases h D (Nat.lt_succ_self D) with hfull | hone
    · have hlt := hd D (Nat.lt_succ_self D)
      have hq : q D = 1 := by
        rw [hfull] at hb hpos
        exact Nat.eq_of_mul_eq_mul_right hpos (by omega)
      rw [hq, Nat.mul_one, hfull, Nat.div_eq_of_lt hlt, Nat.add_zero, Nat.mul_comm (size side D), ← Nat.div_div_eq_div_mul,
        Nat.mul_comm, Nat.mul_add_div (by omega), Nat.div_eq_of_lt hlt, Nat.add_zero, ih]
    · have hsize : size side D = 1 := prod_eq_one fun l hl => hone l (mem_range.1 hl)
      rw [hsize, Nat.div_one] at ih
      rw [hsize, Nat.one_mul, hb, ← Nat.mul_assoc, Nat.mul_comm _ (side D), Nat.mul_add_div hpos, ih]

end MixedRadix

namespace Rola

open MixedRadix Finset

variable {D l whole prod n : ℕ} {s w sb : ℕ → ℕ} {b : Box}

/-- A level's side of the rectangle. -/
def atomSide (D : ℕ) (s : ℕ → ℕ) (l : ℕ) : ℕ :=
  let (whole, digits) := atomRectangle D s
  if D ≤ l + whole then s l else if l + whole + 1 = D then digits else 1

/-- The first level taken whole, and what the ones from it on hold. -/
theorem atomRectangleFrom_spec (hprod : prod ≤ mmaKQuantum) : ∃ t ≤ n,
    atomRectangleFrom ((List.range n).map s).reverse whole prod =
      (whole + (n - t), mmaKQuantum / (prod * ∏ l ∈ Ico t n, s l)) ∧
    prod * ∏ l ∈ Ico t n, s l ≤ mmaKQuantum ∧ (0 < t → mmaKQuantum < prod * (∏ l ∈ Ico t n, s l) * s (t - 1)) := by
  induction n generalizing whole prod with
  | zero => exact ⟨0, le_rfl, by simp [atomRectangleFrom, hprod]⟩
  | succ n ih =>
    rw [List.range_succ, List.map_append, List.reverse_append]
    rcases Nat.lt_or_ge mmaKQuantum (prod * s n) with hlt | hge
    · refine ⟨n + 1, le_rfl, ?_⟩
      simp [atomRectangleFrom, hlt, hprod]
    · obtain ⟨t, ht, hrect, hle, hgt⟩ := @ih (whole + 1) (prod * s n) hge
      refine ⟨t, by omega, ?_⟩
      rw [prod_Ico_succ_top ht, ← Nat.mul_assoc, Nat.mul_right_comm]
      refine ⟨?_, hle, hgt⟩
      simp only [List.map_cons, List.map_nil, List.reverse_cons, List.reverse_nil, List.nil_append, List.singleton_append,
        atomRectangleFrom, not_lt.2 hge, if_false]
      rw [hrect]
      congr 1
      omega

/-- The rectangle by its first whole level. -/
theorem atomRectangle_spec (D : ℕ) (s : ℕ → ℕ) : ∃ t ≤ D, atomRectangle D s = (D - t, mmaKQuantum / ∏ l ∈ Ico t D, s l) ∧
    ∏ l ∈ Ico t D, s l ≤ mmaKQuantum ∧ (0 < t → mmaKQuantum < (∏ l ∈ Ico t D, s l) * s (t - 1)) := by
  obtain ⟨t, ht, hrect, hle, hgt⟩ := @atomRectangleFrom_spec 0 1 D s (by decide)
  rw [Nat.one_mul] at hrect hle hgt
  exact ⟨t, ht, by rw [atomRectangle, hrect, Nat.zero_add], hle, hgt⟩

/-- What makes a rectangle of an atom. -/
structure AtomSides (D : ℕ) (s side : ℕ → ℕ) : Prop where
  trailing : Trailing s side D
  dvd : ∀ l < D, side l ∣ s l
  size : size side D = mmaKQuantum

theorem atomSides (hs : ∀ l < D, s l = 2 ^ sb l) (hbc : mmaKQuantum ≤ size s D) : AtomSides D s (atomSide D s) := by
  obtain ⟨t, ht, hrect, hle, hgt⟩ := atomRectangle_spec D s
  have hwhole : ∀ l < D, t ≤ l → atomSide D s l = s l := fun l hl htl => by
    unfold atomSide
    rw [hrect]
    exact if_pos (by omega)
  have hstraddle : ∀ l < D, l + 1 = t → atomSide D s l = mmaKQuantum / ∏ l ∈ Ico t D, s l := fun l hl htl => by
    unfold atomSide
    rw [hrect]
    dsimp only
    rw [if_neg (by omega), if_pos (by omega)]
  have hone : ∀ l < D, l + 1 < t → atomSide D s l = 1 := fun l hl htl => by
    unfold atomSide
    rw [hrect]
    dsimp only
    rw [if_neg (by omega), if_neg (by omega)]
  -- the whole levels hold `2 ^ tau` of the atom's leaves
  obtain ⟨tau, htau⟩ : ∃ tau, ∏ l ∈ Ico t D, s l = 2 ^ tau := by
    refine ⟨∑ l ∈ Ico t D, sb l, ?_⟩
    rw [← prod_pow_eq_pow_sum]
    exact prod_congr rfl fun l hl => hs l (mem_Ico.1 hl).2
  have hatom : mmaKQuantum = 2 ^ 4 := rfl
  rw [htau] at hrect hle hgt hstraddle
  have htau4 : tau ≤ 4 := (Nat.pow_le_pow_iff_right (by omega)).1 (hatom ▸ hle)
  have hquot : mmaKQuantum / 2 ^ tau = 2 ^ (4 - tau) := by rw [hatom, Nat.pow_div htau4 two_pos]
  refine ⟨fun l hl => ?_, fun l hl => ?_, ?_⟩
  · rcases Nat.lt_or_ge l t with hlt | hge
    · exact .inr fun l' hl' => hone l' (by omega) (by omega)
    · exact .inl (hwhole l hl hge)
  · rcases Nat.lt_trichotomy (l + 1) t with hlt | heq | hgt'
    · rw [hone l hl hlt]
      exact one_dvd _
    · have hlast := hgt (by omega)
      rw [← heq, Nat.add_sub_cancel, hs l hl, hatom, ← pow_add] at hlast
      have := (Nat.pow_lt_pow_iff_right (by omega)).1 hlast
      rw [hstraddle l hl heq, hquot, hs l hl]
      exact pow_dvd_pow 2 (by omega)
    · rw [hwhole l hl (by omega)]
  · have hsplit : size (atomSide D s) D = (∏ l ∈ range t, atomSide D s l) * ∏ l ∈ Ico t D, s l := by
      unfold size
      rw [← prod_range_mul_prod_Ico _ ht]
      congr 1
      exact prod_congr rfl fun l hl => hwhole l (mem_Ico.1 hl).2 (mem_Ico.1 hl).1
    rw [hsplit, htau]
    rcases Nat.eq_zero_or_pos t with rfl | hpos
    · have hall : size s D = 2 ^ tau := by
        rw [← htau, size, range_eq_Ico]
      rw [hall] at hbc
      rw [prod_range_zero, Nat.one_mul]
      omega
    · obtain ⟨t', rfl⟩ : ∃ t', t = t' + 1 := ⟨t - 1, by omega⟩
      rw [prod_range_succ, prod_eq_one fun l hl => hone l (by have := mem_range.1 hl; omega) (by have := mem_range.1 hl; omega),
        Nat.one_mul, hstraddle t' (by omega) rfl, hquot, ← pow_add, Nat.sub_add_cancel htau4]
      rfl

/-- Cutting a digit to its span and the rest to sides of it is cutting it to sides. -/
theorem div_side_iff {d d' n side : ℕ} (hdvd : side ∣ n) (hn : 0 < n) :
    d / side = d' / side ↔ d / n = d' / n ∧ d % n / side = d' % n / side := by
  obtain ⟨q, rfl⟩ := hdvd
  have hside : 0 < side := Nat.pos_of_mul_pos_right hn
  constructor
  · intro h
    rw [← Nat.div_div_eq_div_mul, ← Nat.div_div_eq_div_mul, h, Nat.mod_mul_right_div_self, Nat.mod_mul_right_div_self, h]
    exact ⟨rfl, rfl⟩
  · rintro ⟨h1, h2⟩
    rw [Nat.mod_mul_right_div_self, Nat.mod_mul_right_div_self] at h2
    rw [← Nat.div_div_eq_div_mul, ← Nat.div_div_eq_div_mul] at h1
    rw [← Nat.div_add_mod (d / side) q, h1, h2, Nat.div_add_mod]

section Atom

variable {side : ℕ → ℕ} (h : b.Tiles D w) (hside : AtomSides D b.s side)
include h hside

/-- The atom of a leaf, in sides. -/
theorem permutation_div_atom (x : ℕ) : b.permutation D w x / mmaKQuantum =
    encode b.g (fun l => digit w D x l / b.s l) D * size (fun l => b.s l / side l) D +
      encode (fun l => b.s l / side l) (fun l => digit w D x l % b.s l / side l) D := by
  have hmul : ∀ l < D, b.s l = b.s l / side l * side l := fun l hl => (Nat.div_mul_cancel (hside.dvd l hl)).symm
  have hbc : b.bc = size (fun l => b.s l / side l) D * mmaKQuantum := by
    rw [h.bc, ← hside.size, ← size_mul]
    exact prod_congr rfl fun l hl => hmul l (mem_range.1 hl)
  have hrun := encode_div_sides hside.trailing hmul (h.run_bounded x)
  rw [hside.size] at hrun
  rw [← hrun]
  change (encode b.g (fun l => digit w D x l / b.s l) D * b.bc + encode b.s (fun l => digit w D x l % b.s l) D) / _ = _
  rw [hbc, ← Nat.mul_assoc, Nat.mul_comm _ mmaKQuantum, Nat.mul_add_div (by decide)]

/-- Two leaves share an atom exactly where every digit is in one side. -/
theorem same_atom_iff (x y : ℕ) : b.permutation D w x / mmaKQuantum = b.permutation D w y / mmaKQuantum ↔
    ∀ l < D, digit w D x l / side l = digit w D y l / side l := by
  have hcut : ∀ l < D, (digit w D x l / side l = digit w D y l / side l ↔ digit w D x l / b.s l = digit w D y l / b.s l ∧
      digit w D x l % b.s l / side l = digit w D y l % b.s l / side l) := fun l hl =>
    div_side_iff (hside.dvd l hl) (h.span_pos l hl)
  have hbounded : ∀ x, Bounded (fun l => b.s l / side l) (fun l => digit w D x l % b.s l / side l) D := fun x l hl => by
    refine Nat.div_lt_of_lt_mul ?_
    rw [Nat.mul_div_cancel' (hside.dvd l hl)]
    exact h.run_bounded x l hl
  rw [permutation_div_atom h hside, permutation_div_atom h hside]
  constructor
  · intro heq l hl
    obtain ⟨howner, hrun⟩ := mul_add_inj (encode_lt (hbounded x)) (encode_lt (hbounded y)) heq
    exact (hcut l hl).2 ⟨encode_inj (h.owner_bounded x) (h.owner_bounded y) howner l hl,
      encode_inj (hbounded x) (hbounded y) hrun l hl⟩
  · intro heq
    rw [encode_congr (fun _ _ => rfl) fun l hl => ((hcut l hl).1 (heq l hl)).1,
      @encode_congr _ _ _ _ D (fun _ _ => rfl) fun l hl => ((hcut l hl).1 (heq l hl)).2]

/-- An atom's leaves are those of one rectangle, a side from a multiple of it at every level. -/
theorem atom_rectangle {a : ℕ} (ha : a * mmaKQuantum < size w D) : ∃ lo : ℕ → ℕ, (∀ l < D, side l ∣ lo l) ∧
    ∀ x < size w D, b.permutation D w x / mmaKQuantum = a ↔ ∀ l < D, lo l ≤ digit w D x l ∧ digit w D x l < lo l + side l := by
  obtain ⟨y, hy, hfirst⟩ := h.permutation_bijOn.surjOn ha
  have hatom : b.permutation D w y / mmaKQuantum = a := by
    rw [hfirst]
    exact Nat.mul_div_cancel _ (by decide)
  refine ⟨fun l => digit w D y l / side l * side l, fun l _ => Dvd.intro_left _ rfl, fun x hx => ?_⟩
  rw [← hatom, same_atom_iff h hside]
  refine forall₂_congr fun l hl => ?_
  have hpos : 0 < side l := Nat.pos_of_dvd_of_pos (hside.dvd l hl) (h.span_pos l hl)
  dsimp only
  rw [Nat.div_eq_iff hpos]
  omega

end Atom

end Rola
