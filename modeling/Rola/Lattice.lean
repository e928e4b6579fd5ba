import Rola.MixedRadix
import Mathlib.Data.Nat.Log

/-!
# The `(k, m)` box lattice on the host

`rola/ops/lattice.py`. An owner holds `s l = k * ml l` digits of level `l`; `boxShape` spreads the
capacity `m` over the levels, innermost first, and `deriveLattice` searches the boxes for the one
the topology takes. Per-level arrays are functions read below the depth `D`.
-/

namespace Rola

/-- `MMA_K_QUANTUM`: the leaves of one page. -/
def mmaKQuantum : ℕ := 16

def latticeCapBC : ℕ := 128

/-- `_MAX_SPAN`, and the device's `kDecodeMaxSpan`. -/
def maxSpan : ℕ := 32

def maxSpanK : ℕ := 4

/-! ### Exact logarithms -/

/-- The exponent of a power of two; `none` is the refusal (`ilog2_exact`, `geom_ilog2` at `-1`). -/
def ilog2Exact (x : ℕ) : Option ℕ := if 2 ^ Nat.log2 x = x then some (Nat.log2 x) else none

theorem ilog2Exact_eq_some {x e : ℕ} : ilog2Exact x = some e ↔ x = 2 ^ e := by
  unfold ilog2Exact
  constructor
  · intro h
    split at h
    · rename_i hx
      rw [← Option.some.inj h, hx]
    · cases h
  · rintro rfl
    rw [Nat.log2_two_pow, if_pos rfl]

@[simp] theorem ilog2Exact_two_pow (e : ℕ) : ilog2Exact (2 ^ e) = some e := ilog2Exact_eq_some.2 rfl

/-! ### The box -/

/-- `ceil_inner`: the doublings of `k` the innermost width admits. -/
def ceilInnerFrom (k w : ℕ) : ℕ → ℕ → ℕ
  | 0, c => c
  | fuel + 1, c =>
    if k <<< (c + 1) ≤ w ∧ w % (k <<< (c + 1)) = 0 then ceilInnerFrom k w fuel (c + 1) else c

def ceilInner (k w : ℕ) : ℕ := ceilInnerFrom k w (Nat.log2 w + 1) 0

/-- `a_inner`: never below the balanced share or the atom floor, never above the width's ceiling. -/
def innerBits (D j floorInner ceil : ℕ) : ℕ :=
  min (min (max (j / D + if j % D = 0 then 0 else 1) floorInner) ceil) j

/-- `a`: level `l`'s share of the capacity's `j` bits. -/
def levelBits (D j aInner l : ℕ) : ℕ :=
  if l = D - 1 then aInner
  else (j - aInner) / (D - 1) + if (D - 1) - (j - aInner) % (D - 1) ≤ l then 1 else 0

def boxBits (D : ℕ) (w : ℕ → ℕ) (k kappa j : ℕ) : ℕ → ℕ :=
  levelBits D j (innerBits D j (Nat.log2 mmaKQuantum - kappa) (ceilInner k (w (D - 1))))

structure Box where
  ml : ℕ → ℕ
  s : ℕ → ℕ
  g : ℕ → ℕ
  bc : ℕ
  owners : ℕ

/-- A Python tuple of `D` integers, as its `repr`. -/
def tupleText (D : ℕ) (w : ℕ → ℕ) : String :=
  let body := String.intercalate ", " ((List.range D).map fun l => toString (w l))
  if D = 1 then s!"({body},)" else s!"({body})"

open Finset in
def boxShape (D : ℕ) (w : ℕ → ℕ) (k m : ℕ) : Except String Box :=
  match ilog2Exact m, ilog2Exact k with
  | none, _ => .error s!"the lattice capacity m must be a power of two, got {m}"
  | some _, none => .error s!"the lattice span k must be a power of two, got {k}"
  | some j, some kappa =>
    let a := boxBits D w k kappa j
    if ∑ l ∈ range D, a l ≠ j then
      .error (s!"the capacity m = {m} does not fit widths " ++ tupleText D w ++
        s!" at k = {k}: the levels can carry 2^{∑ l ∈ range D, a l} (an owner sits inside a level)")
    else
      let s := fun l => k * 2 ^ a l
      match (List.range D).find? fun l => w l % s l ≠ 0 with
      | some l => .error (s!"level {l} of width {w l} is not a whole number of owner spans " ++
          s!"k*m_l = {s l} (an owner sits inside a level)")
      | none => .ok
          { ml := fun l => 2 ^ a l
            s := s
            g := fun l => w l / s l
            bc := MixedRadix.size s D
            owners := MixedRadix.size (fun l => w l / s l) D }

/-! ### The search -/

/-- `atom_rectangle`: the trailing levels an atom takes whole, and the digits of the next one out. -/
def atomRectangleFrom : List ℕ → ℕ → ℕ → ℕ × ℕ
  | [], whole, prod => (whole, mmaKQuantum / prod)
  | span :: outer, whole, prod =>
    if mmaKQuantum < prod * span then (whole, mmaKQuantum / prod)
    else atomRectangleFrom outer (whole + 1) (prod * span)

def atomRectangle (D : ℕ) (s : ℕ → ℕ) : ℕ × ℕ :=
  atomRectangleFrom ((List.range D).map s).reverse 0 1

/-- `_admissible`: the owner spans of a `(k, m)` that sits inside every level and the box. -/
def admissible (D : ℕ) (w : ℕ → ℕ) (k m : ℕ) : Option (ℕ → ℕ) :=
  match boxShape D w k m with
  | .error _ => none
  | .ok b =>
    if latticeCapBC < b.bc ∨ (List.range D).any fun l => maxSpan < b.s l then none else some b.s

/-- `rank`: the box's leaves, minus its atom's levels, and `k`, compared in that order. -/
structure Rank where
  bc : ℕ
  negLevels : ℤ
  k : ℕ
deriving DecidableEq

def Rank.lt (a b : Rank) : Bool :=
  a.bc < b.bc || (a.bc = b.bc && (a.negLevels < b.negLevels ||
    (a.negLevels = b.negLevels && a.k < b.k)))

def rankOf (D : ℕ) (s : ℕ → ℕ) (k : ℕ) : Rank :=
  let (whole, digits) := atomRectangle D s
  { bc := MixedRadix.size s D
    negLevels := -((whole + if 1 < digits then 1 else 0 : ℕ) : ℤ)
    k := k }

/-- `best`: the leading rank and its box. -/
structure Best where
  rank : Rank
  k : ℕ
  m : ℕ
deriving DecidableEq

/-- The `(1, 1)` box is the floor. -/
def Best.floor : Best := ⟨⟨0, 0, 0⟩, 1, 1⟩

def tryBox (D : ℕ) (w : ℕ → ℕ) (k : ℕ) (best : Best) (j : ℕ) : Best :=
  match admissible D w k (2 ^ j) with
  | none => best
  | some s => if best.rank.lt (rankOf D s k) then ⟨rankOf D s k, k, 2 ^ j⟩ else best

/-- The exponents `j` with `2 ^ j ≤ n`. -/
def exponentsUpTo (n : ℕ) : List ℕ := if n = 0 then [] else List.range (Nat.log2 n + 1)

def deriveLattice (D : ℕ) (w : ℕ → ℕ) : ℕ × ℕ :=
  let best := (exponentsUpTo maxSpanK).foldl
    (fun best kappa => (exponentsUpTo (MixedRadix.size w D)).foldl (tryBox D w (2 ^ kappa)) best)
    Best.floor
  (best.k, best.m)

/-! ### The box's law -/

/-- PREFILL AND DECODE SHARE ONE ADMISSION LAW: every level width a power of two at or above 16. -/
def Lawful (D : ℕ) (w : ℕ → ℕ) : Prop := ∀ l < D, ∃ e, 4 ≤ e ∧ w l = 2 ^ e

namespace Lawful

variable {D l : ℕ} {w : ℕ → ℕ}

theorem sixteen_dvd (h : Lawful D w) (hl : l < D) : 16 ∣ w l := by
  obtain ⟨e, he, hw⟩ := h l hl
  rw [hw]
  exact pow_dvd_pow 2 he

theorem pos (h : Lawful D w) : ∀ l < D, 0 < w l := fun l hl => by
  obtain ⟨e, -, hw⟩ := h l hl
  rw [hw]
  positivity

theorem sixteen_le (h : Lawful D w) (hl : l < D) : 16 ≤ w l :=
  Nat.le_of_dvd (h.pos l hl) (h.sixteen_dvd hl)

theorem sixteen (D : ℕ) : Lawful D fun _ => 16 := fun _ _ => ⟨4, le_rfl, rfl⟩

theorem pow_le_size (h : Lawful D w) : 16 ^ D ≤ MixedRadix.size w D := by
  unfold MixedRadix.size
  calc 16 ^ D = ∏ _l ∈ Finset.range D, 16 := by simp
    _ ≤ _ := Finset.prod_le_prod' fun l hl => h.sixteen_le (Finset.mem_range.1 hl)

end Lawful

theorem ceilInnerFrom_two_pow {kappa e fuel c : ℕ} (hc : kappa + c ≤ e) (hf : e ≤ kappa + c + fuel) :
    ceilInnerFrom (2 ^ kappa) (2 ^ e) fuel c = e - kappa := by
  induction fuel generalizing c with
  | zero =>
    simp only [ceilInnerFrom]
    omega
  | succ fuel ih =>
    have hshift : 2 ^ kappa <<< (c + 1) = 2 ^ (kappa + (c + 1)) := by
      rw [Nat.shiftLeft_eq, ← pow_add]
    rw [ceilInnerFrom, hshift]
    by_cases h : kappa + (c + 1) ≤ e
    · rw [if_pos ⟨Nat.pow_le_pow_right (by omega) h, Nat.mod_eq_zero_of_dvd (pow_dvd_pow 2 h)⟩]
      exact ih (by omega) (by omega)
    · have hlt : 2 ^ e < 2 ^ (kappa + (c + 1)) := Nat.pow_lt_pow_right (by omega) (by omega)
      rw [if_neg fun hle => absurd hle.1 (by omega)]
      omega

theorem ceilInner_two_pow {kappa e : ℕ} (h : kappa ≤ e) : ceilInner (2 ^ kappa) (2 ^ e) = e - kappa := by
  rw [ceilInner, Nat.log2_two_pow]
  exact ceilInnerFrom_two_pow (by omega) (by omega)

/-- Where the balanced share is within the atom floor, a lawful width never binds. -/
theorem boxBits_lawful {D kappa j : ℕ} {w : ℕ → ℕ} (hD : 0 < D) (hw : Lawful D w) (hk : kappa ≤ 4)
    (hshare : j / D + (if j % D = 0 then 0 else 1) ≤ 4 - kappa) :
    boxBits D w (2 ^ kappa) kappa j = levelBits D j (min (4 - kappa) j) := by
  obtain ⟨e, he, hwe⟩ := hw (D - 1) (by omega)
  have hfloor : Nat.log2 mmaKQuantum = 4 := by decide
  unfold boxBits innerBits
  rw [hwe, ceilInner_two_pow (by omega), hfloor, max_eq_right hshare,
    min_eq_left (b := e - kappa) (by omega)]

section Box

variable {D k m : ℕ} {w : ℕ → ℕ} {b : Box}

theorem boxShape_ok (h : boxShape D w k m = .ok b) :
    ∃ j kappa, m = 2 ^ j ∧ k = 2 ^ kappa ∧ ∑ l ∈ Finset.range D, boxBits D w k kappa j l = j ∧
      b.s = (fun l => k * 2 ^ boxBits D w k kappa j l) ∧ b.bc = MixedRadix.size b.s D ∧
      ∀ l < D, w l % b.s l = 0 := by
  unfold boxShape at h
  split at h
  · cases h
  · cases h
  · rename_i j kappa hm hk
    refine ⟨j, kappa, ilog2Exact_eq_some.1 hm, ilog2Exact_eq_some.1 hk, ?_⟩
    dsimp only at h
    split at h
    · cases h
    · rename_i hsum
      split at h
      · cases h
      · rename_i hnone
        cases h
        refine ⟨not_not.1 hsum, rfl, rfl, fun l hl => ?_⟩
        simpa using List.find?_eq_none.1 hnone l (List.mem_range.2 hl)

theorem size_spans (D k : ℕ) (a : ℕ → ℕ) :
    MixedRadix.size (fun l => k * 2 ^ a l) D = k ^ D * 2 ^ ∑ l ∈ Finset.range D, a l := by
  rw [MixedRadix.size_mul]
  unfold MixedRadix.size
  rw [Finset.prod_pow_eq_pow_sum, Finset.prod_const, Finset.card_range]

/-- `BC = k ^ D * m`. -/
theorem boxShape_bc (h : boxShape D w k m = .ok b) : b.bc = k ^ D * m := by
  obtain ⟨j, kappa, hm, -, hsum, hs, hbc, -⟩ := boxShape_ok h
  rw [hbc, hs, size_spans, hsum, hm]

theorem admissible_eq_none (h : latticeCapBC < k ^ D * m) : admissible D w k m = none := by
  unfold admissible
  split
  · rfl
  · rename_i b hb
    rw [if_pos (.inl (by rwa [boxShape_bc hb]))]

theorem admissible_eq_some {j kappa : ℕ} {a : ℕ → ℕ} (ha : boxBits D w (2 ^ kappa) kappa j = a)
    (hsum : ∑ l ∈ Finset.range D, a l = j) (hcap : (2 ^ kappa) ^ D * 2 ^ j ≤ latticeCapBC)
    (hspan : ∀ l < D, kappa + a l ≤ 4) (hw : Lawful D w) :
    admissible D w (2 ^ kappa) (2 ^ j) = some fun l => 2 ^ kappa * 2 ^ a l := by
  have hdvd : (List.range D).find? (fun l => w l % (2 ^ kappa * 2 ^ a l) ≠ 0) = none := by
    refine List.find?_eq_none.2 fun l hl => ?_
    have h16 : 2 ^ kappa * 2 ^ a l ∣ 16 := by
      rw [← pow_add]
      exact pow_dvd_pow 2 (hspan l (List.mem_range.1 hl))
    have := Nat.mod_eq_zero_of_dvd (h16.trans (hw.sixteen_dvd (List.mem_range.1 hl)))
    simpa using this
  have hany : ¬ (List.range D).any (fun l => maxSpan < 2 ^ kappa * 2 ^ a l) := by
    simp only [List.any_eq_true, List.mem_range, decide_eq_true_eq, not_exists, not_and, not_lt]
    intro l hl
    rw [← pow_add]
    calc 2 ^ (kappa + a l) ≤ 2 ^ 4 := Nat.pow_le_pow_right (by omega) (hspan l hl)
      _ ≤ maxSpan := by decide
  have hbox : boxShape D w (2 ^ kappa) (2 ^ j) = .ok
      { ml := fun l => 2 ^ a l
        s := fun l => 2 ^ kappa * 2 ^ a l
        g := fun l => w l / (2 ^ kappa * 2 ^ a l)
        bc := MixedRadix.size (fun l => 2 ^ kappa * 2 ^ a l) D
        owners := MixedRadix.size (fun l => w l / (2 ^ kappa * 2 ^ a l)) D } := by
    simp only [boxShape, ilog2Exact_two_pow, ha, hsum, ne_eq, not_true_eq_false, if_false]
    rw [hdvd]
  rw [admissible, hbox]
  dsimp only
  rw [if_neg]
  rw [size_spans, hsum]
  exact not_or.2 ⟨by omega, hany⟩

end Box

/-! ### The lattice of a lawful topology

From depth two on, a box within the cap has its spans decided by `(k, m)` alone, so the search runs
as it does on widths of sixteen. -/

theorem deep_box_bits : ∀ D ∈ [2, 3, 4], ∀ kappa < 3, ∀ j < 8, kappa * D + j ≤ 7 →
    j / D + (if j % D = 0 then 0 else 1) ≤ 4 - kappa ∧
    ∑ l ∈ Finset.range D, levelBits D j (min (4 - kappa) j) l = j ∧
    ∀ l < D, kappa + levelBits D j (min (4 - kappa) j) l ≤ 4 := by
  decide

theorem two_pow_le_cap {D kappa j : ℕ} :
    (2 ^ kappa) ^ D * 2 ^ j ≤ latticeCapBC ↔ kappa * D + j ≤ 7 := by
  rw [← pow_mul, ← pow_add, show latticeCapBC = 2 ^ 7 from rfl]
  exact Nat.pow_le_pow_iff_right (by omega)

theorem admissible_deep {D kappa j : ℕ} {w : ℕ → ℕ} (hD : D ∈ [2, 3, 4]) (hk : kappa < 3)
    (hw : Lawful D w) : admissible D w (2 ^ kappa) (2 ^ j) =
      admissible D (fun _ => 16) (2 ^ kappa) (2 ^ j) := by
  by_cases hcap : kappa * D + j ≤ 7
  · obtain ⟨hshare, hsum, hspan⟩ := deep_box_bits D hD kappa hk j (by omega) hcap
    have hpos : 0 < D := by
      rcases List.mem_cons.1 hD with rfl | hD
      · omega
      · simp at hD
        omega
    rw [admissible_eq_some (boxBits_lawful hpos hw (by omega) hshare) hsum (two_pow_le_cap.2 hcap)
      hspan hw, admissible_eq_some (boxBits_lawful hpos (.sixteen D) (by omega) hshare) hsum
      (two_pow_le_cap.2 hcap) hspan (.sixteen D)]
  · have hcap' : latticeCapBC < (2 ^ kappa) ^ D * 2 ^ j := lt_of_not_ge (mt two_pow_le_cap.1 hcap)
    rw [admissible_eq_none hcap', admissible_eq_none hcap']

theorem tryBox_deep {D kappa j : ℕ} {w : ℕ → ℕ} (hD : D ∈ [2, 3, 4]) (hk : kappa < 3)
    (hw : Lawful D w) (best : Best) :
    tryBox D w (2 ^ kappa) best j = tryBox D (fun _ => 16) (2 ^ kappa) best j := by
  unfold tryBox
  rw [admissible_deep hD hk hw]

theorem foldl_range_of_fixed {α : Type*} (f : α → ℕ → α) {n : ℕ} (h : ∀ a, ∀ j ≥ n, f a j = a)
    (a : α) (i : ℕ) : (List.range (n + i)).foldl f a = (List.range n).foldl f a := by
  induction i with
  | zero => rfl
  | succ i ih =>
    rw [← Nat.add_assoc, List.range_succ, List.foldl_append, ih]
    exact h _ _ (by omega)

/-- No box past the cap's exponent is admissible, so the search ends there on every topology. -/
theorem foldl_tryBox_deep {D kappa : ℕ} {w : ℕ → ℕ} (hD : D ∈ [2, 3, 4]) (hk : kappa < 3)
    (hw : Lawful D w) (best : Best) :
    (exponentsUpTo (MixedRadix.size w D)).foldl (tryBox D w (2 ^ kappa)) best =
      (List.range 8).foldl (tryBox D (fun _ => 16) (2 ^ kappa)) best := by
  have hsize : 2 ^ 8 ≤ MixedRadix.size w D := by
    refine le_trans ?_ hw.pow_le_size
    calc 2 ^ 8 = 16 ^ 2 := rfl
      _ ≤ 16 ^ D := Nat.pow_le_pow_right (by omega) (by simp at hD; omega)
  have hfix : ∀ best, ∀ j ≥ 8, tryBox D (fun _ => 16) (2 ^ kappa) best j = best := by
    intro best j hj
    unfold tryBox
    rw [admissible_eq_none (lt_of_not_ge (mt two_pow_le_cap.1 (by omega)))]
  have hlog : 8 ≤ Nat.log2 (MixedRadix.size w D) + 1 := by
    have := (Nat.le_log2 (by omega)).2 hsize
    omega
  obtain ⟨i, hi⟩ := Nat.exists_eq_add_of_le hlog
  rw [exponentsUpTo, if_neg (by omega), hi,
    show tryBox D w (2 ^ kappa) = tryBox D (fun _ => 16) (2 ^ kappa) from
      funext fun best => funext fun _ => tryBox_deep hD hk hw best]
  exact foldl_range_of_fixed _ hfix best i

theorem deriveLattice_deep {D : ℕ} {w : ℕ → ℕ} (hD : D ∈ [2, 3, 4]) (hw : Lawful D w) :
    deriveLattice D w = deriveLattice D fun _ => 16 := by
  have hk : exponentsUpTo maxSpanK = [0, 1, 2] := by decide
  unfold deriveLattice
  rw [hk]
  simp only [List.foldl_cons, List.foldl_nil]
  rw [foldl_tryBox_deep hD (by omega) hw, foldl_tryBox_deep hD (by omega) hw,
    foldl_tryBox_deep hD (by omega) hw, foldl_tryBox_deep hD (by omega) (.sixteen D),
    foldl_tryBox_deep hD (by omega) (.sixteen D), foldl_tryBox_deep hD (by omega) (.sixteen D)]

theorem deriveLattice_two {w : ℕ → ℕ} (hw : Lawful 2 w) : deriveLattice 2 w = (4, 8) := by
  rw [deriveLattice_deep (by simp) hw]
  decide +kernel

theorem deriveLattice_three {w : ℕ → ℕ} (hw : Lawful 3 w) : deriveLattice 3 w = (2, 16) := by
  rw [deriveLattice_deep (by simp) hw]
  decide +kernel

theorem deriveLattice_four {w : ℕ → ℕ} (hw : Lawful 4 w) : deriveLattice 4 w = (2, 8) := by
  rw [deriveLattice_deep (by simp) hw]
  decide +kernel

end Rola
