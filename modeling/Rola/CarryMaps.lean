import Rola.AddressAgreement
import Rola.RankedRadix

/-!
# The carry's address maps

`csrc/rola/src/common/geom.cuh` and `csrc/rola/src/carry/layout.cuh`: a leaf is reached by its owner
and owner-local index, by a side's stream and slot, by its row in the exchange region and by its
place in a side's carve order. Each map reads digits under one order and writes them under another.
-/

namespace Rola

open RankedRadix

/-- `geom_canon_leaf`: the canonical leaf off the block's runtime fields. -/
def geomCanonLeafRt (g : CarryGeom) (O loc : ℕ) : ℕ :=
  ∑ l ∈ Finset.range g.D, ((((O >>> g.ownerDivBits l) &&& (g.grid l - 1)) <<< g.spanBits l) +
    ((loc >>> g.runShift l) &&& (g.span l - 1))) * g.weight l

/-- The owner-local digit of level `l` of a side's stream and slot. -/
def SideGeom.slotDigit (s : SideGeom) (strm P l : ℕ) : ℕ :=
  (((strm >>> s.gridDivBits l) &&& (s.grid l - 1)) <<< s.subBits l) +
    ((P >>> s.subShift l) &&& ((1 <<< s.subBits l) - 1))

def geomLocalRow (D bc : ℕ) (s : SideGeom) (strm P : ℕ) : ℕ :=
  ∑ l ∈ Finset.range D, s.slotDigit strm P l <<< ownerRunShift D bc l

/-- `geom_read_index`: an owner-local index in the read order. -/
def geomReadIndex (g : CarryGeom) (r : SideGeom) (loc : ℕ) : ℕ :=
  ∑ l ∈ Finset.range g.D, ((loc >>> g.runShift l) &&& (g.span l - 1)) <<<
    ∑ m ∈ (Finset.range g.D).filter (fun m => r.rank m < r.rank l), ilog2 (g.span m)

def sbSwizzle (row : ℕ) : ℕ := row ^^^ (((row >>> 3) ^^^ (row >>> 6) ^^^ (row >>> 9)) &&& 7)

def geomXchRow (g : CarryGeom) (s : SideGeom) (strm P : ℕ) : ℕ :=
  sbSwizzle (geomReadIndex g g.r
    (∑ l ∈ Finset.range g.D, s.slotDigit strm P l <<< g.runShift l))

/-- `plane_row`: the read order's index of this side's leaf `v`. -/
def SideLayout.planeRow (L : SideLayout) (D v : ℕ) : ℕ :=
  ∑ l ∈ Finset.range D, ((v >>> L.shift l) &&& L.dmask l) <<< L.rshift l

/-! ### The swizzle -/

theorem sbSwizzle_shift (row : ℕ) : sbSwizzle row >>> 3 = row >>> 3 := by
  rw [sbSwizzle, Nat.shiftRight_xor_distrib,
    Nat.shiftRight_eq_div_pow (_ &&& 7), Nat.div_eq_of_lt, Nat.xor_zero]
  exact Nat.and_lt_two_pow _ (by norm_num)

theorem sbSwizzle_sbSwizzle (row : ℕ) : sbSwizzle (sbSwizzle row) = row := by
  have h6 : sbSwizzle row >>> 6 = row >>> 6 := by
    rw [show 6 = 3 + 3 from rfl, Nat.shiftRight_add, Nat.shiftRight_add, sbSwizzle_shift]
  have h9 : sbSwizzle row >>> 9 = row >>> 9 := by
    rw [show 9 = 3 + 6 from rfl, Nat.shiftRight_add, Nat.shiftRight_add, sbSwizzle_shift]
  rw [sbSwizzle, sbSwizzle_shift, h6, h9, sbSwizzle, Nat.xor_assoc, Nat.xor_self, Nat.xor_zero]

theorem sbSwizzle_bijOn {n : ℕ} (hn : 8 ∣ n) : Set.BijOn sbSwizzle (Set.Iio n) (Set.Iio n) := by
  have hmaps : Set.MapsTo sbSwizzle (Set.Iio n) (Set.Iio n) := by
    intro x hx
    have hshift := sbSwizzle_shift x
    rw [Nat.shiftRight_eq_div_pow, Nat.shiftRight_eq_div_pow] at hshift
    simp only [Set.mem_Iio] at hx ⊢
    obtain ⟨k, rfl⟩ := hn
    omega
  exact Set.InvOn.bijOn ⟨fun x _ => sbSwizzle_sbSwizzle x, fun x _ => sbSwizzle_sbSwizzle x⟩
    hmaps hmaps

/-! ### Orders -/

/-- The canonical order: the last level the least significant. -/
def canonRank (D l : ℕ) : ℕ := D - 1 - l

theorem canonRank_injOn (D : ℕ) : Set.InjOn (canonRank D) (Finset.range D) := by
  intro x hx y hy h
  simp only [Finset.coe_range, Set.mem_Iio, canonRank] at hx hy h
  omega

theorem filter_canonRank {D l : ℕ} (hl : l < D) :
    (Finset.range D).filter (fun m => canonRank D m < canonRank D l) = Finset.Ico (l + 1) D := by
  ext m
  rw [Finset.mem_filter, Finset.mem_range, Finset.mem_Ico, canonRank, canonRank]
  omega

theorem place_canonRank {b : ℕ → ℕ} {D l : ℕ} (hl : l < D) :
    place (Finset.range D) b (canonRank D) l = MixedRadix.weight b D l := by
  rw [place, filter_canonRank hl, MixedRadix.weight]

theorem digit_canonRank {b : ℕ → ℕ} {D x l : ℕ} (hl : l < D) :
    digit (Finset.range D) b (canonRank D) x l = MixedRadix.digit b D x l := by
  rw [digit, place_canonRank hl, MixedRadix.digit]

theorem rankOfLevel_injOn {D : ℕ} {levelAt : ℕ → ℕ} (h : RanksEachOnce D levelAt) :
    Set.InjOn (rankOfLevel D levelAt) (Finset.range D) := by
  intro x hx y hy heq
  simp only [Finset.coe_range, Set.mem_Iio] at hx hy
  rw [← levelAt_rankOfLevel h hx, heq, levelAt_rankOfLevel h hy]

/-- The levels ranked below a level, by rank. -/
theorem prod_below_rank {D l : ℕ} {levelAt : ℕ → ℕ} (h : RanksEachOnce D levelAt) (hl : l < D)
    (f : ℕ → ℕ) : ∏ m ∈ (Finset.range D).filter
        (fun m => rankOfLevel D levelAt m < rankOfLevel D levelAt l), f m =
      ∏ r ∈ Finset.range (rankOfLevel D levelAt l), f (levelAt r) := by
  have hlt := rankOfLevel_lt h hl
  refine Finset.prod_nbij' (rankOfLevel D levelAt) levelAt ?_ ?_ ?_ ?_ ?_
  · intro m hm
    exact Finset.mem_range.2 (Finset.mem_filter.1 hm).2
  · intro r hr
    have hr' := Finset.mem_range.1 hr
    refine Finset.mem_filter.2 ⟨Finset.mem_range.2 (h r (by omega)).1, ?_⟩
    rwa [rankOfLevel_levelAt h (by omega)]
  · intro m hm
    exact levelAt_rankOfLevel h (Finset.mem_range.1 (Finset.mem_filter.1 hm).1)
  · intro r hr
    have hr' := Finset.mem_range.1 hr
    exact rankOfLevel_levelAt h (by omega)
  · intro m hm
    rw [levelAt_rankOfLevel h (Finset.mem_range.1 (Finset.mem_filter.1 hm).1)]

/-! ### A side's carve -/

/-- What a derived side satisfies. -/
structure SideGeom.Wf (s : SideGeom) (D : ℕ) (span : ℕ → ℕ) (NS : ℕ) : Prop where
  ranks : RanksEachOnce D s.levelAt
  rank_eq : s.rank = rankOfLevel D s.levelAt
  split : ∀ l < D, s.grid l * 2 ^ s.subBits l = span l
  grid_pow : ∀ l < D, ∃ e, s.grid l = 2 ^ e
  gridDiv_eq : ∀ l < D, 2 ^ s.gridDivBits l = ∏ r ∈ Finset.range (s.rank l), s.grid (s.levelAt r)
  subShift_eq : ∀ l < D, s.subShift l = ∑ i ∈ Finset.Ico (l + 1) D, s.subBits i
  streams_eq : s.streams = ∏ l ∈ Finset.range D, s.grid l
  streams_count : s.streams = NS
  leaf_eq : s.leaf = ∏ l ∈ Finset.range D, 2 ^ s.subBits l

theorem gridRefusal_eq_none {span grid rowSpan : ℕ → ℕ} {l : ℕ}
    (h : gridRefusal span grid rowSpan l = none) :
    1 ≤ grid l ∧ grid l * rowSpan l = span l ∧ ∃ e, grid l = 2 ^ e := by
  unfold gridRefusal at h
  split_ifs at h with h1 h2
  obtain ⟨e, he⟩ := Option.ne_none_iff_exists'.1 h2
  rw [not_or, not_lt, not_not] at h1
  exact ⟨h1.1, h1.2, e, ilog2Exact_eq_some.1 he⟩

theorem deriveSide_wf {D bc NS : ℕ} {width span levelAt : ℕ → ℕ} {s : SideGeom}
    (hspan : ∀ l, ∃ e, span l = 2 ^ e) (h : deriveSide D width span bc levelAt NS = .ok s) :
    s.Wf D span NS := by
  have hok := deriveSide_ok h
  unfold deriveSide at h
  split at h
  · cases h
  split at h
  · cases h
  dsimp only at h
  split at h
  · cases h
  split at h
  · cases h
  split at h
  · cases h
  rename_i hgrid
  split at h
  · cases h
  rename_i hstreams
  split at h
  · cases h
  rename_i hdiv
  cases h
  obtain ⟨hranks, -, hrank⟩ := hok
  have hlevel := fun l hl =>
    gridRefusal_eq_none (List.findSome?_eq_none_iff.1 hgrid l (List.mem_range.2 hl))
  have hsplit : ∀ l < D, span l / 2 ^ carveSubBits D bc NS (fun p => levelAt (D - 1 - p)) l *
      2 ^ carveSubBits D bc NS (fun p => levelAt (D - 1 - p)) l = span l := by
    intro l hl
    obtain ⟨e, he⟩ := hspan l
    have hone := (hlevel l hl).1
    refine Nat.div_mul_cancel ?_
    rw [he] at hone ⊢
    have hle : 2 ^ carveSubBits D bc NS (fun p => levelAt (D - 1 - p)) l ≤ 2 ^ e :=
      (Nat.one_le_div_iff (by positivity)).1 hone
    exact pow_dvd_pow 2 ((Nat.pow_le_pow_iff_right (by omega)).1 hle)
  refine ⟨hranks, hrank, hsplit, fun l hl => (hlevel l hl).2.2, fun l hl => ?_, fun l hl => ?_, rfl,
    not_not.1 hstreams, ?_⟩
  · simp only [List.any_eq_true, not_exists, not_and, decide_eq_true_eq] at hdiv
    have hlt := rankOfLevel_lt hranks hl
    have hpow := hdiv _ (List.mem_range.2 hlt)
    obtain ⟨e, he⟩ := Option.ne_none_iff_exists'.1 hpow
    rw [levelAt_rankOfLevel hranks hl] at he
    show 2 ^ ilog2 _ = _
    rw [ilog2Exact_eq_some.1 he, ilog2_two_pow, ← ilog2Exact_eq_some.1 he]
  · dsimp only [sbShift]
    refine Finset.sum_congr rfl fun i hi => ?_
    have hi' := (Finset.mem_Ico.1 hi).2
    simp [List.getD_eq_getElem?_getD, hi']
  · dsimp only
    refine Finset.prod_congr rfl fun l hl => ?_
    have hl' := Finset.mem_range.1 hl
    obtain ⟨hone, hmul, -⟩ := hlevel l hl'
    rw [if_neg (by omega)] at hmul ⊢
    have h2 := hsplit l hl'
    exact Nat.eq_of_mul_eq_mul_left hone (hmul.trans h2.symm)

end Rola
