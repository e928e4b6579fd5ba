import Rola.CarryCall
import Rola.CarryMaps

/-!
# The carry's address maps are bijections

Every map of an accepted block is one order's digits written under another, or two numbers' digits
nested level by level, so it loses no leaf; a run of sixteen owner-local indices is a page.
-/

namespace Rola

open RankedRadix

namespace SideGeom.Wf

variable {s : SideGeom} {D bc NS : ℕ} {span : ℕ → ℕ}

/-- The stream's digits, and the slot's inside them. -/
theorem slotDigit_eq (h : s.Wf D span NS) (strm P : ℕ) {l : ℕ} (hl : l < D) :
    s.slotDigit strm P l = nest (Finset.range D) s.grid (fun l => 2 ^ s.subBits l) s.rank
      (canonRank D) strm P l := by
  obtain ⟨e, he⟩ := h.grid_pow l hl
  have hgrid : place (Finset.range D) s.grid s.rank l = 2 ^ s.gridDivBits l := by
    rw [h.gridDiv_eq l hl, h.rank_eq, place, prod_below_rank h.ranks hl]
  have hsub : place (Finset.range D) (fun l => 2 ^ s.subBits l) (canonRank D) l =
      2 ^ s.subShift l := by
    rw [place_two_pow, filter_canonRank hl, h.subShift_eq l hl]
  rw [slotDigit, nest, digit_eq_shiftRight hgrid he, digit_eq_shiftRight hsub rfl, Nat.shiftLeft_eq,
    Nat.shiftLeft_eq, Nat.one_mul]

theorem grid_pos (h : s.Wf D span NS) : ∀ l ∈ Finset.range D, 0 < s.grid l := by
  intro l hl
  obtain ⟨e, he⟩ := h.grid_pow l (Finset.mem_range.1 hl)
  rw [he]
  positivity

theorem split_mem (h : s.Wf D span NS) :
    ∀ l ∈ Finset.range D, s.grid l * 2 ^ s.subBits l = span l := by
  intro l hl
  exact h.split l (Finset.mem_range.1 hl)

theorem rank_injOn (h : s.Wf D span NS) : Set.InjOn s.rank (Finset.range D) := by
  rw [h.rank_eq]
  exact rankOfLevel_injOn h.ranks

theorem slotDigit_bounded (h : s.Wf D span NS) (strm P : ℕ) :
    Bounded (Finset.range D) span (s.slotDigit strm P) := by
  intro l hl
  rw [h.slotDigit_eq strm P (Finset.mem_range.1 hl)]
  exact nest_bounded _ _ h.grid_pos (fun l _ => by positivity) h.split_mem strm P l hl

end SideGeom.Wf

/-! ### One owner's order written under another -/

section Orders

variable {D bc : ℕ} {rank rank' d : ℕ → ℕ} {s : SideGeom} {NS : ℕ}

/-- The owner box's radices. -/
def ownerRadix (D bc l : ℕ) : ℕ := 2 ^ ownerSpanBits D bc l

theorem ownerRadix_pos : ∀ l ∈ Finset.range D, 0 < ownerRadix D bc l := by
  intro l _
  unfold ownerRadix
  positivity

/-- Read in the order `rank`, written in the order `rank'`. -/
def reorder (D bc : ℕ) (rank rank' : ℕ → ℕ) (x : ℕ) : ℕ :=
  encode (Finset.range D) (ownerRadix D bc) rank' (digit (Finset.range D) (ownerRadix D bc) rank x)

theorem sum_shift_eq (d : ℕ → ℕ) : ∑ l ∈ Finset.range D, d l <<< ownerRunShift D bc l =
    encode (Finset.range D) (ownerRadix D bc) (canonRank D) d := by
  refine Finset.sum_congr rfl fun l hl => ?_
  unfold ownerRadix
  rw [place_two_pow, filter_canonRank (Finset.mem_range.1 hl), Nat.shiftLeft_eq, ownerRunShift]

theorem sum_rank_shift_eq (rank d : ℕ → ℕ) : ∑ l ∈ Finset.range D,
    d l <<< ∑ m ∈ (Finset.range D).filter (fun m => rank m < rank l), ownerSpanBits D bc m =
      encode (Finset.range D) (ownerRadix D bc) rank d := by
  refine Finset.sum_congr rfl fun l _ => ?_
  unfold ownerRadix
  rw [place_two_pow, Nat.shiftLeft_eq]

theorem layout_digit_eq (srank rrank : ℕ → ℕ) (v l : ℕ) :
    (v >>> (makeSideLayout D bc srank rrank).shift l) &&& (makeSideLayout D bc srank rrank).dmask l =
      digit (Finset.range D) (ownerRadix D bc) srank v l := by
  have hplace := place_two_pow (Finset.range D) (ownerSpanBits D bc) srank l
  have hdig := digit_eq_shiftRight (x := v) hplace rfl
  rw [← Nat.one_shiftLeft] at hdig
  exact hdig.symm

theorem layout_local_eq (srank rrank : ℕ → ℕ) (v : ℕ) :
    (makeSideLayout D bc srank rrank).local D v = reorder D bc srank (canonRank D) v := by
  unfold SideLayout.local
  simp only [layout_digit_eq]
  exact sum_shift_eq _

theorem layout_planeRow_eq (srank rrank : ℕ → ℕ) (v : ℕ) :
    (makeSideLayout D bc srank rrank).planeRow D v = reorder D bc srank rrank v := by
  unfold SideLayout.planeRow
  simp only [layout_digit_eq]
  exact sum_rank_shift_eq _ _

section Box
variable (hbc : ∏ l ∈ Finset.range D, ownerRadix D bc l = bc)
include hbc

theorem reorder_bijOn (hrank : Set.InjOn rank (Finset.range D))
    (hrank' : Set.InjOn rank' (Finset.range D)) :
    Set.BijOn (reorder D bc rank rank') (Set.Iio bc) (Set.Iio bc) := by
  have h := RankedRadix.reorder_bijOn hrank hrank' (@ownerRadix_pos _ bc)
  rwa [hbc] at h

theorem geomLocalRow_bijOn (h : s.Wf D (ownerRadix D bc) NS) :
    Set.BijOn (fun x : ℕ × ℕ => geomLocalRow D bc s x.1 x.2)
      (Set.Iio NS ×ˢ Set.Iio s.leaf) (Set.Iio bc) := by
  have hnest := nested_bijOn h.grid_pos (fun l _ => by positivity) h.split_mem (canonRank_injOn D)
    h.rank_injOn (canonRank_injOn D)
  rw [← h.streams_eq, h.streams_count, ← h.leaf_eq, hbc] at hnest
  refine hnest.congr fun x _ => ?_
  rw [geomLocalRow, sum_shift_eq]
  exact encode_congr fun l hl => (h.slotDigit_eq x.1 x.2 (Finset.mem_range.1 hl)).symm

end Box

/-- Reading an order back after writing it. -/
theorem reorder_reorder {rank'' : ℕ → ℕ} (hrank : Set.InjOn rank' (Finset.range D)) (x : ℕ) :
    reorder D bc rank' rank'' (reorder D bc rank rank' x) = reorder D bc rank rank'' x :=
  encode_congr fun l hl => digit_encode hrank (digit_bounded ownerRadix_pos x) l hl

/-- Slots of either side on one owner-local index have one digit at each level. -/
theorem slotDigit_eq_of_localRow {s' : SideGeom} {NS' strm P strm' P' : ℕ}
    (h : s.Wf D (ownerRadix D bc) NS) (h' : s'.Wf D (ownerRadix D bc) NS')
    (heq : geomLocalRow D bc s strm P = geomLocalRow D bc s' strm' P') :
    ∀ l < D, s.slotDigit strm P l = s'.slotDigit strm' P' l := by
  intro l hl
  have hmem := Finset.mem_range.2 hl
  rw [geomLocalRow, geomLocalRow, sum_shift_eq, sum_shift_eq] at heq
  rw [← digit_encode (canonRank_injOn D) (h.slotDigit_bounded strm P) l hmem, heq,
    digit_encode (canonRank_injOn D) (h'.slotDigit_bounded strm' P') l hmem]

end Orders

/-! ### An accepted block -/

/-- What the block's maps do, `N` the product of the widths. -/
structure CarryGeom.MapsBijective (g : CarryGeom) (D bc NSR NSW : ℕ) (width : ℕ → ℕ) : Prop where
  canonLeaf : Set.BijOn (fun x : ℕ × ℕ => geomCanonLeaf g x.1 x.2)
    (Set.Iio g.owners ×ˢ Set.Iio bc) (Set.Iio (∏ l ∈ Finset.range D, width l))
  canonLeafRt : ∀ O loc, geomCanonLeafRt g O loc = geomCanonLeaf g O loc
  readRow : Set.BijOn (fun x : ℕ × ℕ => geomLocalRow D bc g.r x.1 x.2)
    (Set.Iio NSR ×ˢ Set.Iio g.r.leaf) (Set.Iio bc)
  writeRow : Set.BijOn (fun x : ℕ × ℕ => geomLocalRow D bc g.w x.1 x.2)
    (Set.Iio NSW ×ˢ Set.Iio g.w.leaf) (Set.Iio bc)
  readXch : Set.BijOn (fun x : ℕ × ℕ => geomXchRow g g.r x.1 x.2)
    (Set.Iio NSR ×ˢ Set.Iio g.r.leaf) (Set.Iio bc)
  writeXch : Set.BijOn (fun x : ℕ × ℕ => geomXchRow g g.w x.1 x.2)
    (Set.Iio NSW ×ˢ Set.Iio g.w.leaf) (Set.Iio bc)
  xchDigit : ∀ strmW < NSW, ∀ PW < g.w.leaf, ∀ strmR < NSR, ∀ PR < g.r.leaf,
    geomXchRow g g.w strmW PW = geomXchRow g g.r strmR PR →
      ∀ l < D, g.w.slotDigit strmW PW l = g.r.slotDigit strmR PR l
  layout : ∀ srank ∈ [g.r.rank, g.w.rank],
    Set.BijOn ((makeSideLayout D bc srank g.r.rank).local D) (Set.Iio bc) (Set.Iio bc) ∧
    Set.BijOn ((makeSideLayout D bc srank g.r.rank).planeRow D) (Set.Iio bc) (Set.Iio bc) ∧
    ∀ v, (makeSideLayout D bc srank g.r.rank).planeRow D v =
      geomReadIndex g g.r ((makeSideLayout D bc srank g.r.rank).local D v)
  run : ∀ O a, 16 ∣ geomCanonLeaf g O (16 * a) ∧
    ∀ i < 16, geomCanonLeaf g O (16 * a + i) = geomCanonLeaf g O (16 * a) + i
  page : ∀ O < g.owners, ∀ loc < bc, ∀ O' < g.owners, ∀ loc' < bc,
    geomCanonLeaf g O loc / 16 = geomCanonLeaf g O' loc' / 16 → O = O'

namespace CarryGeom.Wf

variable {g : CarryGeom} (h : g.Wf)
include h

theorem span_eq_radix : g.span = ownerRadix g.D g.bc := funext h.span_eq

theorem prod_radix : ∏ l ∈ Finset.range g.D, ownerRadix g.D g.bc l = g.bc := by
  have hbc := h.bc_eq
  rw [h.span_eq_radix] at hbc
  exact hbc.symm

theorem geomDigit_eq_nest (O loc : ℕ) {l : ℕ} (hl : l < g.D) : geomDigit g O loc l =
    nest (Finset.range g.D) g.grid g.span (canonRank g.D) (canonRank g.D) O loc l := by
  rw [h.geomDigit_eq hl, nest, digit_canonRank hl, digit_canonRank hl]

theorem geomCanonLeaf_bijOn : Set.BijOn (fun x : ℕ × ℕ => geomCanonLeaf g x.1 x.2)
    (Set.Iio g.owners ×ˢ Set.Iio g.bc) (Set.Iio (∏ l ∈ Finset.range g.D, g.width l)) := by
  have hmem : ∀ l ∈ Finset.range g.D, l < g.D := fun l hl => Finset.mem_range.1 hl
  have hnest := nested_bijOn (fun l hl => h.grid_pos l (hmem l hl)) (fun l _ => h.span_pos l)
    (fun l hl => h.width_eq l (hmem l hl)) (canonRank_injOn g.D) (canonRank_injOn g.D)
    (canonRank_injOn g.D)
  have howners : ∏ l ∈ Finset.range g.D, g.grid l = g.owners := h.owners_eq.symm
  have hbc : ∏ l ∈ Finset.range g.D, g.span l = g.bc := h.bc_eq.symm
  rw [howners, hbc] at hnest
  refine hnest.congr fun x _ => ?_
  rw [geomCanonLeaf, h.weight_eq]
  refine Finset.sum_congr rfl fun l hl => ?_
  rw [h.geomDigit_eq_nest x.1 x.2 (hmem l hl), place_canonRank (hmem l hl)]

/-- A page's leaves are one owner's. -/
theorem owner_eq_of_page {O O' loc loc' : ℕ} (hO : O < g.owners) (hO' : O' < g.owners)
    (hloc : loc < g.bc) (hloc' : loc' < g.bc)
    (heq : geomCanonLeaf g O loc / 16 = geomCanonLeaf g O' loc' / 16) : O = O' := by
  have hpage : ∀ loc < g.bc, loc / 16 * 16 < g.bc := fun loc hlt =>
    (Nat.div_mul_le_self loc 16).trans_lt hlt
  have hrow := h.geomCanonLeaf_row O loc
  have hrow' := h.geomCanonLeaf_row O' loc'
  have hleaf : geomCanonLeaf g O (loc / 16 * 16) = geomCanonLeaf g O' (loc' / 16 * 16) := by omega
  have hinj := h.geomCanonLeaf_bijOn.injOn
  have hpair := @hinj (O, loc / 16 * 16) ⟨hO, hpage loc hloc⟩
    (O', loc' / 16 * 16) ⟨hO', hpage loc' hloc'⟩ hleaf
  exact congrArg Prod.fst hpair

theorem geomReadIndex_eq (hshift : g.runShift = ownerRunShift g.D g.bc) (r : SideGeom) (loc : ℕ) :
    geomReadIndex g r loc = reorder g.D g.bc (canonRank g.D) r.rank loc := by
  unfold geomReadIndex reorder
  rw [← sum_rank_shift_eq]
  refine Finset.sum_congr rfl fun l hl => ?_
  have hplace : place (Finset.range g.D) (ownerRadix g.D g.bc) (canonRank g.D) l =
      2 ^ g.runShift l := by
    unfold ownerRadix
    rw [place_two_pow, filter_canonRank (Finset.mem_range.1 hl), hshift, ownerRunShift]
  simp only [h.span_eq, ilog2_two_pow]
  rw [digit_eq_shiftRight hplace rfl]
  rfl

end CarryGeom.Wf

theorem geomXchRow_eq {g : CarryGeom} (hshift : g.runShift = ownerRunShift g.D g.bc) (s : SideGeom) (strm P : ℕ) :
    geomXchRow g s strm P =
      sbSwizzle (geomReadIndex g g.r (geomLocalRow g.D g.bc s strm P)) := by
  rw [geomXchRow, hshift, geomLocalRow]

/-- Every accepted block's address maps are bijections, and agree. -/
theorem carry_maps_bijective {D bc dv NSR NSW : ℕ} {width : ℕ → ℕ} {order : CarveOrder}
    {g : CarryGeom} (h : deriveCarryGeom D width bc dv order NSR NSW = .ok g) :
    g.MapsBijective D bc NSR NSW width := by
  obtain ⟨hg, rfl, rfl, rfl⟩ := deriveCarryGeom_wf h
  obtain ⟨-, -, hbits, hshift, hread, hwrite⟩ := deriveCarryGeom_sides h
  have hspan : ∀ l, ∃ e, g.span l = 2 ^ e := fun l => ⟨_, hg.span_eq l⟩
  have hr := deriveSide_wf hspan hread
  have hw := deriveSide_wf hspan hwrite
  rw [hg.span_eq_radix] at hr hw
  have hindex : Set.BijOn (fun loc => sbSwizzle (geomReadIndex g g.r loc)) (Set.Iio g.bc)
      (Set.Iio g.bc) := by
    have hreorder := reorder_bijOn hg.prod_radix (canonRank_injOn g.D) hr.rank_injOn
    have h8 : 8 ∣ g.bc := Dvd.dvd.trans (by norm_num) hg.sixteen_dvd_bc
    refine ((sbSwizzle_bijOn h8).comp hreorder).congr fun loc _ => ?_
    rw [Function.comp_apply, hg.geomReadIndex_eq hshift]
  have hxch : ∀ {s : SideGeom} {NS}, s.Wf g.D (ownerRadix g.D g.bc) NS →
      Set.BijOn (fun x : ℕ × ℕ => geomXchRow g s x.1 x.2) (Set.Iio NS ×ˢ Set.Iio s.leaf)
        (Set.Iio g.bc) := by
    intro s NS hs
    refine (hindex.comp (geomLocalRow_bijOn hg.prod_radix hs)).congr fun x _ => ?_
    rw [Function.comp_apply, geomXchRow_eq hshift]
  refine ⟨hg.geomCanonLeaf_bijOn, fun O loc => ?_, geomLocalRow_bijOn hg.prod_radix hr,
    geomLocalRow_bijOn hg.prod_radix hw, hxch hr, hxch hw, ?_, ?_, fun O a => ?_, ?_⟩
  · unfold geomCanonLeafRt geomCanonLeaf geomDigit ownerSpan
    simp only [hbits, hshift, hg.span_eq, Nat.one_shiftLeft]
  · intro strmW hstrmW PW hPW strmR hstrmR PR hPR heq
    rw [geomXchRow_eq hshift, geomXchRow_eq hshift] at heq
    have hmapsW := (geomLocalRow_bijOn hg.prod_radix hw).mapsTo (x := (strmW, PW)) ⟨hstrmW, hPW⟩
    have hmapsR := (geomLocalRow_bijOn hg.prod_radix hr).mapsTo (x := (strmR, PR)) ⟨hstrmR, hPR⟩
    exact slotDigit_eq_of_localRow hw hr (hindex.injOn hmapsW hmapsR heq)
  · intro srank hsrank
    have hinj : Set.InjOn srank (Finset.range g.D) := by
      rcases List.mem_pair.1 hsrank with rfl | rfl
      · exact hr.rank_injOn
      · exact hw.rank_injOn
    refine ⟨?_, ?_, fun v => ?_⟩
    · exact (reorder_bijOn hg.prod_radix hinj (canonRank_injOn g.D)).congr fun v _ =>
        (layout_local_eq srank g.r.rank v).symm
    · exact (reorder_bijOn hg.prod_radix hinj hr.rank_injOn).congr fun v _ =>
        (layout_planeRow_eq srank g.r.rank v).symm
    · rw [layout_local_eq, layout_planeRow_eq, hg.geomReadIndex_eq hshift,
        reorder_reorder (canonRank_injOn g.D)]
  · obtain ⟨-, hdvd⟩ := hg.geomCanonLeaf_row O (16 * a)
    rw [Nat.mul_div_cancel_left _ (by norm_num), Nat.mul_comm] at hdvd
    refine ⟨hdvd, fun i hi => ?_⟩
    have hrow := (hg.geomCanonLeaf_row O (16 * a + i)).1
    rwa [show (16 * a + i) / 16 * 16 = 16 * a by omega, show (16 * a + i) % 16 = i by omega] at hrow
  · intro O hO loc hloc O' hO' loc' hloc' heq
    exact hg.owner_eq_of_page hO hO' hloc hloc' heq

/-- The arm of depth three, read and written in opposite orders. -/
theorem carry_maps_bijective_three : ∃ g,
    deriveCarryGeom 3 (fun l => [8, 16, 32].getD l 1) 256 64 ⟨fun r => 2 - r, fun r => r⟩ 8 4 = .ok g ∧
      g.MapsBijective 3 256 8 4 fun l => [8, 16, 32].getD l 1 := by
  obtain ⟨g, hg, -⟩ := exists_ok_of_ok (p := fun _ => True) (x := deriveCarryGeom 3
    (fun l => [8, 16, 32].getD l 1) 256 64 ⟨fun r => 2 - r, fun r => r⟩ 8 4) (by decide +kernel)
  exact ⟨g, hg, carry_maps_bijective hg⟩

end Rola
