import Rola.CanonLeaf
import Rola.DecodeLattice

/-!
# One page pool, two address maps

The carry stores a leaf at its canonical index and the decode step at its lattice index, both cut
into pages of sixteen rows. The two indices are one exactly where no level but the outermost is
split between owners: at depth one, and at depth two over an innermost level of sixteen.
-/

namespace Rola

open MixedRadix

/-! ### A carve order's leaves -/

section Rank

variable {D : ℕ} {levelAt : ℕ → ℕ} (h : RanksEachOnce D levelAt)
include h

theorem levelAt_inj {r r' : ℕ} (hr : r < D) (hr' : r' < D) (heq : levelAt r = levelAt r') : r = r' := by
  rcases Nat.lt_trichotomy r r' with hlt | rfl | hlt
  · exact absurd heq ((h r' hr').2 r hlt)
  · rfl
  · exact absurd heq.symm ((h r hr).2 r' hlt)

theorem rankOfLevel_levelAt {r : ℕ} (hr : r < D) : rankOfLevel D levelAt (levelAt r) = r := by
  have hnodup : ((List.range D).map levelAt).Nodup :=
    List.Nodup.map_on (fun x hx y hy => levelAt_inj h (List.mem_range.1 hx) (List.mem_range.1 hy))
      List.nodup_range
  have hlen : r < ((List.range D).map levelAt).length := by simpa using hr
  have hget : ((List.range D).map levelAt)[r] = levelAt r := by simp
  unfold rankOfLevel
  rw [← hget]
  exact hnodup.idxOf_getElem r _

theorem exists_levelAt {l : ℕ} (hl : l < D) : ∃ r < D, levelAt r = l := by
  have hinj : Set.InjOn levelAt (Finset.range D) := fun x hx y hy =>
    levelAt_inj h (Finset.mem_range.1 hx) (Finset.mem_range.1 hy)
  have hmaps : Set.MapsTo levelAt (Finset.range D) (Finset.range D) := fun x hx =>
    Finset.mem_range.2 (h x (Finset.mem_range.1 hx)).1
  obtain ⟨r, hr, rfl⟩ := Finset.surjOn_of_injOn_of_card_le levelAt hmaps hinj le_rfl
    (Finset.mem_coe.2 (Finset.mem_range.2 hl))
  exact ⟨r, Finset.mem_range.1 hr, rfl⟩

theorem rankOfLevel_lt {l : ℕ} (hl : l < D) : rankOfLevel D levelAt l < D := by
  obtain ⟨r, hr, rfl⟩ := exists_levelAt h hl
  rwa [rankOfLevel_levelAt h hr]

theorem levelAt_rankOfLevel {l : ℕ} (hl : l < D) : levelAt (rankOfLevel D levelAt l) = l := by
  obtain ⟨r, hr, rfl⟩ := exists_levelAt h hl
  rw [rankOfLevel_levelAt h hr]

/-- The levels below rank `r`, innermost last, are the last `r` places of the reversed order. -/
theorem sum_below_rank (f : ℕ → ℕ) {r : ℕ} (hr : r ≤ D) :
    ∑ m ∈ (Finset.range D).filter (fun m => rankOfLevel D levelAt m < r), f m =
      ∑ i ∈ Finset.Ico (D - r) D, f (levelAt (D - 1 - i)) := by
  refine Finset.sum_nbij' (fun m => D - 1 - rankOfLevel D levelAt m) (fun i => levelAt (D - 1 - i))
    ?_ ?_ ?_ ?_ ?_
  · intro m hm
    obtain ⟨hm, hlt⟩ := Finset.mem_filter.1 hm
    have := rankOfLevel_lt h (Finset.mem_range.1 hm)
    exact Finset.mem_Ico.2 ⟨by omega, by omega⟩
  · intro i hi
    obtain ⟨h1, h2⟩ := Finset.mem_Ico.1 hi
    have hlt : D - 1 - i < D := by omega
    refine Finset.mem_filter.2 ⟨Finset.mem_range.2 (h _ hlt).1, ?_⟩
    rw [rankOfLevel_levelAt h hlt]
    omega
  · intro m hm
    have hm' := Finset.mem_range.1 (Finset.mem_filter.1 hm).1
    have := rankOfLevel_lt h hm'
    show levelAt (D - 1 - (D - 1 - rankOfLevel D levelAt m)) = m
    rw [show D - 1 - (D - 1 - rankOfLevel D levelAt m) = rankOfLevel D levelAt m by omega,
      levelAt_rankOfLevel h hm']
  · intro i hi
    obtain ⟨h1, h2⟩ := Finset.mem_Ico.1 hi
    show D - 1 - rankOfLevel D levelAt (levelAt (D - 1 - i)) = i
    rw [rankOfLevel_levelAt h (by omega)]
    omega
  · intro m hm
    have hm' := Finset.mem_range.1 (Finset.mem_filter.1 hm).1
    have := rankOfLevel_lt h hm'
    show f m = f (levelAt (D - 1 - (D - 1 - rankOfLevel D levelAt m)))
    rw [show D - 1 - (D - 1 - rankOfLevel D levelAt m) = rankOfLevel D levelAt m by omega,
      levelAt_rankOfLevel h hm']

end Rank

/-- The owner-local canonical index of the write side's leaf `v`. -/
def writeLocal (g : CarryGeom) (v : ℕ) : ℕ :=
  (makeSideLayout g.D g.bc g.w.rank g.r.rank).local g.D v

namespace CarryGeom.Wf

variable {g : CarryGeom} (h : g.Wf)
include h

theorem writeLocal_eq (v : ℕ) : writeLocal g v = encode g.span (fun l =>
    v / 2 ^ (makeSideLayout g.D g.bc g.w.rank g.r.rank).shift l % g.span l) g.D := by
  unfold writeLocal SideLayout.local encode
  refine Finset.sum_congr rfl fun l _ => ?_
  have hmask : (makeSideLayout g.D g.bc g.w.rank g.r.rank).dmask l =
      2 ^ ownerSpanBits g.D g.bc l - 1 := by
    show (1 <<< _) - 1 = _
    rw [Nat.shiftLeft_eq, Nat.one_mul]
  rw [hmask, Nat.and_two_pow_sub_one_eq_mod, Nat.shiftRight_eq_div_pow, Nat.shiftLeft_eq,
    h.weight_span]
  dsimp only
  rw [h.span_eq]
  rfl

theorem writeLocal_lt (v : ℕ) : writeLocal g v < g.bc := by
  rw [h.writeLocal_eq, h.bc_eq]
  exact encode_lt fun l _ => Nat.mod_lt _ (h.span_pos l)

/-- Every local slot is a leaf of the write order, whatever the order. -/
theorem exists_writeLocal {loc : ℕ} (hloc : loc < g.bc) : ∃ v < g.bc, writeLocal g v = loc := by
  have hranks := h.write_ranks
  -- the write order's own mixed radix, outermost level first
  let b := fun i => g.span (g.w.levelAt (g.D - 1 - i))
  let x := fun i => digit g.span g.D loc (g.w.levelAt (g.D - 1 - i))
  have hspan := fun i (_ : i < g.D) => h.span_pos i
  have hx : Bounded b x g.D := fun i hi => digit_lt hspan (hranks _ (by omega)).1
  have hbits := fun (r : ℕ) (hr : r ≤ g.D) => sum_below_rank hranks (ownerSpanBits g.D g.bc) hr
  have hsize : size b g.D = g.bc := by
    have hall : (Finset.range g.D).filter (fun m => rankOfLevel g.D g.w.levelAt m < g.D) =
        Finset.range g.D :=
      Finset.filter_true_of_mem fun m hm => rankOfLevel_lt hranks (Finset.mem_range.1 hm)
    have hsum := hbits g.D le_rfl
    rw [hall, Nat.sub_self] at hsum
    rw [h.bc_eq]
    unfold size
    rw [Finset.prod_congr rfl fun l _ => h.span_eq l, Finset.prod_pow_eq_pow_sum, hsum,
      ← Finset.prod_pow_eq_pow_sum, Finset.range_eq_Ico]
    exact Finset.prod_congr rfl fun i _ => h.span_eq _
  refine ⟨encode b x g.D, hsize ▸ encode_lt hx, ?_⟩
  have hloc' : loc < size g.span g.D := h.bc_eq ▸ hloc
  rw [h.writeLocal_eq]
  refine Eq.trans ?_ (encode_digit hloc')
  refine encode_congr (fun _ _ => rfl) fun l hl => ?_
  have hrank := rankOfLevel_lt hranks hl
  have hlev : g.w.levelAt (g.D - 1 - (g.D - 1 - rankOfLevel g.D g.w.levelAt l)) = l := by
    rw [show g.D - 1 - (g.D - 1 - rankOfLevel g.D g.w.levelAt l) = rankOfLevel g.D g.w.levelAt l by
      omega, levelAt_rankOfLevel hranks hl]
  have hshift : MixedRadix.weight b g.D (g.D - 1 - rankOfLevel g.D g.w.levelAt l) =
      2 ^ (makeSideLayout g.D g.bc g.w.rank g.r.rank).shift l := by
    show _ = 2 ^ ∑ m ∈ (Finset.range g.D).filter (fun m => g.w.rank m < g.w.rank l), _
    rw [h.write_rank_eq, hbits _ hrank.le, ← Finset.prod_pow_eq_pow_sum]
    unfold MixedRadix.weight
    rw [show g.D - 1 - rankOfLevel g.D g.w.levelAt l + 1 = g.D - rankOfLevel g.D g.w.levelAt l by omega]
    exact Finset.prod_congr rfl fun i _ => h.span_eq _
  have hdigit := digit_encode hx (l := g.D - 1 - rankOfLevel g.D g.w.levelAt l) (by omega)
  unfold digit at hdigit
  rw [hshift] at hdigit
  simpa only [b, x, hlev] using hdigit

/-- The carry's place of a leaf is its canonical index, cut into pages. -/
theorem carryPlace_eq {O v : ℕ} : carryPlace g O v =
    ((geomCanonLeaf g O (writeLocal g v) / mmaKQuantum : ℤ),
      (geomCanonLeaf g O (writeLocal g v) % mmaKQuantum : ℤ)) := by
  obtain ⟨hrow, hdvd⟩ := h.geomCanonLeaf_row O (writeLocal g v)
  have hplace : carryPlace g O v = (((geomCanonLeaf g O (writeLocal g v / 16 * 16) / 16 : ℕ) : ℤ),
      ((writeLocal g v % 16 : ℕ) : ℤ)) := by
    show (((geomCanonLeaf g O (writeLocal g v >>> 4 * 16) >>> 4 : ℕ) : ℤ),
      ((writeLocal g v &&& (2 ^ 4 - 1) : ℕ) : ℤ)) = _
    rw [Nat.shiftRight_eq_div_pow, Nat.shiftRight_eq_div_pow, Nat.and_two_pow_sub_one_eq_mod]
  rw [hplace, show mmaKQuantum = 16 from rfl]
  refine Prod.ext ?_ ?_ <;> dsimp only <;> omega

end CarryGeom.Wf

/-! ### Where the two indices are one -/

theorem page_row_inj {a b : ℤ} : (a / 16, a % 16) = (b / 16, b % 16) ↔ a = b := by
  rw [Prod.mk.injEq]
  omega

/-- The carry and the decode step put every leaf at one place of the page pool. -/
def PlacesAgree (g : CarryGeom) (p : DecodeParams) : Prop :=
  ∀ d, Bounded g.width d g.D → ∀ O < g.owners, ∀ v < g.bc,
    (∀ l < g.D, geomDigit g O (writeLocal g v) l = d l) → carryPlace g O v = p.decodePlace d

section Index

variable {g : CarryGeom} {p : DecodeParams}

theorem placesAgree_iff_index (hg : g.Wf) (hp : p.Wf) (hD : p.D = g.D) (hw : p.levelWidth = g.width) :
    PlacesAgree g p ↔ ∀ d, Bounded g.width d g.D → p.latIndex d = encode g.width d g.D := by
  have hleaf : ∀ d, Bounded g.width d g.D → p.leafOf d = p.latIndex d := fun d hd => by
    have hlt := hp.latIndex_lt (d := d) (by rwa [hw, hD])
    have hN : p.N ≤ maxLeaves := by
      rw [← hp.N_eq, hw, hD, ← hg.leaves_eq]
      exact hg.leaves_le
    exact int32_of_lt (hlt.trans_le (hN.trans (by decide)))
  have hplace : ∀ d, Bounded g.width d g.D → ∀ O v,
      (∀ l < g.D, geomDigit g O (writeLocal g v) l = d l) →
      (carryPlace g O v = p.decodePlace d ↔ p.latIndex d = encode g.width d g.D) := by
    intro d hd O v hdig
    rw [hg.carryPlace_eq, DecodeParams.decodePlace, hleaf d hd, hg.geomCanonLeaf_eq,
      encode_congr (fun _ _ => rfl) hdig, show mmaKQuantum = 16 from rfl]
    exact page_row_inj.trans ⟨fun heq => by exact_mod_cast heq.symm, fun heq => by rw [heq]⟩
  constructor
  · intro hag d hd
    obtain ⟨O, hO, loc, hloc, hdig⟩ := hg.exists_slot hd
    obtain ⟨v, hv, rfl⟩ := hg.exists_writeLocal hloc
    exact (hplace d hd O v hdig).1 (hag d hd O hO v hv hdig)
  · intro hidx d hd O _ v _ hdig
    exact (hplace d hd O v hdig).2 (hidx d hd)

/-- The digit tuple `(1, 0, …, 0)` tells the two orders apart below a split inner level. -/
theorem index_differs (hp : p.Wf) (hD : 2 ≤ p.D) (hS : 2 ≤ p.latS 0) (hw : 2 ≤ p.levelWidth 0)
    (hlt : p.latS 1 < p.levelWidth 1) :
    ∃ d, Bounded p.levelWidth d p.D ∧ p.latIndex d ≠ encode p.levelWidth d p.D := by
  let d : ℕ → ℕ := fun l => if l = 0 then 1 else 0
  have hone : ∀ b : ℕ → ℕ, encode b d p.D = weight b p.D 0 := by
    intro b
    unfold encode
    rw [Finset.sum_eq_single_of_mem 0 (Finset.mem_range.2 (by omega)) fun l _ hl => by simp [d, hl]]
    simp [d]
  have hzero : encode p.latG (fun l => d l / p.latS l) p.D = 0 := by
    refine Finset.sum_eq_zero fun l _ => ?_
    by_cases hl : l = 0
    · simp [d, hl, Nat.div_eq_of_lt hS]
    · simp [d, hl]
  have hrun : encode p.latS (fun l => d l % p.latS l) p.D = encode p.latS d p.D := by
    refine encode_congr (fun _ _ => rfl) fun l _ => ?_
    by_cases hl : l = 0
    · simp [d, hl, Nat.mod_eq_of_lt hS]
    · simp [d, hl]
  refine ⟨d, fun l hl => ?_, ?_⟩
  · have := hp.width_pos l hl
    by_cases hl0 : l = 0
    · simp only [d, hl0, if_pos]
      omega
    · simpa [d, hl0] using this
  · rw [hp.latIndex_eq, hzero, Nat.zero_mul, Nat.zero_add, hrun, hone, hone]
    refine (Finset.prod_lt_prod (fun i _ => hp.S_pos i) (fun i hi => ?_) ⟨1, ?_, hlt⟩).ne
    · have hi := (Finset.mem_Ico.1 hi).2
      rw [← hp.width_eq i hi]
      exact Nat.le_mul_of_pos_left _ (hp.G_pos i hi)
    · exact Finset.mem_Ico.2 ⟨le_rfl, by omega⟩

theorem index_eq_one (hp : p.Wf) (hD : p.D = 1) (d : ℕ → ℕ) :
    p.latIndex d = encode p.levelWidth d p.D := by
  rw [hp.latIndex_eq, hD]
  simp only [encode_succ, encode_zero, size_succ, size_zero, Nat.zero_mul, Nat.zero_add, Nat.one_mul]
  exact Nat.div_add_mod' (d 0) (p.latS 0)

theorem index_eq_two (hp : p.Wf) (hD : p.D = 2) (hS : p.latS 1 = p.levelWidth 1) {d : ℕ → ℕ}
    (hd : Bounded p.levelWidth d p.D) : p.latIndex d = encode p.levelWidth d p.D := by
  have hd1 := hd 1 (by omega)
  have hG : p.latG 1 = 1 := by
    have := hp.width_eq 1 (by omega)
    rw [← hS] at this
    exact Nat.eq_of_mul_eq_mul_right (hp.S_pos 1) (by omega)
  rw [hp.latIndex_eq, hD]
  simp only [encode_succ, encode_zero, size_succ, size_zero, hG, hS, Nat.div_eq_of_lt hd1,
    Nat.mod_eq_of_lt hd1]
  have := Nat.div_add_mod' (d 0) (p.latS 0)
  calc _ = (d 0 / p.latS 0 * p.latS 0 + d 0 % p.latS 0) * p.levelWidth 1 + d 1 := by ring
    _ = _ := by rw [this]; ring

end Index

/-- The spans of the derived lattice from depth two on. -/
theorem derived_spans {D N : ℕ} {w : ℕ → ℕ} {p : DecodeParams} (hD : 2 ≤ D) (hw : Lawful D w)
    (h : decodeParams D w (deriveLattice D w).1 (deriveLattice D w).2 N = .ok p) :
    2 ≤ p.latS 0 ∧ p.latS 1 ≤ 16 ∧ (p.latS 1 = 16 ↔ D = 2) := by
  obtain ⟨-, hD4, rows, -, hfill⟩ := decodeParams_ok h
  obtain ⟨j, kappa, hm, hk, -, -, -, hS, -⟩ := fillLattice_ok hfill
  have hbits : ∀ kappa' j', deriveLattice D w = (2 ^ kappa', 2 ^ j') → kappa' ≤ 4 →
      j' / D + (if j' % D = 0 then 0 else 1) ≤ 4 - kappa' →
      p.latS = fun l => 2 ^ kappa' * 2 ^ levelBits D j' (min (4 - kappa') j') l := by
    intro kappa' j' hlat hk' hshare
    rw [hlat] at hk hm hS
    obtain rfl := Nat.pow_right_injective le_rfl hk
    obtain rfl := Nat.pow_right_injective le_rfl hm
    rw [hS, boxBits_lawful (by omega) hw hk' hshare]
  have hcases : D = 2 ∨ D = 3 ∨ D = 4 := by
    unfold maxLevels at hD4
    omega
  rcases hcases with rfl | rfl | rfl
  · rw [hbits 2 3 (deriveLattice_two hw) (by omega) (by decide)]
    decide
  · rw [hbits 1 4 (deriveLattice_three hw) (by omega) (by decide)]
    decide
  · rw [hbits 1 3 (deriveLattice_four hw) (by omega) (by decide)]
    decide

/-- On every topology both families admit, the two kernels address one page pool alike exactly at
depth one, and at depth two over an innermost level of sixteen. -/
theorem placesAgree_iff {D bc dv NSR NSW N : ℕ} {w : ℕ → ℕ} {order : CarveOrder} {g : CarryGeom}
    {p : DecodeParams} (hw : Lawful D w)
    (hcarry : deriveCarryGeom D w bc dv order NSR NSW = .ok g)
    (hdecode : decodeParams D w (deriveLattice D w).1 (deriveLattice D w).2 N = .ok p) :
    PlacesAgree g p ↔ D = 1 ∨ D = 2 ∧ w 1 = 16 := by
  obtain ⟨hg, rfl, -, rfl⟩ := deriveCarryGeom_wf hcarry
  have hp := decodeParams_wf hdecode
  obtain ⟨-, -, rows, -, hfill⟩ := decodeParams_ok hdecode
  obtain ⟨-, -, -, -, hD, -, hwidth, -⟩ := fillLattice_ok hfill
  rw [placesAgree_iff_index hg hp hD hwidth, ← hD, ← hwidth]
  constructor
  · intro hidx
    by_contra hne
    rw [not_or, not_and] at hne
    have hD2 : 2 ≤ p.D := by
      have := hp.D_pos
      omega
    obtain ⟨hS0, hS1, hS16⟩ := derived_spans (hD ▸ hD2) hw hdecode
    have hw0 := hw.sixteen_le (l := 0) (by omega)
    have hw1 := hw.sixteen_le (l := 1) (by omega)
    rw [← hwidth] at hw0 hw1
    obtain ⟨d, hd, hdiff⟩ := index_differs hp hD2 hS0 (by omega) (by
      rcases eq_or_ne p.D 2 with h2 | h2
      · have := hne.2 h2
        omega
      · have : p.latS 1 ≠ 16 := fun h => h2 (hD.trans (hS16.1 h))
        omega)
    exact hdiff (hidx d hd)
  · rintro (h1 | ⟨h2, h16⟩) d hd
    · exact index_eq_one hp h1 d
    · obtain ⟨-, -, hS16⟩ := derived_spans (hD ▸ h2.ge) hw hdecode
      exact index_eq_two hp h2 ((hS16.2 (hD ▸ h2)).trans h16.symm) hd

/-! ### The built arm's topology -/

theorem exists_ok_of_check {α β : Type} {X : Except String α} {Y : Except String β} {P : α → β → Bool}
    (h : (match X, Y with | .ok g, .ok p => P g p | _, _ => false) = true) :
    ∃ g p, X = .ok g ∧ Y = .ok p ∧ P g p = true := by
  rcases X with _ | g
  · cases h
  · rcases Y with _ | p
    · cases h
    · exact ⟨g, p, rfl, rfl, h⟩

/-- The default order: the innermost level at rank 0, on both sides. -/
def innermostFirst (D : ℕ) : CarveOrder := ⟨fun r => D - 1 - r, fun r => D - 1 - r⟩

/-- Both families admit widths `(64, 64)`, and place the leaf of digits `(1, 0)` apart. -/
theorem places_differ : ∃ g p,
    deriveCarryGeom 2 (fun _ => 64) 256 64 (innermostFirst 2) 8 8 = .ok g ∧
    decodeParams 2 (fun _ => 64) (deriveLattice 2 fun _ => 64).1 (deriveLattice 2 fun _ => 64).2 4096 =
      .ok p ∧
    (∀ l < 2, geomDigit g 0 (writeLocal g 16) l = [1, 0].getD l 0) ∧
    carryPlace g 0 16 = (4, 0) ∧ p.decodePlace (fun l => [1, 0].getD l 0) = (1, 0) ∧
    ¬ PlacesAgree g p := by
  obtain ⟨g, p, hg, hp, hcheck⟩ := exists_ok_of_check
    (X := deriveCarryGeom 2 (fun _ => 64) 256 64 (innermostFirst 2) 8 8)
    (Y := decodeParams 2 (fun _ => 64) (deriveLattice 2 fun _ => 64).1
      (deriveLattice 2 fun _ => 64).2 4096)
    (P := fun g p => decide (∀ l < (2 : ℕ), geomDigit g 0 (writeLocal g 16) l = [1, 0].getD l 0) &&
      decide (carryPlace g 0 16 = (4, 0) ∧ p.decodePlace (fun l => [1, 0].getD l 0) = (1, 0)) &&
      decide (g.D = 2 ∧ 0 < g.owners ∧ 16 < g.bc) && decide (∀ l < (2 : ℕ), [1, 0].getD l 0 < g.width l))
    (by decide +kernel)
  simp only [Bool.and_eq_true, decide_eq_true_eq] at hcheck
  obtain ⟨⟨⟨hdig, hcarry, hdecode⟩, hD, hO, hv⟩, hbound⟩ := hcheck
  refine ⟨g, p, hg, hp, hdig, hcarry, hdecode, fun hag => ?_⟩
  have := hag _ (hD ▸ hbound) 0 hO 16 hv (hD ▸ hdig)
  rw [hcarry, hdecode] at this
  exact absurd this (by decide)

/-- On widths `(16, 16)` they agree. -/
theorem placesAgree_iff_at_16 : ∃ g p,
    deriveCarryGeom 2 (fun _ => 16) 256 64 (innermostFirst 2) 8 8 = .ok g ∧
    decodeParams 2 (fun _ => 16) (deriveLattice 2 fun _ => 16).1 (deriveLattice 2 fun _ => 16).2 256 =
      .ok p ∧ PlacesAgree g p := by
  obtain ⟨g, p, hg, hp, -⟩ := exists_ok_of_check
    (X := deriveCarryGeom 2 (fun _ => 16) 256 64 (innermostFirst 2) 8 8)
    (Y := decodeParams 2 (fun _ => 16) (deriveLattice 2 fun _ => 16).1
      (deriveLattice 2 fun _ => 16).2 256)
    (P := fun _ _ => true) (by decide +kernel)
  exact ⟨g, p, hg, hp, (placesAgree_iff (.sixteen 2) hg hp).2 (.inr ⟨rfl, rfl⟩)⟩

end Rola
