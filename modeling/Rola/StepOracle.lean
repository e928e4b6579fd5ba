import Rola.StepRefines

/-!
# The step is the oracle's, on either backing

Read through the lattice permutation a batch-head's step is one token of `naive_rola`; a dense plane and
an arena that hold the same rows give the same step. Past the walk's `int`s neither is defined.
-/

namespace Rola

open MixedRadix

variable {dv : ℕ}

namespace DecodeParams

variable {p : DecodeParams} {nSplit : ℕ} {eps : ℚ}

/-! ### The permutation -/

namespace Wf

variable (h : p.Wf) {b : Box} (hs : b.s = p.latS) (hg : b.g = p.latG) (hbc : b.bc = size p.latS p.D) {leaf : ℕ}
include h

theorem canonical_bounded : Bounded p.levelWidth (digit p.levelWidth p.D leaf) p.D := digit_bounded h.width_pos

include hs hg hbc

theorem permutation_eq : b.permutation p.D p.levelWidth leaf = p.latIndex (digit p.levelWidth p.D leaf) := by
  rw [h.latIndex_eq]
  unfold Box.permutation encode
  rw [hs, hg, hbc]

theorem permutation_lt : b.permutation p.D p.levelWidth leaf < p.N := by
  rw [h.permutation_eq hs hg hbc]
  exact h.latIndex_lt h.canonical_bounded

theorem latDigits_permutation {l : ℕ} (hl : l < p.D) :
    p.latDigits (b.permutation p.D p.levelWidth leaf) l = digit p.levelWidth p.D leaf l := by
  rw [h.permutation_eq hs hg hbc]
  exact h.latDigits_latIndex h.canonical_bounded hl

theorem leafProduct_eq {levels : ℕ → ℕ → ℚ} : leafProduct p.D p.levelWidth levels leaf =
    p.amplitude levels (p.latDigits (b.permutation p.D p.levelWidth leaf)) := by
  unfold leafProduct amplitude
  exact Finset.prod_congr rfl fun l hl => by rw [h.latDigits_permutation hs hg hbc (Finset.mem_range.1 hl)]

/-- The leaves in canonical order are the leaves. -/
theorem sum_permutation {M : Type*} [AddCommMonoid M] (f : ℕ → M) :
    ∑ leaf ∈ Finset.range p.N, f (b.permutation p.D p.levelWidth leaf) = ∑ leaf ∈ Finset.range p.N, f leaf := by
  refine Finset.sum_nbij' (b.permutation p.D p.levelWidth) (fun leaf => encode p.levelWidth (p.latDigits leaf) p.D)
    (fun leaf _ => Finset.mem_range.2 (h.permutation_lt hs hg hbc)) (fun leaf _ => ?_) (fun leaf hleaf => ?_)
    (fun leaf hleaf => ?_) fun _ _ => rfl
  · rw [Finset.mem_range, ← h.N_eq]
    exact encode_lt h.latDigits_bounded
  · have hlt := Finset.mem_range.1 hleaf
    rw [← h.N_eq] at hlt
    rw [encode_congr (fun _ _ => rfl) fun l hl => h.latDigits_permutation hs hg hbc hl]
    exact encode_digit hlt
  · rw [h.permutation_eq hs hg hbc, h.latIndex_congr fun l hl => digit_encode h.latDigits_bounded hl]
    exact h.latIndex_latDigits (Finset.mem_range.1 hleaf)

end Wf

/-! ### One batch-head's step -/

theorem naiveRola_snd {D : ℕ} {w : ℕ → ℕ} {tok : Token dv} {keep : ℕ → ℚ} {state : ℕ → Row dv} {col : Fin dv} :
    (naiveRola D w tok keep eps state).2 col =
      (∑ leaf ∈ Finset.range (size w D), leafProduct D w tok.saR leaf • (naiveRola D w tok keep eps state).1 leaf).1 col /
        ((∑ leaf ∈ Finset.range (size w D), leafProduct D w tok.saR leaf •
          (naiveRola D w tok keep eps state).1 leaf).2 + eps) := rfl

/-- A batch-head goes from rows `S` to rows `S'` and reads out `y`. -/
structure HeadStep (p : DecodeParams) (b : Box) (tok : Token dv) (eps : ℚ) (S S' : ℕ → Row dv) (y : Fin dv → ℚ) : Prop where
  row : ∀ leaf < p.N, S' leaf = if p.amplitude tok.saW (p.latDigits leaf) ≠ 0 then
    tok.keep leaf • S leaf + (p.amplitude tok.saW (p.latDigits leaf) * tok.sw) • (tok.vTok, 1) else S leaf
  out : ∀ col, y col = (∑ leaf ∈ Finset.range p.N, p.amplitude tok.saR (p.latDigits leaf) • S' leaf).1 col /
    ((∑ leaf ∈ Finset.range p.N, p.amplitude tok.saR (p.latDigits leaf) • S' leaf).2 + eps)
  oracle : let π := b.permutation p.D p.levelWidth
    let keep := fun leaf => if leafProduct p.D p.levelWidth tok.saW leaf = 0 then 1 else tok.keep (π leaf)
    let r := naiveRola p.D p.levelWidth tok keep eps fun leaf => S (π leaf)
    (∀ leaf < p.N, r.1 leaf = S' (π leaf)) ∧ r.2 = y

theorem HeadStep.of_row (h : p.Wf) {b : Box} (hs : b.s = p.latS) (hg : b.g = p.latG) (hbc : b.bc = size p.latS p.D)
    {tok : Token dv} {S S' : ℕ → Row dv} {y : Fin dv → ℚ} (hrow : ∀ leaf < p.N, S' leaf = p.stepRow tok S leaf)
    (hout : y = p.readout tok eps S') : HeadStep p b tok eps S S' y := by
  have hnext : ∀ leaf, (naiveRola p.D p.levelWidth tok (fun leaf => if leafProduct p.D p.levelWidth tok.saW leaf = 0 then 1
      else tok.keep (b.permutation p.D p.levelWidth leaf)) eps fun leaf => S (b.permutation p.D p.levelWidth leaf)).1 leaf =
      S' (b.permutation p.D p.levelWidth leaf) := by
    intro leaf
    rw [hrow _ (h.permutation_lt hs hg hbc)]
    unfold naiveRola stepRow
    dsimp only
    rw [h.leafProduct_eq hs hg hbc, mul_comm tok.sw]
    by_cases hz : p.amplitude tok.saW (p.latDigits (b.permutation p.D p.levelWidth leaf)) = 0
    · simp [hz]
    · simp [hz]
  refine ⟨hrow, fun col => by rw [hout]; rfl, fun leaf _ => hnext leaf, ?_⟩
  have hsum : ∑ leaf ∈ Finset.range (size p.levelWidth p.D), leafProduct p.D p.levelWidth tok.saR leaf •
      S' (b.permutation p.D p.levelWidth leaf) =
      ∑ leaf ∈ Finset.range p.N, p.amplitude tok.saR (p.latDigits leaf) • S' leaf := by
    rw [h.N_eq, ← h.sum_permutation hs hg hbc fun leaf => p.amplitude tok.saR (p.latDigits leaf) • S' leaf]
    exact Finset.sum_congr rfl fun leaf _ => by rw [h.leafProduct_eq hs hg hbc]
  rw [hout]
  funext col
  unfold readout
  rw [naiveRola_snd, Finset.sum_congr rfl fun leaf _ => by rw [hnext leaf], hsum]

/-- The rows and the readout a step leaves are those its rows and token say. -/
theorem HeadStep.unique {b : Box} {tok : Token dv} {S T S' T' : ℕ → Row dv} {y z : Fin dv → ℚ}
    (hS : HeadStep p b tok eps S S' y) (hT : HeadStep p b tok eps T T' z) (hST : ∀ leaf < p.N, T leaf = S leaf) :
    (∀ leaf < p.N, T' leaf = S' leaf) ∧ z = y := by
  have hrows : ∀ leaf < p.N, T' leaf = S' leaf := fun leaf hleaf => by
    rw [hS.row leaf hleaf, hT.row leaf hleaf, hST leaf hleaf]
  refine ⟨hrows, funext fun col => ?_⟩
  rw [hS.out, hT.out, Finset.sum_congr rfl fun leaf hleaf => by rw [hrows leaf (Finset.mem_range.1 hleaf)]]

/-! ### The two backings -/

/-- A batch-head's rows in a dense plane. -/
def denseRows (N bh : ℕ) (plane : ℕ → StatePage dv) (leaf : ℕ) : Row dv := plane (bh * (N / 16) + leaf / 16) (leaf % 16)

/-- A batch-head's rows in an arena, zero where its atom has no slot. -/
def pagedRows (c : ArenaConfig) (bh : ℕ) (s : PageArena (StatePage dv)) (leaf : ℕ) : Row dv :=
  s.gathered (c.atomId bh (leaf / 16)) (leaf % 16)

section Launch

variable (h : p.Wf) (hw : ∀ l < p.D, ∃ e, p.levelWidth l = 2 ^ e) (hn : 1 ≤ nSplit) (hfits : p.Fits nSplit)
  {b : Box} (hs : b.s = p.latS) (hg : b.g = p.latG) (hbc : b.bc = size p.latS p.D)
include h hw hn hfits hs hg hbc

theorem denseStep_refines (hN : 16 ∣ p.N) {BH : ℕ} (toks : ℕ → Token dv) (ws : ℕ → ℕ → Row dv) (plane : ℕ → StatePage dv)
    (y : ℕ → Fin dv → ℚ) : ∃ plane' y', p.denseStep nSplit eps ws BH toks plane y = some (plane', y') ∧
      ∀ bh < BH, HeadStep p b (toks bh) eps (denseRows p.N bh plane) (denseRows p.N bh plane') (y' bh) := by
  have hatoms : p.N = p.N / 16 * 16 := (Nat.div_mul_cancel hN).symm
  have hinj : ∀ bh < BH, ∀ bh' < BH, ∀ a < p.N / 16, ∀ a' < p.N / 16, ∀ slot, denseSlot (p.N / 16) bh a = some slot →
      denseSlot (p.N / 16) bh' a' = some slot → bh = bh' ∧ a = a' := by
    intro bh _ bh' _ a ha a' ha' slot hslot hslot'
    exact mul_add_inj ha ha' ((Option.some.inj hslot).trans (Option.some.inj hslot').symm)
  obtain ⟨plane', y', hrun, hheads⟩ := @DecodeParams.foldlM_heads _ _ _ eps h hw hn hfits _ hatoms _ toks (denseSlot (p.N / 16)) (fun _ => true) (fun _ => true) ws plane y hinj
  refine ⟨plane', y', hrun, fun bh hbh => HeadStep.of_row h hs hg hbc (fun leaf hleaf => ?_) ((hheads bh hbh).1 rfl)⟩
  exact (hheads bh hbh).2 leaf hleaf

section Paged

variable {c : ArenaConfig} {call : p.StepCall c dv} {s : PageArena (StatePage dv)}

omit h hw hn hfits hs hg hbc in
/-- The launch's table, atom by atom. -/
theorem foldRow_table {bh a : ℕ} (ha : a < c.atomsPerBh) :
    (s.decodeStep call.toDecodeCall).pageTable (c.atomId bh a) = s.foldRow call.toDecodeCall bh a := by
  obtain ⟨hdiv, hmod⟩ := @PageArena.atomId_div c bh _ ha
  unfold PageArena.decodeStep
  dsimp only
  rw [hdiv, hmod]

omit h hw hn hfits hs hg hbc in
/-- What an arena holds after a launch that left `pages`. -/
theorem pagedRows_decodeStep {bh leaf : ℕ} {pages : ℕ → StatePage dv} (hleaf : leaf < c.atomsPerBh * 16) :
    pagedRows c bh { s.decodeStep call.toDecodeCall with valueBase := pages } leaf =
      leafRow (s.foldRow call.toDecodeCall bh) pages leaf := by
  unfold pagedRows PageArena.gathered leafRow
  dsimp only
  rw [foldRow_table (by omega)]
  rcases s.foldRow call.toDecodeCall bh (leaf / 16) with _ | slot <;> rfl

theorem pagedStep_refines (hatoms : p.N = c.atomsPerBh * 16) (hshifts : p.AtomShifts) (hsound : s.Sound c)
    (ws : ℕ → ℕ → Row dv) (y : ℕ → Fin dv → ℚ) : ∃ s' y', pagedStep nSplit eps ws call s y = some (s', y') ∧
      ∀ bh < c.BH, s.needy call.toDecodeCall bh = false → call.done bh = false →
        HeadStep p b (call.toks bh) eps (pagedRows c bh s) (pagedRows c bh s') (y' bh) := by
  have htable := (hsound.1.decodeStep (hsound.2.settled call.toDecodeCall)).table_inj
  have hinj : ∀ bh < c.BH, ∀ bh' < c.BH, ∀ a < c.atomsPerBh, ∀ a' < c.atomsPerBh, ∀ slot,
      s.foldRow call.toDecodeCall bh a = some slot → s.foldRow call.toDecodeCall bh' a' = some slot → bh = bh' ∧ a = a' := by
    intro bh hbh bh' hbh' a ha a' ha' slot hslot hslot'
    exact mul_add_inj ha ha' (htable _ (PageArena.atomId_lt hbh ha) _ (PageArena.atomId_lt hbh' ha') slot
      ((foldRow_table ha).trans hslot) ((foldRow_table ha').trans hslot'))
  obtain ⟨pages, y', hrun, hheads⟩ := @DecodeParams.foldlM_heads _ _ _ eps h hw hn hfits _ hatoms _ call.toks (s.foldRow call.toDecodeCall) (fun bh => !s.needy call.toDecodeCall bh) (fun bh => !call.done bh) ws s.valueBase y hinj
  refine ⟨{ s.decodeStep call.toDecodeCall with valueBase := pages }, y', ?_, fun bh hbh hneedy hdone => ?_⟩
  · unfold pagedStep
    have hbody : (fun (st : (ℕ → StatePage dv) × (ℕ → Fin dv → ℚ)) bh =>
        if s.needy call.toDecodeCall bh then some st
        else (p.walkHead (call.toks bh) (s.foldRow call.toDecodeCall bh) nSplit eps (!call.done bh) (ws bh) st.1).map
          fun r => (r.1, Function.update st.2 bh r.2)) =
        fun st bh => if (!s.needy call.toDecodeCall bh) then
          (p.walkHead (call.toks bh) (s.foldRow call.toDecodeCall bh) nSplit eps (!call.done bh) (ws bh) st.1).map
            fun r => (r.1, Function.update st.2 bh r.2) else some st := by
      funext st bh
      rcases s.needy call.toDecodeCall bh with _ | _ <;> rfl
    rw [hbody, hrun]
    rfl
  · obtain ⟨hread, hrows⟩ := hheads bh hbh
    have hafter : ∀ leaf < p.N, pagedRows c bh { s.decodeStep call.toDecodeCall with valueBase := pages } leaf =
        leafRow (s.foldRow call.toDecodeCall bh) pages leaf := fun leaf hleaf => pagedRows_decodeStep (hatoms ▸ hleaf)
    have hbefore : ∀ leaf < p.N, pagedRows c bh s leaf = leafRow (s.foldRow call.toDecodeCall bh) s.valueBase leaf := by
      intro leaf hleaf
      rw [← pagedRows_decodeStep (hatoms ▸ hleaf)]
      unfold pagedRows
      rw [PageArena.gathered_fold hsound (PageArena.atomId_lt hbh (by omega))]
    refine HeadStep.of_row h hs hg hbc (fun leaf hleaf => ?_) ?_
    · rw [hafter leaf hleaf, hrows leaf hleaf]
      unfold headRow stepRow
      rw [hbefore leaf hleaf]
      by_cases hwr : p.amplitude (call.toks bh).saW (p.latDigits leaf) = 0
      · simp [hwr]
      · have hmem : leaf / 16 ∈ call.cand bh := by
          rw [call.cand_eq bh hbh, (h.candidates_spec hshifts (h.published hw hn hfits _)).2]
          exact ⟨leaf, List.mem_filter.2 ⟨List.mem_range.2 hleaf, Wf.amplitude_ne_zero.1 hwr⟩, rfl⟩
        have hdep : s.deposits call.toDecodeCall bh = true := by simp [PageArena.deposits, hneedy, hdone]
        have hslot := Option.isSome_iff_ne_none.2 (PageArena.foldRow_of_deposits hdep hmem)
        simp [hneedy, hdone, hslot]
    · rw [hread (by simp [hneedy])]
      exact (readout_congr hafter).symm

end Paged

end Launch

/-! ### Past the ceiling -/

/-- A batch-head whose walk is undefined has no step. -/
theorem walkHead_eq_none {tok : Token dv} {slotOf : ℕ → Option ℕ} {deposit : Bool} {ws : ℕ → Row dv}
    {pages : ℕ → StatePage dv} (hwalk : p.walk tok.masks nSplit = none) :
    p.walkHead tok slotOf nSplit eps deposit ws pages = none := by
  unfold walkHead
  unfold walk at hwalk
  split
  · rename_i hpub
    rw [if_pos hpub] at hwalk
    obtain ⟨seg, hseg, hcta⟩ := Strided.exists_of_collect_eq_none hwalk
    refine Option.map_eq_none_iff.2 (Strided.foldlM_eq_none hseg (fun st => ?_) _)
    unfold ctaVisits at hcta
    split
    · rfl
    · rename_i hfits
      rw [if_neg hfits] at hcta
      split
      · rename_i hret
        rw [if_pos hret] at hcta
        cases hcta
      · rename_i hret
        rw [if_neg hret] at hcta
        obtain ⟨warp, hwarp, hvisits⟩ := Strided.exists_of_collect_eq_none hcta
        refine Option.map_eq_none_iff.2 (Option.map_eq_none_iff.2 (Strided.foldlM_eq_none hwarp (fun st => ?_) _))
        unfold walkWarp
        rw [hvisits]
        rfl
  · rfl

/-- A token of ones. -/
def oneToken (dv : ℕ) : Token dv := ⟨fun _ _ => 1, fun _ _ => 1, 1, fun _ => 1, fun _ => 1⟩

theorem masks_oneToken : (oneToken dv).masks = fullMasks := by
  unfold Token.masks oneToken fullMasks
  simp

end DecodeParams

/-! ### The step -/

theorem boxShape_g {D k m : ℕ} {w : ℕ → ℕ} {b : Box} (h : boxShape D w k m = .ok b) : b.g = fun l => w l / b.s l := by
  unfold boxShape at h
  split at h
  · cases h
  · cases h
  dsimp only at h
  split at h
  · cases h
  split at h
  · cases h
  cases h
  rfl

/-- The host's box is the launch's. -/
theorem box_eq {D k m N rows : ℕ} {w : ℕ → ℕ} {p : DecodeParams} {b : Box} (hfill : fillLattice D w rows k m N = .ok p)
    (hb : boxShape D w k m = .ok b) : b.s = p.latS ∧ b.g = p.latG ∧ b.bc = size p.latS p.D := by
  obtain ⟨j, kappa, rfl, rfl, rfl, -, rfl, hS, hG, -⟩ := fillLattice_ok hfill
  obtain ⟨j', kappa', hj, hk, -, hs, hbc, -⟩ := boxShape_ok hb
  obtain rfl := Nat.pow_right_injective le_rfl hj
  obtain rfl := Nat.pow_right_injective le_rfl hk
  have hsS : b.s = p.latS := hs.trans hS.symm
  exact ⟨hsS, (boxShape_g hb).trans (by rw [hG, hsS]), by rw [hbc, hsS]⟩

/-- A step over a dense plane is defined, and steps each batch-head. -/
def DenseRefines (p : DecodeParams) (b : Box) (nSplit : ℕ) : Prop :=
  ∀ (dv BH : ℕ) (toks : ℕ → Token dv) (eps : ℚ) (ws : ℕ → ℕ → Row dv) (plane : ℕ → StatePage dv) (y : ℕ → Fin dv → ℚ),
    ∃ plane' y', p.denseStep nSplit eps ws BH toks plane y = some (plane', y') ∧ ∀ bh < BH,
      p.HeadStep b (toks bh) eps (DecodeParams.denseRows p.N bh plane) (DecodeParams.denseRows p.N bh plane') (y' bh)

/-- A step over an arena is defined, and steps each batch-head it neither leaves nor only re-reads; one over
a dense plane that holds the same rows leaves the same rows and readout. -/
def PagedRefines (p : DecodeParams) (b : Box) (nSplit : ℕ) : Prop :=
  ∀ (dv : ℕ) (c : ArenaConfig) (call : p.StepCall c dv) (eps : ℚ) (ws : ℕ → ℕ → Row dv) (s : PageArena (StatePage dv))
    (y : ℕ → Fin dv → ℚ), p.N = c.atomsPerBh * 16 → atomShift ≤ p.latLocalBits → s.Sound c →
    ∃ s' y', DecodeParams.pagedStep nSplit eps ws call s y = some (s', y') ∧
      ∀ bh < c.BH, s.needy call.toDecodeCall bh = false → call.done bh = false →
        p.HeadStep b (call.toks bh) eps (DecodeParams.pagedRows c bh s) (DecodeParams.pagedRows c bh s') (y' bh) ∧
        ∀ wsD plane yD plane' yD', p.denseStep nSplit eps wsD c.BH call.toks plane yD = some (plane', yD') →
          (∀ leaf < p.N, DecodeParams.denseRows p.N bh plane leaf = DecodeParams.pagedRows c bh s leaf) →
          (∀ leaf < p.N, DecodeParams.denseRows p.N bh plane' leaf = DecodeParams.pagedRows c bh s' leaf) ∧ yD' bh = y' bh

/-- A token of ones has no step past the ceiling. -/
theorem DenseRefines.fits {p : DecodeParams} {b : Box} {nSplit : ℕ} (h : p.Wf) (hw : ∀ l < p.D, ∃ e, p.levelWidth l = 2 ^ e)
    (hn : 1 ≤ nSplit) (hdense : DenseRefines p b nSplit) : p.Fits nSplit := by
  by_contra hover
  obtain ⟨plane', y', hrun, -⟩ := hdense 0 1 (fun _ => DecodeParams.oneToken 0) 0 (fun _ _ => 0) (fun _ _ => 0) fun _ _ => 0
  have hwalk := h.walk_full_eq_none hw hn hover
  rw [← @DecodeParams.masks_oneToken 0] at hwalk
  have hhead : ∀ st : (ℕ → StatePage 0) × (ℕ → Fin 0 → ℚ), ((p.walkHead (DecodeParams.oneToken 0)
      (denseSlot (p.N / 16) 0) nSplit 0 true (fun _ => 0) st.1).map fun r => (r.1, Function.update st.2 0 r.2)) = none := by
    intro st
    rw [DecodeParams.walkHead_eq_none hwalk]
    rfl
  unfold DecodeParams.denseStep at hrun
  rw [Strided.foldlM_eq_none (List.mem_range.2 Nat.one_pos) hhead] at hrun
  cases hrun

/-- Of a lattice both sides accept: every step is the recurrence's, on either backing, exactly when the walk's
`int`s hold the leaves and the units a period past the last. -/
theorem decode_step_refines {D k m N nSplit : ℕ} {w : ℕ → ℕ} {p : DecodeParams} {b : Box}
    (hp : decodeParams D w k m N = .ok p) (hb : boxShape D w k m = .ok b) (hw : ∀ l < D, ∃ e, w l = 2 ^ e)
    (hN : 16 ∣ N) (hn : 1 ≤ nSplit) : DenseRefines p b nSplit ∧ PagedRefines p b nSplit ↔
      p.N ≤ 2 ^ 31 ∧ p.N / p.latS (p.D - 1) + 32 * nSplit ≤ 2 ^ 31 := by
  have h := decodeParams_wf hp
  obtain ⟨-, -, rows, -, hfill⟩ := decodeParams_ok hp
  obtain ⟨hs, hg, hbc⟩ := box_eq hfill hb
  have hshifts := fillLattice_shifts hfill
  obtain ⟨-, -, -, -, rfl, rfl, rfl, -⟩ := fillLattice_ok hfill
  constructor
  · rintro ⟨hdense, -⟩
    exact hdense.fits h hw hn
  · intro hfits
    refine ⟨fun dv BH toks eps ws plane y => DecodeParams.denseStep_refines h hw hn hfits hs hg hbc hN toks ws plane y, ?_⟩
    intro dv c call eps ws s y hatoms hbox hsound
    obtain ⟨s', y', hrun, hheads⟩ := @DecodeParams.pagedStep_refines _ _ _ eps h hw hn hfits _ hs hg hbc _ _ _ hatoms ⟨hshifts.1, hshifts.2, hbox⟩ hsound ws y
    refine ⟨s', y', hrun, fun bh hbh hneedy hdone => ?_⟩
    have hhead := hheads bh hbh hneedy hdone
    refine ⟨hhead, fun wsD plane yD plane' yD' hdense hrows => ?_⟩
    obtain ⟨plane'', yD'', hdense', hstep⟩ := @DecodeParams.denseStep_refines _ _ _ eps h hw hn hfits _ hs hg hbc hN c.BH call.toks wsD plane yD
    obtain ⟨rfl, rfl⟩ := Prod.mk.inj (Option.some.inj (hdense.symm.trans hdense'))
    exact hhead.unique (hstep bh hbh) hrows

/-- Two levels of sixteen, split in three. -/
theorem decode_step_refines_square : ∃ p b, decodeParams 2 (fun _ => 16) 4 8 256 = .ok p ∧
    boxShape 2 (fun _ => 16) 4 8 = .ok b ∧ DenseRefines p b 3 ∧ PagedRefines p b 3 := by
  rcases hp : decodeParams 2 (fun _ => 16) 4 8 256 with err | p
  · have hok : (decodeParams 2 (fun _ => 16) 4 8 256).isOk = true := by decide +kernel
    rw [hp] at hok
    cases hok
  rcases hb : boxShape 2 (fun _ => 16) 4 8 with err | b
  · have hok : (boxShape 2 (fun _ => 16) 4 8).isOk = true := by decide +kernel
    rw [hb] at hok
    cases hok
  obtain ⟨-, -, rows, -, hfill⟩ := decodeParams_ok hp
  obtain ⟨-, -, -, -, -, hN, -⟩ := fillLattice_ok hfill
  refine ⟨p, b, rfl, rfl, (decode_step_refines hp hb (fun _ _ => ⟨4, rfl⟩) (by decide) (by decide)).2 ?_⟩
  have hdiv : p.N / p.latS (p.D - 1) ≤ p.N := Nat.div_le_self _ _
  omega

/-- Four levels of 256: a step of ones over a dense plane is not defined. -/
theorem step_past_int : ∃ p b, decodeParams 4 (fun _ => 256) 2 8 (2 ^ 32) = .ok p ∧
    boxShape 4 (fun _ => 256) 2 8 = .ok b ∧ ¬(DenseRefines p b 1 ∧ PagedRefines p b 1) := by
  rcases hp : decodeParams 4 (fun _ => 256) 2 8 (2 ^ 32) with err | p
  · have hok : (decodeParams 4 (fun _ => 256) 2 8 (2 ^ 32)).isOk = true := by decide +kernel
    rw [hp] at hok
    cases hok
  rcases hb : boxShape 4 (fun _ => 256) 2 8 with err | b
  · have hok : (boxShape 4 (fun _ => 256) 2 8).isOk = true := by decide +kernel
    rw [hb] at hok
    cases hok
  obtain ⟨-, -, rows, -, hfill⟩ := decodeParams_ok hp
  obtain ⟨-, -, -, -, -, hN, hwidth, -⟩ := fillLattice_ok hfill
  refine ⟨p, b, rfl, rfl, fun ⟨hdense, _⟩ => ?_⟩
  have hle := (hdense.fits (decodeParams_wf hp) (fun l _ => ⟨8, by rw [hwidth]; rfl⟩) le_rfl).1
  rw [hN] at hle
  exact absurd hle (by decide)

end Rola
