import Rola.GrowthReplay
import Rola.StepRefines

/-!
# The walk as a launch's work

The visits the walk enumerates are a launch's work, so the growth protocol advances every batch-head by one
step of the recurrence.
-/

namespace Rola

variable {dv : ℕ}

/-- Two members of a flat list share nothing where the whole has no duplicates. -/
theorem disjoint_of_nodup_flatMap {α β : Type*} {l : List α} {f : α → List β} (h : (l.flatMap f).Nodup) {a b : α}
    (ha : a ∈ l) (hb : b ∈ l) (hne : a ≠ b) : (f a).Disjoint (f b) := by
  have : Std.Symm (Function.onFun List.Disjoint f) := ⟨fun _ _ hd => hd.symm⟩
  exact (List.nodup_flatMap.1 h).2.forall ha hb hne

namespace DecodeParams

variable {p : DecodeParams} {c : ArenaConfig} {nSplit : ℕ} {tok : Token dv} {toks : ℕ → Token dv} {eps : ℚ}

/-- A visit of the walk: the leaf's update, and its weight in the readout. -/
def leafVisit (p : DecodeParams) (tok : Token dv) (v : Visit) : LeafVisit (Row dv) (Row dv) where
  leaf := v.leaf
  inW := v.inW
  upd := p.visitUpd tok v
  read := fun acc sv => acc + p.visitRead tok v sv

/-- The lattices a launch over an arena takes, with a split the host derives. -/
structure Launches (p : DecodeParams) (c : ArenaConfig) (nSplit : ℕ) : Prop where
  wf : p.Wf
  widths : ∀ l < p.D, ∃ e, p.levelWidth l = 2 ^ e
  shifts : p.AtomShifts
  fits : p.Fits nSplit
  atoms : p.N = c.atomsPerBh * 16
  heads : 0 < c.BH
  split : WaveSplit c.BH nSplit

/-- A warp's visits. -/
def warpWork (p : DecodeParams) (tok : Token dv) (nSplit seg warp : ℕ) : List (LeafVisit (Row dv) (Row dv)) :=
  if seg < nSplit ∧ warp < decodeWarps then
    (p.threadVisits tok.masks nSplit (firstUnit nSplit seg warp)).map (p.leafVisit tok)
  else []

theorem mem_warpWork {seg warp : ℕ} {x : LeafVisit (Row dv) (Row dv)} (hx : x ∈ p.warpWork tok nSplit seg warp) :
    seg < nSplit ∧ warp < decodeWarps ∧ ∃ v ∈ p.threadVisits tok.masks nSplit (firstUnit nSplit seg warp),
      x = p.leafVisit tok v := by
  unfold warpWork at hx
  split at hx
  · rename_i hlt
    obtain ⟨v, hv, rfl⟩ := List.mem_map.1 hx
    exact ⟨hlt.1, hlt.2, v, hv, rfl⟩
  · cases hx

theorem mem_headVisits_of {m : Masks} {seg warp : ℕ} (hseg : seg < nSplit) (hwarp : warp < decodeWarps) {v : Visit}
    (hv : v ∈ p.threadVisits m nSplit (firstUnit nSplit seg warp)) : v ∈ p.headVisits m nSplit :=
  List.mem_flatMap.2 ⟨seg, List.mem_range.2 hseg, List.mem_flatMap.2 ⟨warp, List.mem_range.2 hwarp, hv⟩⟩

namespace Launches

variable (h : p.Launches c nSplit)
include h

theorem visit {v : Visit} (hv : v ∈ p.headVisits tok.masks nSplit) : v.leaf < p.N ∧
    (∀ l < p.D, v.digit l = p.latDigits v.leaf l) ∧ v.inR = p.inProduct tok.masks.r (p.latDigits v.leaf) ∧
      v.inW = p.inProduct tok.masks.w (p.latDigits v.leaf) :=
  h.wf.mem_headVisits h.widths h.split.bounds.1 h.fits hv

/-- A thread visits a leaf once. -/
theorem warp_same (tok : Token dv) (seg warp : ℕ) :
    (p.warpWork tok nSplit seg warp).Pairwise fun x x' => x.leaf ≠ x'.leaf := by
  unfold warpWork
  split
  · rename_i hlt
    have hnodup := h.wf.headVisits_nodup h.widths h.split.bounds.1 h.fits tok.masks
    unfold headVisits at hnodup
    simp only [List.map_flatMap] at hnodup
    have hseg := (List.nodup_flatMap.1 hnodup).1 seg (List.mem_range.2 hlt.1)
    have hwarp := (List.nodup_flatMap.1 hseg).1 warp (List.mem_range.2 hlt.2)
    exact List.pairwise_map.2 (List.pairwise_map.1 hwarp)
  · exact .nil

/-- Two threads share no leaf. -/
theorem warp_cross (tok : Token dv) (seg warp seg' warp' : ℕ) (hne : (seg, warp) ≠ (seg', warp'))
    (x : LeafVisit (Row dv) (Row dv)) (hx : x ∈ p.warpWork tok nSplit seg warp)
    (x' : LeafVisit (Row dv) (Row dv)) (hx' : x' ∈ p.warpWork tok nSplit seg' warp') : x.leaf ≠ x'.leaf := by
  obtain ⟨hseg, hwarp, v, hv, rfl⟩ := mem_warpWork hx
  obtain ⟨hseg', hwarp', v', hv', rfl⟩ := mem_warpWork hx'
  intro heq
  have hnodup := h.wf.headVisits_nodup h.widths h.split.bounds.1 h.fits tok.masks
  unfold headVisits at hnodup
  simp only [List.map_flatMap] at hnodup
  have hleaf := List.mem_map_of_mem (f := Visit.leaf) hv
  have hleaf' := List.mem_map_of_mem (f := Visit.leaf) hv'
  rw [show v.leaf = v'.leaf from heq] at hleaf
  by_cases hs : seg = seg'
  · subst hs
    have hw : warp ≠ warp' := fun hw => hne (by rw [hw])
    have hseg := (List.nodup_flatMap.1 hnodup).1 seg (List.mem_range.2 hseg)
    exact disjoint_of_nodup_flatMap hseg (List.mem_range.2 hwarp) (List.mem_range.2 hwarp') hw hleaf hleaf'
  · exact disjoint_of_nodup_flatMap hnodup (List.mem_range.2 hseg) (List.mem_range.2 hseg') hs
      (List.mem_flatMap.2 ⟨warp, List.mem_range.2 hwarp, hleaf⟩) (List.mem_flatMap.2 ⟨warp', List.mem_range.2 hwarp', hleaf'⟩)

theorem published (m : Masks) : p.Published m := h.wf.published h.widths h.split.bounds.1 h.fits m

theorem candidate {m : Masks} {a : ℕ} : a ∈ p.candidates m ↔
    ∃ leaf, leaf < p.N ∧ p.inProduct m.w (p.latDigits leaf) = true ∧ leaf / 16 = a := by
  rw [(h.wf.candidates_spec h.shifts (h.published m)).2 a]
  unfold written
  simp only [List.mem_filter, List.mem_range, and_assoc]

/-- A token's step as a launch's work. -/
def tokenWork (toks : ℕ → Token dv) (eps : ℚ) : StepWork c (Row dv) (Row dv) (Fin dv → ℚ) where
  nSplit := nSplit
  umax := fun bh => p.umax (toks bh).masks
  cand := fun bh => p.candidates (toks bh).masks
  visits := fun bh => p.warpWork (toks bh) nSplit
  zero := 0
  add := (· + ·)
  out := fun part col => part.1 col / (part.2 + eps)
  pos := h.heads
  split := h.split
  umax_count := fun bh => umax_unitCount (h.published _)
  nodup := fun bh => (h.wf.candidates_spec h.shifts (h.published _)).1
  lt := fun bh a ha => by
    obtain ⟨leaf, hleaf, -, rfl⟩ := h.candidate.1 ha
    have := h.atoms
    omega
  visit_lt := fun bh seg warp x hx => by
    obtain ⟨hseg, hwarp, v, hv, rfl⟩ := mem_warpWork hx
    have hlt := (h.visit (mem_headVisits_of hseg hwarp hv)).1
    have := h.atoms
    show v.leaf / 16 < _
    omega
  same := fun bh => h.warp_same (toks bh)
  cross := fun bh => h.warp_cross (toks bh)
  written := fun bh seg warp x hx hw => by
    obtain ⟨hseg, hwarp, v, hv, rfl⟩ := mem_warpWork hx
    obtain ⟨hlt, -, -, hin⟩ := h.visit (mem_headVisits_of hseg hwarp hv)
    exact h.candidate.2 ⟨v.leaf, hlt, hin.symm.trans hw, rfl⟩

/-- The visits of the live warps are the walk's. -/
theorem visits_iff {bh : ℕ} {x : LeafVisit (Row dv) (Row dv)} : (h.tokenWork toks eps).Visits bh x ↔
    ∃ v ∈ p.headVisits (toks bh).masks nSplit, x = p.leafVisit (toks bh) v := by
  constructor
  · rintro ⟨seg, warp, -, -, hx⟩
    obtain ⟨hseg, hwarp, v, hv, rfl⟩ := mem_warpWork hx
    exact ⟨v, mem_headVisits_of hseg hwarp hv, rfl⟩
  · rintro ⟨v, hv, rfl⟩
    obtain ⟨seg, hseg, hv⟩ := List.mem_flatMap.1 hv
    obtain ⟨warp, hwarp, hv⟩ := List.mem_flatMap.1 hv
    have hseg := List.mem_range.1 hseg
    have hwarp := List.mem_range.1 hwarp
    refine ⟨seg, warp, ⟨hseg, ?_⟩, hwarp, ?_⟩
    · by_contra hret
      have hretired : p.retired (toks bh).masks seg = true := by
        have hbound : seg < 2 ^ 28 := hseg.trans_le h.split.bounds.2
        rw [HeadCall.retired_eq hbound, Bool.not_eq_false, decide_eq_true_iff] at hret
        unfold retired unitBlockWarps
        exact decide_eq_true hret
      rw [h.wf.threadVisits_retired h.widths h.split.bounds.1 h.fits _ hretired] at hv
      cases hv
    · show p.leafVisit (toks bh) v ∈ p.warpWork (toks bh) nSplit seg warp
      unfold warpWork
      rw [if_pos ⟨hseg, hwarp⟩]
      exact List.mem_map_of_mem hv

/-- A token every batch-head has taken is one step of the recurrence on its rows. -/
theorem stepped_row {s t : DecodeState (Row dv) (Row dv) (Fin dv → ℚ)} (hst : (h.tokenWork toks eps).Stepped s t) {bh leaf : ℕ}
    (hbh : bh < c.BH) (hleaf : leaf < p.N) :
    StepWork.row c t.pages bh leaf = p.stepRow (toks bh) (StepWork.row c s.pages bh) leaf := by
  unfold stepRow
  split
  · rename_i hwrite
    obtain ⟨v, hv, rfl⟩ := h.wf.exists_headVisits h.widths h.split.bounds.1 h.fits (m := (toks bh).masks) hleaf
      (.inr (Wf.amplitude_ne_zero.1 hwrite))
    obtain ⟨-, hdig, -, hin⟩ := h.visit hv
    have hw : v.inW = true := hin.trans (Wf.amplitude_ne_zero.1 hwrite)
    refine (hst.written bh hbh _ (h.visits_iff.2 ⟨v, hv, rfl⟩) hw).trans ?_
    show p.visitUpd (toks bh) v _ = _
    unfold visitUpd
    rw [Wf.amplitude_congr hdig]
    rfl
  · rename_i hzero
    refine hst.kept bh hbh leaf (by have := h.atoms; omega) fun x hx hw heq => hzero ?_
    obtain ⟨v, hv, rfl⟩ := h.visits_iff.1 hx
    obtain ⟨-, -, -, hin⟩ := h.visit hv
    rw [← heq]
    exact Wf.amplitude_ne_zero.2 (hin.symm.trans hw)

end Launches

end DecodeParams

end Rola
