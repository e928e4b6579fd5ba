import Rola.StepSpec

/-!
# The step refines the oracle on either backing

The batch-heads of a launch keep to their own rows, so each is stepped as if it were alone; under the
lattice permutation that is one token of the oracle. The launch is defined exactly when the walk's
`int`s hold.
-/

namespace Rola

open MixedRadix

variable {dv : ℕ}

namespace DecodeParams

variable {p : DecodeParams} {nSplit : ℕ} {eps : ℚ}

/-- A leaf after the step: decayed and deposited into where the token writes it. -/
def stepRow (p : DecodeParams) (tok : Token dv) (S : ℕ → Row dv) (leaf : ℕ) : Row dv :=
  if p.amplitude tok.saW (p.latDigits leaf) ≠ 0 then
    tok.keep leaf • S leaf + (p.amplitude tok.saW (p.latDigits leaf) * tok.sw) • tok.deposit
  else S leaf

/-- The ratio of the read sums. -/
def readout (p : DecodeParams) (tok : Token dv) (eps : ℚ) (S : ℕ → Row dv) (col : Fin dv) : ℚ :=
  (∑ leaf ∈ Finset.range p.N, p.amplitude tok.saR (p.latDigits leaf) • S leaf).1 col /
    ((∑ leaf ∈ Finset.range p.N, p.amplitude tok.saR (p.latDigits leaf) • S leaf).2 + eps)

theorem readout_congr {tok : Token dv} {S S' : ℕ → Row dv} (h : ∀ leaf < p.N, S leaf = S' leaf) :
    p.readout tok eps S = p.readout tok eps S' := by
  have hsum : ∑ leaf ∈ Finset.range p.N, p.amplitude tok.saR (p.latDigits leaf) • S leaf =
      ∑ leaf ∈ Finset.range p.N, p.amplitude tok.saR (p.latDigits leaf) • S' leaf :=
    Finset.sum_congr rfl fun leaf hleaf => by rw [h leaf (Finset.mem_range.1 hleaf)]
  unfold readout
  rw [hsum]

/-- The rows a batch-head may be left with. -/
def headRow (p : DecodeParams) (tok : Token dv) (slotOf : ℕ → Option ℕ) (deposit : Bool) (S : ℕ → Row dv) (leaf : ℕ) :
    Row dv :=
  if deposit = true ∧ (slotOf (leaf / 16)).isSome = true then p.stepRow tok S leaf else S leaf

section Launch

variable (h : p.Wf) (hw : ∀ l < p.D, ∃ e, p.levelWidth l = 2 ^ e) (hn : 1 ≤ nSplit) (hfits : p.Fits nSplit)
  {atoms : ℕ} (hN : p.N = atoms * 16)
include h hw hn hfits hN

theorem walkHead_rows {tok : Token dv} {slotOf : ℕ → Option ℕ} (hinj : SlotsInj slotOf atoms) (deposit : Bool)
    (ws : ℕ → Row dv) (pages : ℕ → StatePage dv) : ∃ pages', p.walkHead tok slotOf nSplit eps deposit ws pages =
      some (pages', p.readout tok eps (leafRow slotOf pages')) ∧
    (∀ leaf < p.N, leafRow slotOf pages' leaf = p.headRow tok slotOf deposit (leafRow slotOf pages) leaf) ∧
    ∀ slot, (∀ a < atoms, slotOf a ≠ some slot) → pages' slot = pages slot := by
  refine ⟨p.visitPages tok slotOf deposit pages (p.headVisits tok.masks nSplit), ?_, fun leaf hleaf => ?_,
    fun slot hother => h.visitPages_other hw hn hfits hN hother⟩
  · rw [h.walkHead_eq hw hn hfits (h.headVisits_apart hw hn hfits tok.masks hN hinj),
      h.visitSum_eq hw hn hfits hN hinj]
    rfl
  · rw [h.leafRow_visitPages hw hn hfits hN hinj hleaf]
    unfold headRow stepRow
    by_cases hwr : p.amplitude tok.saW (p.latDigits leaf) = 0
    · simp [hwr]
    · simp [hwr]

/-- Batch-heads one after the other, each on rows of its own. -/
theorem foldlM_heads {BH : ℕ} {toks : ℕ → Token dv} {slotOf : ℕ → ℕ → Option ℕ} {active deposit : ℕ → Bool}
    {ws : ℕ → ℕ → Row dv} {pages : ℕ → StatePage dv} {y : ℕ → Fin dv → ℚ}
    (hinj : ∀ bh < BH, ∀ bh' < BH, ∀ a < atoms, ∀ a' < atoms, ∀ slot, slotOf bh a = some slot →
      slotOf bh' a' = some slot → bh = bh' ∧ a = a') : ∃ pages' y',
    (List.range BH).foldlM (fun (st : (ℕ → StatePage dv) × (ℕ → Fin dv → ℚ)) bh =>
      if active bh then (p.walkHead (toks bh) (slotOf bh) nSplit eps (deposit bh) (ws bh) st.1).map fun r =>
        (r.1, Function.update st.2 bh r.2)
      else some st) (pages, y) = some (pages', y') ∧
    ∀ bh < BH, (active bh = true → y' bh = p.readout (toks bh) eps (leafRow (slotOf bh) pages')) ∧
      ∀ leaf < p.N, leafRow (slotOf bh) pages' leaf =
        p.headRow (toks bh) (slotOf bh) (active bh && deposit bh) (leafRow (slotOf bh) pages) leaf := by
  have hrun : ∀ n ≤ BH, ∃ pages' y',
      (List.range n).foldlM (fun (st : (ℕ → StatePage dv) × (ℕ → Fin dv → ℚ)) bh =>
        if active bh then (p.walkHead (toks bh) (slotOf bh) nSplit eps (deposit bh) (ws bh) st.1).map fun r =>
          (r.1, Function.update st.2 bh r.2)
        else some st) (pages, y) = some (pages', y') ∧
      (∀ bh < n, active bh = true → y' bh = p.readout (toks bh) eps (leafRow (slotOf bh) pages')) ∧
      ∀ bh < BH, ∀ leaf < p.N, leafRow (slotOf bh) pages' leaf =
        p.headRow (toks bh) (slotOf bh) (decide (bh < n) && (active bh && deposit bh)) (leafRow (slotOf bh) pages) leaf := by
    intro n hle
    induction n with
    | zero => exact ⟨pages, y, rfl, fun bh hbh => absurd hbh (Nat.not_lt_zero _), fun bh _ leaf _ => by simp [headRow]⟩
    | succ n ih =>
      obtain ⟨mid, ymid, hmid, hread, hrows⟩ := ih (by omega)
      rcases hact : active n with _ | _
      · refine ⟨mid, ymid, ?_, fun bh hbh hb => ?_, fun bh hbh leaf hleaf => ?_⟩
        · rw [List.range_succ, List.foldlM_append, hmid]
          simp [hact]
        · rcases Nat.lt_succ_iff_lt_or_eq.1 hbh with hlt | rfl
          · exact hread bh hlt hb
          · rw [hact] at hb
            cases hb
        · rw [hrows bh hbh leaf hleaf]
          congr 1
          rcases eq_or_ne bh n with rfl | hne
          · simp [hact]
          · congr 1
            exact decide_eq_decide.2 (by omega)
      · have hslots : SlotsInj (slotOf n) atoms := fun a ha a' ha' slot hs hs' =>
          (hinj n (by omega) n (by omega) a ha a' ha' slot hs hs').2
        obtain ⟨pages', hwalk, hown, hother⟩ := @DecodeParams.walkHead_rows _ _ _ eps h hw hn hfits _ hN (toks n) _ hslots (deposit n) (ws n) mid
        have hkeep : ∀ bh < BH, bh ≠ n → ∀ leaf < p.N, leafRow (slotOf bh) pages' leaf = leafRow (slotOf bh) mid leaf := by
          intro bh hbh hne leaf hleaf
          unfold leafRow
          rcases hslot : slotOf bh (leaf / 16) with _ | slot
          · rfl
          · dsimp only
            rw [hother slot fun a ha hs => hne ?_]
            exact (hinj bh hbh n (by omega) _ (by omega) a ha slot hslot hs).1
        refine ⟨pages', Function.update ymid n (p.readout (toks n) eps (leafRow (slotOf n) pages')), ?_,
          fun bh hbh hb => ?_, fun bh hbh leaf hleaf => ?_⟩
        · rw [List.range_succ, List.foldlM_append, hmid]
          simp [hact, hwalk]
        · rcases Nat.lt_succ_iff_lt_or_eq.1 hbh with hlt | rfl
          · rw [Function.update_of_ne hlt.ne, hread bh hlt hb]
            exact readout_congr fun leaf hleaf => (hkeep bh (by omega) hlt.ne leaf hleaf).symm
          · rw [Function.update_self]
        · rcases eq_or_ne bh n with rfl | hne
          · rw [hown leaf hleaf]
            have hsame : ∀ leaf < p.N, leafRow (slotOf bh) mid leaf = leafRow (slotOf bh) pages leaf := by
              intro leaf hleaf
              rw [hrows bh hbh leaf hleaf]
              simp [headRow]
            unfold headRow stepRow
            rw [hsame leaf hleaf, hact]
            simp
          · rw [hkeep bh hbh hne leaf hleaf, hrows bh hbh leaf hleaf]
            congr 1
            congr 1
            exact decide_eq_decide.2 (by omega)
  obtain ⟨pages', y', hrun', hread, hrows⟩ := hrun BH le_rfl
  refine ⟨pages', y', hrun', fun bh hbh => ⟨hread bh hbh, fun leaf hleaf => ?_⟩⟩
  rw [hrows bh hbh leaf hleaf]
  simp [hbh]

end Launch

end DecodeParams

end Rola
