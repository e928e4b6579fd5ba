import Rola.PoolInv

/-!
# The pool is safe

Over every order of the warps' moves: each slot's arrivals keep to their phase, so a warp's parity
tests say what they are asked, a take sees the fills it is the take of, and no copy goes into a slot
that is held.
-/

namespace Rola

open PhasedBarrier

namespace PoolWarp

variable {P : PoolRun} {r r' : PoolWarp} {v : PoolSeen} {e : PoolEffect}

/-- A warp passes a rendezvous it has come to when all have. -/
theorem next_passed (hn : r.next P v = some (r', e)) : r.arrived ≤ r'.arrived ∧
    (r'.passed = r.passed ∨ v.met = true ∧ r.waiting = true ∧ r'.passed = r.passed + 1) := by
  have hfill : ∀ after, (r.fillNow P after = some (r', e)) → r.waiting = false →
      r.arrived ≤ r'.arrived ∧ r'.passed = r.passed := by
    intro after hn hwait
    obtain ⟨k, -, hk⟩ := Option.map_eq_some_iff.1 hn
    cases hk
    simp [arrived, hwait]
  cases hpc : r.pc <;> simp only [next, hpc] at hn
  case fill => exact (hfill _ hn (by simp [waiting, hpc])).imp_right .inl
  case lateFill => exact (hfill _ hn (by simp [waiting, hpc])).imp_right .inl
  case waitFill => exact (hfill _ hn (by simp [waiting, hpc])).imp_right .inl
  case ctor =>
    split at hn
    · split at hn <;> cases hn
      simp [arrived, waiting, hpc]
    · cases hn
      simp [arrived, waiting, hpc]
  case take =>
    split at hn
    · cases hn
      simp [arrived, waiting, hpc]
    · split at hn <;> cases hn <;> simp [arrived, waiting, hpc]
  case finished => cases hn
  all_goals
    first
    | cases hn
      simp [arrived, waiting, hpc]
    | split at hn <;> cases hn
      simp_all [arrived, waiting]

end PoolWarp

namespace Pool

variable {W : ℕ} {P : PoolRun} {σ σ' : Pool W} {w w' : Fin W}

structure Inv (P : PoolRun) (σ : Pool W) : Prop where
  slot : ∀ s < kPoolSlots, (σ.slot s).Inv
  warp : ∀ w, (σ.warp w).Ok P (fun s => (σ.slot s).filled w) (fun s => (σ.slot s).released w)
    (fun s => (σ.slot s).empty.phase) fun s => (σ.slot s).full.phase
  met : ∀ w w', (σ.warp w).passed ≤ (σ.warp w').arrived

namespace Inv

variable {s : ℕ} (h : σ.Inv P)
include h

/-- The empty test is of the fill to come, and no other. -/
theorem slotEmpty_iff (w : Fin W) (hs : s < kPoolSlots) : (σ.warp w).slotEmpty (σ.seen w) s = true ↔
    ((σ.slot s).filled w).length ≤ (σ.slot s).empty.phase := by
  have : Nonempty (Fin W) := ⟨w⟩
  have hmod := (h.warp w).cursor.fills_mod s hs
  have hzero := (h.warp w).cursor.fills_zero s hs
  unfold PoolWarp.slotEmpty
  rw [decide_eq_true_eq, hzero]
  rcases Nat.eq_zero_or_pos ((σ.slot s).filled w).length with hn | hn
  · simp [hn]
  · have hpar : (fillsOf (σ.warp w).uses s - 1) % 2 = (((σ.slot s).filled w).length - 1) % 2 := by
      omega
    rw [hpar]
    have htest := (h.slot s hs).empty_test hn
    simp only [seen]
    rw [htest]
    omega

/-- The full test is of the take to come. -/
theorem slotFull_iff (w : Fin W) (hs : s < kPoolSlots) : (σ.warp w).slotFull (σ.seen w) s = true ↔
    (σ.slot s).released w < (σ.slot s).full.phase := by
  have hmod := (h.warp w).cursor.takes_mod s hs
  unfold PoolWarp.slotFull
  rw [hmod]
  exact (h.slot s hs).full_test w

end Inv

theorem Inv.start [Nonempty (Fin W)] (P : PoolRun) : (Pool.start W).Inv P where
  slot _ _ := Slot.Inv.fresh
  warp _ := PoolWarp.Ok.start
  met _ _ := le_rfl

/-- One slot's change, as the warps' other facts see it. -/
theorem Inv.update {s : ℕ} {x : PoolSlot W} (h : σ.Inv P) (hs : s < kPoolSlots) (hx : x.Inv)
    (hE : (σ.slot s).empty.phase ≤ x.empty.phase) (hF : (σ.slot s).full.phase ≤ x.full.phase)
    {warp : Fin W → PoolWarp} (hpassed : ∀ w w', (warp w).passed ≤ (warp w').arrived)
    (hwarp : ∀ w', warp w' = σ.warp w' ∧ x.filled w' = (σ.slot s).filled w' ∧
        x.released w' = (σ.slot s).released w' ∨
      (warp w').Ok P (Function.update (fun t => (σ.slot t).filled w') s (x.filled w'))
        (Function.update (fun t => (σ.slot t).released w') s (x.released w'))
        (fun t => (σ.slot t).empty.phase) fun t => (σ.slot t).full.phase) :
    Inv P { warp := warp, slot := Function.update σ.slot s x } where
  slot t ht := by
    rcases eq_or_ne t s with rfl | hne
    · simpa using hx
    · simpa [hne] using h.slot t ht
  warp w' := by
    have hfilled : (fun t => (Function.update σ.slot s x t).filled w') =
        Function.update (fun t => (σ.slot t).filled w') s (x.filled w') := by
      funext t
      rcases eq_or_ne t s with rfl | hne
      · simp
      · simp [hne]
    have hreleased : (fun t => (Function.update σ.slot s x t).released w') =
        Function.update (fun t => (σ.slot t).released w') s (x.released w') := by
      funext t
      rcases eq_or_ne t s with rfl | hne
      · simp
      · simp [hne]
    dsimp only
    rw [hfilled, hreleased]
    refine PoolWarp.Ok.mono (E := fun t => (σ.slot t).empty.phase)
      (F := fun t => (σ.slot t).full.phase) ?_ (fun t => ?_) (fun t => ?_)
    · rcases hwarp w' with ⟨heq, hfill, hrel⟩ | hok
      · rw [heq, hfill, hrel, Function.update_eq_self s fun t => (σ.slot t).filled w',
          Function.update_eq_self s fun t => (σ.slot t).released w']
        exact h.warp w'
      · exact hok
    · rcases eq_or_ne t s with rfl | hne
      · simpa using hE
      · simp [hne]
    · rcases eq_or_ne t s with rfl | hne
      · simpa using hF
      · simp [hne]
  met := hpassed

/-- A warp's action leaves every warp short of the rendezvous others have come to. -/
theorem Inv.met_update (h : σ.Inv P) {r : PoolWarp} {e : PoolEffect}
    (hn : (σ.warp w).next P (σ.seen w) = some (r, e)) (w₁ w₂ : Fin W) :
    (Function.update σ.warp w r w₁).passed ≤ (Function.update σ.warp w r w₂).arrived := by
  obtain ⟨harr, hpassed⟩ := PoolWarp.next_passed hn
  have hright : ∀ n, n ≤ (σ.warp w₂).arrived → n ≤ (Function.update σ.warp w r w₂).arrived := by
    intro n hle
    rcases eq_or_ne w₂ w with rfl | hne
    · simpa using hle.trans harr
    · simpa [hne] using hle
  refine hright _ ?_
  rcases eq_or_ne w₁ w with rfl | hne
  · rw [Function.update_self]
    rcases hpassed with heq | ⟨hmet, -, heq⟩
    · exact heq ▸ h.met w₁ w₂
    · have hall : ∀ w', (σ.warp w₁).passed < (σ.warp w').arrived := by simpa [seen] using hmet
      exact heq ▸ hall w₂
  · simpa [hne] using h.met w₁ w₂

theorem Inv.step (h : σ.Inv P) (hstep : Step P σ w σ') : σ'.Inv P := by
  have : Nonempty (Fin W) := ⟨w⟩
  cases hstep with
  | @act r e hn =>
    have hleft := (h.warp w).step (fun s hs => (h.slotEmpty_iff w hs).1)
      (fun s hs => (h.slotFull_iff w hs).1) (fun s hs => (h.slot s hs).full_le_filled w) hn
    have hmet := h.met_update hn
    cases e with
    | quiet =>
      refine ⟨h.slot, fun w' => ?_, hmet⟩
      rcases eq_or_ne w' w with rfl | hne
      · simpa [perform, PoolWarp.Left] using hleft
      · simpa [perform, hne] using h.warp w'
    | fill s k =>
      obtain ⟨hs, hE, hok⟩ := hleft
      refine h.update hs ((h.slot s hs).issue hE _) le_rfl le_rfl hmet fun w' => ?_
      rcases eq_or_ne w' w with rfl | hne
      · right
        simpa [Slot.issue] using hok
      · left
        simp [Slot.issue, hne]
    | release s =>
      obtain ⟨hs, hF, hok⟩ := hleft
      refine h.update hs ((h.slot s hs).release hF) (Barrier.phase_le_arrive _) le_rfl hmet
        fun w' => ?_
      rcases eq_or_ne w' w with rfl | hne
      · right
        simpa [Slot.release] using hok
      · left
        simp [Slot.release, hne]
  | @land lane s hs hl =>
    exact h.update hs ((h.slot s hs).land hl) le_rfl (Barrier.phase_le_arrive _) h.met
      fun w' => .inl ⟨rfl, rfl, rfl⟩

theorem Reachable.inv (h : Reachable P σ) [Nonempty (Fin W)] : σ.Inv P := by
  induction h with
  | start => exact Inv.start P
  | step _ hstep ih => exact ih.step hstep

end Pool

end Rola
