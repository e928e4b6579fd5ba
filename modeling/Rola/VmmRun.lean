import Mathlib.Data.List.Infix
import Rola.VmmRollback

/-!
# Runs of grows and rollbacks

From an owner `create` returned, the bookkeeping holds after every call exactly while no call meets a
refusal it cannot absorb; and then a rollback to a capacity reported before restores that moment.
-/

namespace Rola.Vmm
open Geometry

inductive Call where
  | grow (requiredPages : ℤ) (d : GrowAnswers)
  | rollbackTo (targetPages : ℤ) (d : RollbackAnswers)

def Call.apply (g : Geometry) (s : State) : Call → State
  | .grow requiredPages d => (g.grow requiredPages d s).2
  | .rollbackTo targetPages d => (g.rollbackTo targetPages d s).2

/-- What the call can absorb of the driver's answers. -/
def Call.Meets (g : Geometry) (s : State) : Call → Prop
  | .grow requiredPages d => GrowMeets g s requiredPages d
  | .rollbackTo targetPages d => RollbackMeets g s targetPages d

/-- The state after a list of calls, failed ones included. -/
def after (g : Geometry) (s : State) (calls : List Call) : State := calls.foldl (Call.apply g) s

variable {g : Geometry} {s : State} {calls : List Call} {call : Call}

@[simp] theorem after_nil : after g s [] = s := rfl

@[simp] theorem after_concat : after g s (calls ++ [call]) = call.apply g (after g s calls) := by
  simp [after]

theorem after_append (xs ys : List Call) : after g s (xs ++ ys) = after g (after g s xs) ys := by
  simp [after]

/-- What a caller relies on over a run: the bookkeeping after every call, what a grow promises, and
that a rollback to a capacity reported earlier, the mapping never below it since, restores that
moment. -/
structure Kept (g : Geometry) (s : State) (calls : List Call) : Prop where
  good : ∀ pre, pre <+: calls → Good g (after g s pre)
  grows : ∀ pre, pre <+: calls → ∀ requiredPages d u, (g.grow requiredPages d (after g s pre)).1 = .ok u →
    requiredPages ≤ g.capacity (g.grow requiredPages d (after g s pre)).2.mappedBytes
  unchanged : ∀ pre, pre <+: calls → ∀ requiredPages d e, (g.grow requiredPages d (after g s pre)).1 = .error e →
    (g.grow requiredPages d (after g s pre)).2.chunks = (after g s pre).chunks ∧
    (g.grow requiredPages d (after g s pre)).2.mappedBytes = (after g s pre).mappedBytes ∧
    (g.grow requiredPages d (after g s pre)).2.committedBytes = (after g s pre).committedBytes
  restores : ∀ pre since, pre ++ since <+: calls →
    (∀ mid, mid <+: since → g.capacity (after g s pre).mappedBytes ≤ g.capacity (after g s (pre ++ mid)).mappedBytes) →
    ∀ d : RollbackAnswers, d.synchronize = .ok () → (∀ i, d.unmap i = .ok () ∧ d.release i = .ok ()) →
    g.rollbackTo (g.capacity (after g s pre).mappedBytes) d (after g s (pre ++ since)) = (.ok (), after g s pre)

/-! ### One call -/

theorem Call.apply_inv (hg : g.Valid) (h : Inv g s) (hmeets : call.Meets g s) : Inv g (call.apply g s) := by
  cases call with
  | grow requiredPages d =>
    refine ⟨grow_settled hg h.toSettled hmeets, fun hnil => h.nonempty ?_⟩
    have := grow_chunks g s requiredPages d
    rw [show (g.grow requiredPages d s).2.chunks = [] from hnil] at this
    exact List.prefix_nil.1 this
  | rollbackTo targetPages d => exact (rollbackTo_inv h hmeets).1

theorem Call.meets_of_good (h : Inv g s) (hgood : Good g (call.apply g s)) : call.Meets g s := by
  by_contra hmeets
  cases call with
  | grow requiredPages d => exact grow_not_good h.toHeld hmeets hgood
  | rollbackTo targetPages d => exact rollbackTo_not_good h hmeets hgood

/-- A call that leaves the mapping at what part of the list reported leaves that part. -/
theorem Call.prefix_apply (h : Inv g s) (hmeets : call.Meets g s) {keep : List Chunk}
    (hkeep : keep <+: s.chunks)
    (hcap : g.capacity (extent keep) ≤ g.capacity (call.apply g s).mappedBytes) :
    keep <+: (call.apply g s).chunks := by
  cases call with
  | grow requiredPages d => exact hkeep.trans (grow_chunks g s requiredPages d)
  | rollbackTo targetPages d =>
    obtain ⟨hinv, hprefix⟩ := rollbackTo_inv h hmeets
    rcases List.prefix_or_prefix_of_prefix hkeep hprefix with hle | ⟨rest, hrest⟩
    · exact hle
    · -- cut below `keep`, the mapping would hold fewer pages
      rcases eq_or_ne rest [] with rfl | hne
      · rw [List.append_nil] at hrest
        exact ⟨[], by rw [List.append_nil]; exact hrest.symm⟩
      · obtain ⟨drop, hdrop⟩ := hkeep
        have hstacked := h.stacked
        rw [← hdrop, ← hrest, List.append_assoc] at hstacked
        have hlt := (stacked_append.1 (stacked_append.1 hstacked).2).1.capacity_lt hne
        rw [Nat.zero_add, ← hinv.mapped] at hlt
        rw [← hrest, extent_append, ← hinv.mapped] at hcap
        exact absurd hcap (not_le.2 hlt)

/-! ### A run -/

/-- Every call of the run can absorb what it meets. -/
def Meets (g : Geometry) (s : State) (calls : List Call) : Prop :=
  ∀ pre call, pre ++ [call] <+: calls → call.Meets g (after g s pre)

theorem Meets.of_prefix {pre : List Call} (h : Meets g s calls) (hpre : pre <+: calls) : Meets g s pre :=
  fun front call hfront => h front call (hfront.trans hpre)

theorem after_inv (hg : g.Valid) (h : Inv g s) (hmeets : Meets g s calls) : Inv g (after g s calls) := by
  induction calls using List.reverseRecOn with
  | nil => exact h
  | append_singleton calls call ih =>
    rw [after_concat]
    exact Call.apply_inv hg (ih (hmeets.of_prefix (List.prefix_append ..)))
      (hmeets calls call List.prefix_rfl)

/-- While the mapping is never below what part of the list reported, the part stays. -/
theorem prefix_after (hg : g.Valid) (h : Inv g s) (hmeets : Meets g s calls) {keep : List Chunk}
    (hkeep : keep <+: s.chunks)
    (hcap : ∀ mid, mid <+: calls → g.capacity (extent keep) ≤ g.capacity (after g s mid).mappedBytes) :
    keep <+: (after g s calls).chunks := by
  induction calls using List.reverseRecOn with
  | nil => exact hkeep
  | append_singleton calls call ih =>
    have hpre : calls <+: calls ++ [call] := List.prefix_append ..
    have hmeets' := hmeets.of_prefix hpre
    have hlast := hcap _ List.prefix_rfl
    rw [after_concat] at hlast ⊢
    exact Call.prefix_apply (after_inv hg h hmeets') (hmeets calls call List.prefix_rfl)
      (ih hmeets' fun mid hmid => hcap mid (hmid.trans hpre)) hlast

theorem meets_of_good (hg : g.Valid) (h : Inv g s) (hgood : ∀ pre, pre <+: calls → Good g (after g s pre)) :
    Meets g s calls := by
  induction calls using List.reverseRecOn with
  | nil =>
    intro pre call hpre
    simp at hpre
  | append_singleton calls call ih =>
    have hmeets := ih fun pre hpre => hgood pre (hpre.trans (List.prefix_append ..))
    intro pre last hpre
    rcases List.prefix_concat_iff.1 hpre with heq | hpre'
    · obtain ⟨rfl, hcall⟩ := List.append_inj' heq rfl
      cases hcall
      refine Call.meets_of_good (after_inv hg h hmeets) ?_
      have := hgood _ List.prefix_rfl
      rwa [after_concat] at this
    · exact hmeets pre last hpre'

theorem kept_of_meets (hg : g.Valid) (h : Inv g s) (hmeets : Meets g s calls) : Kept g s calls where
  good pre hpre := (after_inv hg h (hmeets.of_prefix hpre)).good hg
  grows pre _ requiredPages d u hok := grow_ok hg hok
  unchanged pre _ requiredPages d e herror := grow_error herror
  restores pre since hpre hcap d hsync hd := by
    have hinv := after_inv hg h (hmeets.of_prefix ((List.prefix_append ..).trans hpre))
    have hmeets' : Meets g (after g s pre) since := by
      intro front call hfront
      rw [← after_append]
      refine hmeets (pre ++ front) call (List.IsPrefix.trans ?_ hpre)
      rw [List.append_assoc]
      exact (List.prefix_append_right_inj pre).2 hfront
    rw [after_append]
    rw [hinv.mapped] at hcap ⊢
    simp only [after_append] at hcap
    obtain ⟨drop, hdrop⟩ := prefix_after hg hinv hmeets' List.prefix_rfl hcap
    rw [rollbackTo_restores hg (after_inv hg hinv hmeets') hdrop.symm hinv.nonempty hsync hd]
    rw [← hinv.regions]
    nth_rewrite 1 [← hinv.mapped]
    rw [← hinv.committed]

/-! ### From `create` -/

section Create

variable {denseLimitPages pageRows pageCols targetChunkBytes : ℤ} {granularity : ℕ} {reserve : Answer ℕ}
  {d : GrowAnswers}

/-- The initial chunk holds at least a page, or the grow that maps it would have thrown. -/
theorem initial_inv (hg : g.Valid)
    (h : g.grow (min g.denseLimitPages g.chunkPages : ℕ) d ⟨[], 0, 0, []⟩ = (.ok (), s)) : Inv g s := by
  have hempty : Settled g ⟨[], 0, 0, []⟩ := ⟨⟨trivial, rfl, rfl⟩, rfl⟩
  have hmeets : GrowMeets g ⟨[], 0, 0, []⟩ (min g.denseLimitPages g.chunkPages : ℕ) d := by
    intro targetBytes hgrowth hs
    rcases grow_cases g ⟨[], 0, 0, []⟩ (min g.denseLimitPages g.chunkPages : ℕ) d with
      ⟨e, hns, -⟩ | ⟨hnone, -⟩ | ⟨_, _, -, hns, -⟩ | ⟨_, e, -, -, hgrow⟩
    · exact absurd hs (hns targetBytes hgrowth)
    · rw [hgrowth] at hnone
      cases hnone
    · exact absurd hs hns
    · rw [h] at hgrow
      cases hgrow
  have hsettled := grow_settled hg hempty hmeets
  have hok := @grow_ok g ⟨[], 0, 0, []⟩ _ hg d () (by rw [h])
  rw [h] at hsettled hok
  refine ⟨hsettled, fun hnil => ?_⟩
  have hzero := hsettled.mapped
  simp only [hnil, extent_nil] at hzero
  have hpos := hg.chunkPages_pos
  have hle := hg.chunkPages_le
  simp only [hzero, capacity_eq, Nat.zero_div, Nat.zero_min] at hok
  omega

theorem create_inv (h : create denseLimitPages pageRows pageCols targetChunkBytes granularity reserve d =
    .ok (g, s)) : g.Valid ∧ Inv g s := by
  unfold create at h
  obtain ⟨⟨hlimit, hrows, hcols⟩, h₁⟩ := require_bind_ok.1 h
  obtain ⟨-, h₂⟩ := require_bind_ok.1 h₁
  obtain ⟨-, h₃⟩ := require_bind_ok.1 h₂
  obtain ⟨elements, helements, h₄⟩ := bind_ok.1 h₃
  obtain ⟨bytes, hbytes, h₅⟩ := bind_ok.1 h₄
  obtain ⟨pageBytes, hpageBytes, h₆⟩ := bind_ok.1 h₅
  obtain ⟨payload, hpayload, h₇⟩ := bind_ok.1 h₆
  obtain ⟨sized, hsized, h₈⟩ := bind_ok.1 h₇
  obtain ⟨virtualBytes, hvirtual, h₉⟩ := bind_ok.1 h₈
  obtain ⟨address, -, hgrow⟩ := bind_ok.1 h₉
  clear h h₁ h₂ h₃ h₄ h₅ h₆ h₇ h₈ h₉
  obtain rfl := checkedMul_eq_ok helements
  obtain rfl := checkedMul_eq_ok hbytes
  obtain ⟨-, rfl⟩ := checkedSize_eq_ok.1 hpageBytes
  obtain ⟨-, rfl⟩ := checkedSize_eq_ok.1 hsized
  obtain rfl := checkedMul_eq_ok hpayload
  dsimp only at hgrow
  split at hgrow
  · cases hgrow
  rename_i hinitial
  cases hgrow
  have hvalid : Geometry.Valid ⟨address, denseLimitPages.toNat, pageRows.toNat * pageCols.toNat * 4, granularity,
      min denseLimitPages.toNat (max 1 (targetChunkBytes.toNat / (pageRows.toNat * pageCols.toNat * 4))),
      virtualBytes⟩ :=
    ⟨Nat.mul_pos (Nat.mul_pos (by omega) (by omega)) (by omega), by simp; omega, min_le_left .., hvirtual⟩
  exact ⟨hvalid, initial_inv hvalid hinitial⟩

/-- The bookkeeping of an owner `create` returned is kept over a run of calls exactly when every call
can absorb what the driver answers it. -/
theorem kept_iff (h : create denseLimitPages pageRows pageCols targetChunkBytes granularity reserve d =
    .ok (g, s)) (calls : List Call) : Kept g s calls ↔ Meets g s calls := by
  obtain ⟨hg, hinv⟩ := create_inv h
  exact ⟨fun hkept => meets_of_good hg hinv hkept.good, kept_of_meets hg hinv⟩

end Create

/-- Pages of four bytes, one to a chunk, eight in the reservation. -/
def tinyGeometry : Geometry := ⟨4096, 8, 4, 4, 1, 32⟩

def tinyState : State := ⟨[⟨4096, 4, 1⟩], 4, 4, [(4096, 4)]⟩

theorem create_tiny : create 8 1 1 4 4 (.ok 4096) ⟨.ok 1, .ok (), .ok (), .ok ()⟩ =
    .ok (tinyGeometry, tinyState) := rfl

theorem kept_iff_tiny : Kept tinyGeometry tinyState
    [.grow 2 ⟨.ok 2, .ok (), .error "CUDA_ERROR_UNKNOWN", .ok ()⟩] := by
  refine (kept_iff create_tiny _).2 fun pre call hpre => ?_
  obtain ⟨rest, hrest⟩ := hpre
  rw [List.append_assoc] at hrest
  obtain rfl : pre = [] := by
    rcases pre with - | ⟨c, pre⟩
    · rfl
    · simp at hrest
  cases hrest
  intro targetBytes _ _
  rfl

/-- Two grows, and a rollback to the initial chunk whose second unmapping the driver refuses: the
committed bytes stay those of three chunks when two are left. -/
theorem committed_stale :
    create 8 1 1 4 4 (.ok 4096) ⟨.ok 1, .ok (), .ok (), .ok ()⟩ = .ok (tinyGeometry, tinyState) ∧
    ¬ Kept tinyGeometry tinyState
      [.grow 2 ⟨.ok 2, .ok (), .ok (), .ok ()⟩, .grow 4 ⟨.ok 3, .ok (), .ok (), .ok ()⟩,
        .rollbackTo 1 ⟨.ok (), fun i => if i = 1 then .error "CUDA_ERROR_UNKNOWN" else .ok (),
          fun _ => .ok ()⟩] := by
  refine ⟨rfl, fun hkept => ?_⟩
  have := (hkept.good _ List.prefix_rfl).committed
  exact absurd this (by decide)

end Rola.Vmm
