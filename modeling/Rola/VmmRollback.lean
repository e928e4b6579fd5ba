import Rola.VmmSteps

/-!
# A rollback's target

The checks of `rollback_to` leave a target that is the end of a proper, nonempty part of the list;
and the capacity such a part reported is always one they accept.
-/

namespace Rola.Vmm
open Geometry

variable {g : Geometry} {s : State} {target m : ℕ}

/-! ### The boundaries -/

theorem findBoundary_cases {chunks : List Chunk} {boundary : ℕ} {found : Bool}
    (h : findBoundary target chunks boundary found = .ok true) :
    found = true ∨ ∃ keep drop, chunks = keep ++ drop ∧ keep ≠ [] ∧ boundary + extent keep = target := by
  induction chunks generalizing boundary found with
  | nil => exact .inl (Except.ok.inj h)
  | cons c chunks ih =>
    unfold findBoundary at h
    split at h
    · cases h
    · rcases ih h with hfound | ⟨keep, drop, rfl, -, hend⟩
      · simp only [Bool.or_eq_true, beq_iff_eq] at hfound
        exact hfound.imp id fun hend => ⟨[c], chunks, rfl, by simp, by simpa using hend⟩
      · refine .inr ⟨c :: keep, drop, rfl, by simp, ?_⟩
        simp only [extent_cons]
        omega

theorem findBoundary_eq {keep drop : List Chunk} {boundary : ℕ} {found : Bool}
    (hsize : boundary + extent (keep ++ drop) ≤ sizeMax) (hkeep : found = true ∨ keep ≠ [])
    (hend : boundary + extent keep = target) :
    findBoundary target (keep ++ drop) boundary found = .ok true := by
  induction keep generalizing boundary found with
  | nil =>
    have hfound : found = true := hkeep.resolve_right (by simp)
    rw [hfound]
    clear hend hkeep hfound
    induction drop generalizing boundary with
    | nil => rfl
    | cons c drop ih =>
      simp only [List.nil_append, extent_cons] at hsize ih ⊢
      rw [findBoundary, if_neg (by omega)]
      exact ih (by omega)
  | cons c keep ih =>
    simp only [List.cons_append, extent_cons] at hsize hend ⊢
    rw [findBoundary, if_neg (by omega)]
    refine ih (by omega) ?_ (by omega)
    rcases eq_or_ne keep [] with rfl | hne
    · left
      simp only [extent_nil] at hend
      simp [show boundary + c.bytes = target by omega]
    · exact .inr hne

theorem Stacked.mem_ends {xs : List Chunk} {c : Chunk} (h : Stacked g m xs) (hc : c ∈ xs) :
    g.address + m < c.address + c.bytes ∧ c.address + c.bytes ≤ g.address + (m + extent xs) := by
  obtain ⟨front, back, rfl⟩ := List.append_of_mem hc
  have hback := (stacked_append.1 h).2
  have hpos := hback.bytes_pos
  rw [hback.1]
  simp only [extent_append, extent_cons]
  omega

namespace Geometry

/-- The chunks that end past `target`. -/
def above (g : Geometry) (s : State) (target : ℕ) : ℕ :=
  (s.chunks.filter fun c => g.address + target < c.address + c.bytes).length

theorem above_eq (h : Held g s) {keep drop : List Chunk} (hchunks : s.chunks = keep ++ drop) :
    g.above s (extent keep) = drop.length := by
  have hstacked := h.stacked
  rw [hchunks] at hstacked
  obtain ⟨hkeep, hdrop⟩ := stacked_append.1 hstacked
  have hnone : keep.filter (fun c => g.address + extent keep < c.address + c.bytes) = [] := by
    refine List.filter_eq_nil_iff.2 fun c hc => ?_
    have := (hkeep.mem_ends hc).2
    simp only [decide_eq_true_eq]
    omega
  have hall : drop.filter (fun c => g.address + extent keep < c.address + c.bytes) = drop := by
    refine List.filter_eq_self.2 fun c hc => ?_
    have := (hdrop.mem_ends hc).1
    simp only [decide_eq_true_eq]
    omega
  rw [above, hchunks, List.filter_append, hnone, hall, List.nil_append]

/-! ### The checks -/

theorem rollbackTarget_cases (h : Held g s) {targetPages : ℤ} {synchronize : Answer Unit} {target : Option ℕ}
    (ht : g.rollbackTarget s targetPages synchronize = .ok target) :
    target = none ∨ ∃ keep drop, target = some (extent keep) ∧ s.chunks = keep ++ drop ∧ keep ≠ [] ∧
      drop ≠ [] ∧ g.capacity (extent keep) = targetPages := by
  unfold rollbackTarget at ht
  split at ht
  · cases ht
  split at ht
  · cases ht
  split at ht
  · cases ht
    exact .inl rfl
  rename_i hne
  obtain ⟨bytes, -, hsize⟩ := bind_ok.1 ht
  obtain ⟨sized, -, hbound⟩ := bind_ok.1 hsize
  obtain ⟨targetBytes, -, hchecks⟩ := bind_ok.1 hbound
  clear ht hsize hbound
  split at hchecks
  · cases hchecks
  rename_i hle
  split at hchecks
  · cases hchecks
  rename_i hcap
  obtain ⟨found, hfound, hrest⟩ := bind_ok.1 hchecks
  clear hchecks
  split at hrest
  · cases hrest
  rename_i hyes
  obtain rfl : found = true := by simpa using hyes
  obtain ⟨first, hfirst⟩ : ∃ first, s.chunks.head? = some first ∧ first.bytes ≤ targetBytes ∧
      target = some targetBytes := by
    split at hrest
    · cases hrest
    rename_i first hhead
    split at hrest
    · cases hrest
    cases hrest
    exact ⟨first, hhead, by omega, rfl⟩
  obtain ⟨hhead, hfits, rfl⟩ := hfirst
  have hpos : 0 < first.bytes := by
    have hstacked := h.stacked
    obtain ⟨tail, htail⟩ : ∃ tail, s.chunks = first :: tail := by
      cases hcs : s.chunks <;> simp_all
    rw [htail] at hstacked
    exact hstacked.bytes_pos
  obtain ⟨keep, drop, hchunks, hkeep, hend⟩ : ∃ keep drop, s.chunks = keep ++ drop ∧ keep ≠ [] ∧
      0 + extent keep = targetBytes := by
    rcases findBoundary_cases hfound with hzero | hboundary
    · simp only [beq_iff_eq] at hzero
      omega
    · exact hboundary
  obtain rfl : extent keep = targetBytes := by omega
  push Not at hcap
  have hcapacity : g.capacity (extent keep) = targetPages := by
    rw [capacity_eq]
    exact hcap.2
  refine .inr ⟨keep, drop, rfl, hchunks, hkeep, ?_, hcapacity⟩
  rintro rfl
  rw [List.append_nil] at hchunks
  exact hne (by rw [← hcapacity, h.mapped, hchunks])

/-- The capacity a nonempty part of the list reported is a target the checks accept. -/
theorem rollbackTarget_eq (hg : g.Valid) (h : Held g s) {keep drop : List Chunk} (hchunks : s.chunks = keep ++ drop)
    (hkeep : keep ≠ []) :
    g.rollbackTarget s (g.capacity (extent keep)) (.ok ()) =
      .ok (if drop = [] then none else some (extent keep)) := by
  have hstacked := h.stacked
  rw [hchunks] at hstacked
  have hround := (stacked_append.1 hstacked).1.roundUp_extent hkeep
  have hpages := (hg.payload_le (capacity_le g (extent keep))).trans (Nat.sub_le _ _)
  have hle : extent keep ≤ s.mappedBytes := by
    rw [h.mapped, hchunks]
    simp
  have hsize : extent (keep ++ drop) ≤ sizeMax := by
    have := hstacked.roundUp_extent (by simp [hkeep])
    rw [Nat.zero_add] at this
    exact roundUp_le_sizeMax this
  have hmono := @capacity_mono g _ _ hle
  rw [Nat.zero_add] at hround
  unfold rollbackTarget
  rw [if_neg (by omega), if_neg (by simp [Except.isOk, Except.toBool])]
  by_cases hdrop : drop = []
  · subst hdrop
    rw [List.append_nil] at hchunks
    rw [if_pos (by rw [h.mapped, hchunks]), if_pos rfl]
  · have hlt : g.capacity (extent keep) < g.capacity s.mappedBytes := by
      have := (stacked_append.1 hstacked).2.capacity_lt hdrop
      rwa [Nat.zero_add, ← extent_append, ← hchunks, ← h.mapped] at this
    rw [if_neg (by omega), if_neg hdrop, Int.toNat_natCast, checkedMul_of_le hpages]
    have hbytes := (@checkedSize_eq_ok _ _ "rollback extent").2 ⟨hpages, rfl⟩
    have hfound : findBoundary (extent keep) s.chunks 0 (extent keep == 0) = .ok true := by
      rw [hchunks]
      exact findBoundary_eq (by omega) (.inr hkeep) (by omega)
    obtain ⟨first, hhead, hfirst⟩ : ∃ first, s.chunks.head? = some first ∧ first.bytes ≤ extent keep := by
      cases keep with
      | nil => exact absurd rfl hkeep
      | cons c keep => exact ⟨c, by simp [hchunks], by simp⟩
    have hcapacity := hg.pageBytes_pos
    simp only [bind, Except.bind, hbytes, hround, hfound, hhead]
    rw [if_neg (by omega), if_neg, if_neg (by simp), if_neg (by omega)]
    rw [← capacity_eq]
    omega

/-! ### The whole call -/

/-- The driver refuses the first unmapping, or nothing of the removals. -/
def RollbackMeets (g : Geometry) (s : State) (targetPages : ℤ) (d : RollbackAnswers) : Prop :=
  ∀ target, g.rollbackTarget s targetPages d.synchronize = .ok (some target) →
    d.unmap 0 ≠ .ok () ∨ ∀ i < g.above s target, d.unmap i = .ok () ∧ d.release i = .ok ()

/-- `removeDown_fails` at the whole loop. -/
theorem removeDown_fails_all {keep drop : List Chunk} {d : RollbackAnswers} (h : Held g s)
    (hchunks : s.chunks = keep ++ drop)
    (hd : ∃ i < drop.length, ¬ (d.unmap i = .ok () ∧ d.release i = .ok ())) :
    let out := g.removeDown (extent keep) d s.chunks.length 0 s
    (∃ e, out.1 = .error e) ∧ out.2.committedBytes = s.committedBytes ∧
      (d.unmap 0 ≠ .ok () → out.2 = s) ∧
      (d.unmap 0 = .ok () →
        out.2.regions ≠ out.2.chunks.map Chunk.region ∨ extent out.2.chunks < extent s.chunks) :=
  removeDown_fails h hchunks (by simp [hchunks]) (by simpa only [Nat.zero_add] using hd)

/-- Every removal of the call's is answered. -/
theorem rollbackTo_removes {keep drop : List Chunk} {targetPages : ℤ} {d : RollbackAnswers} (h : Held g s)
    (ht : g.rollbackTarget s targetPages d.synchronize = .ok (some (extent keep)))
    (hchunks : s.chunks = keep ++ drop) (hcap : g.capacity (extent keep) = targetPages)
    (hd : ∀ i < drop.length, d.unmap i = .ok () ∧ d.release i = .ok ()) :
    g.rollbackTo targetPages d s =
      (.ok (), { cutTo s keep with committedBytes := extent keep }) := by
  have hremove : g.removeDown (extent keep) d s.chunks.length 0 s = (.ok (), cutTo s keep) :=
    removeDown_ok h hchunks (by simp [hchunks]) (by simpa using hd)
  unfold rollbackTo
  rw [ht]
  simp only [hremove, cutTo, hcap, ne_eq, not_true, if_false]

theorem rollbackTo_cases (g : Geometry) (h : Held g s) (targetPages : ℤ) (d : RollbackAnswers) :
    ((∀ target, g.rollbackTarget s targetPages d.synchronize ≠ .ok (some target)) ∧
      (g.rollbackTo targetPages d s).2 = s) ∨
    ∃ keep drop, g.rollbackTarget s targetPages d.synchronize = .ok (some (extent keep)) ∧
      s.chunks = keep ++ drop ∧ keep ≠ [] ∧ drop ≠ [] ∧
      (if ∀ i < drop.length, d.unmap i = .ok () ∧ d.release i = .ok () then
        g.rollbackTo targetPages d s = (.ok (), { cutTo s keep with committedBytes := extent keep })
      else (g.rollbackTo targetPages d s).2 = (g.removeDown (extent keep) d s.chunks.length 0 s).2) := by
  rcases ht : g.rollbackTarget s targetPages d.synchronize with e | _ | target
  · exact .inl ⟨by simp, by simp [rollbackTo, ht]⟩
  · exact .inl ⟨by simp, by simp [rollbackTo, ht]⟩
  · obtain heq | ⟨keep, drop, heq, hchunks, hkeep, hdrop, hcap⟩ := rollbackTarget_cases h ht
    · cases heq
    cases heq
    refine .inr ⟨keep, drop, rfl, hchunks, hkeep, hdrop, ?_⟩
    split
    · rename_i hd
      exact rollbackTo_removes h ht hchunks hcap hd
    · rename_i hd
      push Not at hd
      obtain ⟨i, hi, hfail⟩ := hd
      obtain ⟨⟨e, herror⟩, -⟩ := removeDown_fails_all h hchunks ⟨i, hi, not_and.2 hfail⟩
      unfold rollbackTo
      rw [ht]
      rcases hout : g.removeDown (extent keep) d s.chunks.length 0 s with ⟨e' | ⟨⟩, s'⟩
      · simp [hout]
      · rw [hout] at herror
        cases herror

theorem rollbackTo_inv (h : Inv g s) {targetPages : ℤ} {d : RollbackAnswers}
    (hmeets : RollbackMeets g s targetPages d) :
    Inv g (g.rollbackTo targetPages d s).2 ∧ (g.rollbackTo targetPages d s).2.chunks <+: s.chunks := by
  rcases rollbackTo_cases g h.toHeld targetPages d with ⟨-, hsame⟩ | ⟨keep, drop, ht, hchunks, hkeep, hdrop, hout⟩
  · rw [hsame]
    exact ⟨h, List.prefix_rfl⟩
  · split at hout
    · rw [hout]
      have hcut := cutTo_held h.toHeld hchunks
      exact ⟨⟨⟨⟨hcut.stacked, hcut.regions, hcut.mapped⟩, rfl⟩, hkeep⟩, drop, hchunks.symm⟩
    · rename_i hd
      rcases hmeets _ ht with hfirst | hall
      · push Not at hd
        obtain ⟨i, hi, hfail⟩ := hd
        obtain ⟨-, -, hsame, -⟩ := removeDown_fails_all h.toHeld hchunks ⟨i, hi, not_and.2 hfail⟩
        rw [hout, hsame hfirst]
        exact ⟨h, List.prefix_rfl⟩
      · rw [above_eq h.toHeld hchunks] at hall
        exact absurd hall hd

theorem rollbackTo_not_good (h : Inv g s) {targetPages : ℤ} {d : RollbackAnswers}
    (hmeets : ¬ RollbackMeets g s targetPages d) : ¬ Good g (g.rollbackTo targetPages d s).2 := by
  unfold RollbackMeets at hmeets
  push Not at hmeets
  obtain ⟨target, ht, hfirst, i, hi, hfail⟩ := hmeets
  rcases rollbackTo_cases g h.toHeld targetPages d with
    ⟨hnone, -⟩ | ⟨keep, drop, ht', hchunks, hkeep, hdrop, hout⟩
  · exact absurd ht (hnone target)
  · rw [ht] at ht'
    cases ht'
    rw [above_eq h.toHeld hchunks] at hi
    rw [if_neg fun hall => hfail (hall i hi).1 (hall i hi).2] at hout
    obtain ⟨-, hcommitted, -, hlater⟩ := removeDown_fails_all h.toHeld hchunks ⟨i, hi, not_and.2 hfail⟩
    rw [hout]
    intro hgood
    rcases hlater hfirst with hregions | hless
    · exact hregions hgood.regions
    · -- the committed bytes are still those of the longer list
      have := hgood.committed
      rw [hcommitted, h.committed] at this
      omega

/-- A rollback to what part of the list reported restores that part, where the driver does not
fail. -/
theorem rollbackTo_restores (hg : g.Valid) (h : Inv g s) {keep drop : List Chunk} (hchunks : s.chunks = keep ++ drop)
    (hkeep : keep ≠ []) {d : RollbackAnswers} (hsync : d.synchronize = .ok ())
    (hd : ∀ i, d.unmap i = .ok () ∧ d.release i = .ok ()) :
    g.rollbackTo (g.capacity (extent keep)) d s =
      (.ok (), ⟨keep, extent keep, extent keep, keep.map Chunk.region⟩) := by
  have ht := rollbackTarget_eq hg h.toHeld hchunks hkeep
  rw [← hsync] at ht
  split at ht
  · rename_i hdrop
    rw [hdrop, List.append_nil] at hchunks
    have hs : s = ⟨keep, extent keep, extent keep, keep.map Chunk.region⟩ := by
      rw [← hchunks, ← h.regions]
      nth_rewrite 1 [← h.mapped]
      rw [← h.committed]
    unfold rollbackTo
    rw [ht]
    exact congrArg _ hs
  · exact rollbackTo_removes h.toHeld ht hchunks rfl fun i _ => hd i

end Geometry

end Rola.Vmm
