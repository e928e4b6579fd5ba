import Rola.Seams
import Rola.VmmInv

/-!
# One call of the owner

Whatever the driver answers, a grow leaves the list and counters as they were or adds one chunk, and
a rollback's loop drops chunks from the end. A grow cannot absorb a refused cleanup, nor the loop a
refusal after its first unmapping.
-/

namespace Rola.Vmm

theorem check_ok {α : Type} (a : α) (operation : String) : check (.ok a : Answer α) operation = .ok a := rfl

namespace Geometry

variable {g : Geometry} {s : State} {requiredPages : ℤ}

/-! ### `grow` -/

theorem ceil_mul_le (hg : g.Valid) (required : ℕ) :
    required ≤ (required + g.chunkPages - 1) / g.chunkPages * g.chunkPages := by
  have hpos := hg.chunkPages_pos
  have hmod := Nat.div_add_mod (required + g.chunkPages - 1) g.chunkPages
  have hlt := Nat.mod_lt (required + g.chunkPages - 1) hpos
  rw [Nat.mul_comm] at hmod
  omega

theorem growth_cases (hg : g.Valid) {target : Option ℕ} (h : g.growth s requiredPages = .ok target) :
    (target = none ∧ requiredPages ≤ g.capacity s.mappedBytes) ∨
    ∃ targetBytes, target = some targetBytes ∧ s.mappedBytes < targetBytes ∧
      g.capacity s.mappedBytes < g.capacity targetBytes ∧ requiredPages ≤ g.capacity targetBytes ∧
      roundUp (g.capacity targetBytes * g.pageBytes) g.granularity = .ok targetBytes := by
  unfold growth at h
  split at h
  · cases h
  rename_i hrange
  push Not at hrange
  split at h
  · rename_i hle
    cases h
    exact .inl ⟨rfl, hle⟩
  rename_i hlt
  obtain ⟨bytes, hbytes, hsize⟩ := bind_ok.1 h
  obtain ⟨sized, hsized, hbound⟩ := bind_ok.1 hsize
  obtain ⟨targetBytes, hround, hrest⟩ := bind_ok.1 hbound
  clear h hsize hbound
  obtain ⟨-, rfl⟩ := checkedSize_eq_ok.1 hsized
  obtain rfl := checkedMul_eq_ok hbytes
  -- the pages the chunk is sized for are within the limit and at least what was asked
  generalize hpages : min g.denseLimitPages _ = pages at hround
  have hlimit : pages ≤ g.denseLimitPages := hpages ▸ min_le_left ..
  have hasked : requiredPages.toNat ≤ pages := by
    rw [← hpages]
    refine le_min (by omega) ((ceil_mul_le hg _).trans (Nat.mul_le_mul_right _ ?_))
    split <;> omega
  have hcap := hg.le_capacity hlimit (le_of_roundUp hround)
  split at hrest
  · rename_i hle
    cases hrest
    have := @capacity_mono g _ _ hle
    exact .inl ⟨rfl, by omega⟩
  split at hrest
  · cases hrest
  rename_i hgt _
  cases hrest
  exact .inr ⟨_, rfl, by omega, by omega, by omega, hg.roundUp_capacity hlimit hround⟩

/-- The chunk a grow to `targetBytes` adds. -/
def nextChunk (g : Geometry) (s : State) (targetBytes handle : ℕ) : Chunk :=
  ⟨g.address + s.mappedBytes, targetBytes - s.mappedBytes, handle⟩

/-- The state a chunk mapped up to `targetBytes` leaves. -/
def grown (g : Geometry) (s : State) (targetBytes handle : ℕ) : State :=
  ⟨s.chunks ++ [nextChunk g s targetBytes handle], targetBytes, targetBytes,
    s.regions ++ [(nextChunk g s targetBytes handle).region]⟩

/-- The state a chunk refused after its mapping leaves. -/
def unwound (g : Geometry) (s : State) (targetBytes : ℕ) (unmap : Answer Unit) : State :=
  let region := (nextChunk g s targetBytes 0).region
  { s with regions := unmapRegion (s.regions ++ [region]) region unmap }

/-- The call reaches the access right it is refused with the chunk mapped. -/
def Stranded (g : Geometry) (s : State) (d : GrowAnswers) : Prop :=
  d.create.isOk ∧ s.mappedBytes ≤ sizeMax - g.address ∧ d.map = .ok () ∧ d.access ≠ .ok ()

theorem mapChunk_cases (g : Geometry) (s : State) (targetBytes : ℕ) (d : GrowAnswers) :
    (∃ handle, ¬ Stranded g s d ∧ g.mapChunk s targetBytes d = (.ok (), grown g s targetBytes handle)) ∨
    (∃ e, ¬ Stranded g s d ∧ g.mapChunk s targetBytes d = (.error e, s)) ∨
    ∃ e, Stranded g s d ∧ g.mapChunk s targetBytes d = (.error e, unwound g s targetBytes d.unmap) := by
  unfold mapChunk Stranded
  rcases d.create with e | handle
  · exact .inr (.inl ⟨_, by simp [Except.isOk, Except.toBool], rfl⟩)
  · dsimp only [check_ok]
    split
    · rename_i hover
      exact .inr (.inl ⟨_, by omega, rfl⟩)
    · rename_i hfits
      rcases d.map with e | ⟨⟩
      · exact .inr (.inl ⟨_, by simp, rfl⟩)
      · rcases d.access with e | ⟨⟩
        · exact .inr (.inr ⟨_, ⟨rfl, by omega, rfl, by simp⟩, rfl⟩)
        · exact .inl ⟨handle, by simp, rfl⟩

/-- A grow that strands its chunk mapped is one whose cleanup the driver refuses as well. -/
def GrowMeets (g : Geometry) (s : State) (requiredPages : ℤ) (d : GrowAnswers) : Prop :=
  ∀ targetBytes, g.growth s requiredPages = .ok (some targetBytes) → Stranded g s d → d.unmap = .ok ()

theorem grow_cases (g : Geometry) (s : State) (requiredPages : ℤ) (d : GrowAnswers) :
    (∃ e, (∀ targetBytes, g.growth s requiredPages = .ok (some targetBytes) → ¬ Stranded g s d) ∧
      g.grow requiredPages d s = (.error e, s)) ∨
    (g.growth s requiredPages = .ok none ∧ g.grow requiredPages d s = (.ok (), s)) ∨
    (∃ targetBytes handle, g.growth s requiredPages = .ok (some targetBytes) ∧ ¬ Stranded g s d ∧
      g.grow requiredPages d s = (.ok (), grown g s targetBytes handle)) ∨
    ∃ targetBytes e, g.growth s requiredPages = .ok (some targetBytes) ∧ Stranded g s d ∧
      g.grow requiredPages d s = (.error e, unwound g s targetBytes d.unmap) := by
  unfold grow
  rcases h : g.growth s requiredPages with e | _ | targetBytes
  · refine .inl ⟨e, fun _ heq => ?_, rfl⟩
    cases heq
  · exact .inr (.inl ⟨rfl, rfl⟩)
  · rcases mapChunk_cases g s targetBytes d with ⟨handle, hs, hmap⟩ | ⟨e, hs, hmap⟩ | ⟨e, hs, hmap⟩
    · exact .inr (.inr (.inl ⟨targetBytes, handle, rfl, hs, hmap⟩))
    · exact .inl ⟨e, fun _ _ => hs, hmap⟩
    · exact .inr (.inr (.inr ⟨targetBytes, e, rfl, hs, hmap⟩))

theorem grow_error {d : GrowAnswers} {e : String} (h : (g.grow requiredPages d s).1 = .error e) :
    (g.grow requiredPages d s).2.chunks = s.chunks ∧
      (g.grow requiredPages d s).2.mappedBytes = s.mappedBytes ∧
      (g.grow requiredPages d s).2.committedBytes = s.committedBytes := by
  rcases grow_cases g s requiredPages d with
    ⟨e, -, hgrow⟩ | ⟨-, hgrow⟩ | ⟨targetBytes, handle, -, -, hgrow⟩ | ⟨targetBytes, e, -, -, hgrow⟩
  all_goals rw [hgrow] at h ⊢
  · exact ⟨rfl, rfl, rfl⟩
  · cases h
  · cases h
  · exact ⟨rfl, rfl, rfl⟩

theorem grow_ok (hg : g.Valid) {d : GrowAnswers} {u : Unit} (h : (g.grow requiredPages d s).1 = .ok u) :
    requiredPages ≤ g.capacity (g.grow requiredPages d s).2.mappedBytes := by
  rcases grow_cases g s requiredPages d with
    ⟨e, -, hgrow⟩ | ⟨hgrowth, hgrow⟩ | ⟨targetBytes, handle, hgrowth, -, hgrow⟩ | ⟨targetBytes, e, -, -, hgrow⟩
  all_goals rw [hgrow] at h ⊢
  · cases h
  · obtain ⟨-, hle⟩ | ⟨_, heq, -⟩ := growth_cases hg hgrowth
    · exact hle
    · cases heq
  · obtain ⟨heq, -⟩ | ⟨_, heq, -, -, hle, -⟩ := growth_cases hg hgrowth
    · cases heq
    · cases heq
      exact hle
  · cases h

theorem grow_chunks (g : Geometry) (s : State) (requiredPages : ℤ) (d : GrowAnswers) :
    s.chunks <+: (g.grow requiredPages d s).2.chunks := by
  rcases grow_cases g s requiredPages d with
    ⟨e, -, hgrow⟩ | ⟨-, hgrow⟩ | ⟨targetBytes, handle, -, -, hgrow⟩ | ⟨targetBytes, e, -, -, hgrow⟩
  all_goals rw [hgrow]
  · exact List.prefix_append ..
  · exact List.prefix_rfl

theorem nextChunk_stacked (hg : g.Valid) (h : Held g s) {targetBytes handle : ℕ}
    (hgrowth : g.growth s requiredPages = .ok (some targetBytes)) :
    Stacked g 0 (s.chunks ++ [nextChunk g s targetBytes handle]) ∧ s.mappedBytes < targetBytes := by
  obtain ⟨heq, -⟩ | ⟨_, heq, hlt, hcap, -, hround⟩ := growth_cases hg hgrowth
  · cases heq
  cases heq
  have hend : s.mappedBytes + (targetBytes - s.mappedBytes) = targetBytes := by omega
  refine ⟨stacked_append.2 ⟨h.stacked, ?_⟩, hlt⟩
  rw [Nat.zero_add, ← h.mapped]
  refine ⟨rfl, ?_, ?_, trivial⟩
  · simpa only [nextChunk, hend] using hcap
  · simpa only [nextChunk, hend] using hround

theorem grow_settled (hg : g.Valid) (h : Settled g s) {d : GrowAnswers} (hmeets : GrowMeets g s requiredPages d) :
    Settled g (g.grow requiredPages d s).2 := by
  rcases grow_cases g s requiredPages d with
    ⟨e, -, hgrow⟩ | ⟨-, hgrow⟩ | ⟨targetBytes, handle, hgrowth, -, hgrow⟩ | ⟨targetBytes, e, hgrowth, hs, hgrow⟩
  all_goals rw [hgrow]
  · exact h
  · exact h
  · obtain ⟨hstacked, hlt⟩ := nextChunk_stacked hg h.toHeld hgrowth
    have hend : targetBytes = extent (s.chunks ++ [nextChunk g s targetBytes handle]) := by
      simp only [extent_append, extent_cons, extent_nil, ← h.mapped, nextChunk]
      omega
    exact ⟨⟨hstacked, by simp [grown, h.regions], hend⟩, hend⟩
  · -- the cleanup took the region the mapping added
    obtain ⟨hstacked, -⟩ := @nextChunk_stacked _ _ _ hg h.toHeld _ 0 hgrowth
    have hregions : (unwound g s targetBytes d.unmap).regions = s.regions := by
      have hnotMem := hstacked.region_notMem
      rw [← h.regions] at hnotMem
      simp only [unwound, hmeets targetBytes hgrowth hs, unmapRegion]
      rw [List.erase_append_right _ hnotMem]
      simp
    exact ⟨⟨h.stacked, hregions.trans h.regions, h.mapped⟩, h.committed⟩

theorem grow_not_good (h : Held g s) {d : GrowAnswers} (hmeets : ¬ GrowMeets g s requiredPages d) :
    ¬ Good g (g.grow requiredPages d s).2 := by
  unfold GrowMeets at hmeets
  push Not at hmeets
  obtain ⟨targetBytes, hgrowth, hs, hunmap⟩ := hmeets
  rcases grow_cases g s requiredPages d with
    ⟨e, hns, -⟩ | ⟨hnone, -⟩ | ⟨_, _, -, hns, -⟩ | ⟨targetBytes', e, hgrowth', -, hgrow⟩
  · exact absurd hs (hns targetBytes hgrowth)
  · rw [hgrowth] at hnone
    cases hnone
  · exact absurd hs hns
  · intro hgood
    rw [hgrow] at hgood
    have hlength := congrArg List.length hgood.regions
    rcases hunmap' : d.unmap with e | ⟨⟩
    · simp [unwound, hunmap', unmapRegion, h.regions] at hlength
    · exact hunmap hunmap'

/-! ### `rollback_to` -/

theorem removeLatestChunk_eq (h : Held g s) {front : List Chunk} {c : Chunk} (hchunks : s.chunks = front ++ [c])
    (unmap release : Answer Unit) :
    (g.removeLatestChunk unmap release s).2 =
        (if unmap ≠ .ok () then s
        else if release ≠ .ok () then { s with regions := front.map Chunk.region }
        else { s with chunks := front, mappedBytes := extent front, regions := front.map Chunk.region }) ∧
      ((g.removeLatestChunk unmap release s).1.isOk ↔ unmap = .ok () ∧ release = .ok ()) := by
  have hstacked := h.stacked
  rw [hchunks] at hstacked
  have herase : s.regions.erase c.region = front.map Chunk.region := by
    rw [h.regions, hchunks, List.map_append, List.erase_append_right _ hstacked.region_notMem]
    simp
  have hmapped : s.mappedBytes = extent front + c.bytes := by
    rw [h.mapped, hchunks]
    simp
  have haddress : c.address + c.bytes = g.address + s.mappedBytes := by
    rw [((stacked_append.1 hstacked).2).1, hmapped]
    omega
  unfold removeLatestChunk
  rw [hchunks, List.getLast?_append]
  simp only [List.getLast?_singleton, Option.some_or, haddress, ne_eq, not_true, if_false, herase]
  rcases unmap with e | ⟨⟩
  · simp [check, Except.mapError, Except.isOk, Except.toBool]
  · rcases release with e | ⟨⟩
    · simp [check, Except.mapError, Except.isOk, Except.toBool]
    · simp [check, Except.mapError, Except.isOk, Except.toBool, hmapped]

/-- The state with only the chunks of `front` left, its committed bytes not yet brought up to date. -/
def cutTo (s : State) (front : List Chunk) : State :=
  { s with chunks := front, mappedBytes := extent front, regions := front.map Chunk.region }

theorem cutTo_held (h : Held g s) {front back : List Chunk} (hchunks : s.chunks = front ++ back) :
    Held g (cutTo s front) := by
  refine ⟨?_, rfl, rfl⟩
  have := h.stacked
  rw [hchunks] at this
  exact (stacked_append.1 this).1

/-- A removal the driver answers leaves the rest; one it refuses leaves the chunk listed, and
unmapped where only the release failed. -/
theorem removeDown_succ (h : Held g s) {front : List Chunk} {c : Chunk} (hchunks : s.chunks = front ++ [c])
    {target : ℕ} (htarget : target < s.mappedBytes) (d : RollbackAnswers) (turns removed : ℕ) :
    (d.unmap removed ≠ .ok () ∧ ∃ e, g.removeDown target d (turns + 1) removed s = (.error e, s)) ∨
    (d.unmap removed = .ok () ∧ d.release removed ≠ .ok () ∧ ∃ e,
      g.removeDown target d (turns + 1) removed s =
        (.error e, { s with regions := front.map Chunk.region })) ∨
    (d.unmap removed = .ok () ∧ d.release removed = .ok () ∧
      g.removeDown target d (turns + 1) removed s =
        g.removeDown target d turns (removed + 1) (cutTo s front)) := by
  obtain ⟨hstate, hok⟩ := removeLatestChunk_eq h hchunks (d.unmap removed) (d.release removed)
  rw [removeDown, if_pos htarget]
  rcases hremove : g.removeLatestChunk (d.unmap removed) (d.release removed) s with ⟨e | ⟨⟩, s'⟩
  all_goals
    rw [hremove] at hstate hok
    simp only [Except.isOk, Except.toBool, Bool.false_eq_true, false_iff, true_iff, not_and] at hstate hok
  · by_cases hunmap : d.unmap removed = .ok ()
    · rw [if_neg (by simpa using hunmap), if_pos (hok hunmap)] at hstate
      exact .inr (.inl ⟨hunmap, hok hunmap, e, by rw [hstate]⟩)
    · rw [if_pos hunmap] at hstate
      exact .inl ⟨hunmap, e, by rw [hstate]⟩
  · obtain ⟨hunmap, hrelease⟩ := hok
    rw [if_neg (by simpa using hunmap), if_neg (by simpa using hrelease)] at hstate
    exact .inr (.inr ⟨hunmap, hrelease, by rw [hstate]; rfl⟩)

theorem removeDown_ok {keep drop : List Chunk} {d : RollbackAnswers} {turns removed : ℕ} (h : Held g s)
    (hchunks : s.chunks = keep ++ drop) (hturns : drop.length ≤ turns)
    (hd : ∀ i < drop.length, d.unmap (removed + i) = .ok () ∧ d.release (removed + i) = .ok ()) :
    g.removeDown (extent keep) d turns removed s = (.ok (), cutTo s keep) := by
  induction drop using List.reverseRecOn generalizing s turns removed with
  | nil =>
    rw [List.append_nil] at hchunks
    have hmapped := h.mapped
    rw [hchunks] at hmapped
    have hcut : cutTo s keep = s := by
      rw [cutTo, ← hmapped, ← hchunks, ← h.regions]
    cases turns <;> simp [removeDown, hmapped, hcut]
  | append_singleton drop c ih =>
    rw [← List.append_assoc] at hchunks
    have hstacked := h.stacked
    rw [hchunks] at hstacked
    have hpos := (stacked_append.1 hstacked).2.bytes_pos
    have hlt : extent keep < s.mappedBytes := by
      rw [h.mapped, hchunks]
      simp only [extent_append, extent_cons, extent_nil]
      omega
    simp only [List.length_append, List.length_singleton] at hturns hd
    obtain ⟨turns, rfl⟩ : ∃ t, turns = t + 1 := ⟨turns - 1, by omega⟩
    obtain ⟨hunmap, hrelease⟩ := hd 0 (by omega)
    rcases removeDown_succ h hchunks hlt d turns removed with ⟨hno, -⟩ | ⟨-, hno, -⟩ | ⟨-, -, heq⟩
    · exact absurd hunmap hno
    · exact absurd hrelease hno
    · rw [heq, ih (cutTo_held h hchunks) rfl (by omega) fun i hi => ?_]
      · rfl
      · have := hd (i + 1) (by omega)
        rwa [show removed + 1 + i = removed + (i + 1) by omega]

/-- A removal refused after the first leaves a chunk unmapped or the committed bytes behind. -/
theorem removeDown_fails {keep drop : List Chunk} {d : RollbackAnswers} {turns removed : ℕ} (h : Held g s)
    (hchunks : s.chunks = keep ++ drop) (hturns : drop.length ≤ turns)
    (hd : ∃ i < drop.length, ¬ (d.unmap (removed + i) = .ok () ∧ d.release (removed + i) = .ok ())) :
    let out := g.removeDown (extent keep) d turns removed s
    (∃ e, out.1 = .error e) ∧ out.2.committedBytes = s.committedBytes ∧
      (d.unmap removed ≠ .ok () → out.2 = s) ∧
      (d.unmap removed = .ok () →
        out.2.regions ≠ out.2.chunks.map Chunk.region ∨ extent out.2.chunks < extent s.chunks) := by
  induction drop using List.reverseRecOn generalizing s turns removed with
  | nil => simp at hd
  | append_singleton drop c ih =>
    rw [← List.append_assoc] at hchunks
    have hstacked := h.stacked
    rw [hchunks] at hstacked
    have hpos := (stacked_append.1 hstacked).2.bytes_pos
    have hlt : extent keep < s.mappedBytes := by
      rw [h.mapped, hchunks]
      simp only [extent_append, extent_cons, extent_nil]
      omega
    simp only [List.length_append, List.length_singleton] at hturns hd
    obtain ⟨turns, rfl⟩ : ∃ t, turns = t + 1 := ⟨turns - 1, by omega⟩
    rcases removeDown_succ h hchunks hlt d turns removed with
      ⟨hno, e, heq⟩ | ⟨hunmap, -, e, heq⟩ | ⟨hunmap, hrelease, heq⟩
    · rw [heq]
      exact ⟨⟨e, rfl⟩, rfl, fun _ => rfl, fun hyes => absurd hyes hno⟩
    · rw [heq]
      refine ⟨⟨e, rfl⟩, rfl, fun hno => absurd hunmap hno, fun _ => .inl fun hmap => ?_⟩
      have := congrArg List.length hmap
      simp [hchunks] at this
    · obtain ⟨i, hi, hfail⟩ := hd
      obtain ⟨i, rfl⟩ : ∃ k, i = k + 1 := by
        rcases i with - | k
        · exact absurd ⟨hunmap, hrelease⟩ hfail
        · exact ⟨k, rfl⟩
      have hfails : ∃ i < drop.length,
          ¬ (d.unmap (removed + 1 + i) = .ok () ∧ d.release (removed + 1 + i) = .ok ()) :=
        ⟨i, by omega, by rwa [show removed + 1 + i = removed + (i + 1) by omega]⟩
      obtain ⟨herror, hcommitted, hfirst, hlater⟩ :=
        ih (cutTo_held h hchunks) rfl (show drop.length ≤ turns by omega) hfails
      have hless : extent (cutTo s (keep ++ drop)).chunks < extent s.chunks := by
        simp only [cutTo, hchunks, extent_append, extent_cons, extent_nil]
        omega
      rw [heq]
      refine ⟨herror, hcommitted, fun hno => absurd hunmap hno, fun _ => ?_⟩
      by_cases hnext : d.unmap (removed + 1) = .ok ()
      · exact (hlater hnext).imp id fun hlt => hlt.trans hless
      · rw [hfirst hnext]
        exact .inr hless

end Geometry

end Rola.Vmm
