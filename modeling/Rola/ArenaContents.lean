import Rola.Admission
import Rola.StateInv

/-!
# What an arena holds

Slots, cursors and pools are how an arena stores; what it stores is a page for each atom, zero where
the table maps none. Every operation refines that view: a plan and a refill leave it alone, a
prefill's stores and a launch write the pages of the atoms they write, and nothing else changes.
-/

namespace Rola

namespace PageArena

variable {Page : Type} [Zero Page] {c : ArenaConfig} {s t : PageArena Page} {id : ℕ}

theorem gathered_of_some {slot : ℕ} (h : s.pageTable id = some slot) : s.gathered id = s.valueBase slot := by
  rw [gathered, h]

theorem gathered_of_none (h : s.pageTable id = none) : s.gathered id = 0 := by
  rw [gathered, h]

/-- A plan maps zero pages, and moves none. -/
theorem gathered_planWanted (h : Inv c s) {grow : Grow} {bits : ℕ → Bool} {res : PagingResult}
    (hplan : planWanted c grow bits s = (.ok res, t)) (hid : id < c.logicalPages) :
    t.gathered id = s.gathered id := by
  obtain ⟨first, hfirst, rfl⟩ := planWanted_ok hplan
  have hlo := (admission_ok hfirst h.next_le).1
  by_cases hmem : id ∈ wantedIds c s bits
  · rw [gathered_of_none (mem_wantedIds.1 hmem).2.2]
    have hslot := List.idxOf_lt_length_iff.2 hmem
    rw [gathered_of_some (s := { admitPages _ first s with next := _, peakPages := _ }) (if_pos hmem)]
    exact if_pos ⟨Nat.le_add_right _ _, Nat.add_lt_add_left hslot _⟩
  · have htab : (admitPages (wantedIds c s bits) first s).pageTable id = s.pageTable id := if_neg hmem
    unfold gathered
    dsimp only
    rw [htab]
    rcases hs : s.pageTable id with _ | slot
    · rfl
    · exact zeroRun_of_lt ((h.table_lt id hid slot hs).trans_le hlo)

theorem gathered_refillPool (h : Inv c s) {grow : Grow} {n : ℕ}
    (hrefill : refillPool c grow s = (.ok n, t)) (hid : id < c.logicalPages) :
    t.gathered id = s.gathered id := by
  rcases refillPool_ok hrefill with rfl | ⟨first, hfirst, rfl⟩
  · rfl
  · have hlo := (admission_ok hfirst h.next_le).1
    unfold gathered
    dsimp only
    rcases hs : s.pageTable id with _ | slot
    · rfl
    · exact zeroRun_of_lt ((h.table_lt id hid slot hs).trans_le hlo)

/-! ### Stores -/

/-- Stores by atom, through a table that does not alias. -/
theorem gathered_stores (hinj : ∀ id < c.logicalPages, ∀ id' < c.logicalPages, ∀ slot,
      s.pageTable id = some slot → s.pageTable id' = some slot → id = id') {store : ℕ → Page} {p : ℕ → Prop} [DecidablePred p]
    {ws : List (ℕ × Page)}
    (hws : ∀ w ∈ ws, ∃ id < c.logicalPages, p id ∧ s.pageTable id = some w.1 ∧ w.2 = store id)
    (hall : ∀ id < c.logicalPages, p id → ∀ slot, s.pageTable id = some slot → (slot, store id) ∈ ws)
    (hid : id < c.logicalPages) :
    gathered { s with valueBase := ws.foldl (fun base w => Function.update base w.1 w.2) s.valueBase } id =
      if p id ∧ s.pageTable id ≠ none then store id else s.gathered id := by
  unfold gathered
  dsimp only
  rcases htab : s.pageTable id with _ | slot
  · simp
  · dsimp only
    by_cases hp : p id
    · rw [if_pos ⟨hp, Option.some_ne_none _⟩]
      refine foldl_update_of_mem (hall id hid hp slot htab) fun w hw heq => ?_
      obtain ⟨id', hid', -, htab', hstore⟩ := hws w hw
      rw [hstore, hinj id' hid' id hid slot (heq ▸ htab') htab]
    · rw [if_neg fun hc => hp hc.1]
      refine foldl_update_of_not_mem fun w hw heq => hp ?_
      obtain ⟨id', hid', hp', htab', -⟩ := hws w hw
      exact hinj id' hid' id hid slot (heq ▸ htab') htab ▸ hp'

theorem gathered_storeWritten (h : Inv c s) (bits : ℕ → Bool) (store : ℕ → Page)
    (hid : id < c.logicalPages) : (RoLAState.storeWritten c bits store s).gathered id =
      if bits id = true ∧ s.pageTable id ≠ none then store id else s.gathered id := by
  refine gathered_stores h.table_inj (p := fun id => bits id = true) ?_ ?_ hid
  · intro w hw
    obtain ⟨id, hid, hmap⟩ := List.mem_filterMap.1 hw
    split at hmap
    · rename_i hbit
      obtain ⟨slot, hslot, rfl⟩ := Option.map_eq_some_iff.1 hmap
      exact ⟨id, List.mem_range.1 hid, hbit, hslot, rfl⟩
    · cases hmap
  · intro id hid hbit slot hslot
    refine List.mem_filterMap.2 ⟨id, List.mem_range.2 hid, ?_⟩
    rw [if_pos hbit, hslot]
    rfl

/-! ### A launch -/

variable {call : DecodeCall c Page}

/-- The atoms a step writes, as its device condensation publishes them. -/
def atomBits (call : DecodeCall c Page) (id : ℕ) : Bool :=
  decide (id % c.atomsPerBh ∈ call.cand (id / c.atomsPerBh))

omit [Zero Page] in
theorem atomBits_iff : atomBits call id = true ↔ id % c.atomsPerBh ∈ call.cand (id / c.atomsPerBh) := by
  simp [atomBits]

omit [Zero Page] in
/-- A written atom of a batch-head that deposits is mapped after the launch. -/
theorem foldRow_of_deposits {bh a : ℕ} (hd : s.deposits call bh = true) (ha : a ∈ call.cand bh) :
    s.foldRow call bh a ≠ none := by
  rcases htab : s.pageTable (c.atomId bh a) with _ | slot
  · have hmem : a ∈ s.wanted call bh := mem_wanted.2 ⟨ha, htab⟩
    have hpos : 0 < s.demand call bh := List.length_pos_of_mem hmem
    have hcl : s.claimed call bh = true := by
      simp only [deposits, needy, Bool.and_eq_true, Bool.not_eq_true'] at hd
      simpa [hd.1, hpos] using hd.2
    rw [foldRow, if_pos hcl, claimRow, if_pos ⟨hcl, hmem⟩, htab]
    exact Option.some_ne_none _
  · rw [foldRow_of_table htab]
    exact Option.some_ne_none _

/-- The fold maps zero pages, and moves none. -/
theorem gathered_fold (h : Sound c s) (hid : id < c.logicalPages) :
    gathered { s.decodeStep call with valueBase := s.valueBase } id = s.gathered id := by
  rcases htab : s.pageTable id with _ | slot
  · rw [gathered_of_none htab]
    rcases hfold : (s.decodeStep call).pageTable id with _ | slot
    · exact gathered_of_none hfold
    · rw [gathered_of_some (s := { s.decodeStep call with valueBase := s.valueBase }) hfold]
      rcases decodeStep_table (h.2.settled call) hid hfold with hold | ⟨bh, hbh, a, -, hcl, hmem, rfl⟩
      · rw [htab] at hold
        cases hold
      · exact h.1.pool_zero _ _ (unspent_claimPos hbh hcl hmem)
  · obtain ⟨hbh, ha, heq⟩ := split_id hid
    have hfold : (s.decodeStep call).pageTable id = some slot := by
      refine foldRow_of_table ?_
      rw [heq]
      exact htab
    rw [gathered_of_some htab]
    exact gathered_of_some (s := { s.decodeStep call with valueBase := s.valueBase }) hfold

theorem gathered_decodeStep (h : Sound c s) (hid : id < c.logicalPages) :
    (s.decodeStep call).gathered id =
      if s.deposits call (id / c.atomsPerBh) = true ∧ atomBits call id = true then call.store id
      else s.gathered id := by
  have hinv := h.1.decodeStep (h.2.settled call)
  have hstores := @PageArena.gathered_stores _ _ c ({ s.decodeStep call with valueBase := s.valueBase }) _ hinv.table_inj call.store (fun id => s.deposits call (id / c.atomsPerBh) = true ∧ atomBits call id = true) _ (s.stores call) ?_ ?_ hid
  · refine hstores.trans ?_
    rw [gathered_fold h hid]
    obtain ⟨hbh, ha, heq⟩ := split_id hid
    refine ite_congr (propext ⟨fun hp => hp.1, fun hp => ⟨hp, ?_⟩⟩) (fun _ => rfl) fun _ => rfl
    exact foldRow_of_deposits hp.1 (atomBits_iff.1 hp.2)
  · intro w hw
    obtain ⟨bh, hbh, a, ha, hdep, hslot, hstore⟩ := mem_stores hw
    have hlt := call.lt bh a ha
    obtain ⟨hdiv, hmod⟩ := @PageArena.atomId_div _ bh _ hlt
    refine ⟨c.atomId bh a, atomId_lt hbh hlt, ?_, ?_, hstore⟩
    · rw [atomBits_iff, hdiv, hmod]
      exact ⟨hdep, ha⟩
    · show s.foldRow call (c.atomId bh a / _) (c.atomId bh a % _) = _
      rw [hdiv, hmod]
      exact hslot
  · intro id hid hp slot hslot
    refine List.mem_flatMap.2 ⟨id / c.atomsPerBh, List.mem_range.2 (split_id hid).1, ?_⟩
    rw [if_pos hp.1]
    refine List.mem_filterMap.2 ⟨id % c.atomsPerBh, atomBits_iff.1 hp.2, ?_⟩
    have hfold : s.foldRow call (id / c.atomsPerBh) (id % c.atomsPerBh) = some slot := hslot
    rw [hfold, Option.map_some, (split_id hid).2.2]

/-! ### A whole step -/

/-- `decode_forward` on an arena: a launch, and where its verdict asks for one an admission of the
step's atoms and the same launch again, the batch-heads that ran marked done. -/
def decodeForward (grow : Grow) (call : DecodeCall c Page) (s : PageArena Page) :
    Except String Unit × PageArena Page :=
  let first := s.decodeStep call
  if (List.range c.BH).any (s.needy call) then
    match planExact c grow (ownBitmap c (atomBits call)) false first with
    | (.error err, t) => (.error err, t)
    | (.ok _, t) => (.ok (), t.decodeStep { call with done := fun bh => !s.needy call bh })
  else (.ok (), first)

theorem Sound.decodeForward {grow : Grow} (h : Sound c s) (call : DecodeCall c Page) :
    Sound c (decodeForward grow call s).2 := by
  have hfirst := h.decodeStep call
  have hplan := @Sound.planExact _ _ _ _ grow hfirst (atomBits call)
  unfold PageArena.decodeForward
  dsimp only
  split
  · split
    · rename_i hres
      rwa [hres] at hplan
    · rename_i hres
      rw [hres] at hplan
      exact hplan.decodeStep _
  · exact hfirst

theorem planExact_continue {grow : Grow} {bits : ℕ → Bool} :
    planExact c grow (ownBitmap c bits) false s = planWanted c grow bits s := planExact_own rfl

/-- An admission that is not refused maps what it was asked for. -/
theorem planWanted_maps {grow : Grow} {bits : ℕ → Bool} {res : PagingResult}
    (hplan : planWanted c grow bits s = (.ok res, t)) (hid : id < c.logicalPages) (hbit : bits id = true) :
    t.pageTable id ≠ none := by
  obtain ⟨first, -, rfl⟩ := planWanted_ok hplan
  show (if id ∈ wantedIds c s bits then _ else s.pageTable id) ≠ none
  split
  · exact Option.some_ne_none _
  · rename_i hmem
    rw [mem_wantedIds] at hmem
    exact fun hnone => hmem ⟨hid, hbit, hnone⟩

omit [Zero Page] in
/-- A batch-head whose candidates are all mapped wants nothing, and deposits. -/
theorem deposits_of_mapped {bh : ℕ} (hdone : call.done bh = false)
    (hmap : ∀ a ∈ call.cand bh, s.pageTable (c.atomId bh a) ≠ none) : s.deposits call bh = true := by
  have hnone : s.wanted call bh = [] :=
    List.eq_nil_iff_forall_not_mem.2 fun a ha => hmap a (mem_wanted.1 ha).1 (mem_wanted.1 ha).2
  simp [deposits, needy, demand, hnone, hdone]

/-- A step that returns has written its atoms' pages once each, and no other page. -/
theorem gathered_decodeForward (h : Sound c s) {grow : Grow} (hdone : ∀ bh, call.done bh = false)
    (hstep : decodeForward grow call s = (.ok (), t)) (hid : id < c.logicalPages) :
    t.gathered id = if atomBits call id = true then call.store id else s.gathered id := by
  obtain ⟨hbh, ha, heq⟩ := split_id hid
  have hfirst := h.decodeStep call
  have hcontent := @PageArena.gathered_decodeStep _ _ _ _ _ call h hid
  have hdeposits : s.deposits call (id / c.atomsPerBh) = !s.needy call (id / c.atomsPerBh) := by
    simp [deposits, hdone]
  rw [hdeposits] at hcontent
  unfold decodeForward at hstep
  dsimp only at hstep
  split at hstep
  · split at hstep
    · cases hstep
    · rename_i res u hplan
      cases hstep
      rw [planExact_continue] at hplan
      have hu : Sound c u := by
        have := @Sound.planWanted _ _ _ _ grow hfirst (atomBits call)
        rwa [hplan] at this
      have hreplay : atomBits { call with done := fun bh => !s.needy call bh } id = atomBits call id := rfl
      rw [gathered_decodeStep hu hid, gathered_planWanted hfirst.1 hplan hid, hcontent, hreplay]
      rcases hneedy : s.needy call (id / c.atomsPerBh) with _ | _
      · have hskip : u.deposits { call with done := fun bh => !s.needy call bh } (id / c.atomsPerBh) = false := by
          simp [deposits, hneedy]
        simp [hskip]
      · have hrun : u.deposits { call with done := fun bh => !s.needy call bh } (id / c.atomsPerBh) = true := by
          refine deposits_of_mapped (by simp [hneedy]) fun a ha' => ?_
          have hlt := call.lt _ a ha'
          refine planWanted_maps hplan (atomId_lt hbh hlt) ?_
          simp [atomBits, (atomId_div hlt).1, (atomId_div hlt).2, ha']
        simp [hrun]
  · rename_i hnone
    cases hstep
    have hneedy : s.needy call (id / c.atomsPerBh) = false := by
      rw [Bool.not_eq_true, List.any_eq_false] at hnone
      simpa using hnone _ (List.mem_range.2 hbh)
    rw [hcontent, hneedy]
    simp

end PageArena

end Rola
