import Rola.ArenaRaces

/-!
# Where every interleaving is the sequential one

A call is race free when the caller's stream has joined what the call looks at: a
`plan_exact(fresh=False)` asks about no atom admitted since the last wait, and a `materialize` comes
with no admission un-joined. `reset` waits first, so a fresh plan always is.
-/

namespace Rola

open Streams

namespace PageArena

variable {Page : Type} [Zero Page] {c : ArenaConfig}

/-- A part of a call is race free, and leaves the host and the device with `q`. -/
def Comes (c : ArenaConfig) (p : (Host → Except String Unit → HostProg) → HostProg)
    (t : Trace DeviceOp (Device Page)) (u : List ℕ) (out : Except String Unit) (q : Served Page) : Prop :=
  ∃ h' t', (∀ k, Leads (DeviceOp.apply c) Device.observe (p k) t (k h' out) t') ∧ Tracked u t' ∧
    Holds h' t'.mem q

variable {u : List ℕ} {t : Trace DeviceOp (Device Page)} {h : Host} {q : Served Page} {grow : Grow}

theorem comes_reserve (ht : Tracked u t) (hq : Holds h t.mem q) :
    Comes c (reserveProg c grow h) t u (reservePool c grow q.arena).1
      { q with arena := (reservePool c grow q.arena).2 } := by
  by_cases hpool : c.poolCapacity = 0
  · have hres : reservePool c grow q.arena = (.ok (), q.arena) := if_pos hpool
    rw [hres]
    refine ⟨h, t, fun k => ?_, ht, hq⟩
    rw [show reserveProg c grow h k = k h (.ok ()) from if_pos hpool]
    exact Leads.refl
  rcases hadm : admission q.arena.next c.logicalPages c.extentAtoms (c.BH * c.poolCapacity) with err | first
  · have hres : reservePool c grow q.arena = (.error err, q.arena) := by simp [reservePool, hpool, hadm]
    rw [hres]
    refine ⟨h, t, fun k => ?_, ht, hq⟩
    rw [show reserveProg c grow h k = k h (.error err) by simp [reserveProg, hpool, hq.next, hadm]]
    exact Leads.refl
  rcases hgrow : grow (first + c.BH * c.poolCapacity) with err | ⟨⟩
  · have hres : reservePool c grow q.arena =
        (.error err, { q.arena with next := first + c.BH * c.poolCapacity }) := by
      simp [reservePool, hpool, hadm, hgrow]
    rw [hres]
    refine ⟨{ h with next := first + c.BH * c.poolCapacity }, t, fun k => ?_, ht, { hq with next := rfl }⟩
    rw [show reserveProg c grow h k = k { h with next := first + c.BH * c.poolCapacity } (.error err) by
      simp [reserveProg, hpool, hq.next, hadm, hgrow]]
    exact Leads.refl
  · have hres : reservePool c grow q.arena = (.ok (), { q.arena with
        next := first + c.BH * c.poolCapacity
        valueBase := zeroRun q.arena.valueBase first (c.BH * c.poolCapacity)
        poolSlots := fun bh i => first + bh * c.poolCapacity + i
        poolCursor := fun _ => 0
        peakPages := max q.arena.peakPages (first + c.BH * c.poolCapacity) }) := by
      simp [reservePool, hpool, hadm, hgrow]
    rw [hres]
    have h₁ := ht.enq_caller c (.zeroSlots first (c.BH * c.poolCapacity))
    have h₂ := h₁.enq_caller c (.writePool first)
    have h₃ := h₂.enq_caller c .zeroCursor
    refine ⟨{ h with
        next := first + c.BH * c.poolCapacity
        peakPages := max h.peakPages (first + c.BH * c.poolCapacity) }, _, fun k => ?_, h₃, ?_⟩
    · rw [show reserveProg c grow h k = .enq .caller (.zeroSlots first (c.BH * c.poolCapacity))
          (.enq .caller (.writePool first) (.enq .caller .zeroCursor (k { h with
            next := first + c.BH * c.poolCapacity
            peakPages := max h.peakPages (first + c.BH * c.poolCapacity) } (.ok ())))) by
        simp [reserveProg, hpool, hq.next, hadm, hgrow]]
      exact (leads_enq (ht.ordered_apart (.zeroSlots first _) trivial)).trans
        ((leads_enq (h₁.ordered_apart (.writePool first) trivial)).trans
          (leads_enq (h₂.ordered_apart .zeroCursor trivial)))
    · exact
        { next := rfl
          peak := congrArg (max · _) hq.peak
          outcomes := hq.outcomes
          table := hq.table
          base := congrArg (zeroRun · first _) hq.base
          slots := rfl
          cursor := rfl
          outputs := hq.outputs }

/-- `reset` joins the side stream before it fills the table. -/
theorem comes_reset (ht : Tracked u t) (hq : Holds h t.mem q) :
    Comes c (resetProg c grow h) t [] (reset c grow q.arena).1
      { q with arena := (reset c grow q.arena).2 } := by
  have h₁ := ht.waitEvent
  have h₂ := h₁.enq_caller c .fillTable
  have h₃ := h₂.clear
  have hcleared : Holds { h with next := 0, peakPages := 0 } ((t.mark Marks.waitEvent).enq
      (DeviceOp.apply c) .caller .fillTable).mem
      { q with arena := { q.arena with pageTable := fun _ => none, next := 0, peakPages := 0 } } :=
    { hq with next := rfl, peak := rfl, table := rfl }
  obtain ⟨h', t', hleads, htracked, hholds⟩ := @PageArena.comes_reserve _ _ _ _ _ _ _ grow h₃ hcleared
  refine ⟨h', t', fun k => ?_, htracked, hholds⟩
  exact leads_waitEvent.trans ((leads_enq (h₁.ordered_joined)).trans (leads_clear.trans (hleads k)))

/-! ### A plan -/

/-- The table and the zeroed run an admission leaves. -/
def admitted (ids : List ℕ) (first : ℕ) (m : Device Page) : Device Page :=
  { m with
    pageTable := fun id => if id ∈ ids then some (first + ids.idxOf id) else m.pageTable id
    valueBase := zeroRun m.valueBase first ids.length }

theorem admitted_nil (first : ℕ) (m : Device Page) : admitted [] first m = m := by
  have hbase : zeroRun m.valueBase first 0 = m.valueBase := by
    funext slot
    exact if_neg (by omega)
  simp [admitted, hbase]

/-- `_admit_pages`: the side stream waits for the caller's, and admits. -/
theorem leads_admit (ht : Issued u t) (ids : List ℕ) (first : ℕ) :
    ∃ t', (∀ k, Leads (DeviceOp.apply c) Device.observe (admitProg ids first k) t k t') ∧
      Issued (u ++ ids) t' ∧ t'.mem = admitted ids first t.mem := by
  have hwait := ht.waitStream
  by_cases hids : ids.length = 0
  · refine ⟨t.mark Marks.waitStream, fun k => ?_, hwait.mono (List.subset_append_left _ _), ?_⟩
    · rw [show admitProg ids first k = .waitStream k from congrArg Prog.waitStream (if_pos hids)]
      exact leads_waitStream
    · rw [List.length_eq_zero_iff.1 hids]
      exact (admitted_nil first t.mem).symm
  have hne : u ++ ids ≠ [] := fun hnil => hids (by simp [(List.append_eq_nil_iff.1 hnil).2])
  have hsub : ids ⊆ u ++ ids := List.subset_append_right _ _
  have h₀ := hwait.mono (List.subset_append_left u ids)
  have h₁ := h₀.enq_side c (.writeTable ids first) hne trivial fun ids' first' hop => by
    cases hop
    exact hsub
  have h₂ := h₁.enq_side c (.zeroSlots first ids.length) hne trivial fun _ _ hop => by cases hop
  refine ⟨_, fun k => ?_, h₂, rfl⟩
  rw [show admitProg ids first k = .waitStream (.enq .side (.writeTable ids first)
    (.enq .side (.zeroSlots first ids.length) k)) from congrArg Prog.waitStream (if_neg hids)]
  have hfence : ∀ i ∈ (t.mark Marks.waitStream).issued, i.queue = .caller →
      i.ticket < (t.mark Marks.waitStream).marks.fence .side := fun i hi _ => by
    simpa [Trace.mark, Marks.waitStream] using ht.bound i hi
  refine leads_waitStream.trans ((leads_enq (ordered_side hfence)).trans (leads_enq (ordered_side ?_)))
  intro i hi hq
  rcases List.mem_append.1 hi with hi | hi
  · exact hfence i hi hq
  · rw [List.mem_singleton.1 hi] at hq
    cases hq

/-- The atoms a plan admits. -/
def plannedIds (c : ArenaConfig) (grow : Grow) (bits : ℕ → Bool) (s : PageArena Page) : List ℕ :=
  match planWanted c grow bits s with
  | (.ok _, _) => wantedIds c s bits
  | (.error _, _) => []

theorem comes_take {bits : ℕ → Bool} (ht : Tracked u t) (hq : Holds h t.mem q) :
    Comes c (takeProg c grow (wantedIds c q.arena bits) h) t (u ++ plannedIds c grow bits q.arena)
      ((planWanted c grow bits q.arena).1.map fun _ => ())
      { q with arena := (planWanted c grow bits q.arena).2 } := by
  rcases hplan : planWanted c grow bits q.arena with ⟨out, s⟩
  have hplanned := hplan
  unfold planWanted at hplanned
  set ids := wantedIds c q.arena bits with hids
  rcases hadm : admission q.arena.next c.logicalPages c.extentAtoms ids.length with err | first
  · simp only [hadm] at hplanned
    cases hplanned
    refine ⟨h, t, fun k => ?_, ht.mono (List.subset_append_left _ _), hq⟩
    rw [show takeProg c grow ids h k = k h (.error err) by simp [takeProg, hq.next, hadm]]
    exact Leads.refl
  rcases hgrow : grow (first + ids.length) with err | ⟨⟩
  · simp only [hadm, hgrow] at hplanned
    cases hplanned
    refine ⟨{ h with next := first + ids.length }, t, fun k => ?_, ht.mono (List.subset_append_left _ _),
      { hq with next := rfl }⟩
    rw [show takeProg c grow ids h k = k { h with next := first + ids.length } (.error err) by
      simp [takeProg, hq.next, hadm, hgrow]]
    exact Leads.refl
  · simp only [hadm, hgrow] at hplanned
    cases hplanned
    obtain ⟨t', hleads, hissued, hmem⟩ := leads_admit (c := c) ht.toIssued ids first
    have hplanned : plannedIds c grow bits q.arena = ids := by simp [plannedIds, hplan, hids]
    refine ⟨{ h with next := first + ids.length, peakPages := max h.peakPages (first + ids.length) },
      _, fun k => ?_, hplanned ▸ hissued.record, ?_⟩
    · rw [show takeProg c grow ids h k = admitProg ids first (.record (k { h with
          next := first + ids.length
          peakPages := max h.peakPages (first + ids.length) } (.ok ()))) by
        simp [takeProg, hq.next, hadm, hgrow]]
      exact (hleads _).trans leads_record
    · show Holds _ t'.mem _
      rw [hmem]
      exact
        { next := rfl
          peak := congrArg (max · _) hq.peak
          outcomes := hq.outcomes
          table := congrArg (fun (table : ℕ → Option ℕ) id =>
            if id ∈ ids then some (first + ids.idxOf id) else table id) hq.table
          base := congrArg (zeroRun · first _) hq.base
          slots := hq.slots
          cursor := hq.cursor
          outputs := hq.outputs }

/-- A plan that asks about no atom still un-joined tests a table that is up to date. -/
theorem comes_wanted {bits : ℕ → Bool} (ht : Tracked u t) (hq : Holds h t.mem q)
    (hbits : ∀ id ∈ u, bits id = false) :
    Comes c (wantedProg c grow bits h) t (u ++ plannedIds c grow bits q.arena)
      ((planWanted c grow bits q.arena).1.map fun _ => ())
      { q with arena := (planWanted c grow bits q.arena).2 } := by
  have h₁ := ht.enq_caller c (.readWanted bits)
  have hholds : Holds h (DeviceOp.apply c (.readWanted bits) t.mem) q := { hq with }
  have hwanted : (DeviceOp.apply c (.readWanted bits) t.mem).wanted = wantedIds c q.arena bits := by
    rw [wantedIds, ← hq.table]
    rfl
  obtain ⟨h', t', hleads, htracked, hq'⟩ := @PageArena.comes_take _ _ c _ _ _ _ grow bits h₁.drained hholds
  refine ⟨h', t', fun k => ?_, htracked, hq'⟩
  refine (leads_enq (ht.ordered_readWanted hbits)).trans ((leads_sync h₁.unseen).trans ?_)
  show Leads _ _ (takeProg c grow (DeviceOp.apply c (.readWanted bits) t.mem).wanted h k) _ _ _
  rw [hwanted]
  exact hleads k

/-- Whether a plan asks about no atom still un-joined. -/
def Unasked (c : ArenaConfig) (u : List ℕ) (bitmap : AtomBitmap) : Prop :=
  (bitmap.BH, bitmap.atoms) = (c.BH, c.atomsPerBh) → ∀ id ∈ u, bitmap.bits id = false

/-- The atoms a checked plan admits. -/
def checkedIds (c : ArenaConfig) (grow : Grow) (bitmap : AtomBitmap) (s : PageArena Page) : List ℕ :=
  if (bitmap.BH, bitmap.atoms) = (c.BH, c.atomsPerBh) then plannedIds c grow bitmap.bits s else []

theorem comes_checked {bitmap : AtomBitmap} (ht : Tracked u t) (hq : Holds h t.mem q)
    (hasks : Unasked c u bitmap) :
    Comes c (checkedProg c grow bitmap h) t (u ++ checkedIds c grow bitmap q.arena)
      ((planExact c grow bitmap false q.arena).1.map fun _ => ())
      { q with arena := (planExact c grow bitmap false q.arena).2 } := by
  by_cases hshape : (bitmap.BH, bitmap.atoms) = (c.BH, c.atomsPerBh)
  · have hplan : planExact c grow bitmap false q.arena = planWanted c grow bitmap.bits q.arena :=
      if_neg (not_not.2 hshape)
    have hprog : ∀ k, checkedProg c grow bitmap h k = wantedProg c grow bitmap.bits h k := fun k =>
      if_neg (not_not.2 hshape)
    rw [hplan, checkedIds, if_pos hshape]
    obtain ⟨h', t', hleads, htracked, hq'⟩ := @PageArena.comes_wanted _ _ _ _ _ _ _ grow _ ht hq (hasks hshape)
    exact ⟨h', t', fun k => hprog k ▸ hleads k, htracked, hq'⟩
  · have hplan : planExact c grow bitmap false q.arena = (.error (shapeText c bitmap), q.arena) :=
      if_pos hshape
    rw [hplan, checkedIds, if_neg hshape]
    refine ⟨h, t, fun k => ?_, ht.mono (List.subset_append_left _ _), hq⟩
    rw [show checkedProg c grow bitmap h k = k h (.error (shapeText c bitmap)) from if_pos hshape]
    exact Leads.refl

/-- A fresh plan joins in its reset. -/
theorem comes_fresh {bitmap : AtomBitmap} (ht : Tracked u t) (hq : Holds h t.mem q) :
    Comes c (planProg c grow bitmap true h) t
      (match reset c grow q.arena with
      | (.ok (), s) => checkedIds c grow bitmap s
      | (.error _, _) => [])
      ((planExact c grow bitmap true q.arena).1.map fun _ => ())
      { q with arena := (planExact c grow bitmap true q.arena).2 } := by
  have hreset := @PageArena.comes_reset _ _ c _ _ _ _ grow ht hq
  rcases hr : reset c grow q.arena with ⟨err | ⟨⟩, s⟩
  · have hplan : planExact c grow bitmap true q.arena = (.error err, s) := by simp [planExact, hr]
    rw [hr] at hreset
    rw [hplan]
    obtain ⟨h', t', hleads, htracked, hq'⟩ := hreset
    exact ⟨h', t', fun k => hleads _, htracked, hq'⟩
  · have hplan : planExact c grow bitmap true q.arena = planExact c grow bitmap false s := by
      simp [planExact, hr]
    rw [hr] at hreset
    rw [hplan]
    obtain ⟨h', t', hleads, htracked, hq'⟩ := hreset
    obtain ⟨h'', t'', hleads', htracked', hq''⟩ :=
      @PageArena.comes_checked _ _ _ _ _ _ _ grow bitmap htracked hq' fun _ _ hid => by cases hid
    exact ⟨h'', t'', fun k => (hleads _).trans (hleads' k), htracked', hq''⟩

/-! ### A refill -/

theorem comes_spent (ht : Tracked u t) (hq : Holds h t.mem q) (hpool : c.poolCapacity ≠ 0) :
    Comes c (spentProg c grow q.arena.poolCursor h) t u ((refillPool c grow q.arena).1.map fun _ => ())
      { q with arena := (refillPool c grow q.arena).2 } := by
  rcases hrefill : refillPool c grow q.arena with ⟨out, s⟩
  set total := ∑ bh ∈ Finset.range c.BH, q.arena.poolCursor bh with htotal
  by_cases hzero : total = 0
  · simp only [refillPool, hpool, ← htotal, hzero, if_true, if_false] at hrefill
    cases hrefill
    refine ⟨h, t, fun k => ?_, ht, hq⟩
    rw [show spentProg c grow q.arena.poolCursor h k = k h (.ok ()) from if_pos hzero]
    exact Leads.refl
  rcases hadm : admission q.arena.next c.logicalPages c.extentAtoms total with err | first
  · simp only [refillPool, hpool, ← htotal, hzero, hadm, if_false] at hrefill
    cases hrefill
    refine ⟨h, t, fun k => ?_, ht, hq⟩
    rw [show spentProg c grow q.arena.poolCursor h k = k h (.error err) by
      simp [spentProg, ← htotal, hzero, hq.next, hadm]]
    exact Leads.refl
  rcases hgrow : grow (first + total) with err | ⟨⟩
  · simp only [refillPool, hpool, ← htotal, hzero, hadm, hgrow, if_false] at hrefill
    cases hrefill
    refine ⟨{ h with next := first + total }, t, fun k => ?_, ht, { hq with next := rfl }⟩
    rw [show spentProg c grow q.arena.poolCursor h k = k { h with next := first + total } (.error err) by
      simp [spentProg, ← htotal, hzero, hq.next, hadm, hgrow]]
    exact Leads.refl
  have h₁ := ht.enq_caller c (.zeroSlots first total)
  have hzeroed := congrArg (zeroRun · first total) hq.base
  rcases hover : (List.range c.BH).find? fun bh => c.poolCapacity < q.arena.poolCursor bh with _ | bh
  · simp only [refillPool, hpool, ← htotal, hzero, hadm, hgrow, hover, if_false] at hrefill
    cases hrefill
    have h₂ := h₁.enq_caller c (.refillSlots q.arena.poolCursor first c.BH)
    have h₃ := h₂.enq_caller c .zeroCursor
    refine ⟨{ h with next := first + total, peakPages := max h.peakPages (first + total) }, _,
      fun k => ?_, h₃, ?_⟩
    · rw [show spentProg c grow q.arena.poolCursor h k = .enq .caller (.zeroSlots first total)
          (.enq .caller (.refillSlots q.arena.poolCursor first c.BH) (.enq .caller .zeroCursor
            (k { h with next := first + total, peakPages := max h.peakPages (first + total) } (.ok ())))) by
        simp [spentProg, ← htotal, hzero, hq.next, hadm, hgrow, hover]]
      exact (leads_enq (ht.ordered_apart (.zeroSlots first total) trivial)).trans
        ((leads_enq (h₁.ordered_apart (.refillSlots q.arena.poolCursor first c.BH) trivial)).trans
          (leads_enq (h₂.ordered_apart .zeroCursor trivial)))
    · exact
        { next := rfl
          peak := congrArg (max · _) hq.peak
          outcomes := hq.outcomes
          table := hq.table
          base := hzeroed
          slots := congrArg (fun (slots : ℕ → ℕ → ℕ) bh i =>
            if bh < c.BH ∧ i < q.arena.poolCursor bh then
              first + ∑ b ∈ Finset.range bh, q.arena.poolCursor b + i
            else slots bh i) hq.slots
          cursor := rfl
          outputs := hq.outputs }
  · simp only [refillPool, hpool, ← htotal, hzero, hadm, hgrow, hover, if_false] at hrefill
    cases hrefill
    have h₂ := h₁.enq_caller c (.refillSlots q.arena.poolCursor first bh)
    refine ⟨{ h with next := first + total }, _, fun k => ?_, h₂, ?_⟩
    · rw [show spentProg c grow q.arena.poolCursor h k = .enq .caller (.zeroSlots first total)
          (.enq .caller (.refillSlots q.arena.poolCursor first bh) (k { h with next := first + total }
            (.error "the expanded size of the tensor must match the existing size"))) by
        simp [spentProg, ← htotal, hzero, hq.next, hadm, hgrow, hover]]
      exact (leads_enq (ht.ordered_apart (.zeroSlots first total) trivial)).trans
        (leads_enq (h₁.ordered_apart (.refillSlots q.arena.poolCursor first bh) trivial))
    · exact
        { hq with
          next := rfl
          base := hzeroed
          slots := congrArg (fun (slots : ℕ → ℕ → ℕ) b i =>
            if b < bh ∧ i < q.arena.poolCursor b then
              first + ∑ b ∈ Finset.range b, q.arena.poolCursor b + i
            else slots b i) hq.slots }

/-- A refill touches neither the table nor a page in use, so it need not wait. -/
theorem comes_refill (ht : Tracked u t) (hq : Holds h t.mem q) :
    Comes c (refillProg c grow h) t u ((refillPool c grow q.arena).1.map fun _ => ())
      { q with arena := (refillPool c grow q.arena).2 } := by
  by_cases hpool : c.poolCapacity = 0
  · have hrefill : refillPool c grow q.arena = (.ok 0, q.arena) := if_pos hpool
    rw [hrefill]
    refine ⟨h, t, fun k => ?_, ht, hq⟩
    rw [show refillProg c grow h k = k h (.ok ()) from if_pos hpool]
    exact Leads.refl
  have h₁ := ht.enq_caller c .readCursor
  have hholds : Holds h (DeviceOp.apply c .readCursor t.mem) q := { hq with }
  obtain ⟨h', t', hleads, htracked, hq'⟩ := @PageArena.comes_spent _ _ _ _ _ _ _ grow h₁.drained hholds hpool
  refine ⟨h', t', fun k => ?_, htracked, hq'⟩
  rw [show refillProg c grow h k = .enq .caller .readCursor (.sync fun seen =>
    spentProg c grow seen.spent h k) from if_neg hpool]
  refine (leads_enq (ht.ordered_apart .readCursor trivial)).trans ((leads_sync h₁.unseen).trans ?_)
  show Leads _ _ (spentProg c grow t.mem.poolCursor h k) _ _ _
  rw [hq.cursor]
  exact hleads k

end PageArena

end Rola
