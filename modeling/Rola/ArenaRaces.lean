import Rola.ArenaStreams

/-!
# Which calls race

What the caller's stream has not joined is the admissions since its last `wait()`: their table writes
and zero-inits may still be pending. A zeroing or a pool write commutes with both, a residency test
only where it asks about none of their atoms, and a gather not at all. Where every call meets that,
every interleaving ends as running the calls one after the other does.
-/

namespace Rola

open Streams

namespace PageArena

variable {Page : Type} [Zero Page] {c : ArenaConfig}

/-- What admission issues on the side stream. -/
def DeviceOp.Admits : DeviceOp → Prop
  | .writeTable _ _ => True
  | .zeroSlots _ _ => True
  | _ => False

/-- The side stream's operations are admissions, and those the caller's stream has not waited for are
of the atoms `unjoined`. -/
structure Issued (unjoined : List ℕ) (t : Trace DeviceOp (Device Page)) : Prop where
  bound : ∀ i ∈ t.issued, i.ticket < t.marks.clock
  side : ∀ i ∈ t.issued, i.queue = .side → i.op.Admits
  late : ∀ i ∈ t.issued, i.queue = .side → t.marks.fence .caller ≤ i.ticket →
    unjoined ≠ [] ∧ ∀ ids first, i.op = .writeTable ids first → ids ⊆ unjoined

/-- What the caller's stream has not waited for is behind the recorded event. -/
structure Tracked (unjoined : List ℕ) (t : Trace DeviceOp (Device Page)) : Prop extends Issued unjoined t where
  event : ∀ i ∈ t.issued, i.queue = .side → t.marks.fence .caller ≤ i.ticket →
    ∃ r, t.marks.ready = some r ∧ i.ticket < r

/-- The host and the device hold what the calls, run one after the other, leave. -/
structure Holds (h : Host) (m : Device Page) (q : Served Page) : Prop where
  next : h.next = q.arena.next
  peak : h.peakPages = q.arena.peakPages
  outcomes : h.outcomes = q.outcomes
  table : m.pageTable = q.arena.pageTable
  base : m.valueBase = q.arena.valueBase
  slots : m.poolSlots = q.arena.poolSlots
  cursor : m.poolCursor = q.arena.poolCursor
  outputs : m.outputs = q.outputs

variable {u u' : List ℕ} {t : Trace DeviceOp (Device Page)} {op : DeviceOp}

omit [Zero Page] in
theorem Issued.mono (h : Issued u t) (hsub : u ⊆ u') : Issued u' t := by
  refine ⟨h.bound, h.side, fun i hi hq hlate => ?_⟩
  obtain ⟨hne, hids⟩ := h.late i hi hq hlate
  exact ⟨fun hnil => hne (List.subset_nil.1 (hnil ▸ hsub)),
    fun ids first hop => List.Subset.trans (hids ids first hop) hsub⟩

omit [Zero Page] in
theorem Tracked.mono (h : Tracked u t) (hsub : u ⊆ u') : Tracked u' t :=
  ⟨h.toIssued.mono hsub, h.event⟩

omit [Zero Page] in
theorem Issued.waitStream (h : Issued u t) : Issued u (t.mark Marks.waitStream) := by
  refine ⟨h.bound, h.side, fun i hi hq hlate => h.late i hi hq ?_⟩
  simpa [Trace.mark, Marks.waitStream] using hlate

/-- An admission is issued on the side stream. -/
theorem Issued.enq_side (h : Issued u t) (c : ArenaConfig) (op : DeviceOp) (hne : u ≠ []) (hadm : op.Admits)
    (hids : ∀ ids first, op = .writeTable ids first → ids ⊆ u) :
    Issued u (t.enq (DeviceOp.apply c) .side op) := by
  refine ⟨fun i hi => ?_, fun i hi hq => ?_, fun i hi hq hlate => ?_⟩ <;>
    rcases List.mem_append.1 hi with hi | hi
  · exact (h.bound i hi).trans (Nat.lt_succ_self _)
  · rw [List.mem_singleton.1 hi]
    exact Nat.lt_succ_self _
  · exact h.side i hi hq
  · rw [List.mem_singleton.1 hi]
    exact hadm
  · exact h.late i hi hq hlate
  · rw [List.mem_singleton.1 hi]
    exact ⟨hne, hids⟩

omit [Zero Page] in
theorem Issued.record (h : Issued u t) : Tracked u (t.mark Marks.record) :=
  { h with late := h.late, event := fun i hi _ _ => ⟨t.marks.clock, rfl, h.bound i hi⟩ }

theorem Tracked.enq_caller (h : Tracked u t) (c : ArenaConfig) (op : DeviceOp) :
    Tracked u (t.enq (DeviceOp.apply c) .caller op) := by
  refine ⟨⟨fun i hi => ?_, fun i hi hq => ?_, fun i hi hq hlate => ?_⟩, fun i hi hq hlate => ?_⟩ <;>
    rcases List.mem_append.1 hi with hi | hi
  · exact (h.bound i hi).trans (Nat.lt_succ_self _)
  · rw [List.mem_singleton.1 hi]
    exact Nat.lt_succ_self _
  · exact h.side i hi hq
  · rw [List.mem_singleton.1 hi] at hq
    cases hq
  · exact h.late i hi hq hlate
  · rw [List.mem_singleton.1 hi] at hq
    cases hq
  · exact h.event i hi hq hlate
  · rw [List.mem_singleton.1 hi] at hq
    cases hq

omit [Zero Page] in
/-- After `wait()` nothing is left to join. -/
theorem Tracked.waitEvent (h : Tracked u t) : Tracked [] (t.mark Marks.waitEvent) := by
  have hjoined : ∀ i ∈ t.issued, i.queue = .side →
      ¬(t.mark Marks.waitEvent).marks.fence .caller ≤ i.ticket := by
    intro i hi hq hlate
    have hfence : max (t.marks.fence .caller) (t.marks.ready.getD 0) ≤ i.ticket := by
      simpa [Trace.mark, Marks.waitEvent] using hlate
    obtain ⟨r, hr, hlt⟩ := h.event i hi hq ((le_max_left _ _).trans hfence)
    have hready := (le_max_right _ _).trans hfence
    rw [hr, Option.getD_some] at hready
    omega
  exact ⟨⟨h.bound, h.side, fun i hi hq hlate => absurd hlate (hjoined i hi hq)⟩,
    fun i hi hq hlate => absurd hlate (hjoined i hi hq)⟩

omit [Zero Page] in
theorem Tracked.clear (h : Tracked [] t) : Tracked [] (t.mark Marks.clear) :=
  ⟨⟨h.bound, h.side, h.late⟩, fun i hi hq hlate => absurd rfl (h.late i hi hq hlate).1⟩

omit [Zero Page] in
theorem Tracked.drained (h : Tracked u t) : Tracked u t.drained :=
  ⟨⟨fun i hi => h.bound i (List.mem_filter.1 hi).1, fun i hi => h.side i (List.mem_filter.1 hi).1,
    fun i hi => h.late i (List.mem_filter.1 hi).1⟩, fun i hi => h.event i (List.mem_filter.1 hi).1⟩

/-- An operation on the caller's stream need only commute with the admissions not joined. -/
theorem ordered_caller
    (hcomm : ∀ i ∈ t.issued, i.queue = .side → t.marks.fence .caller ≤ i.ticket →
      Function.Commute (@PageArena.DeviceOp.apply Page _ c i.op) (DeviceOp.apply c op)) :
    ∀ i ∈ t.issued, Streams.Ordered (@PageArena.DeviceOp.apply Page _ c) i (t.marks.item .caller op) := by
  intro i hi
  rcases hq : i.queue with _ | _
  · exact .inl hq
  · rcases Nat.lt_or_ge i.ticket (t.marks.fence .caller) with hlt | hge
    · exact .inr (.inl hlt)
    · exact .inr (.inr (hcomm i hi hq hge))

theorem Issued.ordered_joined (h : Issued [] t) :
    ∀ i ∈ t.issued, Streams.Ordered (@PageArena.DeviceOp.apply Page _ c) i (t.marks.item .caller op) :=
  ordered_caller fun i hi hq hlate => absurd rfl (h.late i hi hq hlate).1

/-- An admission is ordered after all the side stream has waited for. -/
theorem ordered_side (hfence : ∀ i ∈ t.issued, i.queue = .caller → i.ticket < t.marks.fence .side) :
    ∀ i ∈ t.issued, Streams.Ordered (@PageArena.DeviceOp.apply Page _ c) i (t.marks.item .side op) := by
  intro i hi
  rcases hq : i.queue with _ | _
  · exact .inr (.inl (hfence i hi hq))
  · exact .inl hq

/-- A host read sees no admission. -/
theorem Issued.unseen (h : Issued u t) : ∀ i ∈ t.issued, i.queue = .side → ∀ m : Device Page,
    Device.observe (i.op.apply c m) = Device.observe m := by
  intro i hi hq m
  have hadm := h.side i hi hq
  rcases hop : i.op <;> rw [hop] at hadm <;> first | rfl | exact hadm.elim

/-! ### What commutes with an admission -/

/-- Operations that neither touch the table nor read pages. -/
def DeviceOp.Apart : DeviceOp → Prop
  | .zeroSlots _ _ => True
  | .writePool _ => True
  | .refillSlots _ _ _ => True
  | .zeroCursor => True
  | .readCursor => True
  | _ => False

theorem zeroRun_comm (base : ℕ → Page) (first count first' count' : ℕ) :
    zeroRun (zeroRun base first count) first' count' = zeroRun (zeroRun base first' count') first count := by
  funext slot
  unfold zeroRun
  split <;> split <;> rfl

theorem commute_apart {op' : DeviceOp} (hadm : op'.Admits) (h : op.Apart) :
    Function.Commute (@PageArena.DeviceOp.apply Page _ c op') (DeviceOp.apply c op) := by
  intro m
  cases op' with
  | writeTable ids first => cases op <;> first | rfl | exact h.elim
  | zeroSlots first count =>
    cases op with
    | zeroSlots first' count' =>
      have hcomm := zeroRun_comm m.valueBase first' count' first count
      unfold DeviceOp.apply
      exact congrArg (fun base => { m with valueBase := base }) hcomm
    | _ => first | rfl | exact h.elim
  | _ => exact hadm.elim

/-- A residency test commutes with the admission of atoms it does not ask about. -/
theorem commute_readWanted {op' : DeviceOp} {bits : ℕ → Bool} (hadm : op'.Admits)
    (h : ∀ ids first, op' = .writeTable ids first → ∀ id ∈ ids, bits id = false) :
    Function.Commute (@PageArena.DeviceOp.apply Page _ c op') (DeviceOp.apply c (.readWanted bits)) := by
  intro m
  cases op' with
  | zeroSlots first count => rfl
  | writeTable ids first =>
    have hids := h ids first rfl
    have hwanted : (List.range c.logicalPages).filter (fun id => bits id && (m.pageTable id).isNone) =
        (List.range c.logicalPages).filter fun id =>
          bits id && (if id ∈ ids then some (first + ids.idxOf id) else m.pageTable id).isNone := by
      refine List.filter_congr fun id _ => ?_
      by_cases hmem : id ∈ ids
      · rw [hids id hmem, Bool.false_and, Bool.false_and]
      · rw [if_neg hmem]
    exact congrArg (fun wanted => { m with
      pageTable := fun id => if id ∈ ids then some (first + ids.idxOf id) else m.pageTable id
      wanted := wanted }) hwanted
  | _ => exact hadm.elim

theorem Issued.ordered_apart (h : Issued u t) (op : DeviceOp) (hop : op.Apart) :
    ∀ i ∈ t.issued, Streams.Ordered (@PageArena.DeviceOp.apply Page _ c) i (t.marks.item .caller op) :=
  ordered_caller fun i hi hq _ => commute_apart (h.side i hi hq) hop

theorem Issued.ordered_readWanted (h : Issued u t) {bits : ℕ → Bool} (hbits : ∀ id ∈ u, bits id = false) :
    ∀ i ∈ t.issued, Streams.Ordered (@PageArena.DeviceOp.apply Page _ c) i (t.marks.item .caller (.readWanted bits)) :=
  ordered_caller fun i hi hq hlate => commute_readWanted (h.side i hi hq) fun ids first hop id hid =>
    hbits id ((h.late i hi hq hlate).2 ids first hop hid)

end PageArena

end Rola
