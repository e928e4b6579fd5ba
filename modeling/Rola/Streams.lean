import Mathlib.Data.List.Sublists
import Mathlib.Logic.Relation

/-!
# Two queues of device operations

A host program issues operations on two FIFO queues. Between the queues only two things order: a wait
of the second queue for everything the first has been issued, and a wait of the first for an event
recorded on the second. A host read drains the first queue alone. A program is race free when each
operation commutes with every one it might overtake; then every interleaving ends as running each
operation at its issue would.
-/

namespace Streams

inductive Queue where
  | caller
  | side
deriving DecidableEq

/-- An issued operation: its place in issue order, and how much of the other queue it waits for. -/
structure Item (Op : Type*) where
  queue : Queue
  ticket : ℕ
  after : ℕ
  op : Op

/-- What the host knows of the queues: the next ticket, each queue's wait, the recorded event. -/
structure Marks where
  clock : ℕ
  fence : Queue → ℕ
  ready : Option ℕ

namespace Marks

def idle : Marks := ⟨0, fun _ => 0, none⟩

def tick (k : Marks) : Marks := { k with clock := k.clock + 1 }

/-- The caller's queue waits for the recorded event, if there is one. -/
def waitEvent (k : Marks) : Marks :=
  { k with fence := Function.update k.fence .caller (max (k.fence .caller) (k.ready.getD 0)) }

/-- The side queue waits for all the caller's queue has been issued. -/
def waitStream (k : Marks) : Marks := { k with fence := Function.update k.fence .side k.clock }

def record (k : Marks) : Marks := { k with ready := some k.clock }

def clear (k : Marks) : Marks := { k with ready := none }

def item {Op : Type*} (k : Marks) (q : Queue) (op : Op) : Item Op := ⟨q, k.clock, k.fence q, op⟩

end Marks

/-- A host program. A host read continues with what the host sees. -/
inductive Prog (Op B R : Type*) where
  | ret (r : R)
  | enq (q : Queue) (op : Op) (k : Prog Op B R)
  | waitEvent (k : Prog Op B R)
  | waitStream (k : Prog Op B R)
  | record (k : Prog Op B R)
  | clear (k : Prog Op B R)
  | sync (k : B → Prog Op B R)

/-- What a program at its end returns. -/
def Prog.value {Op B R : Type*} : Prog Op B R → Option R
  | .ret r => some r
  | _ => none

theorem Prog.eq_ret {Op B R : Type*} {p : Prog Op B R} {r : R} (h : p.value = some r) : p = .ret r := by
  cases p <;> cases h
  rfl

structure Config (Op M B R : Type*) where
  mem : M
  pending : List (Item Op)
  marks : Marks
  prog : Prog Op B R

variable {Op M B R : Type*} (apply : Op → M → M) (observe : M → B)

/-- The item is the first of its queue, and the other queue has nothing left it waits for. -/
def Runnable (i : Item Op) (rest : List (Item Op)) : Prop :=
  ∀ j ∈ rest, (j.queue = i.queue → i.ticket < j.ticket) ∧ (j.queue ≠ i.queue → i.after ≤ j.ticket)

inductive Step : Config Op M B R → Config Op M B R → Prop
  | device {m : M} {pre post : List (Item Op)} {k : Marks} {p : Prog Op B R} {i : Item Op} :
      Runnable i (pre ++ post) → Step ⟨m, pre ++ i :: post, k, p⟩ ⟨apply i.op m, pre ++ post, k, p⟩
  | enq {m : M} {l : List (Item Op)} {k : Marks} {q : Queue} {op : Op} {p : Prog Op B R} :
      Step ⟨m, l, k, .enq q op p⟩ ⟨m, l ++ [k.item q op], k.tick, p⟩
  | waitEvent {m : M} {l : List (Item Op)} {k : Marks} {p : Prog Op B R} :
      Step ⟨m, l, k, .waitEvent p⟩ ⟨m, l, k.waitEvent, p⟩
  | waitStream {m : M} {l : List (Item Op)} {k : Marks} {p : Prog Op B R} :
      Step ⟨m, l, k, .waitStream p⟩ ⟨m, l, k.waitStream, p⟩
  | record {m : M} {l : List (Item Op)} {k : Marks} {p : Prog Op B R} :
      Step ⟨m, l, k, .record p⟩ ⟨m, l, k.record, p⟩
  | clear {m : M} {l : List (Item Op)} {k : Marks} {p : Prog Op B R} :
      Step ⟨m, l, k, .clear p⟩ ⟨m, l, k.clear, p⟩
  | sync {m : M} {l : List (Item Op)} {k : Marks} {p : B → Prog Op B R} :
      (∀ j ∈ l, j.queue ≠ .caller) → Step ⟨m, l, k, .sync p⟩ ⟨m, l, k, p (observe m)⟩

abbrev Run : Config Op M B R → Config Op M B R → Prop := Relation.ReflTransGen (Step apply observe)

/-- Each operation run where it is issued. -/
def eval : Prog Op B R → M → R × M
  | .ret r, m => (r, m)
  | .enq _ op p, m => eval p (apply op m)
  | .waitEvent p, m => eval p m
  | .waitStream p, m => eval p m
  | .record p, m => eval p m
  | .clear p, m => eval p m
  | .sync p, m => eval (p (observe m)) m

/-- The memory once all that is pending has run, in issue order. -/
def settle (l : List (Item Op)) (m : M) : M := l.foldl (fun m i => apply i.op m) m

/-- Two issued operations cannot change places, or may without effect. -/
def Ordered (i j : Item Op) : Prop :=
  i.queue = j.queue ∨ i.ticket < j.after ∨ Function.Commute (apply i.op) (apply j.op)

/-- Each operation the program goes on to issue is ordered after, or commutes with, all of `l` that
may still be pending, and no host read sees a side operation. -/
def Safe : Prog Op B R → List (Item Op) → Marks → M → Prop
  | .ret _, _, _, _ => True
  | .enq q op p, l, k, m =>
    (∀ i ∈ l, Ordered apply i (k.item q op)) ∧ Safe p (l ++ [k.item q op]) k.tick (apply op m)
  | .waitEvent p, l, k, m => Safe p l k.waitEvent m
  | .waitStream p, l, k, m => Safe p l k.waitStream m
  | .record p, l, k, m => Safe p l k.record m
  | .clear p, l, k, m => Safe p l k.clear m
  | .sync p, l, k, m =>
    (∀ i ∈ l, i.queue = .side → ∀ m, observe (apply i.op m) = observe m) ∧
      Safe (p (observe m)) (l.filter fun i => i.queue = .side) k m

variable {apply observe} {l pre post : List (Item Op)} {i : Item Op} {m : M} {c c' : Config Op M B R}

theorem settle_append (l₁ l₂ : List (Item Op)) (m : M) :
    settle apply (l₁ ++ l₂) m = settle apply l₂ (settle apply l₁ m) := List.foldl_append

/-- An operation that commutes with all issued before it may run first. -/
theorem settle_overtake (h : ∀ j ∈ pre, Function.Commute (apply j.op) (apply i.op)) (m : M) :
    settle apply (pre ++ i :: post) m = settle apply (pre ++ post) (apply i.op m) := by
  induction pre generalizing m with
  | nil => rfl
  | cons j pre ih =>
    have hj := h j List.mem_cons_self
    have htail := ih (fun j hj => h j (List.mem_cons_of_mem _ hj)) (apply j.op m)
    calc settle apply (j :: pre ++ i :: post) m = settle apply (pre ++ i :: post) (apply j.op m) := rfl
      _ = settle apply (pre ++ post) (apply i.op (apply j.op m)) := htail
      _ = settle apply (pre ++ post) (apply j.op (apply i.op m)) := by rw [(hj m).symm]
      _ = settle apply (j :: pre ++ post) (apply i.op m) := rfl

/-- What every run of a race-free program keeps: tickets are in order, what may change places
commutes, and the pending operations lead to where issuing them one by one did. -/
structure Inv (apply : Op → M → M) (observe : M → B) (out : R × M) (c : Config Op M B R) : Prop where
  sorted : c.pending.Pairwise fun i j => i.ticket < j.ticket
  bound : ∀ i ∈ c.pending, i.ticket < c.marks.clock ∧ i.after ≤ i.ticket
  fence : ∀ q, c.marks.fence q ≤ c.marks.clock
  ready : ∀ r, c.marks.ready = some r → r ≤ c.marks.clock
  ordered : c.pending.Pairwise (Ordered apply)
  safe : ∃ l, c.pending.Sublist l ∧ Safe apply observe c.prog l c.marks (settle apply c.pending c.mem)
  out : eval apply observe c.prog (settle apply c.pending c.mem) = out

/-- What is runnable commutes with everything issued before it and still pending. -/
theorem Runnable.commutes (h : Runnable i (pre ++ post))
    (hsorted : (pre ++ i :: post).Pairwise fun i j => i.ticket < j.ticket)
    (hord : (pre ++ i :: post).Pairwise (Ordered apply)) :
    ∀ j ∈ pre, Function.Commute (apply j.op) (apply i.op) := by
  intro j hj
  have hlt : j.ticket < i.ticket := (List.pairwise_append.1 hsorted).2.2 j hj i List.mem_cons_self
  have hrun := h j (List.mem_append_left _ hj)
  rcases (List.pairwise_append.1 hord).2.2 j hj i List.mem_cons_self with hq | hafter | hcomm
  · exact absurd (hrun.1 hq) (Nat.lt_asymm hlt)
  · have hne : j.queue ≠ i.queue := fun hq => absurd (hrun.1 hq) (Nat.lt_asymm hlt)
    exact absurd (hrun.2 hne) (Nat.not_le.2 hafter)
  · exact hcomm

theorem sublist_remove : (pre ++ post).Sublist (pre ++ i :: post) :=
  (List.Sublist.refl pre).append (List.sublist_cons_self i post)

theorem settle_observe (h : ∀ i ∈ l, ∀ m, observe (apply i.op m) = observe m) (m : M) :
    observe (settle apply l m) = observe m := by
  induction l generalizing m with
  | nil => rfl
  | cons i l ih =>
    have htail := ih (fun j hj => h j (List.mem_cons_of_mem _ hj)) (apply i.op m)
    exact htail.trans (h i List.mem_cons_self m)

theorem Inv.device {out : R × M} {k : Marks} {p : Prog Op B R}
    (h : Inv apply observe out ⟨m, pre ++ i :: post, k, p⟩) (hrun : Runnable i (pre ++ post)) :
    Inv apply observe out ⟨apply i.op m, pre ++ post, k, p⟩ := by
  have hsettle := @Streams.settle_overtake _ _ _ _ post _ (hrun.commutes h.sorted h.ordered) m
  have hsub : (pre ++ post).Sublist (pre ++ i :: post) := sublist_remove
  obtain ⟨l, hl, hsafe⟩ := h.safe
  exact
    { sorted := h.sorted.sublist hsub
      bound := fun j hj => h.bound j (hsub.subset hj)
      fence := h.fence
      ready := h.ready
      ordered := h.ordered.sublist hsub
      safe := ⟨l, hsub.trans hl, hsettle ▸ hsafe⟩
      out := hsettle ▸ h.out }

theorem Inv.enq {out : R × M} {k : Marks} {q : Queue} {op : Op} {p : Prog Op B R}
    (h : Inv apply observe out ⟨m, l, k, .enq q op p⟩) :
    Inv apply observe out ⟨m, l ++ [k.item q op], k.tick, p⟩ := by
  obtain ⟨l', hl, hord, hsafe⟩ := h.safe
  have hsettle : settle apply (l ++ [k.item q op]) m = apply op (settle apply l m) := settle_append _ _ _
  refine ⟨?_, ?_, fun q => (h.fence q).trans (Nat.le_succ _), fun r hr => (h.ready r hr).trans (Nat.le_succ _),
    ?_, ⟨l' ++ [k.item q op], hl.append (List.Sublist.refl _), ?_⟩, ?_⟩
  · refine List.pairwise_append.2 ⟨h.sorted, List.pairwise_singleton _ _, fun j hj i hi => ?_⟩
    rw [List.mem_singleton.1 hi]
    exact (h.bound j hj).1
  · intro j hj
    rcases List.mem_append.1 hj with hj | hj
    · exact ⟨(h.bound j hj).1.trans (Nat.lt_succ_self _), (h.bound j hj).2⟩
    · rw [List.mem_singleton.1 hj]
      exact ⟨Nat.lt_succ_self _, h.fence q⟩
  · refine List.pairwise_append.2 ⟨h.ordered, List.pairwise_singleton _ _, fun j hj i hi => ?_⟩
    rw [List.mem_singleton.1 hi]
    exact hord j (hl.subset hj)
  · rw [hsettle]
    exact hsafe
  · rw [hsettle]
    exact h.out

theorem Inv.sync {out : R × M} {k : Marks} {p : B → Prog Op B R}
    (h : Inv apply observe out ⟨m, l, k, .sync p⟩) (hdrained : ∀ j ∈ l, j.queue ≠ .caller) :
    Inv apply observe out ⟨m, l, k, p (observe m)⟩ := by
  obtain ⟨l', hl, hsees, hsafe⟩ := h.safe
  have hside : ∀ j ∈ l, j.queue = .side := fun j hj => by
    rcases hq : j.queue with _ | _
    · exact absurd hq (hdrained j hj)
    · rfl
  have hobs : observe (settle apply l m) = observe m :=
    settle_observe (fun j hj => hsees j (hl.subset hj) (hside j hj)) m
  refine ⟨h.sorted, h.bound, h.fence, h.ready, h.ordered,
    ⟨l'.filter fun i => i.queue = .side, ?_, ?_⟩, ?_⟩
  · have hfilter : l.filter (fun i => i.queue = .side) = l :=
      List.filter_eq_self.2 fun j hj => by simpa using hside j hj
    rw [← hfilter]
    exact hl.filter _
  · rw [← hobs]
    exact hsafe
  · rw [← hobs]
    exact h.out

theorem Inv.step {out : R × M} (h : Inv apply observe out c) (hstep : Step apply observe c c') :
    Inv apply observe out c' := by
  cases hstep with
  | device hrun => exact h.device hrun
  | enq => exact h.enq
  | @waitEvent m l k p =>
    refine { h with fence := fun q => ?_, safe := h.safe, out := h.out }
    show Function.update k.fence .caller _ q ≤ k.clock
    rw [Function.update_apply]
    split
    · refine max_le (h.fence _) ?_
      rcases hr : k.ready with _ | r
      · exact Nat.zero_le _
      · exact h.ready r hr
    · exact h.fence q
  | waitStream =>
    refine { h with fence := fun q => ?_, safe := h.safe, out := h.out }
    unfold Marks.waitStream
    dsimp only
    rw [Function.update_apply]
    split
    · exact le_rfl
    · exact h.fence q
  | record =>
    refine { h with ready := fun r hr => ?_, safe := h.safe, out := h.out }
    cases hr
    exact le_rfl
  | clear =>
    refine { h with ready := fun r hr => ?_, safe := h.safe, out := h.out }
    cases hr
  | sync hdrained => exact h.sync hdrained

theorem inv_start {p : Prog Op B R} (hsafe : Safe apply observe p [] Marks.idle m) :
    Inv apply observe (eval apply observe p m) ⟨m, [], Marks.idle, p⟩ :=
  { sorted := List.Pairwise.nil
    bound := fun _ hi => (nomatch hi)
    fence := fun _ => le_rfl
    ready := fun _ hr => (nomatch hr)
    ordered := List.Pairwise.nil
    safe := ⟨[], List.Sublist.refl _, hsafe⟩
    out := rfl }

theorem Inv.run {out : R × M} (h : Inv apply observe out c) (hrun : Run apply observe c c') :
    Inv apply observe out c' := by
  induction hrun with
  | refl => exact h
  | tail _ hstep ih => exact ih.step hstep

/-- A race-free program ends, in any interleaving, as running each operation at its issue does. -/
theorem run_eq {p : Prog Op B R} (hsafe : Safe apply observe p [] Marks.idle m) {m' : M} {k : Marks} {r : R}
    (hrun : Run apply observe ⟨m, [], Marks.idle, p⟩ ⟨m', [], k, .ret r⟩) :
    (r, m') = eval apply observe p m := ((inv_start hsafe).run hrun).out

/-- The earliest pending operation is always runnable. -/
theorem Inv.drain {out : R × M} {k : Marks} {p : Prog Op B R} (h : Inv apply observe out ⟨m, l, k, p⟩) :
    ∃ m', Run apply observe ⟨m, l, k, p⟩ ⟨m', [], k, p⟩ := by
  induction l generalizing m with
  | nil => exact ⟨m, .refl⟩
  | cons i l ih =>
    have hrun : Runnable i ([] ++ l) := fun j hj => by
      have hlt := (List.pairwise_cons.1 h.sorted).1 j hj
      have hbound := (h.bound i List.mem_cons_self).2
      exact ⟨fun _ => hlt, fun _ => hbound.trans hlt.le⟩
    have hstep : Step apply observe ⟨m, [] ++ i :: l, k, p⟩ ⟨apply i.op m, [] ++ l, k, p⟩ := .device hrun
    obtain ⟨m', hrest⟩ := ih (h.step hstep)
    exact ⟨m', .head hstep hrest⟩

/-- No configuration of a race-free program is stuck: it can run to its end. -/
theorem Inv.finish {out : R × M} (h : Inv apply observe out c) :
    ∃ m' k r, Run apply observe c ⟨m', [], k, .ret r⟩ := by
  obtain ⟨m, l, k, p⟩ := c
  induction p generalizing m l k with
  | ret r =>
    obtain ⟨m', hrun⟩ := h.drain
    exact ⟨m', k, r, hrun⟩
  | enq q op p ih =>
    obtain ⟨m', k', r, hrun⟩ := ih _ _ _ (h.step .enq)
    exact ⟨m', k', r, .head .enq hrun⟩
  | waitEvent p ih =>
    obtain ⟨m', k', r, hrun⟩ := ih _ _ _ (h.step .waitEvent)
    exact ⟨m', k', r, .head .waitEvent hrun⟩
  | waitStream p ih =>
    obtain ⟨m', k', r, hrun⟩ := ih _ _ _ (h.step .waitStream)
    exact ⟨m', k', r, .head .waitStream hrun⟩
  | record p ih =>
    obtain ⟨m', k', r, hrun⟩ := ih _ _ _ (h.step .record)
    exact ⟨m', k', r, .head .record hrun⟩
  | clear p ih =>
    obtain ⟨m', k', r, hrun⟩ := ih _ _ _ (h.step .clear)
    exact ⟨m', k', r, .head .clear hrun⟩
  | sync p ih =>
    obtain ⟨m', hdrain⟩ := h.drain
    have hstep : Step apply observe ⟨m', [], k, .sync p⟩ ⟨m', [], k, p (observe m')⟩ :=
      .sync fun j hj => (nomatch hj)
    obtain ⟨m'', k', r, hrun⟩ := ih _ _ _ _ ((h.run hdrain).step hstep)
    exact ⟨m'', k', r, hdrain.trans (.head hstep hrun)⟩

/-! ### Following a schedule -/

instance (i : Item Op) (rest : List (Item Op)) : Decidable (Runnable i rest) :=
  inferInstanceAs (Decidable (∀ j ∈ rest, _))

namespace Config

variable (apply observe)

def host : Config Op M B R → Option (Config Op M B R)
  | ⟨_, _, _, .ret _⟩ => none
  | ⟨m, l, k, .enq q op p⟩ => some ⟨m, l ++ [k.item q op], k.tick, p⟩
  | ⟨m, l, k, .waitEvent p⟩ => some ⟨m, l, k.waitEvent, p⟩
  | ⟨m, l, k, .waitStream p⟩ => some ⟨m, l, k.waitStream, p⟩
  | ⟨m, l, k, .record p⟩ => some ⟨m, l, k.record, p⟩
  | ⟨m, l, k, .clear p⟩ => some ⟨m, l, k.clear, p⟩
  | ⟨m, l, k, .sync p⟩ => if ∀ j ∈ l, j.queue ≠ .caller then some ⟨m, l, k, p (observe m)⟩ else none

def device (c : Config Op M B R) (n : ℕ) : Option (Config Op M B R) :=
  match c.pending.drop n with
  | [] => none
  | i :: post =>
    if Runnable i (c.pending.take n ++ post) then
      some ⟨apply i.op c.mem, c.pending.take n ++ post, c.marks, c.prog⟩
    else none

/-- A schedule names who moves: the host, or the pending operation at a place. -/
def schedule : List (Option ℕ) → Config Op M B R → Option (Config Op M B R)
  | [], c => some c
  | none :: l, c => (c.host observe).bind (schedule l)
  | some n :: l, c => (c.device apply n).bind (schedule l)

variable {apply observe}

theorem host_step (h : c.host observe = some c') : Step apply observe c c' := by
  obtain ⟨m, l, k, p⟩ := c
  cases p with
  | ret r => cases h
  | sync p =>
    by_cases hdrained : ∀ j ∈ l, j.queue ≠ .caller
    · cases (if_pos hdrained).symm.trans h
      exact .sync hdrained
    · cases (if_neg hdrained).symm.trans h
  | enq => cases h; exact .enq
  | waitEvent => cases h; exact .waitEvent
  | waitStream => cases h; exact .waitStream
  | record => cases h; exact .record
  | clear => cases h; exact .clear

theorem device_step {n : ℕ} (h : c.device apply n = some c') : Step apply observe c c' := by
  obtain ⟨m, l, k, p⟩ := c
  unfold device at h
  dsimp only at h
  split at h
  · cases h
  · next i post hdrop =>
    split at h
    · next hrun =>
      cases h
      have hl : l = l.take n ++ i :: post := by rw [← hdrop, List.take_append_drop]
      have hstep : Step apply observe ⟨m, l.take n ++ i :: post, k, p⟩
          ⟨apply i.op m, l.take n ++ post, k, p⟩ := .device hrun
      rwa [← hl] at hstep
    · cases h

theorem schedule_run {l : List (Option ℕ)} (h : c.schedule apply observe l = some c') :
    Run apply observe c c' := by
  induction l generalizing c with
  | nil =>
    cases h
    exact .refl
  | cons move l ih =>
    cases move with
    | none =>
      obtain ⟨c₁, hhost, hrest⟩ := Option.bind_eq_some_iff.1 h
      exact .head (host_step hhost) (ih hrest)
    | some n =>
      obtain ⟨c₁, hdevice, hrest⟩ := Option.bind_eq_some_iff.1 h
      exact .head (device_step hdevice) (ih hrest)

end Config

/-! ### Checking a program part by part -/

/-- Where a program stands when each operation runs at its issue. -/
structure Trace (Op M : Type*) where
  issued : List (Item Op)
  marks : Marks
  mem : M

/-- The first program reaches the second, racing with nothing on the way. -/
def Leads (apply : Op → M → M) (observe : M → B) (p : Prog Op B R) (t : Trace Op M) (p' : Prog Op B R)
    (t' : Trace Op M) : Prop :=
  eval apply observe p t.mem = eval apply observe p' t'.mem ∧
    (Safe apply observe p' t'.issued t'.marks t'.mem → Safe apply observe p t.issued t.marks t.mem)

namespace Trace

def enq (apply : Op → M → M) (t : Trace Op M) (q : Queue) (op : Op) : Trace Op M :=
  ⟨t.issued ++ [t.marks.item q op], t.marks.tick, apply op t.mem⟩

def mark (t : Trace Op M) (f : Marks → Marks) : Trace Op M := { t with marks := f t.marks }

/-- A host read has drained the caller's queue. -/
def drained (t : Trace Op M) : Trace Op M := { t with issued := t.issued.filter fun i => i.queue = .side }

end Trace

variable {p p' p'' : Prog Op B R} {t t' t'' : Trace Op M}

theorem Leads.refl : Leads apply observe p t p t := ⟨rfl, id⟩

theorem Leads.trans (h : Leads apply observe p t p' t') (h' : Leads apply observe p' t' p'' t'') :
    Leads apply observe p t p'' t'' := ⟨h.1.trans h'.1, fun hsafe => h.2 (h'.2 hsafe)⟩

theorem leads_enq {q : Queue} {op : Op} (h : ∀ i ∈ t.issued, Ordered apply i (t.marks.item q op)) :
    Leads apply observe (.enq q op p) t p (t.enq apply q op) := ⟨rfl, fun hsafe => ⟨h, hsafe⟩⟩

theorem leads_waitEvent : Leads apply observe (.waitEvent p) t p (t.mark Marks.waitEvent) := ⟨rfl, id⟩

theorem leads_waitStream : Leads apply observe (.waitStream p) t p (t.mark Marks.waitStream) := ⟨rfl, id⟩

theorem leads_record : Leads apply observe (.record p) t p (t.mark Marks.record) := ⟨rfl, id⟩

theorem leads_clear : Leads apply observe (.clear p) t p (t.mark Marks.clear) := ⟨rfl, id⟩

theorem leads_sync {p : B → Prog Op B R}
    (h : ∀ i ∈ t.issued, i.queue = .side → ∀ m, observe (apply i.op m) = observe m) :
    Leads apply observe (.sync p) t (p (observe t.mem)) t.drained := ⟨rfl, fun hsafe => ⟨h, hsafe⟩⟩

/-- A program led to its end is race free, and its value is the end's. -/
theorem Leads.ret {r : R} (h : Leads apply observe p t (.ret r) t') :
    Safe apply observe p t.issued t.marks t.mem ∧ eval apply observe p t.mem = (r, t'.mem) :=
  ⟨h.2 trivial, h.1⟩

end Streams
