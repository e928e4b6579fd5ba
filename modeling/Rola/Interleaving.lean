import Rola.ArenaJoins

/-!
# Interleavings

`reset` joins the side stream before it fills the table; `plan_exact(fresh=False)` and `materialize`
do not. Where each residency test asks about no atom still un-joined, and each gather comes with none,
every interleaving ends as the calls one after the other.
-/

namespace Rola

open Streams

namespace PageArena

variable {Page : Type} [Zero Page] (c : ArenaConfig)

/-- The call looks at nothing the caller's stream has not joined. -/
def ArenaCall.Joined (u : List ℕ) : ArenaCall → Prop
  | .planExact _ bitmap fresh => fresh = false → Unasked c u bitmap
  | .materialize => u = []
  | _ => True

/-- The atoms admitted since the caller's stream last waited, after a call. -/
def ArenaCall.unjoined (s : PageArena Page) (u : List ℕ) : ArenaCall → List ℕ
  | .planExact grow bitmap true =>
    match PageArena.reset c grow s with
    | (.ok (), s) => checkedIds c grow bitmap s
    | (.error _, _) => []
  | .planExact grow bitmap false => u ++ checkedIds c grow bitmap s
  | .reset _ => []
  | .refillPool _ => u
  | .materialize => u
  | .consume => []

/-- Each call looks at nothing un-joined. -/
def Joined : Served Page → List ℕ → List ArenaCall → Prop
  | _, _, [] => True
  | q, u, call :: cs => call.Joined c u ∧ Joined (q.call c call) (call.unjoined c q.arena u) cs

/-- What the device holds of an arena nothing is pending on. -/
def device (s : PageArena Page) : Device Page :=
  { pageTable := s.pageTable
    valueBase := s.valueBase
    poolSlots := s.poolSlots
    poolCursor := s.poolCursor
    wanted := []
    spent := fun _ => 0
    present := fun _ => false
    index := fun _ => 0
    outputs := [] }

def host (s : PageArena Page) : Host := ⟨s.next, s.peakPages, []⟩

/-- The calls about to be made on an arena. -/
def issue (s : PageArena Page) (cs : List ArenaCall) : Config DeviceOp (Device Page) Seen Host :=
  ⟨s.device, [], Marks.idle, callsProg c s.host cs⟩

def served (s : PageArena Page) (cs : List ArenaCall) : Served Page := cs.foldl (Served.call c) ⟨s, [], []⟩

variable {c} {u : List ℕ} {t : Trace DeviceOp (Device Page)} {h : Host} {q : Served Page}

omit [Zero Page] in
theorem Holds.ends {m : Device Page} (hq : Holds h m q) (out : Except String Unit) :
    Holds (h.ends out) m { q with outcomes := q.outcomes ++ [out] } :=
  { hq with outcomes := congrArg (· ++ [out]) hq.outcomes }

/-- A call is race free where it looks at nothing un-joined. -/
theorem comes_call (ht : Tracked u t) (hq : Holds h t.mem q) {call : ArenaCall} (hjoined : call.Joined c u) :
    ∃ h' t', (∀ k, Leads (DeviceOp.apply c) Device.observe (callProg c h k call) t (k h') t') ∧
      Tracked (call.unjoined c q.arena u) t' ∧ Holds h' t'.mem (q.call c call) := by
  cases call with
  | planExact grow bitmap fresh =>
    cases fresh with
    | false =>
      obtain ⟨h', t', hleads, htracked, hq'⟩ := @PageArena.comes_checked _ _ _ _ _ _ _ grow _ ht hq (hjoined rfl)
      exact ⟨_, t', fun k => hleads _, htracked, hq'.ends _⟩
    | true =>
      obtain ⟨h', t', hleads, htracked, hq'⟩ := @PageArena.comes_fresh _ _ c _ _ _ _ grow bitmap ht hq
      exact ⟨_, t', fun k => hleads _, htracked, hq'.ends _⟩
  | reset grow =>
    obtain ⟨h', t', hleads, htracked, hq'⟩ := @PageArena.comes_reset _ _ c _ _ _ _ grow ht hq
    exact ⟨_, t', fun k => hleads _, htracked, hq'.ends _⟩
  | refillPool grow =>
    obtain ⟨h', t', hleads, htracked, hq'⟩ := @PageArena.comes_refill _ _ c _ _ _ _ grow ht hq
    exact ⟨_, t', fun k => hleads _, htracked, hq'.ends _⟩
  | materialize =>
    cases (hjoined : u = [])
    have h₁ := ht.enq_caller c .readPresent
    have h₂ := h₁.enq_caller c .readIndex
    have h₃ := h₂.enq_caller c .gather
    refine ⟨h, _, fun k => ?_, h₃.drained, { hq with outputs := ?_ }⟩
    · exact (leads_enq ht.ordered_joined).trans ((leads_enq h₁.ordered_joined).trans
        ((leads_enq h₂.ordered_joined).trans (leads_sync h₃.unseen)))
    · refine congrArg₂ (fun outputs pages => outputs ++ [pages]) hq.outputs ?_
      refine List.map_congr_left fun id _ => ?_
      show (if (t.mem.pageTable id).isSome then t.mem.valueBase ((t.mem.pageTable id).getD 0) else 0) =
        q.arena.gathered id
      rw [hq.table, hq.base, gathered]
      cases q.arena.pageTable id <;> rfl
  | consume =>
    have h₁ := ht.waitEvent
    refine ⟨h, _, fun k => ?_, h₁.enq_caller c .readPages, { hq with outputs := ?_ }⟩
    · exact leads_waitEvent.trans (leads_enq h₁.ordered_joined)
    · refine congrArg₂ (fun outputs pages => outputs ++ [pages]) hq.outputs ?_
      refine List.map_congr_left fun id _ => ?_
      unfold gathered
      rw [← hq.table, ← hq.base]
      rfl

theorem comes_calls {cs : List ArenaCall} (ht : Tracked u t) (hq : Holds h t.mem q) (hjoined : Joined c q u cs) :
    ∃ h' t', Leads (DeviceOp.apply c) Device.observe (callsProg c h cs) t (.ret h') t' ∧
      Holds h' t'.mem (cs.foldl (Served.call c) q) := by
  induction cs generalizing u t h q with
  | nil => exact ⟨h, t, Leads.refl, hq⟩
  | cons call cs ih =>
    obtain ⟨h₁, t₁, hleads, htracked, hq₁⟩ := comes_call ht hq hjoined.1
    obtain ⟨h', t', hrest, hq'⟩ := ih htracked hq₁ hjoined.2
    exact ⟨h', t', (hleads _).trans hrest, hq'⟩

/-- Where each call looks at nothing un-joined, every interleaving can finish, and every one that
does leaves what the calls leave one after the other. -/
theorem interleaving_agrees (s : PageArena Page) (cs : List ArenaCall) (hjoined : Joined c ⟨s, [], []⟩ [] cs)
    {conf : Config DeviceOp (Device Page) Seen Host}
    (hrun : Run (DeviceOp.apply c) Device.observe (issue c s cs) conf) :
    (∃ m k h, Run (DeviceOp.apply c) Device.observe conf ⟨m, [], k, .ret h⟩) ∧
      ∀ m k h, conf = ⟨m, [], k, .ret h⟩ → Holds h m (served c s cs) := by
  have ht : Tracked [] (⟨[], Marks.idle, s.device⟩ : Trace DeviceOp (Device Page)) :=
    ⟨⟨fun _ hi => (nomatch hi), fun _ hi => (nomatch hi), fun _ hi => (nomatch hi)⟩,
      fun _ hi => (nomatch hi)⟩
  have hq : Holds s.host s.device ⟨s, [], []⟩ := ⟨rfl, rfl, rfl, rfl, rfl, rfl, rfl, rfl⟩
  obtain ⟨h', t', hleads, hholds⟩ := comes_calls ht hq hjoined
  obtain ⟨hsafe, heval⟩ := hleads.ret
  have hinv := (inv_start hsafe).run hrun
  refine ⟨hinv.finish, fun m k h hconf => ?_⟩
  subst hconf
  have hend : (h, m) = (h', t'.mem) := (run_eq hsafe hrun).trans heval
  cases hend
  exact hholds

/-! ### Two atoms, no pool -/

def twoAtoms : ArenaConfig := .ofNats 1 2 1 1 0 (Eq.refl true)

def emptyArena : PageArena ℕ := ⟨fun _ => none, 0, fun _ _ => 0, fun _ => 0, fun _ => none, fun _ => 7, 0⟩

/-- A plan of one atom. -/
def planAtom (a : ℕ) (fresh : Bool) : ArenaCall := .planExact Grow.bridge ⟨1, 2, fun id => id == a⟩ fresh

/-- A continuation of a fresh plan, then a consumer, then a gather. -/
theorem interleaving_agrees_continued :
    ∃ m k h, Run (DeviceOp.apply twoAtoms) Device.observe (issue twoAtoms emptyArena
        [planAtom 0 true, planAtom 1 false, .consume, .materialize]) ⟨m, [], k, .ret h⟩ ∧
      Holds h m (served twoAtoms emptyArena [planAtom 0 true, planAtom 1 false, .consume, .materialize]) := by
  have hjoined : Joined twoAtoms ⟨emptyArena, [], []⟩ []
      [planAtom 0 true, planAtom 1 false, .consume, .materialize] :=
    ⟨fun hfresh => (nomatch hfresh), fun _ _ => by decide +kernel, trivial, rfl, trivial⟩
  obtain ⟨⟨m, k, h, hrun⟩, -⟩ := interleaving_agrees emptyArena _ hjoined .refl
  exact ⟨m, k, h, hrun, (interleaving_agrees emptyArena _ hjoined hrun).2 m k h rfl⟩

/-- The second plan's residency test overtakes the first plan's table write. -/
theorem back_to_back_admits_twice :
    ∃ m k h, Run (DeviceOp.apply twoAtoms) Device.observe
        (issue twoAtoms emptyArena [planAtom 0 false, planAtom 0 false]) ⟨m, [], k, .ret h⟩ ∧
      h.next = 2 ∧ m.pageTable 0 = some 1 ∧
      (served twoAtoms emptyArena [planAtom 0 false, planAtom 0 false]).arena.next = 1 ∧
      (served twoAtoms emptyArena [planAtom 0 false, planAtom 0 false]).arena.pageTable 0 = some 0 := by
  have hend : ((issue twoAtoms emptyArena [planAtom 0 false, planAtom 0 false]).schedule
      (DeviceOp.apply twoAtoms) Device.observe
      -- the first plan up to its event, then the second with its test run before the admission
      [none, some 0, none, none, none, none, none,
        none, some 2, none, none, none, none, none, some 0, some 0, some 0, some 0]).map
      (fun conf => (conf.pending.length, conf.mem.pageTable 0, conf.prog.value.map Host.next)) =
        some (0, some 1, some 2) := by decide +kernel
  obtain ⟨⟨m, l, k, p⟩, hsched, heq⟩ := Option.map_eq_some_iff.1 hend
  obtain ⟨hl, htable, hvalue⟩ : l.length = 0 ∧ m.pageTable 0 = some 1 ∧ p.value.map Host.next = some 2 := by
    simpa using heq
  obtain ⟨h, hret, hnext⟩ := Option.map_eq_some_iff.1 hvalue
  cases List.length_eq_zero_iff.1 hl
  cases Prog.eq_ret hret
  exact ⟨m, k, h, Config.schedule_run hsched, hnext, htable, by decide +kernel, by decide +kernel⟩

end PageArena

end Rola
