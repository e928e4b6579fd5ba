import Rola.BatchHead

/-!
# Batch-heads over a run

The bound shape and format never move, so whatever calls came before, a served call whose batch,
heads and dial widths agree wherever the checks' products and totals do is the bound state's in every
operand, and any other call is refused with the state as it was.
-/

namespace Rola

variable {Page : Type} [Zero Page]

namespace RoLAState

variable {s : RoLAState Page}

/-- What every call leaves: a good state, bound whole or not at all. -/
def Whole (s : RoLAState Page) : Prop := Good s ∧ Binds s

theorem whole_new (poolSlack : ℚ) : Whole (new poolSlack : RoLAState Page) :=
  ⟨good_new poolSlack, fun _ => rfl, fun _ hshape => (nomatch hshape)⟩

omit [Zero Page] in
theorem Binds.afterPrefill (h : Binds s) (bits : Option (ℕ → Bool)) (store : ℕ → Page) :
    Binds (s.afterPrefill bits store) := by
  unfold RoLAState.afterPrefill
  split
  · exact h.congr rfl rfl
  · exact h
  · exact h.congr rfl rfl

/-- Whatever a call did, and wherever it stopped. -/
theorem Whole.serve (h : Whole s) (call : SeamCall Page) : Whole (s.serve call).2 := by
  obtain ⟨hgood, hbinds⟩ := h
  cases call with
  | prefill grow base routes bitmap dv paging BC store =>
    have hentry : Whole (s.kernelEntry grow base routes.routes bitmap dv paging BC).2 :=
      ⟨hgood.kernelEntry, hbinds.kernelEntry⟩
    unfold RoLAState.serve
    dsimp only
    split
    · rename_i hres
      rwa [hres] at hentry
    · rename_i t hres
      rw [hres] at hentry
      exact ⟨hentry.1.afterPrefill (kernelEntry_bound hres) _ store, hentry.2.afterPrefill _ store⟩
  | decode dev routes v decay grad launch plane =>
    unfold RoLAState.serve
    dsimp only
    split
    · exact ⟨hgood, hbinds⟩
    rename_i p hres
    unfold afterStep
    split
    · rename_i a ha
      obtain ⟨_, -, -, hsound⟩ := hgood.arena a ha
      exact ⟨hgood.withArena ha (hsound.decodeStep _), hbinds.congr rfl rfl⟩
    · obtain ⟨-, -, -, -, -, ⟨shape, hshape, -⟩, -⟩ := decodeCall_ok hres
      exact ⟨hgood.withPlane (hshape ▸ Option.some_ne_none _) plane, hbinds.congr rfl rfl⟩
  | admission grow bitmap =>
    have hexec : (s.serve (.admission grow bitmap)).2 = s.exec (.admission grow bitmap) := rfl
    refine ⟨hexec ▸ hgood.exec (.admission grow bitmap), ?_⟩
    unfold RoLAState.serve RoLAState.decodeEntryArena
    dsimp only
    split
    · exact hbinds
    · exact hbinds
    · split
      · exact hbinds
      · exact hbinds.congr rfl rfl
  | refill grow =>
    have hexec : (s.serve (.refill grow)).2 = s.exec (.refill grow) := rfl
    refine ⟨hexec ▸ hgood.exec (.refill grow), ?_⟩
    unfold RoLAState.serve RoLAState.refillPool
    dsimp only
    split
    · exact hbinds
    · exact hbinds.congr rfl rfl

/-- The state a sequence of calls leaves, refused ones included. -/
def afterCalls (s : RoLAState Page) (cs : List (SeamCall Page)) : RoLAState Page :=
  cs.foldl (fun s call => (s.serve call).2) s

theorem Whole.afterCalls (h : Whole s) (cs : List (SeamCall Page)) : Whole (s.afterCalls cs) := by
  induction cs generalizing s with
  | nil => exact h
  | cons call cs ih => exact ih (h.serve call)

/-! ### A bound state keeps its shape and format -/

theorem enterBitmap_bound {grow : Grow} {base : ℕ → Page} {routes : Routes} {bitmap : Option AtomBitmap}
    {BC : ℕ} {shape : Shape} : (enterBitmap grow base routes bitmap BC shape s).2.shape = s.shape ∧
      (enterBitmap grow base routes bitmap BC shape s).2.format = s.format := by
  unfold RoLAState.enterBitmap
  split
  · exact ⟨enterBacking_shape s, enterBacking_binds s⟩
  · split
    · exact ⟨rfl, rfl⟩
    · exact ⟨enterBacking_shape s, enterBacking_binds s⟩

theorem kernelEntry_same {grow : Grow} {base : ℕ → Page} {routes : Routes} {bitmap : Option AtomBitmap}
    {dv BC : ℕ} {paging : Bool} (hbound : s.shape ≠ none) :
    (s.kernelEntry grow base routes bitmap dv paging BC).2.shape = s.shape ∧
      (s.kernelEntry grow base routes bitmap dv paging BC).2.format = s.format := by
  unfold RoLAState.kernelEntry
  split
  · exact ⟨rfl, rfl⟩
  split
  · rename_i hnone
    exact absurd hnone hbound
  split
  · exact ⟨rfl, rfl⟩
  split
  · exact ⟨rfl, rfl⟩
  · exact enterBitmap_bound

omit [Zero Page] in
theorem afterPrefill_same (bits : Option (ℕ → Bool)) (store : ℕ → Page) :
    (s.afterPrefill bits store).shape = s.shape ∧ (s.afterPrefill bits store).format = s.format := by
  unfold RoLAState.afterPrefill
  split <;> exact ⟨rfl, rfl⟩

theorem serve_same (hbound : s.shape ≠ none) (call : SeamCall Page) :
    (s.serve call).2.shape = s.shape ∧ (s.serve call).2.format = s.format := by
  cases call with
  | prefill grow base routes bitmap dv paging BC store =>
    have hentry := @RoLAState.kernelEntry_same _ _ _ grow base routes.routes bitmap dv BC paging hbound
    unfold RoLAState.serve
    dsimp only
    split
    · rename_i hres
      rwa [hres] at hentry
    · rename_i t hres
      rw [hres] at hentry
      obtain ⟨hshape, hformat⟩ := afterPrefill_same (s := t) (bitmap.map AtomBitmap.bits) store
      exact ⟨hshape.trans hentry.1, hformat.trans hentry.2⟩
  | decode dev routes v decay grad launch plane =>
    unfold RoLAState.serve
    dsimp only
    split
    · exact ⟨rfl, rfl⟩
    · unfold afterStep
      split <;> exact ⟨rfl, rfl⟩
  | admission grow bitmap =>
    unfold RoLAState.serve RoLAState.decodeEntryArena
    dsimp only
    split
    · exact ⟨rfl, rfl⟩
    · exact ⟨rfl, rfl⟩
    · split <;> exact ⟨rfl, rfl⟩
  | refill grow =>
    unfold RoLAState.serve RoLAState.refillPool
    dsimp only
    split <;> exact ⟨rfl, rfl⟩

/-! ### Every operand is the bound state's -/

/-- Where the checks agree, so do the batch, the heads and the dials' widths. -/
def Grouping (s : RoLAState Page) (call : SeamCall Page) : Prop := ∀ shape format, s.shape = some shape →
  s.format = some format → call.Fits shape format s.arena.isSome → call.Grouped shape format

/-- A call that is not the bound state's is refused, and changes nothing. -/
theorem Whole.refused (h : Whole s) {call : SeamCall Page} (hgroups : s.Grouping call) {shape : Shape}
    {format : StateFormat} (hshape : s.shape = some shape) (hformat : s.format = some format)
    (hsame : ¬call.Same shape format) : ∃ err, s.serve call = (.error err, s) := by
  have hbound : Bound shape format := by
    obtain ⟨format', hformat', hbound⟩ := h.2.2 shape hshape
    exact Option.some.inj (hformat.symm.trans hformat') ▸ hbound
  have hfits : ¬call.Fits shape format s.arena.isSome := fun hfits =>
    hsame (hfits.same (hgroups shape format hshape hformat hfits))
  cases call with
  | prefill grow base routes bitmap dv paging BC store =>
    rcases @RoLAState.kernelEntry_presents _ _ _ _ _ grow base routes bitmap dv BC paging hshape hformat hbound with hpres | ⟨err, herr⟩
    · exact absurd hpres hfits
    · refine ⟨err, ?_⟩
      dsimp only [RoLAState.serve]
      rw [herr]
  | decode dev routes v decay grad launch plane =>
    rcases hres : s.decodeCall dev routes v decay grad with err | p
    · refine ⟨err, ?_⟩
      dsimp only [RoLAState.serve]
      rw [hres]
    · exact absurd (decodeCall_fits hres h.1 hshape hformat hbound) hfits
  | admission grow bitmap => exact absurd trivial hsame
  | refill grow => exact absurd trivial hsame

/-- A call served by an unbound state has bound it. -/
theorem Whole.binds (h : Whole s) {call : SeamCall Page} (hnone : s.shape = none)
    (hok : (s.serve call).1 = .ok ()) : ∃ shape format, (s.serve call).2.shape = some shape ∧
      (s.serve call).2.format = some format ∧ call.Same shape format := by
  cases call with
  | prefill grow base routes bitmap dv paging BC store =>
    dsimp only [RoLAState.serve] at hok ⊢
    rcases hres : s.kernelEntry grow base routes.routes bitmap dv paging BC with ⟨err | ⟨⟩, t⟩ <;>
      rw [hres] at hok
    · cases hok
    obtain ⟨hshape, hformat⟩ := afterPrefill_same (s := t) (bitmap.map AtomBitmap.bits) store
    obtain ⟨presented, hpres, ⟨shape, rfl, -, hb⟩ | ⟨shape, hbound, -⟩⟩ := kernelEntry_ok hres
    · have hshape' := congrArg (fun r => r.2.shape) hb
      have hformat' := congrArg (fun r => r.2.format) hb
      rw [enterBacking_shape] at hshape'
      rw [enterBacking_binds] at hformat'
      refine ⟨_, presented, hshape.trans hshape'.symm, hformat.trans hformat'.symm, ?_⟩
      rw [formatOf_ok hpres]
      exact ⟨RoutesFit.same ⟨rfl, rfl⟩ rfl rfl, rfl⟩
    · exact absurd (hnone.symm.trans hbound) (Option.some_ne_none _).symm
  | decode dev routes v decay grad launch plane =>
    unfold RoLAState.serve at hok
    rcases hres : s.decodeCall dev routes v decay grad with err | p
    · simp only [hres] at hok
      cases hok
    · obtain ⟨-, -, -, -, -, ⟨shape, hshape, -⟩, -⟩ := decodeCall_ok hres
      exact absurd (hnone.symm.trans hshape) (Option.some_ne_none _).symm
  | admission grow bitmap =>
    rcases hres : s.decodeEntryArena grow bitmap with ⟨err | ⟨⟩, t⟩
    · have hok' : (s.decodeEntryArena grow bitmap).1 = .ok () := hok
      rw [hres] at hok'
      cases hok'
    · obtain ⟨a, a', ha, -⟩ := decodeEntryArena_ok hres
      exact absurd ((h.1.unbound hnone).1.symm.trans ha) (Option.some_ne_none _).symm
  | refill grow =>
    unfold RoLAState.serve RoLAState.refillPool at hok
    rw [(h.1.unbound hnone).1] at hok
    cases hok

/-- Whatever calls came before: a served call is the bound state's in every operand, and one that is not
is refused with the state as it was. -/
theorem batch_head_named (poolSlack : ℚ) (cs : List (SeamCall Page)) (call : SeamCall Page)
    (hgroups : ((new poolSlack).afterCalls cs).Grouping call) :
    ((((new poolSlack).afterCalls cs).serve call).1 = .ok () → ∃ shape format,
        (((new poolSlack).afterCalls cs).serve call).2.shape = some shape ∧
        (((new poolSlack).afterCalls cs).serve call).2.format = some format ∧
        call.Same shape format ∧ call.Named shape) ∧
      ∀ shape format, ((new poolSlack).afterCalls cs).shape = some shape →
        ((new poolSlack).afterCalls cs).format = some format → ¬call.Same shape format →
        ∃ err, ((new poolSlack).afterCalls cs).serve call = (.error err, (new poolSlack).afterCalls cs) := by
  have hwhole := (@RoLAState.whole_new Page _ poolSlack).afterCalls cs
  generalize (new poolSlack).afterCalls cs = s at hwhole hgroups ⊢
  refine ⟨fun hok => ?_, fun shape format hshape hformat => hwhole.refused hgroups hshape hformat⟩
  rcases hshape : s.shape with _ | shape
  · obtain ⟨shape, format, hshape', hformat', hsame⟩ := hwhole.binds hshape hok
    exact ⟨shape, format, hshape', hformat', hsame, hsame.named⟩
  · obtain ⟨format, hformat, -⟩ := hwhole.2.2 shape hshape
    have hsame : call.Same shape format := by
      by_contra hsame
      obtain ⟨err, herr⟩ := hwhole.refused hgroups hshape hformat hsame
      rw [herr] at hok
      cases hok
    obtain ⟨hshape', hformat'⟩ := serve_same (hshape ▸ Option.some_ne_none _) call
    exact ⟨shape, format, hshape'.trans hshape, hformat'.trans hformat, hsame, hsame.named⟩

/-! ### Six batch-heads, grouped two ways -/

/-- One token over two levels of 16 and 32. -/
def twoLevels (batch heads : ℕ) : RouteFactors :=
  { widths := [16, 32]
    read := [⟨batch, 1, heads, 16⟩, ⟨batch, 1, heads, 32⟩]
    write := [⟨batch, 1, heads, 16⟩, ⟨batch, 1, heads, 32⟩]
    gWrite := ⟨batch, 1, heads⟩
    readMass := none
    checked := by
      simp [RouteTensors.postInit, levelRefusal, LevelShape.lead, require, bind, Except.bind] }

/-- A dense prefill of 32 value columns. -/
def densePrefill (batch heads : ℕ) : SeamCall ℕ :=
  .prefill Grow.bridge (fun _ => 0) (twoLevels batch heads) none 32 false 16 fun _ => 0

/-- A step whose dials are 32 and 16 wide. -/
def swappedDials (batch heads : ℕ) : SeamCall ℕ :=
  .decode ⟨[(32, 2, true)], 1, fun _ _ => 1, 49152⟩ (twoLevels batch heads) ⟨batch, 1, heads, 32⟩
    (some ⟨⟨heads, 32⟩, [⟨heads, 16⟩], by simp⟩) false
    (fun _ => ⟨fun _ => [], fun _ => List.nodup_nil, fun _ _ h => (nomatch h), fun _ => false, fun _ => 0⟩)
    fun _ => 0

theorem bound_two_three : ((new 0 : RoLAState ℕ).afterCalls [densePrefill 2 3]).shape = some ⟨2, 3, 512, 33⟩ ∧
    ((new 0 : RoLAState ℕ).afterCalls [densePrefill 2 3]).format = some ⟨2, [16, 32], 32, 192⟩ := by
  decide +kernel

/-- A continuation of a bound dense state. -/
theorem batch_head_named_continued : ∃ shape format,
    (((new 0 : RoLAState ℕ).afterCalls [densePrefill 2 3]).serve (densePrefill 2 3)).2.shape = some shape ∧
    (((new 0 : RoLAState ℕ).afterCalls [densePrefill 2 3]).serve (densePrefill 2 3)).2.format = some format ∧
    (densePrefill 2 3).Same shape format ∧ (densePrefill 2 3).Named shape := by
  refine (batch_head_named 0 [densePrefill 2 3] (densePrefill 2 3) fun shape format hshape _ _ => ?_).1
    (by decide +kernel)
  rw [bound_two_three.1] at hshape
  cases hshape
  exact ⟨rfl, rfl⟩

/-- A prefill of the same batch-heads grouped the other way, and a step with its dials swapped. -/
theorem regrouped_calls_served :
    (∃ shape format, ((new 0 : RoLAState ℕ).afterCalls [densePrefill 2 3]).shape = some shape ∧
      ((new 0 : RoLAState ℕ).afterCalls [densePrefill 2 3]).format = some format ∧
      (((new 0 : RoLAState ℕ).afterCalls [densePrefill 2 3]).serve (densePrefill 3 2)).1 = .ok () ∧
      ¬(densePrefill 3 2).Same shape format) ∧
    ∃ shape format, ((new 0 : RoLAState ℕ).afterCalls [densePrefill 2 3]).shape = some shape ∧
      ((new 0 : RoLAState ℕ).afterCalls [densePrefill 2 3]).format = some format ∧
      (((new 0 : RoLAState ℕ).afterCalls [densePrefill 2 3]).serve (swappedDials 2 3)).1 = .ok () ∧
      ¬(swappedDials 2 3).Same shape format := by
  obtain ⟨hshape, hformat⟩ := bound_two_three
  refine ⟨⟨_, _, hshape, hformat, by decide +kernel, fun hsame => ?_⟩, _, _, hshape, hformat, by decide +kernel,
    fun hsame => ?_⟩
  · have hgain := congrArg ColumnShape.batch hsame.1.2.2.2
    cases hgain
  · have hdials := hsame.2.2 _ rfl
    cases hdials

end RoLAState

end Rola
