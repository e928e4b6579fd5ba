import Rola.Admission
import Rola.World

/-!
# The clone contract

A clone rebuilds the residency by one admission after a fresh pool reservation, so it is refused
where the pool's slots and the resident atoms do not fit together, though the source holds both.
Where they fit the copy maps the same atoms to the same bytes, and neither handle sees the other.
-/

namespace Rola

variable {Page : Type} [Zero Page]

namespace PageArena

variable {c : ArenaConfig} {s t : PageArena Page}

/-- What the table maps an atom to. -/
def storedPage (s : PageArena Page) (id : ℕ) : Option Page := (s.pageTable id).map s.valueBase

/-- The resident atoms, admitted in one run after the pool, end inside the capacity. -/
def RebuildFits (c : ArenaConfig) (s : PageArena Page) : Prop :=
  0 < (resident c s).card →
    placement (c.BH * c.poolCapacity) c.extentAtoms (resident c s).card + (resident c s).card ≤
      c.logicalPages

omit [Zero Page] in
/-- The bitmap of the resident atoms, over an empty table, asks for each of them once. -/
theorem length_wantedIds_resident (ht : ∀ id, t.pageTable id = none) :
    (wantedIds c t fun id => (s.pageTable id).isSome).length = (resident c s).card := by
  rw [← List.toFinset_card_of_nodup (wantedIds_nodup _)]
  congr 1
  ext id
  rw [List.mem_toFinset, mem_wantedIds, mem_resident, Option.isSome_iff_ne_none]
  exact ⟨fun h => ⟨h.1, h.2.1⟩, fun h => ⟨h.1, h.2, ht id⟩⟩

theorem rebuild_isOk_iff (b : PageArena Page) :
    (planExact c Grow.bridge (ownBitmap c fun id => (s.pageTable id).isSome) true b).1.isOk ↔
      RebuildFits c s := by
  obtain ⟨t, hreset, hnext, htab⟩ := exists_reservePool c (s := { b with
    pageTable := fun _ => none, next := 0, peakPages := 0 }) rfl
  have hempty : ∀ id, t.pageTable id = none := fun id => by rw [htab]
  have hstart : (if true then reset c Grow.bridge b else (.ok (), b)) = (.ok (), t) := hreset
  rw [planExact_own hstart, planWanted_isOk_iff, admission_isOk_iff,
    length_wantedIds_resident hempty, hnext]
  rfl

/-- What a rebuild that is not refused maps: the resident atoms, and no other. -/
theorem rebuild_table {grow : Grow} {b : PageArena Page} {res : PagingResult}
    (h : planExact c grow (ownBitmap c fun id => (s.pageTable id).isSome) true b = (.ok res, t))
    {id : ℕ} (hid : id < c.logicalPages) :
    (t.pageTable id).isSome = (s.pageTable id).isSome := by
  obtain ⟨u, hreset, hwanted⟩ := planExact_ok h
  rw [if_pos rfl] at hreset
  have hu : ∀ id, u.pageTable id = none := fun id => by rw [(RoLAState.reservePool_tables hreset).1]
  obtain ⟨first, -, rfl⟩ := planWanted_ok hwanted
  show (if id ∈ wantedIds c u _ then _ else u.pageTable id).isSome = _
  rw [hu]
  split
  · rename_i hmem
    exact (mem_wantedIds.1 hmem).2.1.symm
  · rename_i hmem
    rw [mem_wantedIds] at hmem
    rcases hsrc : s.pageTable id with _ | slot
    · rfl
    · exact absurd ⟨hid, by simp [ownBitmap, hsrc], hu id⟩ hmem

/-- Where the copy maps the source's atoms, each copied page is the source's. -/
theorem storedPage_copyPages (hinv : Inv c t) {id : ℕ} (hid : id < c.logicalPages)
    (hmap : ∀ id < c.logicalPages, (t.pageTable id).isSome = (s.pageTable id).isSome) :
    storedPage (RoLAState.copyPages c s t) id = storedPage s id := by
  unfold storedPage
  show (t.pageTable id).map _ = _
  have hsame := hmap id hid
  rcases htab : t.pageTable id with _ | slot <;> rcases hsrc : s.pageTable id with _ | slot'
  · rfl
  · rw [htab, hsrc] at hsame
    cases hsame
  · rw [htab, hsrc] at hsame
    cases hsame
  · simp only [Option.map_some, Option.some.injEq]
    refine foldl_update_of_mem (List.mem_filterMap.2 ⟨id, List.mem_range.2 hid, by rw [htab, hsrc]⟩) ?_
    intro w hw hslot
    obtain ⟨id', hid', hw⟩ := List.mem_filterMap.1 hw
    split at hw
    · rename_i slot1 slot2 h1 h2
      cases hw
      have hid' := hinv.table_inj id' (List.mem_range.1 hid') id hid slot (hslot ▸ h1) htab
      subst hid'
      rw [hsrc] at h2
      rw [Option.some.inj h2]
    · cases hw

theorem Sound.copyPages (h : Sound c t) (s : PageArena Page) : Sound c (RoLAState.copyPages c s t) := by
  refine h.stores fun w hw => ?_
  obtain ⟨id, hid, hmap⟩ := List.mem_filterMap.1 hw
  split at hmap
  · rename_i slot _ hslot _
    cases hmap
    exact ⟨id, List.mem_range.1 hid, hslot⟩
  · cases hmap

end PageArena

open PageArena

namespace RoLAState

variable {s t : RoLAState Page} {base : ℕ → Page}

/-- What a clone hands back: the same residency, the same bytes, and an arena of its own that does
not alias. -/
structure CopyOf (s t : RoLAState Page) : Prop where
  shape : t.shape = s.shape
  paged : ∀ a, s.arena = some a → ∃ b, t.arena = some b ∧ b.config = a.config ∧ Inv b.config b.pages ∧
    ∀ id < a.config.logicalPages, storedPage b.pages id = storedPage a.pages id
  dense : s.arena = none → t.arena = none ∧ t.plane = s.plane

omit [Zero Page] in
theorem gathered_eq [Zero Page] (p : PageArena Page) (id : ℕ) :
    gathered p id = (storedPage p id).getD 0 := by
  unfold gathered storedPage
  rcases p.pageTable id with _ | slot <;> rfl

theorem CopyOf.materialize (h : CopyOf s t) {W : Type} (rejoin raw : Page → W) :
    t.materialize rejoin raw = s.materialize rejoin raw := by
  unfold RoLAState.materialize
  rcases ha : s.arena with _ | a
  · obtain ⟨htarena, hplane⟩ := h.dense ha
    rw [htarena, hplane, h.shape]
  · obtain ⟨b, hb, hconfig, -, hstored⟩ := h.paged a ha
    rw [hb]
    dsimp only
    rw [hconfig]
    refine congrArg some (List.map_congr_left fun id hid => ?_)
    rw [gathered_eq, gathered_eq, hstored id (List.mem_range.1 hid)]

/-- The residency of a state's arena fits a rebuild. -/
def CloneFits (s : RoLAState Page) : Prop :=
  ∀ a, s.arena = some a → RebuildFits a.config a.pages

/-- The three ways a clone returns. -/
theorem clone_cases {grow : Grow} (h : s.clone grow base = .ok t) :
    s.shape = none ∧ t = new s.poolSlack ∨
    (∃ shape, s.shape = some shape ∧ s.arena = none ∧ t = { s with arena := none }) ∨
    ∃ shape a b b', s.shape = some shape ∧ s.arena = some a ∧
      newArena grow base shape a.widths a.BC s.poolSlack = .ok b ∧
      planArena grow (some fun id => (a.pages.pageTable id).isSome) true b = (.ok (), b') ∧
      t = { s with
        arena := some { b' with pages := copyPages a.config a.pages b'.pages }
        plane := none } := by
  unfold clone at h
  split at h
  · rename_i hshape
    exact .inl ⟨hshape, (Except.ok.inj h).symm⟩
  · rename_i shape hshape
    refine .inr ?_
    dsimp only at h
    split at h
    · rename_i harena
      exact .inl ⟨shape, hshape, harena, (Except.ok.inj h).symm⟩
    · rename_i a harena
      split at h
      · cases h
      · rename_i b hb
        split at h
        · cases h
        · rename_i b' hb'
          exact .inr ⟨shape, a, b, b', hshape, harena, hb, hb', (Except.ok.inj h).symm⟩

/-- A clone that returns is a copy, and a good state of its own. -/
theorem copyOf_of_clone {grow : Grow} (hs : s.Good) (h : s.clone grow base = .ok t) :
    CopyOf s t ∧ t.Good := by
  rcases clone_cases h with ⟨hshape, rfl⟩ | ⟨shape, hshape, harena, rfl⟩ |
    ⟨shape, a, b, b', hshape, harena, hb, hb', rfl⟩
  · obtain ⟨harena, hplane⟩ := hs.unbound hshape
    exact ⟨⟨hshape.symm, fun a ha => absurd (harena.symm.trans ha) (Option.some_ne_none a).symm,
      fun _ => ⟨rfl, hplane.symm⟩⟩, good_new _⟩
  · refine ⟨⟨rfl, fun a ha => absurd (harena.symm.trans ha) (Option.some_ne_none a).symm,
      fun _ => ⟨rfl, rfl⟩⟩, fun hn => ?_, fun a ha => (nomatch ha)⟩
    exact absurd (hshape.symm.trans hn) (Option.some_ne_none _)
  · obtain ⟨sh, hsh, hconfig, -⟩ := hs.arena a harena
    cases hshape.symm.trans hsh
    obtain ⟨hw, hBC, hbconfig, halloc⟩ := newArena_ok hb
    have hc : b.config = a.config := Except.ok.inj (hbconfig.symm.trans hconfig)
    obtain ⟨hsound, hmap⟩ := allocate_sound halloc
    obtain ⟨h1, h2, h3, hsound'⟩ := planArena_fresh_sound hsound hmap hb'
    rw [h1, hc] at hsound'
    have htable : ∀ id < a.config.logicalPages,
        (b'.pages.pageTable id).isSome = (a.pages.pageTable id).isSome := by
      obtain ⟨res, hplan, -⟩ := planArena_ok hb'
      rw [hc] at hplan
      exact fun id hid => rebuild_table hplan hid
    have hcopy := hsound'.copyPages a.pages
    refine ⟨⟨rfl, fun a' ha' => ?_, fun hn => ?_⟩, fun hn => ?_, fun b'' hb'' => ?_⟩
    · cases harena.symm.trans ha'
      refine ⟨_, rfl, h1.trans hc, ?_, fun id hid => storedPage_copyPages hsound'.1 hid htable⟩
      show Inv b'.config _
      rw [h1, hc]
      exact hcopy.1
    · exact absurd (harena.symm.trans hn) (Option.some_ne_none _)
    · exact absurd (hshape.symm.trans hn) (Option.some_ne_none _)
    · cases hb''
      refine ⟨shape, hshape, ?_, ?_⟩
      · show arenaConfig shape b'.widths b'.BC s.poolSlack = .ok b'.config
        rw [h1, h2, h3, hw, hBC]
        exact hbconfig
      · show Sound b'.config _
        rw [h1, hc]
        exact hcopy

theorem exists_newArena {shape : Shape} {widths : List ℕ} {BC : ℕ} {slack : ℚ} {config : ArenaConfig}
    (h : arenaConfig shape widths BC slack = .ok config) (base : ℕ → Page) :
    ∃ b, newArena Grow.bridge base shape widths BC slack = .ok b ∧ b.config = config := by
  obtain ⟨pages, hpages, -⟩ := exists_reservePool config (s := ⟨fun _ => none, 0, fun _ _ => 0,
    fun _ => 0, fun _ => none, base, 0⟩) rfl
  refine ⟨⟨config, widths, BC, pages⟩, ?_, rfl⟩
  have halloc : allocate config Grow.bridge base = (.ok (), pages) := hpages
  unfold newArena
  rw [h]
  dsimp only
  rw [halloc]

/-- A clone is refused exactly where the rebuild does not fit. -/
theorem clone_isOk_iff (hs : s.Good) : (s.clone Grow.bridge base).isOk ↔ CloneFits s := by
  unfold CloneFits
  rcases harena : s.arena with _ | a
  · refine ⟨fun _ a ha => (nomatch ha), fun _ => ?_⟩
    unfold clone
    rcases s.shape with _ | shape
    · rfl
    · simp [harena, Except.isOk, Except.toBool]
  · obtain ⟨shape, hshape, hconfig, -⟩ := hs.arena a harena
    obtain ⟨b, hb, hc⟩ := exists_newArena hconfig base
    have hrebuild := rebuild_isOk_iff (c := a.config) (s := a.pages) b.pages
    have hclone : (s.clone Grow.bridge base).isOk = (planExact a.config Grow.bridge
        (ownBitmap a.config fun id => (a.pages.pageTable id).isSome) true b.pages).1.isOk := by
      unfold clone
      rw [hshape]
      dsimp only
      rw [harena]
      dsimp only
      rw [hb]
      dsimp only
      rw [← hc]
      unfold planArena
      dsimp only
      rcases hres : planExact b.config Grow.bridge _ true b.pages with ⟨_ | _, _⟩ <;> rfl
    rw [hclone, hrebuild]
    exact ⟨fun h a' ha' => Option.some.inj ha' ▸ h, fun h => h a rfl⟩

end RoLAState

namespace World

variable {w w' w'' : World Page} {h k : ℕ} {base : ℕ → Page}

theorem Good.step (hw : w.Good) {a : Action Page} (hstep : w.step a = some w') : w'.Good := by
  rcases a with slack | ⟨k, c⟩ | ⟨k, grow, base⟩
  · cases hstep
    exact hw.make (RoLAState.good_new slack)
  · obtain ⟨s, hs, rfl⟩ := step_call.1 hstep
    exact hw.put (lt_next hw.separate hs) ((hw.states k s hs).exec c)
  · obtain ⟨s, t, hs, ht, rfl⟩ := step_clone.1 hstep
    exact hw.make (RoLAState.copyOf_of_clone (hw.states k s hs) ht).2

/-- The worlds any run of creations, calls and clones reaches. -/
def Reachable : World Page → Prop := Machine.Reach step (fun _ _ => True) (· = empty Page)

theorem Reachable.good (hw : w.Reachable) : w.Good :=
  Machine.Reach.invariant hw (fun _ h => h ▸ good_empty) fun _ _ _ hgood _ hstep => hgood.step hstep

/-- Whatever is done through other handles, clones of this one among them, leaves it as it was. -/
theorem run_frame (hw : w.Good) (hh : h < w.next) {as : List (Action Page)}
    (has : ∀ a ∈ as, ∀ c, a ≠ .call h c) (hrun : Machine.run World.step w as = some w') :
    w'.deref h = w.deref h := by
  induction as generalizing w with
  | nil => exact Option.some.inj hrun ▸ rfl
  | cons a as ih =>
    obtain ⟨u, hstep, hrest⟩ := Option.bind_eq_some_iff.1 hrun
    obtain ⟨hsame, hlt⟩ := step_frame hw.separate hh (has a List.mem_cons_self) hstep
    have htail := ih (hw.step hstep) hlt (fun b hb => has b (List.mem_cons_of_mem _ hb)) hrest
    exact htail.trans hsame

/-- What `clone()` promises of the world it leaves: the new handle is a copy, it materializes as the
source does, and nothing done on one of the two handles changes what the other materializes. -/
structure CloneContract (w : World Page) (h : ℕ) (w' : World Page) : Prop where
  copy : ∃ s t, w.deref h = some s ∧ w'.deref h = some s ∧ w'.deref w.next = some t ∧ s.CopyOf t
  materialize : ∀ {W : Type} (rejoin raw : Page → W),
    w'.materialize rejoin raw w.next = w.materialize rejoin raw h
  source_kept : ∀ as w'', (∀ a ∈ as, ∀ c, a ≠ .call h c) → Machine.run step w' as = some w'' →
    ∀ {W : Type} (rejoin raw : Page → W), w''.materialize rejoin raw h = w'.materialize rejoin raw h
  copy_kept : ∀ as w'', (∀ a ∈ as, ∀ c, a ≠ .call w.next c) → Machine.run step w' as = some w'' →
    ∀ {W : Type} (rejoin raw : Page → W),
      w''.materialize rejoin raw w.next = w'.materialize rejoin raw w.next

theorem cloneContract_of_step {grow : Grow} (hw : w.Good)
    (hstep : w.step (.clone h grow base) = some w') : CloneContract w h w' := by
  have hgood := hw.step hstep
  obtain ⟨s, t, hs, ht, rfl⟩ := step_clone.1 hstep
  have hlt := lt_next hw.separate hs
  have hsource : (w.make t).deref h = some s :=
    (hw.separate.deref_make_other (Nat.ne_of_lt hlt)).trans hs
  have hcopy := (RoLAState.copyOf_of_clone (hw.states h s hs) ht).1
  refine ⟨⟨s, t, hs, hsource, deref_make_self, hcopy⟩, ?_, ?_, ?_⟩
  · intro W rejoin raw
    simp [World.materialize, deref_make_self, hs, hcopy.materialize]
  · intro as w'' has hrun W rejoin raw
    rw [World.materialize, run_frame hgood (Nat.lt_succ_of_lt hlt) has hrun]
    rfl
  · intro as w'' has hrun W rejoin raw
    rw [World.materialize, run_frame hgood (Nat.lt_succ_self w.next) has hrun]
    rfl

/-- The clone contract holds of a handle exactly where its residency fits a rebuild. -/
theorem clone_contract_iff (hw : w.Reachable) {s : RoLAState Page} (hs : w.deref h = some s)
    (base : ℕ → Page) :
    (∃ w', w.step (.clone h Grow.bridge base) = some w' ∧ CloneContract w h w') ↔ s.CloneFits := by
  have hgood : w.Good := Reachable.good hw
  have hiff := @RoLAState.clone_isOk_iff _ _ _ base (hgood.states h s hs)
  rw [← hiff]
  constructor
  · rintro ⟨w', hstep, -⟩
    obtain ⟨s', t, hs', ht, -⟩ := step_clone.1 hstep
    cases hs.symm.trans hs'
    rw [ht]
    rfl
  · intro hok
    rcases ht : s.clone Grow.bridge base with err | t
    · rw [ht] at hok
      cases hok
    · have hstep := step_clone.2 ⟨s, t, hs, ht, rfl⟩
      exact ⟨_, hstep, cloneContract_of_step hgood hstep⟩

/-! ### A pool a step has spent -/

/-- A step that writes every atom. -/
def writeAll (c : ArenaConfig) : DecodeCall c ℕ :=
  { cand := fun _ => List.range c.atomsPerBh
    nodup := fun _ => List.nodup_range
    lt := fun _ _ ha => List.mem_range.1 ha
    done := fun _ => false
    store := fun _ => 0 }

/-- Full slack over one atom: a prefill that writes nothing, and a step that claims the atom. -/
def claimRun : List (Action ℕ) :=
  [.create 1,
    .call 0 (.prefill Grow.bridge (fun _ => 0) oneAtom (some ⟨1, 1, fun _ => false⟩) 2 true 16 fun _ => 0),
    .call 0 (.decode oneAtom writeAll fun _ => 0)]

def claimWorld : World ℕ := (Machine.run step (empty ℕ) claimRun).getD (empty ℕ)

theorem claimWorld_reachable : claimWorld.Reachable := by
  have hrun : (Machine.run step (empty ℕ) claimRun).isSome = true := by decide +kernel
  obtain ⟨w, hw⟩ := Option.isSome_iff_exists.1 hrun
  rw [claimWorld, hw]
  exact Machine.Reach.run (.init rfl) hw

def claimState : RoLAState ℕ := (claimWorld.deref 0).getD (RoLAState.new 1)

theorem claimWorld_deref : claimWorld.deref 0 = some claimState := by
  have hsome : (claimWorld.deref 0).isSome = true := by decide +kernel
  obtain ⟨s, hs⟩ := Option.isSome_iff_exists.1 hsome
  rw [claimState, hs]
  rfl

theorem clone_contract_iff_claimed : (∃ w', claimWorld.step (.clone 0 Grow.bridge fun _ => 0) = some w' ∧
    CloneContract claimWorld 0 w') ↔ claimState.CloneFits :=
  clone_contract_iff claimWorld_reachable claimWorld_deref fun _ => 0

/-- The state's one atom sits in the pool's one slot; its clone reserves a slot and asks for a second. -/
theorem clone_refused_after_claim : claimWorld.Reachable ∧ claimWorld.deref 0 = some claimState ∧
    ¬ ∃ w', claimWorld.step (.clone 0 Grow.bridge fun _ => 0) = some w' ∧ CloneContract claimWorld 0 w' := by
  refine ⟨claimWorld_reachable, claimWorld_deref, ?_⟩
  rintro ⟨w', hstep, -⟩
  have hnone : (claimWorld.step (.clone 0 Grow.bridge fun _ => 0)).isNone = true := by decide +kernel
  rw [hstep] at hnone
  cases hnone

end World

end Rola
