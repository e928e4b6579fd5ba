import Rola.Admission
import Rola.StateInv

/-!
# What a refused call leaves behind

A planning call changes its state field by field, and may be refused between any two. A refusal keeps
the state where nothing had moved yet, or where what moved was already there: a bound state, a plan
that does not reset, and a physical growth that does not fail after slots were taken.
-/

namespace Rola

variable {Page : Type} [Zero Page]

namespace PageArena

variable {c : ArenaConfig} {s t u : PageArena Page} {grow : Grow} {bitmap : AtomBitmap} {fresh : Bool}
  {err : String}

/-- The table, the two cursors and every resident page's bytes are what they were. -/
structure Kept (c : ArenaConfig) (s t : PageArena Page) : Prop where
  table : ∀ id < c.logicalPages, t.pageTable id = s.pageTable id
  next : t.next = s.next
  cursor : ∀ bh < c.BH, t.poolCursor bh = s.poolCursor bh
  bytes : ∀ id < c.logicalPages, ∀ slot, s.pageTable id = some slot → t.valueBase slot = s.valueBase slot

omit [Zero Page] in
theorem kept_refl (s : PageArena Page) : Kept c s s :=
  ⟨fun _ _ => rfl, rfl, fun _ _ => rfl, fun _ _ _ _ => rfl⟩

/-- Where the allocator stands once a plan of `count` new atoms has taken its slots, or has been
refused them. -/
def taken (c : ArenaConfig) (bitmap : AtomBitmap) (next count : ℕ) : ℕ :=
  if (bitmap.BH, bitmap.atoms) = (c.BH, c.atomsPerBh) ∧
      (0 < count → placement next c.extentAtoms count + count ≤ c.logicalPages) then
    placement next c.extentAtoms count + count
  else next

/-- The physical growth for the pool a reset reserves is refused. -/
def PoolRefused (c : ArenaConfig) (grow : Grow) : Prop :=
  c.poolCapacity ≠ 0 ∧ (grow (c.BH * c.poolCapacity)).isOk = false

instance (c : ArenaConfig) (grow : Grow) : Decidable (PoolRefused c grow) := by
  unfold PoolRefused
  infer_instance

/-- The states a refused plan keeps. A plan that resets keeps only an arena that was empty, at the
cursor the plan leaves, its pool unspent. -/
def PlanKeeps (c : ArenaConfig) (grow : Grow) (bitmap : AtomBitmap) (fresh : Bool) (s : PageArena Page) :
    Prop :=
  if fresh then
    (∀ id < c.logicalPages, s.pageTable id = none) ∧
      if PoolRefused c grow then s.next = c.BH * c.poolCapacity
      else (c.poolCapacity = 0 ∨ ∀ bh < c.BH, s.poolCursor bh = 0) ∧
        s.next = taken c bitmap (c.BH * c.poolCapacity) ((List.range c.logicalPages).countP bitmap.bits)
  else s.next = taken c bitmap s.next (wantedIds c s bitmap.bits).length

/-! ### One refused plan -/

/-- A plan refused past its reset has moved the allocator at most. -/
theorem planWanted_refused {bits : ℕ → Bool} (h : planWanted c grow bits s = (.error err, t)) :
    t = { s with next := taken c (ownBitmap c bits) s.next (wantedIds c s bits).length } := by
  unfold planWanted at h
  dsimp only at h
  unfold taken
  split at h
  · rename_i hadm
    rw [if_neg, (Prod.mk.inj h).2]
    rintro ⟨-, hfits⟩
    have := admission_isOk_iff.2 hfits
    rw [hadm] at this
    cases this
  · rename_i first hadm
    obtain ⟨rfl, hfits⟩ := admission_eq_ok.1 hadm
    split at h
    · rw [if_pos ⟨rfl, hfits⟩, ← (Prod.mk.inj h).2]
    · cases h

/-- The same, with the bitmap's shape asked first. -/
theorem planTail_refused
    (h : (if (bitmap.BH, bitmap.atoms) ≠ (c.BH, c.atomsPerBh) then
      (.error (s!"the atom condensation must be ({c.BH}, {c.atomsPerBh}) (the derived atom " ++
        s!"granularity); got ({bitmap.BH}, {bitmap.atoms})"), s)
      else planWanted c grow bitmap.bits s) = (.error err, t)) :
    t = { s with next := taken c bitmap s.next (wantedIds c s bitmap.bits).length } := by
  split at h
  · rename_i hne
    unfold taken
    rw [if_neg fun hc => hne hc.1, (Prod.mk.inj h).2]
  · rename_i heq
    have hown : bitmap = ownBitmap c bitmap.bits := by
      rcases bitmap with ⟨BH, atoms, bits⟩
      obtain ⟨rfl, rfl⟩ := Prod.mk.inj (not_not.1 heq)
      rfl
    rw [hown]
    exact planWanted_refused h

/-- A reset empties the table and rewinds the allocator, whether or not its pool is granted. -/
theorem reset_cases (c : ArenaConfig) (grow : Grow) (s : PageArena Page) :
    (PoolRefused c grow ∧ ∃ err, reset c grow s = (.error err, { s with
      pageTable := fun _ => none, next := c.BH * c.poolCapacity, peakPages := 0 })) ∨
    (¬ PoolRefused c grow ∧ ∃ t, reset c grow s = (.ok (), t) ∧ (∀ id, t.pageTable id = none) ∧
      t.next = c.BH * c.poolCapacity ∧
      t.poolCursor = if c.poolCapacity = 0 then s.poolCursor else fun _ => 0) := by
  unfold reset reservePool PoolRefused
  by_cases h0 : c.poolCapacity = 0
  · refine .inr ⟨fun h => h.1 h0, ?_⟩
    rw [if_pos h0, if_pos h0]
    exact ⟨_, rfl, fun _ => rfl, by simp [h0], rfl⟩
  · have hadm : admission 0 c.logicalPages c.extentAtoms (c.BH * c.poolCapacity) = .ok 0 := by
      refine admission_eq_ok.2 ⟨(placement_start _ _).symm, fun _ => ?_⟩
      rw [Nat.zero_add]
      exact Nat.mul_le_mul_left _ c.pool_le
    rw [if_neg h0, if_neg h0]
    dsimp only
    rw [hadm]
    dsimp only
    rw [Nat.zero_add]
    rcases hgrow : grow (c.BH * c.poolCapacity) with err | -
    · exact .inl ⟨⟨h0, rfl⟩, err, rfl⟩
    · exact .inr ⟨fun h => (nomatch h.2), _, rfl, fun _ => rfl, rfl, rfl⟩

omit [Zero Page] in
theorem length_wantedIds_empty (h : ∀ id, s.pageTable id = none) (bits : ℕ → Bool) :
    (wantedIds c s bits).length = (List.range c.logicalPages).countP bits := by
  unfold wantedIds
  rw [List.countP_eq_length_filter]
  simp [h]

theorem planExact_kept_iff (h : planExact c grow bitmap fresh s = (.error err, t)) :
    Kept c s t ↔ PlanKeeps c grow bitmap fresh s := by
  unfold planExact at h
  unfold PlanKeeps
  rcases fresh with _ | _
  · obtain rfl := planTail_refused h
    exact ⟨fun hk => hk.next.symm, fun hn => ⟨fun _ _ => rfl, hn.symm, fun _ _ => rfl, fun _ _ _ _ => rfl⟩⟩
  · rw [if_pos rfl] at h ⊢
    rcases reset_cases c grow s with ⟨hpool, err', hreset⟩ | ⟨hpool, u, hreset, htab, hnext, hcur⟩
    · rw [hreset] at h
      obtain rfl := (Prod.mk.inj h).2
      rw [if_pos hpool]
      constructor
      · intro hk
        exact ⟨fun id hid => (hk.table id hid).symm, hk.next.symm⟩
      · rintro ⟨hnone, hn⟩
        exact ⟨fun id hid => (hnone id hid).symm, hn.symm, fun _ _ => rfl, fun _ _ _ _ => rfl⟩
    · rw [hreset] at h
      obtain rfl := planTail_refused h
      rw [if_neg hpool, ← hnext, ← length_wantedIds_empty htab]
      constructor
      · intro hk
        refine ⟨fun id hid => (hk.table id hid).symm.trans (htab id), ?_, hk.next.symm⟩
        by_cases h0 : c.poolCapacity = 0
        · exact .inl h0
        · refine .inr fun bh hbh => (hk.cursor bh hbh).symm.trans ?_
          show u.poolCursor bh = 0
          rw [hcur, if_neg h0]
      · rintro ⟨hnone, hzero, hn⟩
        refine ⟨fun id hid => (htab id).trans (hnone id hid).symm, hn.symm, fun bh hbh => ?_,
          fun id hid slot hs => absurd ((hnone id hid).symm.trans hs) (Option.some_ne_none _).symm⟩
        show u.poolCursor bh = s.poolCursor bh
        rw [hcur]
        split
        · rfl
        · rename_i h0
          exact ((hzero.resolve_left h0) bh hbh).symm

end PageArena

namespace RoLAState

variable {s t : RoLAState Page}

/-- The shape, the format and the backing are what they were. -/
structure Kept (s t : RoLAState Page) : Prop where
  shape : t.shape = s.shape
  format : t.format = s.format
  plane : t.plane = s.plane
  arena : (s.arena = none ∧ t.arena = none) ∨ ∃ a b, s.arena = some a ∧ t.arena = some b ∧
    b.config = a.config ∧ PageArena.Kept a.config a.pages b.pages

/-- The calls that plan pages: the two seams of a state, and `plan_exact` of its arena. -/
inductive Entry (Page : Type) where
  | kernelEntry (grow : Grow) (base : ℕ → Page) (routes : Routes) (bitmap : Option AtomBitmap) (dv : ℕ)
      (paging : Bool) (BC : ℕ)
  | decodeEntryArena (grow : Grow) (bitmap : AtomBitmap)
  | planExact (grow : Grow) (bitmap : AtomBitmap) (fresh : Bool)

def enter (s : RoLAState Page) : Entry Page → Except String Unit × RoLAState Page
  | .kernelEntry grow base routes bitmap dv paging BC => s.kernelEntry grow base routes bitmap dv paging BC
  | .decodeEntryArena grow bitmap => s.decodeEntryArena grow bitmap
  | .planExact grow bitmap fresh =>
    match s.arena with
    | none => (.error "'NoneType' object has no attribute 'plan_exact'", s)
    | some a =>
      let r := a.pages.planExact a.config grow bitmap fresh
      (r.1.map fun _ => (), { s with arena := some { a with pages := r.2 } })

/-- The states a refused call keeps. A prefill must find the state bound, unless its own descriptor
is refused; then a call that its format and its bitmap let through to the arena must keep the arena. -/
def Entry.Keeps (s : RoLAState Page) : Entry Page → Prop
  | .kernelEntry grow _ routes bitmap dv _ _ =>
    ∀ presented, formatOf routes dv (routes.batch * routes.heads) = .ok presented → s.shape ≠ none ∧
      ∀ shape a bm bits, s.shape = some shape → s.format = some presented → s.arena = some a →
        bitmap = some bm → reshape shape bm = .ok bits →
        PageArena.PlanKeeps a.config grow (PageArena.ownBitmap a.config bits) false a.pages
  | .decodeEntryArena grow bitmap =>
    ∀ shape a bits, s.shape = some shape → s.arena = some a → reshape shape bitmap = .ok bits →
      PageArena.PlanKeeps a.config grow (PageArena.ownBitmap a.config bits) false a.pages
  | .planExact grow bitmap fresh =>
    ∀ a, s.arena = some a → PageArena.PlanKeeps a.config grow bitmap fresh a.pages

omit [Zero Page] in
theorem kept_self (s : RoLAState Page) : Kept s s := by
  refine ⟨rfl, rfl, rfl, ?_⟩
  rcases s.arena with _ | a
  · exact .inl ⟨rfl, rfl⟩
  · exact .inr ⟨a, a, rfl, rfl, rfl, PageArena.kept_refl _⟩

omit [Zero Page] in
/-- A state whose arena alone has moved keeps what its arena keeps. -/
theorem kept_withArena {a : Arena Page} (ha : s.arena = some a) (pages : PageArena Page) :
    Kept s { s with arena := some { a with pages := pages } } ↔ PageArena.Kept a.config a.pages pages := by
  constructor
  · intro h
    rcases h.arena with ⟨hnone, -⟩ | ⟨a', b, ha', hb, -, hkept⟩
    · exact absurd (ha.symm.trans hnone) (Option.some_ne_none _)
    · cases ha.symm.trans ha'
      cases hb
      exact hkept
  · intro h
    exact ⟨rfl, rfl, rfl, .inr ⟨a, _, ha, rfl, rfl, h⟩⟩

theorem planArena_refused {grow : Grow} {bits : ℕ → Bool} {fresh : Bool} {a a' : Arena Page} {err : String}
    (h : planArena grow (some bits) fresh a = (.error err, a')) : ∃ pages,
      PageArena.planExact a.config grow (PageArena.ownBitmap a.config bits) fresh a.pages = (.error err, pages) ∧
      a' = { a with pages := pages } := by
  unfold planArena at h
  dsimp only at h
  rcases hres : PageArena.planExact a.config grow (PageArena.ownBitmap a.config bits) fresh a.pages with
    ⟨err' | res, pages⟩
  · rw [hres] at h
    cases h
    exact ⟨pages, rfl, rfl⟩
  · rw [hres] at h
    cases h

/-- A refused call on a paged state that is bound keeps it exactly where the plan keeps the arena; on
any other bound state nothing has moved. -/
theorem enterBacking_refused {grow : Grow} {base : ℕ → Page} {routes : Routes} {bits : ℕ → Bool} {BC : ℕ}
    {shape : Shape} {err : String}
    (h : enterBacking grow base routes (some bits) BC shape s = (.error err, t)) :
    Kept s t ↔ ∀ a, s.arena = some a →
      PageArena.PlanKeeps a.config grow (PageArena.ownBitmap a.config bits) false a.pages := by
  unfold enterBacking at h
  rcases harena : s.arena with _ | a
  · have ht : t = s := by
      rw [harena] at h
      dsimp only at h
      split at h
      · cases h
      split at h
      · cases h
      split at h
      · exact (Prod.mk.inj h).2.symm
      split at h
      · exact (Prod.mk.inj h).2.symm
      · cases h
    exact ⟨fun _ a ha => (nomatch ha), fun _ => ht ▸ kept_self s⟩
  · rw [harena] at h
    dsimp only at h
    rcases hplan : planArena grow (some bits) false a with ⟨out, a'⟩
    rw [hplan] at h
    cases h
    obtain ⟨pages, hpages, rfl⟩ := planArena_refused hplan
    rw [kept_withArena harena, PageArena.planExact_kept_iff hpages]
    exact ⟨fun hk b hb => Option.some.inj hb ▸ hk, fun hk => hk a rfl⟩

/-- Without a bitmap an arena is refused before it is asked. -/
theorem enterBacking_none_refused {grow : Grow} {base : ℕ → Page} {routes : Routes} {BC : ℕ} {shape : Shape}
    {err : String} (h : enterBacking grow base routes none BC shape s = (.error err, t)) : t = s := by
  unfold enterBacking at h
  rcases harena : s.arena with _ | a
  · rw [harena] at h
    dsimp only at h
    split at h
    · cases h
    split at h
    · cases h
    split at h
    · exact (Prod.mk.inj h).2.symm
    split at h
    · exact (Prod.mk.inj h).2.symm
    · cases h
  · rw [harena] at h
    rw [← (Prod.mk.inj h).2]
    rcases s with ⟨slack, sh, paging, ar, plane, format⟩
    cases harena
    rfl

theorem enterBitmap_shape {grow : Grow} {base : ℕ → Page} {routes : Routes} {bitmap : Option AtomBitmap}
    {BC : ℕ} {shape : Shape} : (enterBitmap grow base routes bitmap BC shape s).2.shape = s.shape := by
  unfold enterBitmap
  split
  · exact enterBacking_shape s
  · split
    · rfl
    · exact enterBacking_shape s

/-- A prefill refused before its state is bound has bound it. -/
theorem not_kept_of_binds {grow : Grow} {base : ℕ → Page} {routes : Routes} {bitmap : Option AtomBitmap}
    {BC : ℕ} {shape : Shape} {paging : Bool} {format : StateFormat} (hs : s.shape = none) :
    ¬ Kept s (enterBitmap grow base routes bitmap BC shape
      { s with shape := some shape, paging := paging, format := some format }).2 := by
  intro h
  have hshape := h.shape
  rw [enterBitmap_shape, hs] at hshape
  cases hshape

theorem kernelEntry_refused {grow : Grow} {base : ℕ → Page} {routes : Routes} {bitmap : Option AtomBitmap}
    {dv BC : ℕ} {paging : Bool} {err : String}
    (h : s.kernelEntry grow base routes bitmap dv paging BC = (.error err, t)) :
    Kept s t ↔ (Entry.kernelEntry grow base routes bitmap dv paging BC).Keeps s := by
  unfold kernelEntry at h
  unfold Entry.Keeps
  dsimp only
  rcases hfmt : formatOf routes dv (routes.batch * routes.heads) with err' | presented
  · rw [hfmt] at h
    rw [← (Prod.mk.inj h).2]
    exact ⟨fun _ presented hp => (nomatch hp), fun _ => kept_self s⟩
  rw [hfmt] at h
  dsimp only at h
  rcases hshape : s.shape with _ | shape
  · rw [hshape] at h
    dsimp only at h
    have ht : (_ : RoLAState Page) = t := congrArg Prod.snd h
    rw [← ht]
    exact ⟨fun hk => absurd hk (not_kept_of_binds hshape), fun hk => absurd rfl (hk presented rfl).1⟩
  rw [hshape] at h
  dsimp only at h
  rcases hformat : s.format with _ | format
  · rw [hformat] at h
    rw [← (Prod.mk.inj h).2]
    exact ⟨fun _ p _ => ⟨Option.some_ne_none _, fun _ _ _ _ _ hf => (nomatch hf)⟩, fun _ => kept_self s⟩
  rw [hformat] at h
  dsimp only at h
  rcases hcheck : format.check presented with err' | ⟨⟩
  · rw [hcheck] at h
    rw [← (Prod.mk.inj h).2]
    refine ⟨fun _ p hp => ⟨Option.some_ne_none _, fun _ _ _ _ _ hf => ?_⟩, fun _ => kept_self s⟩
    cases hp
    have hok := StateFormat.check_eq_ok.2 (Option.some.inj hf)
    rw [hcheck] at hok
    cases hok
  rw [hcheck] at h
  obtain rfl := StateFormat.check_eq_ok.1 hcheck
  dsimp only at h
  unfold enterBitmap at h
  rcases bitmap with _ | bm
  · obtain rfl := enterBacking_none_refused h
    exact ⟨fun _ p _ => ⟨Option.some_ne_none _, fun _ _ _ _ _ _ _ hb => (nomatch hb)⟩, fun _ => kept_self t⟩
  dsimp only at h
  rcases hbits : reshape shape bm with err' | bits
  · rw [hbits] at h
    rw [← (Prod.mk.inj h).2]
    refine ⟨fun _ p _ => ⟨Option.some_ne_none _, fun _ _ _ _ hs _ _ hb hok => ?_⟩, fun _ => kept_self s⟩
    cases hs
    cases hb
    rw [hbits] at hok
    cases hok
  · rw [hbits] at h
    dsimp only at h
    rw [enterBacking_refused h]
    constructor
    · intro hk p _
      refine ⟨Option.some_ne_none _, fun _ a _ bits' hs _ ha hb hok => ?_⟩
      cases hs
      cases hb
      cases hbits.symm.trans hok
      exact hk a ha
    · intro hk a ha
      exact (hk format rfl).2 shape a bm bits rfl rfl ha rfl hbits

theorem decodeEntryArena_refused {grow : Grow} {bitmap : AtomBitmap} {err : String}
    (h : s.decodeEntryArena grow bitmap = (.error err, t)) :
    Kept s t ↔ (Entry.decodeEntryArena grow bitmap : Entry Page).Keeps s := by
  unfold decodeEntryArena at h
  unfold Entry.Keeps
  dsimp only
  split at h
  · rename_i harena
    rw [← (Prod.mk.inj h).2, harena]
    exact ⟨fun _ _ _ _ _ ha => (nomatch ha), fun _ => kept_self s⟩
  · rename_i hshape
    rw [← (Prod.mk.inj h).2, hshape]
    exact ⟨fun _ _ _ _ hs => (nomatch hs), fun _ => kept_self s⟩
  · rename_i a shape harena hshape
    rcases hbits : reshape shape bitmap with err' | bits
    · rw [hbits] at h
      rw [← (Prod.mk.inj h).2]
      refine ⟨fun _ shape' _ _ hs _ hok => ?_, fun _ => kept_self s⟩
      cases hshape.symm.trans hs
      rw [hbits] at hok
      cases hok
    · rw [hbits] at h
      dsimp only at h
      rcases hplan : planArena grow (some bits) false a with ⟨out, a'⟩
      rw [hplan] at h
      cases h
      obtain ⟨pages, hpages, rfl⟩ := planArena_refused hplan
      rw [kept_withArena harena, PageArena.planExact_kept_iff hpages]
      constructor
      · intro hk shape' b bits' hs hb hok
        cases hshape.symm.trans hs
        cases harena.symm.trans hb
        cases hbits.symm.trans hok
        exact hk
      · intro hk
        exact hk shape a bits hshape harena hbits

theorem planExact_refused {grow : Grow} {bitmap : AtomBitmap} {fresh : Bool} {err : String}
    (h : s.enter (.planExact grow bitmap fresh) = (.error err, t)) :
    Kept s t ↔ (Entry.planExact grow bitmap fresh : Entry Page).Keeps s := by
  unfold enter at h
  unfold Entry.Keeps
  dsimp only
  dsimp only at h
  rcases harena : s.arena with _ | a
  · rw [harena] at h
    rw [← (Prod.mk.inj h).2]
    exact ⟨fun _ _ ha => (nomatch ha), fun _ => kept_self s⟩
  · rw [harena] at h
    dsimp only at h
    rcases hres : a.pages.planExact a.config grow bitmap fresh with ⟨err' | res, pages⟩
    · rw [hres] at h
      cases h
      rw [kept_withArena harena, PageArena.planExact_kept_iff hres]
      exact ⟨fun hk b hb => Option.some.inj hb ▸ hk, fun hk => hk a rfl⟩
    · rw [hres] at h
      cases h

/-- A refused call leaves the state as it was exactly where its condition says. -/
theorem refusal_keeps_iff (s : RoLAState Page) (e : Entry Page) (h : (s.enter e).1.isOk = false) :
    Kept s (s.enter e).2 ↔ e.Keeps s := by
  rcases hres : s.enter e with ⟨err | ⟨⟩, t⟩
  · cases e with
    | kernelEntry grow base routes bitmap dv paging BC => exact kernelEntry_refused hres
    | decodeEntryArena grow bitmap => exact decodeEntryArena_refused hres
    | planExact grow bitmap fresh => exact planExact_refused hres
  · rw [hres] at h
    cases h

/-- The first call of a state whose slack is out of range. -/
def firstCall : Entry ℕ :=
  .kernelEntry Grow.bridge (fun _ => 0) oneAtom (some ⟨1, 1, fun _ => true⟩) 2 true 16

theorem firstCall_refused : ((RoLAState.new 2 : RoLAState ℕ).enter firstCall).1.isOk = false := by
  decide +kernel

theorem refusal_keeps_iff_first : Kept (RoLAState.new 2) ((RoLAState.new 2 : RoLAState ℕ).enter firstCall).2 ↔
    firstCall.Keeps (RoLAState.new 2) :=
  refusal_keeps_iff (RoLAState.new 2) firstCall firstCall_refused

/-- The slack is refused when the arena is built, and the state is bound by then. -/
theorem refused_call_binds : ((RoLAState.new 2 : RoLAState ℕ).enter firstCall).1.isOk = false ∧
    (RoLAState.new 2 : RoLAState ℕ).shape = none ∧
    ((RoLAState.new 2 : RoLAState ℕ).enter firstCall).2.shape = some ⟨1, 1, 16, 3⟩ ∧
    ¬ Kept (RoLAState.new 2) ((RoLAState.new 2 : RoLAState ℕ).enter firstCall).2 := by
  have hshape : ((RoLAState.new 2 : RoLAState ℕ).enter firstCall).2.shape = some ⟨1, 1, 16, 3⟩ := by
    decide +kernel
  refine ⟨firstCall_refused, rfl, hshape, fun h => ?_⟩
  have hkept := h.shape
  rw [hshape] at hkept
  cases hkept

end RoLAState

end Rola
