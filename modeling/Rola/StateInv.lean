import Rola.State
import Rola.ArenaRun

/-!
# What every call on a state keeps

A state's arena is built once and never reset afterwards, so no shadow entry ever outlives its pool:
the arena invariant holds of every state any sequence of calls reaches, whatever was written and
whatever was refused on the way.
-/

namespace Rola

variable {Page : Type} [Zero Page]

namespace PageArena

variable {c : ArenaConfig} {s : PageArena Page} {grow : Grow}

/-- Every shadow entry has been folded into the table. -/
def ShadowFolded (c : ArenaConfig) (s : PageArena Page) : Prop :=
  ∀ id < c.logicalPages, s.poolMap id ≠ none → s.pageTable id ≠ none

omit [Zero Page] in
theorem ShadowFolded.settled (h : ShadowFolded c s) (call : DecodeCall c Page) : Settled s call :=
  fun _ hbh _ _ ha htab hmap => absurd htab (h _ (atomId_lt hbh ha) hmap)

/-- The invariant and a folded shadow row: what an arena that is never reset keeps. -/
def Sound (c : ArenaConfig) (s : PageArena Page) : Prop := Inv c s ∧ ShadowFolded c s

/-- A cursor that moved with nothing handed out. -/
theorem Inv.advance (h : Inv c s) {n : ℕ} (hn : s.next ≤ n) (hcap : n ≤ c.logicalPages) :
    Inv c { s with next := n } :=
  { table_inj := h.table_inj
    table_lt := fun id hid slot hs => (h.table_lt id hid slot hs).trans_le hn
    next_le := hcap
    cursor_le := h.cursor_le
    pool_lt := fun bh i hu => (h.pool_lt bh i hu).trans_le hn
    pool_inj := h.pool_inj
    pool_fresh := h.pool_fresh
    pool_zero := h.pool_zero }

theorem Sound.planWanted (h : Sound c s) (bits : ℕ → Bool) : Sound c (planWanted c grow bits s).2 := by
  rcases hres : PageArena.planWanted c grow bits s with ⟨err | res, t⟩
  · unfold PageArena.planWanted at hres
    dsimp only at hres
    split at hres
    · cases hres
      exact h
    · rename_i first hfirst
      obtain ⟨hlo, hhi⟩ := admission_ok hfirst h.1.next_le
      split at hres
      · cases hres
        exact ⟨h.1.advance (by omega) hhi, h.2⟩
      · cases hres
  · refine ⟨h.1.planWanted hres, ?_⟩
    obtain ⟨first, -, rfl⟩ := planWanted_ok hres
    intro id hid hmap
    have hold := h.2 id hid hmap
    show (if id ∈ _ then _ else s.pageTable id) ≠ none
    split
    · exact Option.some_ne_none _
    · exact hold

theorem Sound.planExact (h : Sound c s) (bits : ℕ → Bool) :
    Sound c (PageArena.planExact c grow (ownBitmap c bits) false s).2 := by
  have hown : PageArena.planExact c grow (ownBitmap c bits) false s = PageArena.planWanted c grow bits s := by
    unfold PageArena.planExact
    exact if_neg (by simp [ownBitmap])
  rw [hown]
  exact h.planWanted bits

omit [Zero Page] in
theorem Sound.decodeStep [Zero Page] (h : Sound c s) (call : DecodeCall c Page) :
    Sound c (s.decodeStep call) := by
  refine ⟨h.1.decodeStep (h.2.settled call), fun id hid hmap => ?_⟩
  obtain ⟨hbh, ha, heq⟩ := split_id hid
  have hmap' : s.claimRow call (id / c.atomsPerBh) (id % c.atomsPerBh) ≠ none := hmap
  show s.foldRow call (id / c.atomsPerBh) (id % c.atomsPerBh) ≠ none
  unfold foldRow
  rw [heq]
  split
  · rcases s.pageTable id with _ | slot
    · simpa using hmap'
    · simp
  · rename_i hcl
    rw [claimRow, if_neg fun hc => hcl hc.1, heq] at hmap'
    exact h.2 id hid hmap'

theorem Sound.refillPool (h : Sound c s) : Sound c (refillPool c grow s).2 := by
  rcases hres : PageArena.refillPool c grow s with ⟨err | n, t⟩
  · unfold PageArena.refillPool at hres
    split at hres
    · cases hres
    dsimp only at hres
    split at hres
    · cases hres
    split at hres
    · cases hres
      exact h
    rename_i first hfirst
    obtain ⟨hlo, hhi⟩ := admission_ok hfirst h.1.next_le
    split at hres
    · cases hres
      exact ⟨h.1.advance (by omega) hhi, h.2⟩
    split at hres
    · rename_i bh hbh
      have := List.find?_some hbh
      have := h.1.cursor_le bh (List.mem_range.1 (List.mem_of_find?_eq_some hbh))
      simp only [decide_eq_true_eq] at *
      omega
    · cases hres
  · refine ⟨h.1.refillPool hres, ?_⟩
    rcases refillPool_ok hres with rfl | ⟨first, -, rfl⟩
    · exact h.2
    · exact h.2

/-- Stores on mapped slots leave the unspent pool alone. -/
theorem Sound.stores (h : Sound c s) {ws : List (ℕ × Page)}
    (hws : ∀ w ∈ ws, ∃ id < c.logicalPages, s.pageTable id = some w.1) :
    Sound c { s with valueBase := ws.foldl (fun base w => Function.update base w.1 w.2) s.valueBase } :=
  ⟨{ table_inj := h.1.table_inj
     table_lt := h.1.table_lt
     next_le := h.1.next_le
     cursor_le := h.1.cursor_le
     pool_lt := h.1.pool_lt
     pool_inj := h.1.pool_inj
     pool_fresh := h.1.pool_fresh
     pool_zero := fun bh i hu => by
       refine (foldl_update_of_not_mem fun w hw heq => ?_).trans (h.1.pool_zero bh i hu)
       obtain ⟨id, hid, htab⟩ := hws w hw
       exact h.1.pool_fresh bh i hu id hid (heq ▸ htab) }, h.2⟩

end PageArena

namespace RoLAState

open PageArena

theorem storeWritten_sound {c : ArenaConfig} {s : PageArena Page} (h : Sound c s) (bits : ℕ → Bool)
    (store : ℕ → Page) : Sound c (storeWritten c bits store s) := by
  refine h.stores fun w hw => ?_
  obtain ⟨id, hid, hmap⟩ := List.mem_filterMap.1 hw
  split at hmap
  · obtain ⟨slot, hslot, rfl⟩ := Option.map_eq_some_iff.1 hmap
    exact ⟨id, List.mem_range.1 hid, hslot⟩
  · cases hmap

/-- The arena of a state: built for its shape, and sound. -/
structure Good (s : RoLAState Page) : Prop where
  unbound : s.shape = none → s.arena = none ∧ s.plane = none
  arena : ∀ a, s.arena = some a → ∃ shape, s.shape = some shape ∧
    arenaConfig shape a.widths a.BC s.poolSlack = .ok a.config ∧ Sound a.config a.pages

theorem good_new (poolSlack : ℚ) : Good (new poolSlack : RoLAState Page) :=
  ⟨fun _ => ⟨rfl, rfl⟩, fun a h => by cases h⟩

theorem planArena_sound (grow : Grow) (bits : Option (ℕ → Bool)) {a : Arena Page}
    (h : Sound a.config a.pages) : (planArena grow bits false a).2.config = a.config ∧
      (planArena grow bits false a).2.widths = a.widths ∧ (planArena grow bits false a).2.BC = a.BC ∧
      Sound a.config (planArena grow bits false a).2.pages := by
  rcases bits with _ | bits
  · exact ⟨rfl, rfl, rfl, h⟩
  · exact ⟨rfl, rfl, rfl, h.planExact bits⟩

theorem newArena_ok {grow : Grow} {base : ℕ → Page} {shape : Shape} {widths : List ℕ} {BC : ℕ}
    {slack : ℚ} {a : Arena Page} (h : newArena grow base shape widths BC slack = .ok a) :
    a.widths = widths ∧ a.BC = BC ∧ arenaConfig shape widths BC slack = .ok a.config ∧
      allocate a.config grow base = (.ok (), a.pages) := by
  unfold newArena at h
  split at h
  · cases h
  · rename_i config hconfig
    split at h
    · cases h
    · rename_i pages hpages
      cases h
      exact ⟨rfl, rfl, hconfig, hpages⟩

omit [Zero Page] in
/-- An arena's atoms are its shape's. -/
theorem arenaConfig_atoms {shape : Shape} {widths : List ℕ} {BC : ℕ} {slack : ℚ} {config : ArenaConfig}
    (h : arenaConfig shape widths BC slack = .ok config) :
    config.logicalPages = shape.B * shape.H * (widths.prod >>> pageRectangleBits) := by
  unfold arenaConfig at h
  split at h
  · cases h
  split at h
  · cases h
  unfold ArenaConfig.make at h
  split at h
  · split at h
    · cases h
      rw [Nat.shiftRight_eq_div_pow]
      rfl
    · cases h
  · cases h

theorem planArena_ok {grow : Grow} {bits : ℕ → Bool} {fresh : Bool} {a a' : Arena Page}
    (h : planArena grow (some bits) fresh a = (.ok (), a')) :
    ∃ res, planExact a.config grow (ownBitmap a.config bits) fresh a.pages = (.ok res, a'.pages) ∧
      a' = { a with pages := a'.pages } := by
  unfold planArena at h
  dsimp only at h
  rcases hres : planExact a.config grow (ownBitmap a.config bits) fresh a.pages with ⟨_ | res, p⟩
  · rw [hres] at h
    cases h
  · rw [hres] at h
    cases h
    exact ⟨res, rfl, rfl⟩

/-- A reservation touches neither the table nor the shadow row. -/
theorem reservePool_tables {c : ArenaConfig} {grow : Grow} {s s' : PageArena Page}
    (h : reservePool c grow s = (.ok (), s')) :
    s'.pageTable = s.pageTable ∧ s'.poolMap = s.poolMap := by
  rcases reservePool_ok h with ⟨-, rfl⟩ | ⟨_, -, -, rfl⟩ <;> exact ⟨rfl, rfl⟩

theorem allocate_sound {c : ArenaConfig} {grow : Grow} {base : ℕ → Page} {s : PageArena Page}
    (h : allocate c grow base = (.ok (), s)) : Sound c s ∧ ∀ id, s.poolMap id = none := by
  have hmap := (reservePool_tables h).2
  have hnone : ∀ id, s.poolMap id = none := fun id => by rw [hmap]
  exact ⟨⟨inv_allocate h, fun id _ hne => absurd (hnone id) hne⟩, hnone⟩

/-- The first plan of a fresh arena. -/
theorem planArena_fresh_sound {grow : Grow} {bits : Option (ℕ → Bool)} {a a' : Arena Page}
    (h : Sound a.config a.pages) (hmap : ∀ id, a.pages.poolMap id = none)
    (hplan : planArena grow bits true a = (.ok (), a')) :
    a'.config = a.config ∧ a'.widths = a.widths ∧ a'.BC = a.BC ∧ Sound a'.config a'.pages := by
  rcases bits with _ | bits
  · cases hplan
  unfold planArena at hplan
  dsimp only at hplan
  rcases hres : PageArena.planExact a.config grow (ownBitmap a.config bits) true a.pages with ⟨_ | res, t⟩
  · rw [hres] at hplan
    cases hplan
  rw [hres] at hplan
  cases hplan
  refine ⟨rfl, rfl, rfl, h.1.planExact hres, ?_⟩
  obtain ⟨u, hreset, hwanted⟩ := planExact_ok hres
  rw [if_pos rfl] at hreset
  have humap : u.poolMap = a.pages.poolMap := (reservePool_tables hreset).2
  obtain ⟨first, -, rfl⟩ := planWanted_ok hwanted
  intro id _ hne
  exact absurd (by show u.poolMap id = none; rw [humap, hmap]) hne

theorem Good.enterBacking {grow : Grow} {base : ℕ → Page} {routes : Routes} {bits : Option (ℕ → Bool)}
    {BC : ℕ} {shape : Shape} {s : RoLAState Page} (h : Good s) (hshape : s.shape = some shape) :
    Good (enterBacking grow base routes bits BC shape s).2 := by
  unfold RoLAState.enterBacking
  split
  · rename_i a ha
    obtain ⟨sh, hsh, hconfig, hsound⟩ := h.arena a ha
    obtain ⟨h1, h2, h3, h4⟩ := planArena_sound grow bits hsound
    refine ⟨fun hn => absurd (hshape.symm.trans hn) (Option.some_ne_none _), fun b hb => ?_⟩
    cases hb
    exact ⟨sh, hsh, by rw [h1, h2, h3]; exact hconfig, by rw [h1]; exact h4⟩
  · split
    · exact h
    · split
      · exact h
      · split
        · exact h
        · rename_i a ha
          obtain ⟨h1, h2, h3, h4⟩ := newArena_ok ha
          obtain ⟨hsound, hmap⟩ := allocate_sound h4
          split
          · exact h
          · rename_i a' ha'
            obtain ⟨h1', h2', h3', h4'⟩ := planArena_fresh_sound hsound hmap ha'
            refine ⟨fun hn => absurd (hshape.symm.trans hn) (Option.some_ne_none _), fun b hb => ?_⟩
            cases hb
            exact ⟨shape, hshape, by rw [h1', h2', h3', h1, h2]; exact h3, h4'⟩

theorem Good.enterBitmap {grow : Grow} {base : ℕ → Page} {routes : Routes} {bitmap : Option AtomBitmap}
    {BC : ℕ} {shape : Shape} {s : RoLAState Page} (h : Good s) (hshape : s.shape = some shape) :
    Good (enterBitmap grow base routes bitmap BC shape s).2 := by
  unfold RoLAState.enterBitmap
  split
  · exact h.enterBacking hshape
  · split
    · exact h
    · exact h.enterBacking hshape

theorem Good.kernelEntry {grow : Grow} {base : ℕ → Page} {routes : Routes} {bitmap : Option AtomBitmap}
    {dv BC : ℕ} {paging : Bool} {s : RoLAState Page} (h : Good s) :
    Good (s.kernelEntry grow base routes bitmap dv paging BC).2 := by
  unfold RoLAState.kernelEntry
  split
  · exact h
  · split
    · rename_i hshape
      refine Good.enterBitmap ⟨fun hn => absurd hn (Option.some_ne_none _), fun a ha => ?_⟩ rfl
      exact absurd (h.unbound hshape).1 (by rw [show s.arena = some a from ha]; simp)
    · rename_i shape hshape
      split
      · exact h
      · split
        · exact h
        · exact h.enterBitmap hshape

theorem enterBacking_shape {grow : Grow} {base : ℕ → Page} {routes : Routes} {bits : Option (ℕ → Bool)}
    {BC : ℕ} {shape : Shape} (s : RoLAState Page) :
    (enterBacking grow base routes bits BC shape s).2.shape = s.shape := by
  unfold RoLAState.enterBacking
  split
  · rfl
  split
  · rfl
  split
  · rfl
  split
  · rfl
  split <;> rfl

/-- What a prefill that gets past the seam did with the backing. -/
theorem enterBacking_ok {grow : Grow} {base : ℕ → Page} {routes : Routes} {bits : Option (ℕ → Bool)}
    {BC : ℕ} {shape : Shape} {s t : RoLAState Page}
    (h : enterBacking grow base routes bits BC shape s = (.ok (), t)) :
    (∃ a a', s.arena = some a ∧ planArena grow bits false a = (.ok (), a') ∧
      t = { s with arena := some a' }) ∨
    (s.arena = none ∧ (s.plane.isSome = true ∨ s.paging = false) ∧ t = s) ∨
    (s.arena = none ∧ s.plane = none ∧ ∃ a a', newArena grow base shape routes.widths BC s.poolSlack = .ok a ∧
      planArena grow bits true a = (.ok (), a') ∧ t = { s with arena := some a' }) := by
  unfold RoLAState.enterBacking at h
  rcases harena : s.arena with _ | a
  · rw [harena] at h
    dsimp only at h
    split at h
    · rename_i hplane
      cases h
      exact .inr (.inl ⟨rfl, .inl hplane, rfl⟩)
    · rename_i hplane
      split at h
      · rename_i hpaging
        cases h
        exact .inr (.inl ⟨rfl, .inr (by simpa using hpaging), rfl⟩)
      · split at h
        · cases h
        · rename_i a ha
          split at h
          · cases h
          · rename_i a' ha'
            cases h
            exact .inr (.inr ⟨rfl, by simpa using hplane, a, a', ha, ha', rfl⟩)
  · rw [harena] at h
    dsimp only at h
    rcases hplan : planArena grow bits false a with ⟨out, a'⟩
    rw [hplan] at h
    cases h
    exact .inl ⟨a, a', rfl, hplan, rfl⟩

theorem reshape_ok {shape : Shape} {bitmap : AtomBitmap} {bits : ℕ → Bool}
    (h : reshape shape bitmap = .ok bits) : bits = bitmap.bits := by
  unfold reshape at h
  split at h
  · cases h
  · exact (Except.ok.inj h).symm

theorem enterBitmap_ok {grow : Grow} {base : ℕ → Page} {routes : Routes} {bitmap : Option AtomBitmap}
    {BC : ℕ} {shape : Shape} {s t : RoLAState Page}
    (h : enterBitmap grow base routes bitmap BC shape s = (.ok (), t)) :
    enterBacking grow base routes (bitmap.map AtomBitmap.bits) BC shape s = (.ok (), t) := by
  unfold enterBitmap at h
  split at h
  · exact h
  · split at h
    · cases h
    · rename_i hbits
      rw [reshape_ok hbits] at h
      exact h

/-- What a prefill that gets past the seam found there. -/
theorem kernelEntry_ok {grow : Grow} {base : ℕ → Page} {routes : Routes} {bitmap : Option AtomBitmap}
    {dv BC : ℕ} {paging : Bool} {s t : RoLAState Page}
    (h : s.kernelEntry grow base routes bitmap dv paging BC = (.ok (), t)) :
    ∃ presented, formatOf routes dv (routes.batch * routes.heads) = .ok presented ∧
      ((∃ shape, shape = ⟨routes.batch, routes.heads, routes.widths.prod, dv + 1⟩ ∧ s.shape = none ∧
        enterBacking grow base routes (bitmap.map AtomBitmap.bits) BC shape
          { s with shape := some shape, paging := paging, format := some presented } = (.ok (), t)) ∨
      ∃ shape, s.shape = some shape ∧ s.format = some presented ∧
        enterBacking grow base routes (bitmap.map AtomBitmap.bits) BC shape s = (.ok (), t)) := by
  unfold RoLAState.kernelEntry at h
  split at h
  · cases h
  · rename_i presented hpres
    refine ⟨presented, hpres, ?_⟩
    split at h
    · rename_i hshape
      exact .inl ⟨_, rfl, hshape, enterBitmap_ok h⟩
    · rename_i shape hshape
      split at h
      · cases h
      · rename_i format hformat
        split at h
        · cases h
        · rename_i hcheck
          obtain rfl := StateFormat.check_eq_ok.1 hcheck
          exact .inr ⟨shape, hshape, hformat, enterBitmap_ok h⟩

/-- A bound state keeps its shape. -/
theorem kernelEntry_keeps {grow : Grow} {base : ℕ → Page} {routes : Routes} {bitmap : Option AtomBitmap}
    {dv BC : ℕ} {paging : Bool} {s t : RoLAState Page}
    (h : s.kernelEntry grow base routes bitmap dv paging BC = (.ok (), t)) (hbound : s.shape ≠ none) :
    t.shape = s.shape := by
  obtain ⟨presented, -, ⟨shape, -, hshape, -⟩ | ⟨shape, -, -, hb⟩⟩ := kernelEntry_ok h
  · exact absurd hshape hbound
  · have hkeep := congrArg (fun r => r.2.shape) hb
    rw [enterBacking_shape] at hkeep
    exact hkeep.symm

/-- A call that got past the seam has bound the state. -/
theorem kernelEntry_bound {grow : Grow} {base : ℕ → Page} {routes : Routes} {bitmap : Option AtomBitmap}
    {dv BC : ℕ} {paging : Bool} {s t : RoLAState Page}
    (h : s.kernelEntry grow base routes bitmap dv paging BC = (.ok (), t)) : t.shape ≠ none := by
  obtain ⟨presented, -, ⟨shape, -, -, hb⟩ | ⟨shape, hshape, -, hb⟩⟩ := kernelEntry_ok h
  · have hkeep := congrArg (fun r => r.2.shape) hb
    rw [enterBacking_shape] at hkeep
    exact hkeep ▸ Option.some_ne_none _
  · have hkeep := congrArg (fun r => r.2.shape) hb
    rw [enterBacking_shape, hshape] at hkeep
    exact hkeep ▸ Option.some_ne_none _

/-- What an admission that gets past its seam did. -/
theorem decodeEntryArena_ok {grow : Grow} {bitmap : AtomBitmap} {s t : RoLAState Page}
    (h : s.decodeEntryArena grow bitmap = (.ok (), t)) : ∃ a a', s.arena = some a ∧
      planArena grow (some bitmap.bits) false a = (.ok (), a') ∧ t = { s with arena := some a' } := by
  unfold decodeEntryArena at h
  split at h
  · cases h
  · cases h
  · rename_i a shape ha _
    split at h
    · cases h
    · rename_i bits hbits
      rcases hplan : planArena grow (some bits) false a with ⟨out, a'⟩
      dsimp only at h
      rw [hplan] at h
      cases h
      rw [reshape_ok hbits] at hplan
      exact ⟨a, a', ha, hplan, rfl⟩

theorem Good.withArena {s : RoLAState Page} (h : Good s) {a : Arena Page} (ha : s.arena = some a)
    {pages : PageArena Page} (hsound : Sound a.config pages) :
    Good { s with arena := some { a with pages := pages } } := by
  obtain ⟨shape, hshape, hconfig, -⟩ := h.arena a ha
  refine ⟨fun hn => absurd (hshape.symm.trans hn) (Option.some_ne_none _), fun b hb => ?_⟩
  cases hb
  exact ⟨shape, hshape, hconfig, hsound⟩

theorem Good.withPlane {s : RoLAState Page} (h : Good s) (hshape : s.shape ≠ none) (plane : ℕ → Page) :
    Good { s with plane := some plane } :=
  ⟨fun hn => absurd hn hshape, h.arena⟩

theorem Good.afterPrefill {s : RoLAState Page} (h : Good s) (hshape : s.shape ≠ none)
    (bits : Option (ℕ → Bool)) (store : ℕ → Page) : Good (s.afterPrefill bits store) := by
  unfold RoLAState.afterPrefill
  split
  · rename_i a bits ha
    obtain ⟨_, -, -, hsound⟩ := h.arena a ha
    exact h.withArena ha (storeWritten_sound hsound bits store)
  · exact h
  · exact h.withPlane hshape store

/-- Whatever a call did, and wherever it stopped, it leaves a good state. -/
theorem Good.exec {s : RoLAState Page} (h : Good s) (call : Call Page) : Good (s.exec call) := by
  rcases call with ⟨grow, base, routes, bitmap, dv, paging, BC, store⟩ | ⟨routes, launch, plane⟩ |
    ⟨grow, bitmap⟩ | grow
  · have hentry : Good (s.kernelEntry grow base routes bitmap dv paging BC).2 := h.kernelEntry
    unfold RoLAState.exec
    dsimp only
    split
    · rename_i hres
      rwa [hres] at hentry
    · rename_i t hres
      rw [hres] at hentry
      exact hentry.afterPrefill (kernelEntry_bound hres) _ store
  · unfold RoLAState.exec
    dsimp only
    split
    · exact h
    · rename_i a _ ha
      obtain ⟨_, -, -, hsound⟩ := h.arena a ha
      exact h.withArena ha (hsound.decodeStep _)
    · rename_i hentry _
      refine h.withPlane (fun hn => ?_) plane
      unfold decodeEntry at hentry
      simp [carries, (h.unbound hn).1, (h.unbound hn).2] at hentry
  · unfold RoLAState.exec decodeEntryArena
    dsimp only
    split
    · exact h
    · exact h
    · rename_i a shape ha _
      obtain ⟨_, -, -, hsound⟩ := h.arena a ha
      split
      · exact h
      · rename_i bits _
        exact h.withArena ha (planArena_sound grow (some bits) hsound).2.2.2
  · unfold RoLAState.exec RoLAState.refillPool
    dsimp only
    split
    · exact h
    · rename_i a ha
      obtain ⟨_, -, -, hsound⟩ := h.arena a ha
      exact h.withArena ha hsound.refillPool

end RoLAState

end Rola
