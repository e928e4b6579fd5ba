import Rola.ArenaContents
import Rola.SplitPlanes

/-!
# Two backings of one sequence

A paged state and a dense one advanced by the same calls: the same leaves' words stored at the split
offsets of the same atoms' pages. Both hold the same stored pages, and those pages hold the logical
words. The arena's gather rejoins them; the dense plane's view does not.
-/

namespace Rola

open PageArena RoLAState SplitPage

/-- One leaf a kernel stores: its atom, its row in the page, its value and mass words. -/
structure LeafStore (dv : ℕ) where
  id : ℕ
  row : Fin 16
  words : Fin (dv + 1) → BitVec 32

/-- The logical state: the fp32 words of every atom's leaves. -/
abbrev Contents (dv : ℕ) := ℕ → Words dv

variable {dv : ℕ}

/-- What a call's stores make of an atom's stored page. -/
def storeLeaves (K : List (LeafStore dv)) (id : ℕ) (page : SplitPage) : SplitPage :=
  (K.filter fun st => st.id = id).foldl (fun page st => storeLeaf dv page st.row st.words) page

/-- The same stores on the logical words. -/
def Contents.store (C : Contents dv) (K : List (LeafStore dv)) : Contents dv := fun id =>
  (K.filter fun st => st.id = id).foldl (fun W st => Function.update W st.row st.words) (C id)

theorem fromSplitPlanes_storeLeaves (K : List (LeafStore dv)) (id : ℕ) (page : SplitPage) :
    fromSplitPlanes dv (storeLeaves K id page) =
      (K.filter fun st => st.id = id).foldl (fun W st => Function.update W st.row st.words)
        (fromSplitPlanes dv page) := by
  unfold storeLeaves
  induction K.filter (fun st => st.id = id) generalizing page with
  | nil => rfl
  | cons st K ih => rw [List.foldl_cons, List.foldl_cons, ih, fromSplitPlanes_storeLeaf]

theorem storeLeaves_of_not_mem {K : List (LeafStore dv)} {id : ℕ} (h : ∀ st ∈ K, st.id ≠ id)
    (page : SplitPage) : storeLeaves K id page = page := by
  have hnil : K.filter (fun st => st.id = id) = [] :=
    List.filter_eq_nil_iff.2 fun st hst => by simpa using h st hst
  rw [storeLeaves, hnil]
  rfl

namespace RoLAState

/-- The stored page of an atom, in either backing. -/
def page {Page : Type} [Zero Page] (s : RoLAState Page) (id : ℕ) : Page :=
  match s.arena, s.plane with
  | some a, _ => a.pages.gathered id
  | none, some plane => plane id
  | none, none => 0

end RoLAState

/-- A paged state and a dense state that the same calls have advanced, with the logical words. -/
inductive Twin (dv : ℕ) : RoLAState SplitPage → RoLAState SplitPage → Contents dv → Prop
  | create (poolSlack : ℚ) : Twin dv (RoLAState.new poolSlack) (RoLAState.new poolSlack) fun _ _ _ => 0
  | prefill {p d p' d' : RoLAState SplitPage} {C : Contents dv} {grow : Grow} {base : ℕ → SplitPage}
      {routes : Routes} {bitmap : AtomBitmap} {BC : ℕ} (K : List (LeafStore dv)) :
      Twin dv p d C →
      p.kernelEntry grow base routes (some bitmap) dv true BC = (.ok (), p') →
      d.kernelEntry grow base routes none dv false BC = (.ok (), d') →
      (∀ st ∈ K, bitmap.bits st.id = true) →
      Twin dv (p'.afterPrefill (some bitmap.bits) fun id => storeLeaves K id (p'.page id))
        (d'.afterPrefill none fun id => storeLeaves K id (d'.page id)) (C.store K)
  | decode {p d : RoLAState SplitPage} {C : Contents dv} {a : Arena SplitPage} {pages : PageArena SplitPage}
      {plane : ℕ → SplitPage} {grow : Grow} {routes : Routes} {call : DecodeCall a.config SplitPage}
      (K : List (LeafStore dv)) :
      Twin dv p d C →
      p.decodeEntry routes = .ok () → d.decodeEntry routes = .ok () →
      p.arena = some a → d.plane = some plane →
      (∀ bh, call.done bh = false) →
      (∀ id, call.store id = storeLeaves K id (a.pages.gathered id)) →
      (∀ st ∈ K, atomBits call st.id = true) →
      decodeForward grow call a.pages = (.ok (), pages) →
      Twin dv { p with arena := some { a with pages := pages } }
        { d with plane := some fun id => storeLeaves K id (plane id) } (C.store K)
  | admission {p p' d : RoLAState SplitPage} {C : Contents dv} {grow : Grow} {bitmap : AtomBitmap} :
      Twin dv p d C → p.decodeEntryArena grow bitmap = (.ok (), p') → Twin dv p' d C
  | refill {p p' d : RoLAState SplitPage} {C : Contents dv} {grow : Grow} :
      Twin dv p d C → p.refillPool grow = (.ok (), p') → Twin dv p' d C

namespace Twin

variable {p d p' d' : RoLAState SplitPage} {C : Contents dv}

/-- The two states once bound: an arena and a plane of one shape, with the same pages, which hold the
logical words. -/
structure Bound (p d : RoLAState SplitPage) (C : Contents dv) (a : Arena SplitPage)
    (plane : ℕ → SplitPage) (shape : Shape) : Prop where
  arena : p.arena = some a
  no_arena : d.arena = none
  dense_plane : d.plane = some plane
  shape_paged : p.shape = some shape
  shape_dense : d.shape = some shape
  atoms : a.config.logicalPages = shape.B * shape.H * (shape.N >>> pageRectangleBits)
  pages : ∀ id < a.config.logicalPages, a.pages.gathered id = plane id
  words : ∀ id < a.config.logicalPages, fromSplitPlanes dv (plane id) = C id

/-- The two states before their first call. -/
structure Unbound (p d : RoLAState SplitPage) (C : Contents dv) : Prop where
  shape_paged : p.shape = none
  shape_dense : d.shape = none
  no_arena : d.arena = none
  no_plane : d.plane = none
  zero : ∀ id, C id = fun _ _ => 0

/-- The simulation the twins keep. -/
def Same (p d : RoLAState SplitPage) (C : Contents dv) : Prop :=
  p.Good ∧ (Unbound p d C ∨ ∃ a plane shape, Bound p d C a plane shape)

/-! ### A prefill -/

theorem planArena_continue {grow : Grow} {bits : ℕ → Bool} {a a' : Arena SplitPage}
    (h : Inv a.config a.pages) (hplan : planArena grow (some bits) false a = (.ok (), a')) :
    a'.config = a.config ∧ ∀ id < a.config.logicalPages, a'.pages.gathered id = a.pages.gathered id ∧
      (bits id = true → a'.pages.pageTable id ≠ none) := by
  obtain ⟨res, hres, -⟩ := planArena_ok hplan
  rw [planExact_continue] at hres
  refine ⟨(congrArg (fun r => r.2.config) hplan).symm, fun id hid => ?_⟩
  exact ⟨gathered_planWanted h hres hid, planWanted_maps hres hid⟩

theorem planArena_start {grow : Grow} {bits : ℕ → Bool} {a a' : Arena SplitPage}
    (h : Inv a.config a.pages) (hplan : planArena grow (some bits) true a = (.ok (), a')) :
    a'.config = a.config ∧ ∀ id < a.config.logicalPages, a'.pages.gathered id = 0 ∧
      (bits id = true → a'.pages.pageTable id ≠ none) := by
  obtain ⟨res, hres, -⟩ := planArena_ok hplan
  obtain ⟨u, hreset, hwanted⟩ := planExact_ok hres
  rw [if_pos rfl] at hreset
  have htab : ∀ id, u.pageTable id = none := fun id => by rw [(reservePool_tables hreset).1]
  refine ⟨(congrArg (fun r => r.2.config) hplan).symm, fun id hid => ⟨?_, planWanted_maps hwanted hid⟩⟩
  rw [gathered_planWanted (h.reset hreset) hwanted hid, gathered_of_none (htab id)]

/-- What a prefill's entry leaves in the paged state: its pages, and every atom it will write mapped. -/
structure Entered (p p' : RoLAState SplitPage) (bits : ℕ → Bool) (a : Arena SplitPage) : Prop where
  arena : p'.arena = some a
  sound : Sound a.config a.pages
  pages : ∀ id < a.config.logicalPages, a.pages.gathered id = p.page id
  mapped : ∀ id < a.config.logicalPages, bits id = true → a.pages.pageTable id ≠ none

theorem page_unbound (hp : p.Good) (hshape : p.shape = none) (id : ℕ) : p.page id = 0 := by
  unfold RoLAState.page
  rw [(hp.unbound hshape).1, (hp.unbound hshape).2]

theorem page_arena {a : Arena SplitPage} (h : p.arena = some a) (id : ℕ) :
    p.page id = a.pages.gathered id := by
  unfold RoLAState.page
  rw [h]

theorem entered_of_unbound (hgood : p.Good) (hu : Unbound p d C) {grow : Grow} {base : ℕ → SplitPage}
    {routes : Routes} {bitmap : AtomBitmap} {BC : ℕ}
    (hp : p.kernelEntry grow base routes (some bitmap) dv true BC = (.ok (), p'))
    (hd : d.kernelEntry grow base routes none dv false BC = (.ok (), d')) :
    ∃ a shape, Entered p p' bitmap.bits a ∧ p'.shape = some shape ∧ d'.shape = some shape ∧ d'.arena = none ∧
      (∀ id, d'.page id = d.page id) ∧
      a.config.logicalPages = shape.B * shape.H * (shape.N >>> pageRectangleBits) := by
  obtain ⟨presented, -, ⟨shape, hshape, -, hb⟩ | ⟨shape, hshape, -, -⟩⟩ := kernelEntry_ok hp
  swap
  · exact absurd (hu.shape_paged.symm.trans hshape) (Option.some_ne_none _).symm
  obtain ⟨presented', -, ⟨shape', hshape', -, hb'⟩ | ⟨shape', hshape', -, -⟩⟩ := kernelEntry_ok hd
  swap
  · exact absurd (hu.shape_dense.symm.trans hshape') (Option.some_ne_none _).symm
  rcases enterBacking_ok hb with ⟨a, a', ha, -, -⟩ | ⟨-, hcase, -⟩ | ⟨-, -, a, a', hnew, hplan, rfl⟩
  · exact absurd ((hgood.unbound hu.shape_paged).1.symm.trans ha) (Option.some_ne_none _).symm
  · rcases hcase with hplane | hpaging
    · rw [show p.plane = none from (hgood.unbound hu.shape_paged).2] at hplane
      cases hplane
    · cases hpaging
  rcases enterBacking_ok hb' with ⟨b, b', hb2, -, -⟩ | ⟨-, -, rfl⟩ | ⟨-, -, b, b', -, hbad, -⟩
  · exact absurd (hu.no_arena.symm.trans hb2) (Option.some_ne_none _).symm
  · obtain ⟨-, -, hconfig, halloc⟩ := newArena_ok hnew
    obtain ⟨hsound, hmap⟩ := allocate_sound halloc
    obtain ⟨hc, hpages⟩ := planArena_start hsound.1 hplan
    obtain ⟨-, -, -, hsound'⟩ := planArena_fresh_sound hsound hmap hplan
    refine ⟨a', shape, ⟨rfl, hsound', fun id hid => ?_, fun id hid => ?_⟩, rfl, ?_, hu.no_arena,
      fun id => ?_, ?_⟩
    · rw [hc] at hid
      rw [(hpages id hid).1, page_unbound hgood hu.shape_paged]
    · rw [hc] at hid
      exact (hpages id hid).2
    · rw [hshape, hshape']
    · rfl
    · rw [hc, arenaConfig_atoms hconfig, hshape]
  · cases hbad

theorem entered_of_bound (hgood : p.Good) {a : Arena SplitPage} {plane : ℕ → SplitPage} {shape : Shape}
    (hs : Bound p d C a plane shape) {grow : Grow} {base : ℕ → SplitPage}
    {routes : Routes} {bitmap : AtomBitmap} {BC : ℕ}
    (hp : p.kernelEntry grow base routes (some bitmap) dv true BC = (.ok (), p'))
    (hd : d.kernelEntry grow base routes none dv false BC = (.ok (), d')) :
    ∃ a' shape, Entered p p' bitmap.bits a' ∧ p'.shape = some shape ∧ d'.shape = some shape ∧ d'.arena = none ∧
      (∀ id, d'.page id = d.page id) ∧
      a'.config.logicalPages = shape.B * shape.H * (shape.N >>> pageRectangleBits) := by
  obtain ⟨presented, -, ⟨-, -, hshape, -⟩ | ⟨shape₁, hshape₁, -, hb⟩⟩ := kernelEntry_ok hp
  · exact absurd (hs.shape_paged.symm.trans hshape) (Option.some_ne_none _)
  obtain ⟨presented', -, ⟨-, -, hshape', -⟩ | ⟨shape₂, hshape₂, -, hb'⟩⟩ := kernelEntry_ok hd
  · exact absurd (hs.shape_dense.symm.trans hshape') (Option.some_ne_none _)
  rcases enterBacking_ok hb with ⟨a₁, a', ha, hplan, rfl⟩ | ⟨hnone, -, -⟩ | ⟨hnone, -, -⟩
  · rcases enterBacking_ok hb' with ⟨b, -, hb2, -, -⟩ | ⟨-, -, rfl⟩ | ⟨-, hplane, -⟩
    · exact absurd (hs.no_arena.symm.trans hb2) (Option.some_ne_none _).symm
    · cases hs.arena.symm.trans ha
      obtain ⟨_, -, -, hsound⟩ := hgood.arena a ha
      obtain ⟨hc, hpages⟩ := planArena_continue hsound.1 hplan
      have hsound' := planArena_sound grow (some bitmap.bits) hsound
      rw [Option.map_some] at hplan
      rw [hplan] at hsound'
      refine ⟨a', shape, ⟨rfl, ?_, fun id hid => ?_, fun id hid => ?_⟩, hs.shape_paged, hs.shape_dense,
        hs.no_arena, fun _ => rfl, ?_⟩
      · rw [hc]
        exact hsound'.2.2.2
      · rw [hc] at hid
        rw [(hpages id hid).1, page_arena ha]
      · rw [hc] at hid
        exact (hpages id hid).2
      · rw [hc]
        exact hs.atoms
    · exact absurd (hs.dense_plane.symm.trans hplane) (Option.some_ne_none _)
  · exact absurd (hs.arena.symm.trans hnone) (Option.some_ne_none _)
  · exact absurd (hs.arena.symm.trans hnone) (Option.some_ne_none _)

/-- A prefill's stores, once its entry has mapped what it writes. -/
theorem Entered.stored {bits : ℕ → Bool} {a : Arena SplitPage} (h : Entered p p' bits a)
    {K : List (LeafStore dv)} (hK : ∀ st ∈ K, bits st.id = true) :
    ∃ a', (p'.afterPrefill (some bits) fun id => storeLeaves K id (p'.page id)).arena = some a' ∧
      a'.config = a.config ∧ ∀ id < a.config.logicalPages,
        a'.pages.gathered id = storeLeaves K id (p.page id) := by
  refine ⟨{ a with pages := storeWritten a.config bits (fun id => storeLeaves K id (p'.page id)) a.pages },
    ?_, rfl, fun id hid => ?_⟩
  · unfold RoLAState.afterPrefill
    rw [h.arena]
  · rw [gathered_storeWritten h.sound.1 bits _ hid, page_arena h.arena, h.pages id hid]
    by_cases hbit : bits id = true
    · rw [if_pos ⟨hbit, h.mapped id hid hbit⟩]
    · rw [if_neg fun hc => hbit hc.1, storeLeaves_of_not_mem]
      intro st hst hid'
      exact hbit (hid' ▸ hK st hst)

/-! ### The simulation -/

/-- The logical words move as the stored pages do. -/
theorem words_store {K : List (LeafStore dv)} {id : ℕ} {page : SplitPage}
    (h : fromSplitPlanes dv page = C id) : fromSplitPlanes dv (storeLeaves K id page) = C.store K id := by
  rw [fromSplitPlanes_storeLeaves, h, Contents.store]

theorem page_plane {plane : ℕ → SplitPage} (ha : d.arena = none) (h : d.plane = some plane) (id : ℕ) :
    d.page id = plane id := by
  unfold RoLAState.page
  rw [ha, h]

theorem afterPrefill_shape (bits : Option (ℕ → Bool)) (store : ℕ → SplitPage) :
    (p.afterPrefill bits store).shape = p.shape := by
  unfold RoLAState.afterPrefill
  split <;> rfl

theorem Same.prefill (h : Same p d C) {grow : Grow} {base : ℕ → SplitPage}
    {routes : Routes} {bitmap : AtomBitmap} {BC : ℕ} {K : List (LeafStore dv)}
    (hp : p.kernelEntry grow base routes (some bitmap) dv true BC = (.ok (), p'))
    (hd : d.kernelEntry grow base routes none dv false BC = (.ok (), d'))
    (hK : ∀ st ∈ K, bitmap.bits st.id = true) :
    Same (p'.afterPrefill (some bitmap.bits) fun id => storeLeaves K id (p'.page id))
      (d'.afterPrefill none fun id => storeLeaves K id (d'.page id)) (C.store K) := by
  have hgood' : p'.Good := by
    have := @Good.kernelEntry _ _ grow base routes (some bitmap) dv BC true _ h.1
    rwa [hp] at this
  refine ⟨hgood'.afterPrefill (kernelEntry_bound hp) _ _, .inr ?_⟩
  -- before the stores both states hold the same pages, which hold the logical words
  obtain ⟨a, shape, hentered, hshape, hshape', harena', hpage', hatoms, hsame⟩ :
      ∃ a shape, Entered p p' bitmap.bits a ∧ p'.shape = some shape ∧ d'.shape = some shape ∧
        d'.arena = none ∧ (∀ id, d'.page id = d.page id) ∧
        a.config.logicalPages = shape.B * shape.H * (shape.N >>> pageRectangleBits) ∧
        ∀ id < a.config.logicalPages, p.page id = d.page id ∧ fromSplitPlanes dv (d.page id) = C id := by
    rcases h.2 with hu | ⟨a, plane, shape, hb⟩
    · obtain ⟨a, shape, h1, h2, h3, h4, h5, h6⟩ := entered_of_unbound h.1 hu hp hd
      refine ⟨a, shape, h1, h2, h3, h4, h5, h6, fun id _ => ?_⟩
      have hd0 : d.page id = 0 := by
        unfold RoLAState.page
        rw [hu.no_arena, hu.no_plane]
      rw [page_unbound h.1 hu.shape_paged, hd0, hu.zero, fromSplitPlanes_zero]
      exact ⟨rfl, rfl⟩
    · obtain ⟨a', shape', h1, h2, h3, h4, h5, h6⟩ := entered_of_bound h.1 hb hp hd
      refine ⟨a', shape', h1, h2, h3, h4, h5, h6, fun id hid => ?_⟩
      have hshape : p'.shape = p.shape := kernelEntry_keeps hp (by rw [hb.shape_paged]; simp)
      rw [h2, hb.shape_paged, Option.some.injEq] at hshape
      rw [page_arena hb.arena, page_plane hb.no_arena hb.dense_plane]
      have hlt : id < a.config.logicalPages := by
        rw [hb.atoms, ← hshape, ← h6]
        exact hid
      exact ⟨hb.pages id hlt, hb.words id hlt⟩
  obtain ⟨a', ha', hc, hstored⟩ := hentered.stored hK
  refine ⟨a', fun id => storeLeaves K id (d'.page id), shape,
    { arena := ha'
      no_arena := ?_
      dense_plane := ?_
      shape_paged := by rw [afterPrefill_shape, hshape]
      shape_dense := by rw [afterPrefill_shape, hshape']
      atoms := by rw [hc, hatoms]
      pages := fun id hid => ?_
      words := fun id hid => ?_ }⟩
  · unfold RoLAState.afterPrefill
    rw [harena']
  · unfold RoLAState.afterPrefill
    rw [harena']
  · rw [hc] at hid
    rw [hstored id hid, hpage', (hsame id hid).1]
  · rw [hc] at hid
    rw [hpage']
    exact words_store (hsame id hid).2

/-- The bound twins, with the paged one's pages replaced and the dense one left alone. -/
theorem Bound.withPages {a : Arena SplitPage} {plane : ℕ → SplitPage} {shape : Shape}
    (h : Bound p d C a plane shape) {pages : PageArena SplitPage}
    (hpages : ∀ id < a.config.logicalPages, pages.gathered id = a.pages.gathered id) :
    Bound { p with arena := some { a with pages := pages } } d C { a with pages := pages } plane shape :=
  { arena := rfl
    no_arena := h.no_arena
    dense_plane := h.dense_plane
    shape_paged := h.shape_paged
    shape_dense := h.shape_dense
    atoms := h.atoms
    pages := fun id hid => (hpages id hid).trans (h.pages id hid)
    words := h.words }

theorem Same.bound (h : Same p d C) {a : Arena SplitPage} (ha : p.arena = some a) :
    Sound a.config a.pages ∧ ∃ plane shape, Bound p d C a plane shape := by
  obtain ⟨_, -, -, hsound⟩ := h.1.arena a ha
  refine ⟨hsound, ?_⟩
  rcases h.2 with hu | ⟨b, plane, shape, hb⟩
  · exact absurd ((h.1.unbound hu.shape_paged).1.symm.trans ha) (Option.some_ne_none _).symm
  · cases hb.arena.symm.trans ha
    exact ⟨plane, shape, hb⟩

theorem Same.decode (h : Same p d C) {a : Arena SplitPage} {pages : PageArena SplitPage}
    {plane : ℕ → SplitPage} {grow : Grow} {call : DecodeCall a.config SplitPage} {K : List (LeafStore dv)}
    (ha : p.arena = some a) (hplane : d.plane = some plane) (hdone : ∀ bh, call.done bh = false)
    (hstore : ∀ id, call.store id = storeLeaves K id (a.pages.gathered id))
    (hK : ∀ st ∈ K, atomBits call st.id = true)
    (hstep : decodeForward grow call a.pages = (.ok (), pages)) :
    Same { p with arena := some { a with pages := pages } }
      { d with plane := some fun id => storeLeaves K id (plane id) } (C.store K) := by
  obtain ⟨hsound, plane', shape, hb⟩ := h.bound ha
  cases hb.dense_plane.symm.trans hplane
  have hsound' := @PageArena.Sound.decodeForward _ _ _ _ grow hsound call
  rw [hstep] at hsound'
  have hpages : ∀ id < a.config.logicalPages, pages.gathered id = storeLeaves K id (plane id) := by
    intro id hid
    rw [gathered_decodeForward hsound hdone hstep hid, hstore, hb.pages id hid]
    by_cases hbit : atomBits call id = true
    · exact if_pos hbit
    · rw [if_neg hbit, storeLeaves_of_not_mem]
      intro st hst hid'
      exact hbit (hid' ▸ hK st hst)
  refine ⟨h.1.withArena ha hsound', .inr ⟨{ a with pages := pages }, _, shape,
    { arena := rfl
      no_arena := hb.no_arena
      dense_plane := rfl
      shape_paged := hb.shape_paged
      shape_dense := hb.shape_dense
      atoms := hb.atoms
      pages := hpages
      words := fun id hid => words_store (hb.words id hid) }⟩⟩

theorem Same.admission (h : Same p d C) {grow : Grow} {bitmap : AtomBitmap}
    (hadm : p.decodeEntryArena grow bitmap = (.ok (), p')) : Same p' d C := by
  obtain ⟨a, a', ha, hplan, rfl⟩ := decodeEntryArena_ok hadm
  obtain ⟨hsound, plane, shape, hb⟩ := h.bound ha
  have hsound' := @PageArena.Sound.planExact _ _ _ _ grow hsound bitmap.bits
  obtain ⟨res, hres, hpages⟩ := planArena_ok hplan
  rw [hres] at hsound'
  rw [planExact_continue] at hres
  rw [hpages]
  exact ⟨h.1.withArena ha hsound', .inr ⟨_, plane, shape, hb.withPages fun id hid =>
    gathered_planWanted hsound.1 hres hid⟩⟩

theorem Same.refill (h : Same p d C) {grow : Grow}
    (hrefill : p.refillPool grow = (.ok (), p')) : Same p' d C := by
  unfold RoLAState.refillPool at hrefill
  split at hrefill
  · cases hrefill
  · rename_i a ha
    obtain ⟨hsound, plane, shape, hb⟩ := h.bound ha
    have hsound' := @PageArena.Sound.refillPool _ _ _ _ grow hsound
    dsimp only at hrefill
    rcases hres : PageArena.refillPool a.config grow a.pages with ⟨_ | n, pages⟩
    · rw [hres] at hrefill
      cases hrefill
    · rw [hres] at hrefill hsound'
      cases hrefill
      exact ⟨h.1.withArena ha hsound', .inr ⟨_, plane, shape, hb.withPages fun id hid =>
        gathered_refillPool hsound.1 hres hid⟩⟩

/-- Every pair of twins holds the same stored pages, and they hold the logical words. -/
theorem same (h : Twin dv p d C) : Same p d C := by
  induction h with
  | create poolSlack =>
    exact ⟨good_new poolSlack, .inl ⟨rfl, rfl, rfl, rfl, fun _ => rfl⟩⟩
  | prefill K _ hp hd hK ih => exact ih.prefill hp hd hK
  | decode K _ _ _ ha hplane hdone hstore hK hstep ih => exact ih.decode ha hplane hdone hstore hK hstep
  | admission _ hadm ih => exact ih.admission hadm
  | refill _ hrefill ih => exact ih.refill hrefill

end Twin

/-! ### What materialize returns -/

/-- `materialize` of a state of `dv` value columns. -/
def materialized (dv : ℕ) (s : RoLAState SplitPage) : Option (List (Words dv)) :=
  s.materialize (fromSplitPlanes dv) (fp32View dv)

/-- The atoms of a bound state. -/
def atomIds (s : RoLAState SplitPage) : ℕ :=
  match s.shape with
  | some shape => shape.B * shape.H * (shape.N >>> pageRectangleBits)
  | none => 0

/-- The logical words of a state that carries, atom by atom. -/
def logicalWords (s : RoLAState SplitPage) (C : Contents dv) : Option (List (Words dv)) :=
  if s.carries then some ((List.range (atomIds s)).map C) else none

namespace Twin

variable {p d : RoLAState SplitPage} {C : Contents dv} {a : Arena SplitPage} {plane : ℕ → SplitPage}
  {shape : Shape}

theorem Unbound.materialized (hgood : p.Good) (hu : Unbound p d C) :
    materialized dv p = logicalWords p C ∧ materialized dv d = logicalWords d C ∧
      logicalWords p C = logicalWords d C ∧ atomIds d = 0 := by
  obtain ⟨harena, hplane⟩ := hgood.unbound hu.shape_paged
  have hc : p.carries = false := by simp [carries, harena, hplane]
  have hc' : d.carries = false := by simp [carries, hu.no_arena, hu.no_plane]
  unfold Rola.materialized RoLAState.materialize logicalWords atomIds
  simp [harena, hplane, hu.no_arena, hu.no_plane, hu.shape_dense, hc, hc']

theorem Bound.atomIds (hb : Bound p d C a plane shape) : atomIds p = a.config.logicalPages ∧
    atomIds d = a.config.logicalPages := by
  unfold Rola.atomIds
  rw [hb.shape_paged, hb.shape_dense]
  exact ⟨hb.atoms.symm, hb.atoms.symm⟩

theorem Bound.logicalWords (hb : Bound p d C a plane shape) :
    logicalWords p C = some ((List.range a.config.logicalPages).map C) ∧
      logicalWords d C = some ((List.range a.config.logicalPages).map C) := by
  unfold Rola.logicalWords
  rw [hb.atomIds.1, hb.atomIds.2]
  simp [carries, hb.arena, hb.dense_plane]

/-- The arena's gather rejoins every page. -/
theorem Bound.materialized_paged (hb : Bound p d C a plane shape) :
    materialized dv p = some ((List.range a.config.logicalPages).map C) := by
  unfold Rola.materialized RoLAState.materialize
  rw [hb.arena]
  refine congrArg some (List.map_congr_left fun id hid => ?_)
  rw [hb.pages id (List.mem_range.1 hid), hb.words id (List.mem_range.1 hid)]

/-- The plane's view shows each page as it is stored. -/
theorem Bound.materialized_dense (hb : Bound p d C a plane shape) :
    materialized dv d = some ((List.range a.config.logicalPages).map fun id => fp32View dv (plane id)) := by
  unfold Rola.materialized RoLAState.materialize
  rw [hb.no_arena, hb.dense_plane, hb.shape_dense, hb.atoms]

/-- Both backings materialize as the logical words exactly where every page the dense state stores is
its own plain view; the paged one always does. -/
theorem backing_invisible_iff (h : Twin dv p d C) :
    (materialized dv p = logicalWords p C ∧ materialized dv d = logicalWords d C ∧
      logicalWords p C = logicalWords d C) ↔ ∀ id < atomIds d, Aligned dv (d.page id) := by
  obtain ⟨hgood, hu | ⟨a, plane, shape, hb⟩⟩ := h.same
  · obtain ⟨h1, h2, h3, h4⟩ := hu.materialized hgood
    rw [h4]
    exact ⟨fun _ id hid => absurd hid (Nat.not_lt_zero id), fun _ => ⟨h1, h2, h3⟩⟩
  · rw [hb.logicalWords.1, hb.logicalWords.2, hb.materialized_paged, hb.materialized_dense, hb.atomIds.2]
    have hpage : ∀ id, d.page id = plane id := page_plane hb.no_arena hb.dense_plane
    constructor
    · rintro ⟨-, hd, -⟩ id hid
      rw [hpage, ← fp32View_eq_iff, hb.words id hid]
      exact List.map_inj_left.1 (Option.some.inj hd) id (List.mem_range.2 hid)
    · intro hal
      refine ⟨rfl, congrArg some (List.map_congr_left fun id hid => ?_), rfl⟩
      have hid := List.mem_range.1 hid
      rw [← hb.words id hid, fp32View_eq_iff, ← hpage]
      exact hal id hid

/-! ### One word -/

/-- One atom whose first word is `1.0`. -/
def oneStore : List (LeafStore 2) :=
  [⟨0, 0, fun col => if col = 0 then 0x3F800000 else 0⟩]

def enteredPaged : RoLAState SplitPage :=
  ((RoLAState.new 0).kernelEntry Grow.bridge 0 oneAtom (some ⟨1, 1, fun _ => true⟩) 2 true 16).2

def enteredDense : RoLAState SplitPage :=
  ((RoLAState.new 0).kernelEntry Grow.bridge 0 oneAtom none 2 false 16).2

def onePaged : RoLAState SplitPage :=
  enteredPaged.afterPrefill (some fun _ => true) fun id => storeLeaves oneStore id (enteredPaged.page id)

def oneDense : RoLAState SplitPage :=
  enteredDense.afterPrefill none fun id => storeLeaves oneStore id (enteredDense.page id)

theorem one_twin : Twin 2 onePaged oneDense (Contents.store (fun _ _ _ => 0) oneStore) := by
  have hok : ∀ r : Except String Unit × RoLAState SplitPage, r.1.isOk = true → r = (.ok (), r.2) := by
    rintro ⟨_ | _, s⟩ h
    · cases h
    · rfl
  exact @Twin.prefill _ _ _ _ _ _ _ 0 _ _ _ oneStore (.create 0) (hok _ (by decide +kernel))
    (hok _ (by decide +kernel)) fun _ _ => rfl

theorem backing_invisible_iff_one :
    (materialized 2 onePaged = logicalWords onePaged (Contents.store (fun _ _ _ => 0) oneStore) ∧
      materialized 2 oneDense = logicalWords oneDense (Contents.store (fun _ _ _ => 0) oneStore) ∧
      logicalWords onePaged (Contents.store (fun _ _ _ => 0) oneStore) =
        logicalWords oneDense (Contents.store (fun _ _ _ => 0) oneStore)) ↔
      ∀ id < atomIds oneDense, Aligned 2 (oneDense.page id) := backing_invisible_iff one_twin

/-- The first word, as a state materializes it. -/
def firstWord (s : RoLAState SplitPage) : Option (BitVec 32) :=
  (materialized 2 s).bind fun atoms => atoms.head?.map fun words => words 0 0

/-- The paged twin returns the word; the dense one returns two neighbouring hi halves. -/
theorem dense_word_not_rejoined : Twin 2 onePaged oneDense (Contents.store (fun _ _ _ => 0) oneStore) ∧
    firstWord onePaged = some 0x3F800000 ∧ firstWord oneDense = some 0x3F80 ∧
    materialized 2 onePaged ≠ materialized 2 oneDense := by
  have hp : firstWord onePaged = some 0x3F800000 := by decide +kernel
  have hd : firstWord oneDense = some 0x3F80 := by decide +kernel
  refine ⟨one_twin, hp, hd, fun h => ?_⟩
  unfold firstWord at hp hd
  rw [h, hd] at hp
  cases hp

end Twin

end Rola
