import Rola.ArenaContents
import Rola.SplitPlanes

/-!
# What a plan admits

`PageArena.plan_exact` maps the bitmap's atoms beside the ones it finds, on one run of fresh slots in id
order, which is the order of `(bh, atom)`, and moves no other byte; `materialize` sees zero pages come in.
-/

namespace Rola

namespace PageArena

variable {Page : Type} {c : ArenaConfig} {s s' t : PageArena Page} {grow : Grow} {bits : ℕ → Bool} {id slot : ℕ}

/-- `materialize`, atom by atom. -/
def materialize (dv : ℕ) (c : ArenaConfig) (s : PageArena SplitPage) : List (SplitPage.Words dv) :=
  (List.range c.logicalPages).map fun id => SplitPage.fromSplitPlanes dv (s.gathered id)

/-- An atom of the bitmap that is not resident. -/
def absent (s : PageArena Page) (bits : ℕ → Bool) : ℕ → Bool := fun id => bits id && (s.pageTable id).isNone

/-- The absent atoms before `id`. -/
def absentBelow (s : PageArena Page) (bits : ℕ → Bool) (id : ℕ) : ℕ := (List.range id).countP (s.absent bits)

theorem absent_iff : s.absent bits id = true ↔ bits id = true ∧ s.pageTable id = none := by
  simp [absent]

/-! ### The run of slots -/

theorem idxOf_filter_range {p : ℕ → Bool} {n : ℕ} (hlt : id < n) (hp : p id = true) :
    ((List.range n).filter p).idxOf id = (List.range id).countP p := by
  induction n with
  | zero => omega
  | succ n ih =>
    rw [List.range_succ, List.filter_append]
    rcases Nat.lt_succ_iff_lt_or_eq.1 hlt with hlt | rfl
    · have hmem : id ∈ (List.range n).filter p := by simp [hlt, hp]
      rw [List.idxOf_append_of_mem hmem, ih hlt]
    · have hnot : id ∉ (List.range id).filter p := by simp
      rw [List.idxOf_append_of_notMem hnot, ← List.countP_eq_length_filter]
      simp [hp]

theorem idxOf_wantedIds (hid : id < c.logicalPages) (h : s.absent bits id = true) :
    (wantedIds c s bits).idxOf id = s.absentBelow bits id := idxOf_filter_range hid h

theorem length_wantedIds : (wantedIds c s bits).length = s.absentBelow bits c.logicalPages := by
  rw [wantedIds, absentBelow, List.countP_eq_length_filter]
  rfl

theorem absentBelow_lt (hid : id < c.logicalPages) (h : s.absent bits id = true) :
    s.absentBelow bits id < s.absentBelow bits c.logicalPages := by
  have hmem : id ∈ wantedIds c s bits := List.mem_filter.2 ⟨List.mem_range.2 hid, h⟩
  have hlt := List.idxOf_lt_length_iff.2 hmem
  rwa [idxOf_wantedIds hid h, length_wantedIds] at hlt

/-- The slots a plan hands out: inside the arena, none of them mapped or in a pool. -/
structure FreshRun (c : ArenaConfig) (s : PageArena Page) (bits : ℕ → Bool) (first : ℕ) : Prop where
  fits : first + s.absentBelow bits c.logicalPages ≤ c.logicalPages
  unmapped : ∀ slot, first ≤ slot → ∀ id < c.logicalPages, s.pageTable id ≠ some slot
  unpooled : ∀ slot, first ≤ slot → ∀ bh i, Unspent c s bh i → s.poolSlots bh i ≠ slot

section

variable [Zero Page] {first : ℕ}

/-- What `plan_exact` without a reset leaves of an arena. -/
structure Admits (c : ArenaConfig) (bits : ℕ → Bool) (first : ℕ) (s s' : PageArena Page) : Prop where
  mapped : ∀ id < c.logicalPages, s'.pageTable id ≠ none ↔ s.pageTable id ≠ none ∨ bits id = true
  kept : ∀ id < c.logicalPages, ∀ slot, s.pageTable id = some slot →
    s'.pageTable id = some slot ∧ s'.valueBase slot = s.valueBase slot
  admitted : ∀ id < c.logicalPages, s.absent bits id = true →
    s'.pageTable id = some (first + s.absentBelow bits id) ∧ s'.valueBase (first + s.absentBelow bits id) = 0
  untouched : ∀ slot, slot < first ∨ first + s.absentBelow bits c.logicalPages ≤ slot →
    s'.valueBase slot = s.valueBase slot
  pool : s'.poolSlots = s.poolSlots ∧ s'.poolCursor = s.poolCursor ∧ s'.poolMap = s.poolMap

theorem Admits.of_planWanted (hinv : Inv c s) {res : PagingResult} (h : planWanted c grow bits s = (.ok res, s')) :
    ∃ first, FreshRun c s bits first ∧ Admits c bits first s s' := by
  obtain ⟨first, hfirst, rfl⟩ := planWanted_ok h
  obtain ⟨hlo, hhi⟩ := admission_ok hfirst hinv.next_le
  rw [length_wantedIds] at hhi
  have htable : ∀ id < c.logicalPages, s.absent bits id = true →
      (admitPages (wantedIds c s bits) first s).pageTable id = some (first + s.absentBelow bits id) := by
    intro id hid habs
    have hmem : id ∈ wantedIds c s bits := List.mem_filter.2 ⟨List.mem_range.2 hid, habs⟩
    rw [← idxOf_wantedIds hid habs]
    exact if_pos hmem
  have hresident : ∀ id, s.absent bits id = false →
      (admitPages (wantedIds c s bits) first s).pageTable id = s.pageTable id := by
    intro id habs
    refine if_neg fun hmem => ?_
    have := (List.mem_filter.1 hmem).2
    rw [← absent, habs] at this
    cases this
  have hrun : FreshRun c s bits first := {
    fits := hhi
    unmapped := fun slot hle id hid hmap => by
      have := hinv.table_lt id hid slot hmap
      omega
    unpooled := fun slot hle bh i hun heq => by
      have := hinv.pool_lt bh i hun
      omega }
  refine ⟨first, hrun, {
    mapped := fun id hid => ?_
    kept := fun id hid slot hslot => ⟨?_, ?_⟩
    admitted := fun id hid habs => ⟨htable id hid habs, ?_⟩
    untouched := fun slot hslot => ?_
    pool := ⟨rfl, rfl, rfl⟩ }⟩
  · change (admitPages _ first s).pageTable id ≠ none ↔ _
    rcases habs : s.absent bits id with _ | _
    · rw [hresident id habs]
      refine ⟨.inl, ?_⟩
      rintro (hmap | hbit)
      · exact hmap
      · intro hnone
        rw [absent_iff.2 ⟨hbit, hnone⟩] at habs
        cases habs
    · rw [htable id hid habs]
      simp [(absent_iff.1 habs).1]
  · change (admitPages _ first s).pageTable id = _
    rw [hresident id, hslot]
    simp [absent, hslot]
  · exact zeroRun_of_lt ((hinv.table_lt id hid slot hslot).trans_le hlo)
  · have hlt := absentBelow_lt hid habs
    exact zeroRun_of_mem (Nat.le_add_right _ _) (by rw [length_wantedIds]; omega)
  · refine if_neg fun hin => ?_
    rw [length_wantedIds] at hin
    omega

/-- An arena without residents maps the bitmap's atoms alone, on zero pages. -/
theorem Admits.gathered_eq_zero (h : Admits c bits first s s') (hempty : ∀ id < c.logicalPages, s.pageTable id = none)
    (hid : id < c.logicalPages) : s'.gathered id = 0 := by
  rcases habs : s.absent bits id with _ | _
  · have hnone : s'.pageTable id = none := by
      by_contra hne
      rcases (h.mapped id hid).1 hne with hmap | hbit
      · exact hmap (hempty id hid)
      · rw [absent_iff.2 ⟨hbit, hempty id hid⟩] at habs
        cases habs
    exact gathered_of_none hnone
  · obtain ⟨htab, hpage⟩ := h.admitted id hid habs
    rw [gathered_of_some htab, hpage]

omit [Zero Page] in
theorem reset_table [Zero Page] (h : reset c grow s = (.ok (), t)) : ∀ id, t.pageTable id = none := by
  rcases reservePool_ok h with ⟨-, rfl⟩ | ⟨first, -, -, rfl⟩
  · exact fun _ => rfl
  · exact fun _ => rfl

end

/-! ### `plan_exact` -/

/-- What `plan_exact` without a reset keeps: the old atoms, and every word `materialize` reads. -/
structure Extends (dv : ℕ) (c : ArenaConfig) (bits : ℕ → Bool) (s s' : PageArena SplitPage) : Prop where
  inv : Inv c s'
  run : ∃ first, FreshRun c s bits first ∧ Admits c bits first s s'
  words : materialize dv c s' = materialize dv c s

/-- What one with a reset leaves, of the bitmap alone. -/
structure Starts (dv : ℕ) (c : ArenaConfig) (bits : ℕ → Bool) (s' : PageArena SplitPage) : Prop where
  inv : Inv c s'
  mapped : ∀ id < c.logicalPages, s'.pageTable id ≠ none ↔ bits id = true
  words : materialize dv c s' = List.replicate c.logicalPages 0

theorem planExact_exact (dv : ℕ) (c : ArenaConfig) (grow : Grow) (bitmap : AtomBitmap) (s : PageArena SplitPage)
    (hinv : Inv c s) : ∀ res s',
      (planExact c grow bitmap false s = (.ok res, s') → Extends dv c bitmap.bits s s') ∧
      (planExact c grow bitmap true s = (.ok res, s') → Starts dv c bitmap.bits s') := by
  intro res s'
  refine ⟨fun h => ?_, fun h => ?_⟩
  · obtain ⟨t, ht, hplan⟩ := planExact_ok h
    cases ht
    refine ⟨hinv.planExact h, Admits.of_planWanted hinv hplan, ?_⟩
    refine List.map_congr_left fun id hid => ?_
    rw [gathered_planWanted hinv hplan (List.mem_range.1 hid)]
  · obtain ⟨t, ht, hplan⟩ := planExact_ok h
    have hempty := reset_table ht
    obtain ⟨first, -, hadm⟩ := Admits.of_planWanted (hinv.reset ht) hplan
    refine ⟨hinv.planExact h, fun id hid => ?_, ?_⟩
    · rw [hadm.mapped id hid]
      simp [hempty id]
    · rw [List.eq_replicate_iff]
      refine ⟨by simp [materialize], fun words hwords => ?_⟩
      obtain ⟨id, hid, rfl⟩ := List.mem_map.1 hwords
      rw [hadm.gathered_eq_zero (fun id _ => hempty id) (List.mem_range.1 hid)]
      exact SplitPage.fromSplitPlanes_zero

/-- Five atoms on extents of two, one slot of them in the pool, over storage that held something. -/
def gappy : ArenaConfig := .ofNats 1 5 1 2 1 (Eq.refl true)

def gappyStart : PageArena SplitPage := (allocate gappy Grow.bridge fun _ _ => 0xFFFF).2

def gappyTwo : PageArena SplitPage :=
  (planExact gappy Grow.bridge (ownBitmap gappy fun id => id == 1 || id == 3) false gappyStart).2

def gappyOne : PageArena SplitPage :=
  (planExact gappy Grow.bridge (ownBitmap gappy fun id => id == 0) true gappyTwo).2

/-- Two atoms planned, on slots past a gap, and then the others alone after a reset. -/
theorem planExact_exact_gappy : Inv gappy gappyStart ∧ gappyTwo.pageTable 1 = some 2 ∧
    Extends 2 gappy (fun id => id == 1 || id == 3) gappyStart gappyTwo ∧
    Starts 2 gappy (fun id => id == 0) gappyOne := by
  have hstart : allocate gappy Grow.bridge (fun _ _ => 0xFFFF) = (.ok (), gappyStart) := rfl
  have hplan : planExact gappy Grow.bridge (ownBitmap gappy fun id => id == 1 || id == 3) false gappyStart =
      (.ok ⟨4, 4, 2, 5, 256, 320⟩, gappyTwo) := rfl
  have hinv := inv_allocate hstart
  have hreplan : planExact gappy Grow.bridge (ownBitmap gappy fun id => id == 0) true gappyTwo =
      (.ok ⟨2, 2, 1, 5, 128, 320⟩, gappyOne) := rfl
  have hextends := (planExact_exact 2 gappy Grow.bridge _ gappyStart hinv _ _).1 hplan
  exact ⟨hinv, rfl, hextends, (planExact_exact 2 gappy Grow.bridge _ gappyTwo hextends.inv _ _).2 hreplan⟩

end PageArena

end Rola
