import Rola.ArenaRun

/-!
# When admission is total

The capacity equals the atoms there are, so a plan is refused only by slots nothing maps: the pool's
up-front reservation, and the gaps extent alignment opens. Neither exists exactly when there is no
pool slot and an extent is one atom or the whole arena.
-/

namespace Rola

namespace PageArena

open Finset

variable {Page : Type} {c : ArenaConfig} {s s' : PageArena Page}

/-! ### Residency -/

/-- `resident_pages` counts these: the atoms the page table maps. -/
def resident (c : ArenaConfig) (s : PageArena Page) : Finset ℕ :=
  (range c.logicalPages).filter fun id => (s.pageTable id).isSome

theorem mem_resident {id : ℕ} : id ∈ resident c s ↔ id < c.logicalPages ∧ s.pageTable id ≠ none := by
  simp [resident, Option.isSome_iff_ne_none]

theorem wantedIds_nodup (bits : ℕ → Bool) : (wantedIds c s bits).Nodup := List.nodup_range.filter _

theorem disjoint_wantedIds (bits : ℕ → Bool) :
    Disjoint (resident c s) (wantedIds c s bits).toFinset := by
  rw [Finset.disjoint_left]
  intro id hres hmem
  exact (mem_resident.1 hres).2 (mem_wantedIds.1 (List.mem_toFinset.1 hmem)).2.2

/-- The wanted atoms are among those not resident. -/
theorem resident_add_wanted_le (bits : ℕ → Bool) :
    (resident c s).card + (wantedIds c s bits).length ≤ c.logicalPages := by
  rw [← List.toFinset_card_of_nodup (wantedIds_nodup bits),
    ← card_union_of_disjoint (disjoint_wantedIds bits)]
  refine (card_le_card fun id hid => ?_).trans_eq (card_range _)
  rcases mem_union.1 hid with h | h
  · exact mem_range.2 (mem_resident.1 h).1
  · exact mem_range.2 (mem_wantedIds.1 (List.mem_toFinset.1 h)).1

theorem resident_admitPages [Zero Page] (bits : ℕ → Bool) (first : ℕ) :
    resident c (admitPages (wantedIds c s bits) first s) =
      resident c s ∪ (wantedIds c s bits).toFinset := by
  ext id
  rw [mem_union, List.mem_toFinset, mem_resident, mem_resident, mem_wantedIds]
  unfold admitPages
  dsimp only
  split
  · rename_i hmem
    have := mem_wantedIds.1 hmem
    simp [this]
  · rename_i hmem
    rw [mem_wantedIds] at hmem
    exact ⟨fun h => .inl h, fun h => h.resolve_right hmem⟩

/-! ### No gaps -/

/-- An extent of one atom, or one that holds the whole arena, never opens a gap. -/
theorem placement_eq_of_no_gap {allocated count : ℕ}
    (he : c.extentAtoms = 1 ∨ c.logicalPages ≤ c.extentAtoms) (h : allocated + count ≤ c.logicalPages) :
    placement allocated c.extentAtoms count = allocated := by
  rcases he with he | he
  · exact placement_of_remainder_zero (by rw [he, extentRemainder, Nat.mod_one])
  · unfold placement extentRemainder
    dsimp only
    rcases Nat.lt_or_eq_of_le (show allocated ≤ c.extentAtoms by omega) with hlt | heq
    · rw [if_neg]
      rw [Nat.mod_eq_of_lt hlt]
      rcases Nat.eq_zero_or_pos allocated with rfl | hpos
      · simp
      · rw [Nat.mod_eq_of_lt (by omega)]
        omega
    · simp [heq]

/-- Every slot handed out is mapped. -/
def Tight (c : ArenaConfig) (s : PageArena Page) : Prop := s.next = (resident c s).card

section

variable [Zero Page]

theorem reset_of_no_pool (h0 : c.poolCapacity = 0) (grow : Grow) (s : PageArena Page) :
    reset c grow s = (.ok (), { s with pageTable := fun _ => none, next := 0, peakPages := 0 }) := by
  rw [reset, reservePool, if_pos h0]

theorem planWanted_isOk_iff {bits : ℕ → Bool} :
    (planWanted c Grow.bridge bits s).1.isOk ↔
      (admission s.next c.logicalPages c.extentAtoms (wantedIds c s bits).length).isOk := by
  unfold planWanted
  dsimp only
  split
  · rename_i h
    simp [h, Except.isOk, Except.toBool]
  · rename_i h
    simp [h, Grow.bridge, Except.isOk, Except.toBool]

theorem planWanted_of_admission (bits : ℕ → Bool) {first : ℕ}
    (h : admission s.next c.logicalPages c.extentAtoms (wantedIds c s bits).length = .ok first) :
    ∃ res, planWanted c Grow.bridge bits s = (.ok res, { admitPages (wantedIds c s bits) first s with
      next := first + (wantedIds c s bits).length
      peakPages := max s.peakPages (first + (wantedIds c s bits).length) }) := by
  unfold planWanted
  dsimp only
  rw [h]
  exact ⟨_, rfl⟩

theorem planExact_own {grow : Grow} {bits : ℕ → Bool} {fresh : Bool} {t : PageArena Page}
    (h : (if fresh then reset c grow s else (.ok (), s)) = (.ok (), t)) :
    planExact c grow (ownBitmap c bits) fresh s = planWanted c grow bits t := by
  unfold planExact
  rw [h]
  exact if_neg (by simp [ownBitmap])

/-- Without a pool the state a plan starts from is reached without a refusal. -/
theorem exists_planned_from (h0 : c.poolCapacity = 0) (ht : Tight c s) (grow : Grow) (fresh : Bool) :
    ∃ t, (if fresh then reset c grow s else (.ok (), s)) = (.ok (), t) ∧ Tight c t := by
  rcases fresh with _ | _
  · exact ⟨s, rfl, ht⟩
  · refine ⟨_, reset_of_no_pool h0 grow s, ?_⟩
    simp [Tight, resident]

theorem Tight.planWanted (he : c.extentAtoms = 1 ∨ c.logicalPages ≤ c.extentAtoms) (ht : Tight c s)
    {grow : Grow} {bits : ℕ → Bool} {res : PagingResult}
    (h : planWanted c grow bits s = (.ok res, s')) : Tight c s' := by
  obtain ⟨first, hfirst, rfl⟩ := planWanted_ok h
  have hle := resident_add_wanted_le (c := c) (s := s) bits
  obtain ⟨rfl, -⟩ := admission_eq_ok.1 hfirst
  unfold Tight at ht ⊢
  show placement _ _ _ + _ = (resident c (admitPages _ _ s)).card
  rw [placement_eq_of_no_gap he (by omega), resident_admitPages,
    card_union_of_disjoint (disjoint_wantedIds bits),
    List.toFinset_card_of_nodup (wantedIds_nodup bits), ht]

omit [Zero Page] in
theorem Tight.decodeStep (h0 : c.poolCapacity = 0) (ht : Tight c s) (call : DecodeCall c Page) :
    Tight c (s.decodeStep call) := by
  have hcl : ∀ bh, s.claimed call bh = false := fun bh => by
    rw [← Bool.not_eq_true]
    intro h
    have := claimed_fits h
    omega
  have hres : resident c (s.decodeStep call) = resident c s := by
    ext id
    rw [mem_resident, mem_resident]
    refine and_congr_right fun hid => ?_
    show s.foldRow call _ _ ≠ none ↔ _
    rw [foldRow, hcl, (split_id hid).2.2]
    rfl
  rw [Tight, hres]
  exact ht

/-- The operations of a lawful history: plans, claims and refills the driver does not refuse. -/
def Lawful : PageArena Page → Op c Page → Prop
  | _, .planExact grow _ _ => grow = Grow.bridge
  | _, .decode _ => True
  | _, .refillPool grow => grow = Grow.bridge
  | _, .reset _ => False

theorem Tight.step (h0 : c.poolCapacity = 0)
    (he : c.extentAtoms = 1 ∨ c.logicalPages ≤ c.extentAtoms) {op : Op c Page} (ht : Tight c s)
    (h : s.step op = some s') : Tight c s' := by
  rcases op with ⟨grow, bits, fresh⟩ | call | grow | grow
  · obtain ⟨t, hstart, ht'⟩ := exists_planned_from h0 ht grow fresh
    obtain ⟨res, h⟩ := step_planExact.1 h
    rw [planExact_own hstart] at h
    exact ht'.planWanted he h
  · exact step_decode.1 h ▸ ht.decodeStep h0 call
  · obtain ⟨n, h⟩ := step_refillPool.1 h
    rw [refillPool, if_pos h0] at h
    cases h
    exact ht
  · rw [step_reset, reset_of_no_pool h0] at h
    cases h
    simp [Tight, resident]

theorem tight_fresh (h0 : c.poolCapacity = 0) (h : Fresh c s) : Tight c s := by
  obtain ⟨grow, base, h⟩ := h
  rw [allocate, reservePool, if_pos h0] at h
  cases h
  simp [Tight, resident]

end

/-- No plan of a lawful history is refused. -/
def AdmissionTotal (Page : Type) [Zero Page] (c : ArenaConfig) : Prop :=
  ∀ s : PageArena Page, Machine.Reach (step (c := c)) Lawful (Fresh c) s → ∀ bits fresh,
    (planExact c Grow.bridge (ownBitmap c bits) fresh s).1.isOk

section

variable [Zero Page]

/-- A pool reserved from a rewound allocator is never refused. -/
theorem exists_reservePool (c : ArenaConfig) (hs : s.next = 0) : ∃ t,
    reservePool c Grow.bridge s = (.ok (), t) ∧ t.next = c.BH * c.poolCapacity ∧
      t.pageTable = s.pageTable := by
  by_cases h0 : c.poolCapacity = 0
  · exact ⟨s, by rw [reservePool, if_pos h0], by simp [h0, hs], rfl⟩
  · have hadm : admission s.next c.logicalPages c.extentAtoms (c.BH * c.poolCapacity) = .ok 0 := by
      rw [hs]
      refine admission_eq_ok.2 ⟨(placement_start _ _).symm, fun _ => ?_⟩
      rw [Nat.zero_add]
      exact Nat.mul_le_mul_left _ c.pool_le
    refine ⟨{ s with
      next := 0 + c.BH * c.poolCapacity
      valueBase := zeroRun s.valueBase 0 (c.BH * c.poolCapacity)
      poolSlots := fun bh i => 0 + bh * c.poolCapacity + i
      poolCursor := fun _ => 0
      peakPages := max s.peakPages (0 + c.BH * c.poolCapacity) }, ?_, Nat.zero_add _, rfl⟩
    rw [reservePool, if_neg h0]
    dsimp only
    rw [hadm]
    rfl

theorem exists_fresh (c : ArenaConfig) : ∃ s : PageArena Page, Fresh c s ∧
    s.next = c.BH * c.poolCapacity ∧ ∀ id, s.pageTable id = none := by
  obtain ⟨t, ht, hnext, htab⟩ := @PageArena.exists_reservePool Page ⟨fun _ => none, 0, fun _ _ => 0,
    fun _ => 0, fun _ => none, fun _ => 0, 0⟩ _ c rfl
  exact ⟨t, ⟨Grow.bridge, fun _ => 0, ht⟩, hnext, fun id => by rw [htab]⟩

omit [Zero Page] in
theorem wantedIds_all (h : ∀ id, s.pageTable id = none) :
    (wantedIds c s fun _ => true).length = c.logicalPages := by
  simp [wantedIds, h]

/-- With a pool, a plan of every atom finds the pool's slots already taken. -/
theorem not_total_of_pool (h0 : 0 < c.BH * c.poolCapacity) : ¬ AdmissionTotal Page c := by
  intro htot
  obtain ⟨s, hfresh, hnext, htab⟩ := @PageArena.exists_fresh Page _ c
  have hok := htot s (.init hfresh) (fun _ => true) false
  rw [planExact_own (t := s) rfl, planWanted_isOk_iff, admission_isOk_iff, wantedIds_all htab, hnext] at hok
  have hpages : c.BH * c.poolCapacity ≤ c.logicalPages := Nat.mul_le_mul_left _ c.pool_le
  have hle := hok (by omega)
  have hge := le_placement (c.BH * c.poolCapacity) c.extentAtoms c.logicalPages
  omega

/-- Between one atom and the arena, a plan of one atom and then of the rest opens a gap. -/
theorem not_total_of_gap (h0 : c.BH * c.poolCapacity = 0) (h1 : 1 < c.extentAtoms)
    (h2 : c.extentAtoms < c.logicalPages) : ¬ AdmissionTotal Page c := by
  intro htot
  obtain ⟨s, hfresh, hnext, htab⟩ := @PageArena.exists_fresh Page _ c
  have hone : wantedIds c s (fun id => id == 0) = [0] := by
    have hmem : ∀ id, id ∈ wantedIds c s (fun id => id == 0) ↔ id ∈ [0] := fun id => by
      rw [mem_wantedIds, List.mem_singleton, beq_iff_eq]
      exact ⟨fun h => h.2.1, fun h => ⟨by omega, h, htab id⟩⟩
    exact List.perm_singleton.1 ((List.perm_ext_iff_of_nodup (wantedIds_nodup _)
      (List.nodup_singleton 0)).2 hmem)
  have hfirst : admission s.next c.logicalPages c.extentAtoms
      (wantedIds c s fun id => id == 0).length = .ok 0 := by
    rw [hnext, h0, hone]
    refine admission_eq_ok.2 ⟨(placement_start _ _).symm, fun _ => ?_⟩
    rw [List.length_singleton]
    omega
  obtain ⟨res, hplan⟩ := planWanted_of_admission (fun id => id == 0) hfirst
  rw [hone] at hplan
  let t : PageArena Page := { admitPages [0] 0 s with next := 0 + 1, peakPages := max s.peakPages (0 + 1) }
  have hstep : s.step (.planExact Grow.bridge (fun id => id == 0) false : Op c Page) = some t := by
    rw [step_planExact, planExact_own (t := s) rfl]
    exact ⟨res, hplan⟩
  have hlawful : Lawful s (.planExact Grow.bridge (fun id => id == 0) false : Op c Page) := rfl
  have hok := htot t (.step (.init hfresh) hlawful hstep) (fun _ => true) false
  have hrest : (wantedIds c t fun _ => true).length + 1 = c.logicalPages := by
    have hadd : resident c t = {0} := by
      ext id
      rw [mem_resident, mem_singleton]
      show _ ∧ (if id ∈ [0] then some (0 + [0].idxOf id) else s.pageTable id) ≠ none ↔ _
      rw [htab]
      simp only [List.mem_singleton]
      split <;> simp_all
      omega
    have huniv : (wantedIds c t fun _ => true).toFinset = (range c.logicalPages).erase 0 := by
      ext id
      have : id ∈ resident c t ↔ id = 0 := by rw [hadd, mem_singleton]
      rw [mem_resident] at this
      rw [List.mem_toFinset, mem_wantedIds, mem_erase, mem_range]
      tauto
    rw [← List.toFinset_card_of_nodup (wantedIds_nodup _), huniv,
      card_erase_of_mem (mem_range.2 (by omega)), card_range]
    omega
  rw [planExact_own (t := t) rfl, planWanted_isOk_iff, admission_isOk_iff] at hok
  have hle := hok (by omega)
  have hplace : placement t.next c.extentAtoms (wantedIds c t fun _ => true).length = c.extentAtoms := by
    show placement 1 _ _ = _
    unfold placement extentRemainder
    rw [Nat.mod_eq_of_lt h1, Nat.mod_eq_of_lt (by omega), if_pos ⟨by omega, by omega⟩]
    omega
  omega

/-- An arena without atoms is asked for none. -/
theorem planExact_isOk_of_no_atoms (hC : c.BH = 0) (bits : ℕ → Bool) (fresh : Bool) (s : PageArena Page) :
    (planExact c Grow.bridge (ownBitmap c bits) fresh s).1.isOk := by
  have hpages : c.logicalPages = 0 := by rw [ArenaConfig.logicalPages, hC, Nat.zero_mul]
  have hstart : ∃ t, (if fresh then reset c Grow.bridge s else (.ok (), s)) = (.ok (), t) := by
    rcases fresh with _ | _
    · exact ⟨s, rfl⟩
    · show ∃ t, reset c Grow.bridge s = (.ok (), t)
      unfold reset reservePool
      split
      · exact ⟨_, rfl⟩
      · simp [hC, admission, Grow.bridge]
  obtain ⟨t, ht⟩ := hstart
  have hids : wantedIds c t bits = [] := by simp [wantedIds, hpages]
  rw [planExact_own ht, planWanted_isOk_iff, hids]
  rfl

/-- Admission is total exactly when no slot is parked in a pool and no extent opens a gap. -/
theorem admissionTotal_iff : AdmissionTotal Page c ↔
    c.BH * c.poolCapacity = 0 ∧ (c.extentAtoms = 1 ∨ c.logicalPages ≤ c.extentAtoms) := by
  constructor
  · intro htot
    have h0 : c.BH * c.poolCapacity = 0 := by
      by_contra hne
      exact not_total_of_pool (Nat.pos_of_ne_zero hne) htot
    refine ⟨h0, ?_⟩
    by_contra hne
    rw [not_or] at hne
    have hpos := c.extent_pos
    exact not_total_of_gap h0 (by omega) (by omega) htot
  · rintro ⟨h0, he⟩ s hreach bits fresh
    rcases Nat.mul_eq_zero.1 h0 with hBH | hP
    · exact planExact_isOk_of_no_atoms hBH bits fresh s
    · have ht : Tight c s := hreach.invariant (fun _ => tight_fresh hP)
        fun _ _ _ ht _ hs => ht.step hP he hs
      obtain ⟨t, hstart, ht'⟩ := exists_planned_from hP ht Grow.bridge fresh
      rw [planExact_own hstart, planWanted_isOk_iff, admission_isOk_iff]
      intro _
      have hle := resident_add_wanted_le (c := c) (s := t) bits
      rw [ht', placement_eq_of_no_gap he hle]
      exact hle

end

/-- One batch-head of two atoms, one of them in the pool. -/
def halfPool : ArenaConfig := .ofNats 1 2 33 1 1 (Eq.refl true)

def halfPoolStart : PageArena ℕ := (allocate halfPool Grow.bridge fun _ => 0).2

/-- A fresh arena under half slack refuses the plan of its own two atoms. -/
theorem plan_refused_by_pool : ArenaConfig.make 1 2 33 1 (1 / 2) = .ok halfPool ∧
    Fresh halfPool halfPoolStart ∧
    (planExact halfPool Grow.bridge (ownBitmap halfPool fun _ => true) true halfPoolStart).1.isOk = false := by
  refine ⟨?_, ⟨Grow.bridge, fun _ => 0, rfl⟩, by decide⟩
  norm_num [ArenaConfig.make, halfPool, ArenaConfig.ofNats, ArenaConfig.poolSlots]

end PageArena

end Rola
