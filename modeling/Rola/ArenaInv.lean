import Rola.Arena
import Rola.Machine

/-!
# What every arena operation keeps

The table names distinct slots below the cursor, and the unspent slots of every batch-head's pool are
distinct, fresh and zero. `plan_exact`, `refill_pool` and `reset` keep it from any state; a decode
step keeps it where the shadow row maps no absent atom the step leaves unclaimed, which is exactly
what a reset does not restore.
-/

namespace Rola

namespace PageArena

variable {Page : Type} {c : ArenaConfig} {s s' : PageArena Page} {grow : Grow}

/-- Pool position `i` of batch-head `bh` has not been spent. -/
def Unspent (c : ArenaConfig) (s : PageArena Page) (bh i : ℕ) : Prop :=
  bh < c.BH ∧ s.poolCursor bh ≤ i ∧ i < c.poolCapacity

structure Inv [Zero Page] (c : ArenaConfig) (s : PageArena Page) : Prop where
  table_inj : ∀ id < c.logicalPages, ∀ id' < c.logicalPages, ∀ slot,
    s.pageTable id = some slot → s.pageTable id' = some slot → id = id'
  table_lt : ∀ id < c.logicalPages, ∀ slot, s.pageTable id = some slot → slot < s.next
  next_le : s.next ≤ c.logicalPages
  cursor_le : ∀ bh < c.BH, s.poolCursor bh ≤ c.poolCapacity
  pool_lt : ∀ bh i, Unspent c s bh i → s.poolSlots bh i < s.next
  pool_inj : ∀ bh i bh' i', Unspent c s bh i → Unspent c s bh' i' →
    s.poolSlots bh i = s.poolSlots bh' i' → bh = bh' ∧ i = i'
  pool_fresh : ∀ bh i, Unspent c s bh i → ∀ id < c.logicalPages,
    s.pageTable id ≠ some (s.poolSlots bh i)
  pool_zero : ∀ bh i, Unspent c s bh i → s.valueBase (s.poolSlots bh i) = 0

/-! ### Atom ids -/

theorem atomId_lt {bh a : ℕ} (hbh : bh < c.BH) (ha : a < c.atomsPerBh) :
    c.atomId bh a < c.logicalPages := by
  show bh * c.atomsPerBh + a < c.BH * c.atomsPerBh
  have : (bh + 1) * c.atomsPerBh ≤ c.BH * c.atomsPerBh := Nat.mul_le_mul_right _ hbh
  rw [Nat.succ_mul] at this
  omega

theorem split_id {id : ℕ} (h : id < c.logicalPages) : id / c.atomsPerBh < c.BH ∧
    id % c.atomsPerBh < c.atomsPerBh ∧ c.atomId (id / c.atomsPerBh) (id % c.atomsPerBh) = id := by
  unfold ArenaConfig.logicalPages at h
  have hpos : 0 < c.atomsPerBh := Nat.pos_of_mul_pos_left (Nat.zero_lt_of_lt h)
  exact ⟨Nat.div_lt_of_lt_mul (by rwa [Nat.mul_comm]), Nat.mod_lt _ hpos, Nat.div_add_mod' _ _⟩

theorem atomId_div {bh a : ℕ} (ha : a < c.atomsPerBh) : c.atomId bh a / c.atomsPerBh = bh ∧
    c.atomId bh a % c.atomsPerBh = a := by
  unfold ArenaConfig.atomId
  refine ⟨?_, by rw [Nat.mul_comm, Nat.mul_add_mod, Nat.mod_eq_of_lt ha]⟩
  rw [Nat.add_comm, Nat.add_mul_div_right _ _ (by omega), Nat.div_eq_of_lt ha, Nat.zero_add]

/-! ### The pool's reservation -/

section Host

variable [Zero Page]

theorem zeroRun_of_lt {base : ℕ → Page} {first count slot : ℕ} (h : slot < first) :
    zeroRun base first count slot = base slot := if_neg (by omega)

theorem zeroRun_of_mem {base : ℕ → Page} {first count slot : ℕ} (h : first ≤ slot)
    (h' : slot < first + count) : zeroRun base first count slot = 0 := if_pos ⟨h, h'⟩

theorem reservePool_ok (h : reservePool c grow s = (.ok (), s')) :
    c.poolCapacity = 0 ∧ s' = s ∨ ∃ first, 0 < c.poolCapacity ∧
      admission s.next c.logicalPages c.extentAtoms (c.BH * c.poolCapacity) = .ok first ∧
      s' = { s with
        next := first + c.BH * c.poolCapacity
        valueBase := zeroRun s.valueBase first (c.BH * c.poolCapacity)
        poolSlots := fun bh i => first + bh * c.poolCapacity + i
        poolCursor := fun _ => 0
        peakPages := max s.peakPages (first + c.BH * c.poolCapacity) } := by
  unfold reservePool at h
  split at h
  · rename_i h0
    cases h
    exact .inl ⟨h0, rfl⟩
  · rename_i h0
    dsimp only at h
    split at h
    · cases h
    · rename_i first hfirst
      split at h
      · cases h
      · cases h
        exact .inr ⟨first, Nat.pos_of_ne_zero h0, hfirst, rfl⟩

/-- Reserving the pool over an empty table establishes the invariant. -/
theorem inv_reservePool (htable : ∀ id, s.pageTable id = none) (hnext : s.next ≤ c.logicalPages)
    (hcursor : ∀ bh < c.BH, s.poolCursor bh ≤ c.poolCapacity)
    (h : reservePool c grow s = (.ok (), s')) : Inv c s' := by
  rcases reservePool_ok h with ⟨h0, rfl⟩ | ⟨first, hpos, hfirst, rfl⟩
  · exact
      { table_inj := by simp [htable]
        table_lt := by simp [htable]
        next_le := hnext
        cursor_le := hcursor
        pool_lt := fun bh i hu => absurd hu.2.2 (by omega)
        pool_inj := fun bh i _ _ hu => absurd hu.2.2 (by omega)
        pool_fresh := fun bh i hu => absurd hu.2.2 (by omega)
        pool_zero := fun bh i hu => absurd hu.2.2 (by omega) }
  · have hplace : ∀ bh i, bh < c.BH → i < c.poolCapacity →
        bh * c.poolCapacity + i < c.BH * c.poolCapacity := fun bh i hbh hi => by
      have := Nat.mul_le_mul_right c.poolCapacity (Nat.succ_le_of_lt hbh)
      rw [Nat.succ_mul] at this
      omega
    exact
      { table_inj := by simp [htable]
        table_lt := by simp [htable]
        next_le := (admission_ok hfirst hnext).2
        cursor_le := fun _ _ => Nat.zero_le _
        pool_lt := fun bh i hu => by
          have := hplace bh i hu.1 hu.2.2
          show first + bh * c.poolCapacity + i < first + c.BH * c.poolCapacity
          omega
        pool_inj := fun bh i bh' i' hu hu' heq => by
          dsimp only at heq
          exact MixedRadix.mul_add_inj hu.2.2 hu'.2.2 (by omega)
        pool_fresh := fun bh i _ id _ => by simp [htable]
        pool_zero := fun bh i hu => by
          have := hplace bh i hu.1 hu.2.2
          exact zeroRun_of_mem (by dsimp only; omega) (by dsimp only; omega) }

theorem inv_allocate {base : ℕ → Page} (h : allocate c grow base = (.ok (), s)) : Inv c s :=
  inv_reservePool (fun _ => rfl) (Nat.zero_le _) (fun _ _ => Nat.zero_le _) h

theorem inv_fresh (h : Fresh c s) : Inv c s := by
  obtain ⟨grow, base, h⟩ := h
  exact inv_allocate h

theorem Inv.reset (hinv : Inv c s) (h : reset c grow s = (.ok (), s')) : Inv c s' :=
  inv_reservePool (s := { s with pageTable := fun _ => none, next := 0, peakPages := 0 })
    (fun _ => rfl) (Nat.zero_le _) hinv.cursor_le h

/-! ### Admission -/

omit [Zero Page] in
theorem mem_wantedIds {bits : ℕ → Bool} {id : ℕ} : id ∈ wantedIds c s bits ↔
    id < c.logicalPages ∧ bits id = true ∧ s.pageTable id = none := by
  simp [wantedIds]

theorem planWanted_ok {bits : ℕ → Bool} {res : PagingResult}
    (h : planWanted c grow bits s = (.ok res, s')) :
    ∃ first, admission s.next c.logicalPages c.extentAtoms (wantedIds c s bits).length = .ok first ∧
      s' = { admitPages (wantedIds c s bits) first s with
        next := first + (wantedIds c s bits).length
        peakPages := max s.peakPages (first + (wantedIds c s bits).length) } := by
  unfold planWanted at h
  dsimp only at h
  split at h
  · cases h
  · rename_i first hfirst
    split at h
    · cases h
    · cases h
      exact ⟨first, hfirst, rfl⟩

/-- A fresh slot, or an old one. -/
theorem admitPages_table {ids : List ℕ} {first id slot : ℕ}
    (h : (admitPages ids first s).pageTable id = some slot) :
    id ∈ ids ∧ slot = first + ids.idxOf id ∨ id ∉ ids ∧ s.pageTable id = some slot := by
  unfold admitPages at h
  dsimp only at h
  split at h
  · rename_i hmem
    exact .inl ⟨hmem, (Option.some.inj h).symm⟩
  · rename_i hmem
    exact .inr ⟨hmem, h⟩

theorem Inv.planWanted (hinv : Inv c s) {bits : ℕ → Bool} {res : PagingResult}
    (h : planWanted c grow bits s = (.ok res, s')) : Inv c s' := by
  obtain ⟨first, hfirst, rfl⟩ := planWanted_ok h
  obtain ⟨hlo, hhi⟩ := admission_ok hfirst hinv.next_le
  have hnew : ∀ id ∈ wantedIds c s bits,
      first + (wantedIds c s bits).idxOf id < first + (wantedIds c s bits).length := fun id hid => by
    have := List.idxOf_lt_length_iff.2 hid
    omega
  exact
    { table_inj := fun id hid id' hid' slot h1 h2 => by
        rcases admitPages_table h1 with ⟨hm, rfl⟩ | ⟨hm, h1⟩ <;>
          rcases admitPages_table h2 with ⟨hm', h2⟩ | ⟨hm', h2⟩
        · exact List.idxOf_inj hm |>.1 (by omega)
        · have := hinv.table_lt id' hid' _ h2
          omega
        · have := hinv.table_lt id hid _ h1
          omega
        · exact hinv.table_inj id hid id' hid' slot h1 h2
      table_lt := fun id hid slot h1 => by
        rcases admitPages_table h1 with ⟨hm, rfl⟩ | ⟨_, h1⟩
        · exact hnew id hm
        · have := hinv.table_lt id hid _ h1
          show slot < first + _
          omega
      next_le := hhi
      cursor_le := hinv.cursor_le
      pool_lt := fun bh i hu => by
        have : s.poolSlots bh i < s.next := hinv.pool_lt bh i hu
        show s.poolSlots bh i < first + _
        omega
      pool_inj := hinv.pool_inj
      pool_fresh := fun bh i hu id hid h1 => by
        have hlt : s.poolSlots bh i < s.next := hinv.pool_lt bh i hu
        rcases admitPages_table h1 with ⟨hm, heq⟩ | ⟨_, h1⟩
        · have : s.poolSlots bh i = first + _ := heq
          omega
        · exact hinv.pool_fresh bh i hu id hid h1
      pool_zero := fun bh i hu => by
        have hlt : s.poolSlots bh i < s.next := hinv.pool_lt bh i hu
        show zeroRun s.valueBase first _ (s.poolSlots bh i) = 0
        rw [zeroRun_of_lt (by omega)]
        exact hinv.pool_zero bh i hu }

theorem planExact_ok {bitmap : AtomBitmap} {fresh : Bool} {res : PagingResult}
    (h : planExact c grow bitmap fresh s = (.ok res, s')) :
    ∃ t, (if fresh then PageArena.reset c grow s else (.ok (), s)) = (.ok (), t) ∧
      PageArena.planWanted c grow bitmap.bits t = (.ok res, s') := by
  unfold planExact at h
  split at h
  · cases h
  · rename_i t ht
    split at h
    · cases h
    · exact ⟨t, ht, h⟩

theorem Inv.planExact (hinv : Inv c s) {bitmap : AtomBitmap} {fresh : Bool} {res : PagingResult}
    (h : planExact c grow bitmap fresh s = (.ok res, s')) : Inv c s' := by
  obtain ⟨t, ht, hplan⟩ := planExact_ok h
  refine Inv.planWanted ?_ hplan
  split at ht
  · exact hinv.reset ht
  · cases ht
    exact hinv

/-! ### Refill -/

theorem refillPool_ok {n : ℕ} (h : refillPool c grow s = (.ok n, s')) :
    s' = s ∨ ∃ first, admission s.next c.logicalPages c.extentAtoms
        (∑ bh ∈ Finset.range c.BH, s.poolCursor bh) = .ok first ∧
      s' = { s with
        next := first + ∑ bh ∈ Finset.range c.BH, s.poolCursor bh
        valueBase := zeroRun s.valueBase first (∑ bh ∈ Finset.range c.BH, s.poolCursor bh)
        poolSlots := s.refilledSlots first c.BH
        poolCursor := fun _ => 0
        peakPages := max s.peakPages (first + ∑ bh ∈ Finset.range c.BH, s.poolCursor bh) } := by
  unfold refillPool at h
  split at h
  · cases h
    exact .inl rfl
  dsimp only at h
  split at h
  · cases h
    exact .inl rfl
  split at h
  · cases h
  rename_i first hfirst
  split at h
  · cases h
  split at h
  · cases h
  · cases h
    exact .inr ⟨first, hfirst, rfl⟩

/-- The spent positions, numbered batch-head by batch-head. -/
theorem spent_place {cur : ℕ → ℕ} {BH bh i : ℕ} (hbh : bh < BH) (hi : i < cur bh) :
    ∑ b ∈ Finset.range bh, cur b + i < ∑ b ∈ Finset.range BH, cur b := by
  have hle : ∑ b ∈ Finset.range (bh + 1), cur b ≤ ∑ b ∈ Finset.range BH, cur b :=
    Finset.sum_le_sum_of_subset (Finset.range_subset_range.2 hbh)
  rw [Finset.sum_range_succ] at hle
  omega

theorem spent_place_inj {cur : ℕ → ℕ} {bh i bh' i' : ℕ} (hi : i < cur bh) (hi' : i' < cur bh')
    (h : ∑ b ∈ Finset.range bh, cur b + i = ∑ b ∈ Finset.range bh', cur b + i') :
    bh = bh' ∧ i = i' := by
  rcases Nat.lt_trichotomy bh bh' with hlt | rfl | hlt
  · have := spent_place hlt hi
    omega
  · exact ⟨rfl, by omega⟩
  · have := spent_place hlt hi'
    omega

omit [Zero Page] in
/-- A position of the refilled pool is a fresh slot, or an unspent one it kept. -/
theorem refilledSlots_cases (s : PageArena Page) (first : ℕ) {bh i : ℕ} (hbh : bh < c.BH)
    (hi : i < c.poolCapacity) :
    i < s.poolCursor bh ∧
        s.refilledSlots first c.BH bh i = first + (∑ b ∈ Finset.range bh, s.poolCursor b + i) ∨
      Unspent c s bh i ∧ s.refilledSlots first c.BH bh i = s.poolSlots bh i := by
  unfold refilledSlots
  split
  · rename_i h
    exact .inl ⟨h.2, Nat.add_assoc ..⟩
  · rename_i h
    exact .inr ⟨⟨hbh, by omega, hi⟩, rfl⟩

theorem Inv.refillPool (hinv : Inv c s) {n : ℕ} (h : refillPool c grow s = (.ok n, s')) : Inv c s' := by
  rcases refillPool_ok h with rfl | ⟨first, hfirst, rfl⟩
  · exact hinv
  obtain ⟨hlo, hhi⟩ := admission_ok hfirst hinv.next_le
  refine
    { table_inj := hinv.table_inj
      table_lt := fun id hid slot h1 => ?_
      next_le := hhi
      cursor_le := fun _ _ => Nat.zero_le _
      pool_lt := fun bh i hu => ?_
      pool_inj := fun bh i bh' i' hu hu' heq => ?_
      pool_fresh := fun bh i hu id hid h1 => ?_
      pool_zero := fun bh i hu => ?_ }
  · have := hinv.table_lt id hid slot h1
    dsimp only
    omega
  · dsimp only
    rcases refilledSlots_cases s first hu.1 hu.2.2 with ⟨hi, hx⟩ | ⟨hold, hx⟩ <;> rw [hx]
    · have := spent_place hu.1 hi
      omega
    · have := hinv.pool_lt bh i hold
      omega
  · dsimp only at heq
    rcases refilledSlots_cases s first hu.1 hu.2.2 with ⟨hi, hx⟩ | ⟨hold, hx⟩ <;>
      rcases refilledSlots_cases s first hu'.1 hu'.2.2 with ⟨hi', hx'⟩ | ⟨hold', hx'⟩ <;>
      rw [hx, hx'] at heq
    · exact spent_place_inj hi hi' (by omega)
    · have := hinv.pool_lt bh' i' hold'
      omega
    · have := hinv.pool_lt bh i hold
      omega
    · exact hinv.pool_inj bh i bh' i' hold hold' heq
  · dsimp only at h1
    rcases refilledSlots_cases s first hu.1 hu.2.2 with ⟨hi, hx⟩ | ⟨hold, hx⟩ <;> rw [hx] at h1
    · have := hinv.table_lt id hid _ h1
      omega
    · exact hinv.pool_fresh bh i hold id hid h1
  · dsimp only
    rcases refilledSlots_cases s first hu.1 hu.2.2 with ⟨hi, hx⟩ | ⟨hold, hx⟩ <;> rw [hx]
    · have := spent_place hu.1 hi
      exact zeroRun_of_mem (by omega) (by omega)
    · have := hinv.pool_lt bh i hold
      rw [zeroRun_of_lt (by omega)]
      exact hinv.pool_zero bh i hold

end Host

end PageArena

end Rola
