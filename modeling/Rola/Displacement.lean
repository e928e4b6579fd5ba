import Rola.CarryCall

/-!
# The carry's 32-bit displacements

`csrc/rola/src/carry/carry_kernel.cuh` and `csrc/rola/src/common/ops.cuh`: every operand but the
readout planes is reached by an unsigned 32-bit byte offset off one 64-bit base, formed with
wrapping arithmetic. A displacement that wraps lands on another row or page.
-/

namespace Rola

/-- An unsigned 32-bit value. -/
def u32 (n : ℕ) : BitVec 32 := BitVec.ofNat 32 n

theorem u32_mul (m n : ℕ) : u32 m * u32 n = u32 (m * n) := (BitVec.ofNat_mul m n).symm

theorem u32_add (m n : ℕ) : u32 m + u32 n = u32 (m + n) := (BitVec.ofNat_add m n).symm

theorem u32_toNat_eq {n : ℕ} : (u32 n).toNat = n ↔ n < 2 ^ 32 := by
  rw [u32, BitVec.toNat_ofNat]
  constructor
  · intro h
    rw [← h]
    exact Nat.mod_lt _ (by norm_num)
  · exact Nat.mod_eq_of_lt

namespace CarryCall
variable (c : CarryCall)

/-- `trow`, and the readout's `rowbase + tok`. -/
def row (bh t : ℕ) : BitVec 32 := u32 bh * u32 c.L + u32 t

/-- A packed amplitude row of either side. -/
def routingOff (bh t : ℕ) : BitVec 32 := c.row bh t * u32 c.g.wtot * u32 2

/-- A value row of `kVRowBytes`. -/
def valueOff (dv bh t : ℕ) : BitVec 32 := c.row bh t * u32 (dv * 2)

/-- The gain pair of a row, `(trow & ~1u) * 2u`. -/
def gainOff (bh t : ℕ) : BitVec 32 := (c.row bh t &&& ~~~1#32) * u32 2

/-- The canonical page of an owner's local page. -/
def canonPage (owner atom : ℕ) : ℕ := geomCanonLeaf c.g owner (atom * mmaKQuantum) >>> atomLeavesBits

/-- `atom_base + canon`: the activity byte's offset. -/
def atomOff (bh owner atom : ℕ) : BitVec 32 :=
  u32 bh * u32 (c.g.leaves / mmaKQuantum) + u32 (c.canonPage owner atom)

/-- A page-table entry's offset. -/
def tableOff (bh owner atom : ℕ) : BitVec 32 := c.atomOff bh owner atom * u32 4

/-- `page_slot`: an `int32`, the page itself without a table; `table` by byte offset. -/
def pageSlot (table : ℕ → BitVec 32) (bh owner atom : ℕ) : BitVec 32 :=
  if c.pageTable.isNone then c.atomOff bh owner atom
  else table (c.tableOff bh owner atom).toNat

/-- `state_page::Blocks<DV>::kBytes`. -/
def pageBytes (dv : ℕ) : ℕ := 2 * 16 * dv * 2 + 16 * 2 + 16 * 2

/-- A byte of a page: a 16-byte chunk of a row's high or low plane, or a row's mass half. -/
inductive PageByte where
  | chunk (lo : Bool) (row col : ℕ)
  | mass (lo : Bool) (row : ℕ)

/-- Its offset in the page. -/
def PageByte.off (dv : ℕ) : PageByte → ℕ
  | .chunk lo row col => (if lo then 16 * dv * 2 else 0) + (row * dv + col * 8) * 2
  | .mass lo row => row * 2 + if lo then 2 * 16 * dv * 2 + 16 * 2 else 2 * 16 * dv * 2

/-- The rows and chunks a page has. -/
def PageByte.Valid (dv : ℕ) : PageByte → Prop
  | .chunk _ row col => row < 16 ∧ col < dv * 2 / 16
  | .mass _ row => row < 16

/-- `(slot < 0 ? 0 : slot) * kBytes` and the offset in the page. -/
def stateOff (dv : ℕ) (slot : BitVec 32) (byte : PageByte) : BitVec 32 :=
  (if slot.toInt < 0 then u32 0 else slot) * u32 (pageBytes dv) + u32 (byte.off dv)

end CarryCall

/-- Every displacement is the mathematical offset. A slot of the table is a page of the pool. -/
structure CarryOperands.NoWrap (a : CarryOperands) (c : CarryCall) : Prop where
  routing : ∀ bh < c.BH, ∀ t < c.L, (c.routingOff bh t).toNat = (bh * c.L + t) * c.g.wtot * 2
  value : ∀ bh < c.BH, ∀ t < c.L, (c.valueOff a.dv bh t).toNat = (bh * c.L + t) * (2 * a.dv)
  gain : ∀ bh < c.BH, ∀ t < c.L, (c.gainOff bh t).toNat = (bh * c.L + t) / 2 * 2 * 2
  activity : ∀ bh < c.BH, ∀ owner < c.g.owners, ∀ atom < c.g.bc / 16,
    (c.atomOff bh owner atom).toNat = bh * (c.g.leaves / 16) + c.canonPage owner atom
  table : c.pageTable.isSome → ∀ bh < c.BH, ∀ owner < c.g.owners, ∀ atom < c.g.bc / 16,
    (c.tableOff bh owner atom).toNat = (bh * (c.g.leaves / 16) + c.canonPage owner atom) * 4
  paged : c.pageTable.isSome → ∀ pool, a.stateIn = some pool ∨ a.stateOut = some pool →
    ∀ slot : BitVec 32, 0 ≤ slot.toInt → slot.toInt < pool.size 0 →
      ∀ byte, byte.Valid a.dv → (CarryCall.stateOff a.dv slot byte).toNat =
        slot.toInt.toNat * CarryCall.pageBytes a.dv + byte.off a.dv
  dense : c.pageTable.isNone → a.stateIn.isSome ∨ a.stateOut.isSome →
    ∀ table, ∀ bh < c.BH, ∀ owner < c.g.owners, ∀ atom < c.g.bc / 16, ∀ byte, byte.Valid a.dv →
      (CarryCall.stateOff a.dv (c.pageSlot table bh owner atom) byte).toNat =
        (bh * (c.g.leaves / 16) + c.canonPage owner atom) * CarryCall.pageBytes a.dv + byte.off a.dv

/-- The planes the refusals leave unbounded fit 32 bits. -/
def CarryOperands.Fits (a : CarryOperands) : Prop :=
  a.BH * a.L * (2 * a.dv) ≤ 2 ^ 32 ∧
    a.BH * a.pages * (if a.pageTable.isSome then 4 else 1) ≤ 2 ^ 32 ∧
    (a.pageTable.isNone → a.stateIn.isSome ∨ a.stateOut.isSome →
      a.BH * a.pages * (64 * (a.dv + 1)) ≤ 2 ^ 32)

/-! ### Extents -/

theorem forall_pairs {m n : ℕ} {p : ℕ → Prop} :
    (∀ i < m, ∀ j < n, p (i * n + j)) ↔ ∀ r < m * n, p r := by
  constructor
  · intro h r hr
    have hn : 0 < n := by
      rcases Nat.eq_zero_or_pos n with rfl | hn
      · simp at hr
      · exact hn
    have hpair := h (r / n) ((Nat.div_lt_iff_lt_mul hn).2 hr) (r % n) (Nat.mod_lt _ hn)
    rwa [Nat.div_add_mod'] at hpair
  · intro h i hi j hj
    apply h
    calc i * n + j < i * n + n := by omega
      _ = (i + 1) * n := by ring
      _ ≤ m * n := Nat.mul_le_mul_right _ hi

/-- Rows of a size that divides the address range. -/
theorem rows_fit_iff {rows bytes : ℕ} (hb : bytes ∣ 2 ^ 32) :
    (∀ r < rows, r * bytes < 2 ^ 32) ↔ rows * bytes ≤ 2 ^ 32 := by
  obtain ⟨n, hn⟩ := hb
  have hpos : 0 < bytes := Nat.pos_of_ne_zero fun h0 => by simp [h0] at hn
  rw [hn, mul_comm rows, Nat.mul_le_mul_left_iff hpos]
  constructor
  · intro h
    by_contra hlt
    have hrow := h n (by omega)
    rw [mul_comm] at hrow
    omega
  · intro h r hr
    rw [mul_comm]
    exact Nat.mul_lt_mul_of_pos_left (by omega) hpos

theorem pageBytes_eq (dv : ℕ) : CarryCall.pageBytes dv = 64 * (dv + 1) := by
  unfold CarryCall.pageBytes
  ring

/-- A page's bytes end with the last row's low mass half. -/
theorem PageByte.off_le {dv : ℕ} {byte : CarryCall.PageByte} (h : byte.Valid dv) :
    byte.off dv + 2 ≤ CarryCall.pageBytes dv := by
  rw [pageBytes_eq]
  cases byte with
  | chunk lo row col =>
    obtain ⟨hrow, hcol⟩ := h
    have hr : row * dv ≤ 15 * dv := Nat.mul_le_mul_right _ (by omega)
    simp only [CarryCall.PageByte.off]
    split_ifs <;> omega
  | mass lo row =>
    have hrow : row < 16 := h
    simp only [CarryCall.PageByte.off]
    split_ifs <;> omega

/-- Pages of bytes that all stay in the address range. -/
theorem pages_fit_iff {pages dv : ℕ} :
    (∀ r < pages, ∀ byte : CarryCall.PageByte, byte.Valid dv →
      r * CarryCall.pageBytes dv + byte.off dv < 2 ^ 32) ↔ pages * (64 * (dv + 1)) ≤ 2 ^ 32 := by
  constructor
  · intro h
    rcases Nat.eq_zero_or_pos pages with rfl | hpos
    · simp
    · have hlast := h (pages - 1) (by omega) (.mass true 15) (by decide : 15 < 16)
      have hmul : pages * (64 * (dv + 1)) = (pages - 1) * (64 * (dv + 1)) + 64 * (dv + 1) := by
        rw [← Nat.succ_mul, Nat.succ_eq_add_one, Nat.sub_add_cancel hpos]
      rw [pageBytes_eq] at hlast
      simp only [CarryCall.PageByte.off, if_true] at hlast
      -- both sides are whole numbers of 64 bytes
      have h64 : (pages - 1) * (64 * (dv + 1)) = 64 * ((pages - 1) * (dv + 1)) := by ring
      rw [h64] at hmul hlast
      omega
  · intro h r hr byte hbyte
    have hoff := PageByte.off_le hbyte
    rw [pageBytes_eq] at hoff ⊢
    have hmul : (r + 1) * (64 * (dv + 1)) ≤ pages * (64 * (dv + 1)) := Nat.mul_le_mul_right _ hr
    rw [Nat.succ_mul] at hmul
    omega

namespace CarryOperands.Admitted
variable {a : CarryOperands} {c : CarryCall} (h : a.Admitted c)
include h

theorem pages_eq : c.g.leaves / 16 = a.pages := by rw [h.leaves_eq]; rfl

/-- The pages of a batch-head are its owners' pages. -/
theorem forall_pages {p : ℕ → Prop} :
    (∀ owner < c.g.owners, ∀ atom < c.g.bc / 16, p (c.canonPage owner atom)) ↔
      ∀ page < c.g.leaves / 16, p page := by
  obtain ⟨hwf, -⟩ := h.wf
  constructor
  · intro hall page hpage
    obtain ⟨O, hO, loc, hloc, hleaf⟩ :=
      @CarryGeom.Wf.exists_canonLeaf _ hwf (page * 16) (by have := Nat.div_mul_le_self c.g.leaves 16; omega)
    have hatom : loc / 16 < c.g.bc / 16 :=
      Nat.div_lt_div_of_lt_of_dvd hwf.sixteen_dvd_bc hloc
    have hrow := hwf.geomCanonLeaf_row O loc
    have hcanon : c.canonPage O (loc / 16) = page := by
      rw [CarryCall.canonPage, Nat.shiftRight_eq_div_pow, atomLeavesBits, mmaKQuantum]
      omega
    rw [← hcanon]
    exact hall O hO _ hatom
  · intro hall owner howner atom hatom
    refine hall _ ?_
    rw [CarryCall.canonPage, Nat.shiftRight_eq_div_pow, atomLeavesBits]
    exact Nat.div_lt_div_of_lt_of_dvd hwf.sixteen_dvd_leaves (hwf.geomCanonLeaf_lt _ _)

end CarryOperands.Admitted

/-- The aligned row below a row. -/
theorem u32_and_not_one (r : ℕ) : u32 r &&& ~~~1#32 = u32 (r / 2 * 2) := by
  refine BitVec.eq_of_getLsbD_eq fun i hi => ?_
  have hmask : (~~~1#32).getLsbD i = decide (i ≠ 0) := by
    have hall : ∀ i < 32, (~~~1#32).getLsbD i = decide (i ≠ 0) := by decide
    exact hall i hi
  simp only [u32, BitVec.getLsbD_and, BitVec.getLsbD_ofNat, hmask, hi, decide_true, Bool.true_and]
  rcases i with _ | i
  · simp [Nat.testBit_zero]
  · rw [Nat.testBit_succ, Nat.testBit_succ, Nat.mul_div_cancel _ (by norm_num)]
    simp

namespace CarryCall
variable (c : CarryCall) (bh t owner atom dv : ℕ)

theorem row_eq : c.row bh t = u32 (bh * c.L + t) := by rw [row, u32_mul, u32_add]

theorem routingOff_eq : c.routingOff bh t = u32 ((bh * c.L + t) * c.g.wtot * 2) := by
  rw [routingOff, row_eq, u32_mul, u32_mul]

theorem valueOff_eq : c.valueOff dv bh t = u32 ((bh * c.L + t) * (2 * dv)) := by
  rw [valueOff, row_eq, u32_mul, mul_comm dv]

theorem gainOff_eq : c.gainOff bh t = u32 ((bh * c.L + t) / 2 * 2 * 2) := by
  rw [gainOff, row_eq, u32_and_not_one, u32_mul]

theorem atomOff_eq :
    c.atomOff bh owner atom = u32 (bh * (c.g.leaves / 16) + c.canonPage owner atom) := by
  rw [atomOff, u32_mul, u32_add]
  rfl

theorem tableOff_eq :
    c.tableOff bh owner atom = u32 ((bh * (c.g.leaves / 16) + c.canonPage owner atom) * 4) := by
  rw [tableOff, atomOff_eq, u32_mul]

/-- A nonnegative slot's page byte. -/
theorem stateOff_eq {slot : BitVec 32} (hslot : 0 ≤ slot.toInt) (byte : PageByte) :
    stateOff dv slot byte = u32 (slot.toNat * pageBytes dv + byte.off dv) := by
  have hself : slot = u32 slot.toNat := by simp [u32]
  rw [stateOff, if_neg (by omega), ← u32_add, ← u32_mul, ← hself]

end CarryCall

namespace CarryOperands.Admitted
variable {a : CarryOperands} {c : CarryCall} (h : a.Admitted c)
include h

theorem value_iff : (∀ bh < c.BH, ∀ t < c.L,
    (c.valueOff a.dv bh t).toNat = (bh * c.L + t) * (2 * a.dv)) ↔
      a.BH * a.L * (2 * a.dv) ≤ 2 ^ 32 := by
  simp only [CarryCall.valueOff_eq, u32_toNat_eq]
  rw [forall_pairs (p := fun r => r * (2 * a.dv) < 2 ^ 32), rows_fit_iff h.two_dv_dvd, h.BH_eq,
    h.L_eq]

/-- A family of displacements by page is right when its last one fits. -/
theorem page_iff {bytes : ℕ} (hb : bytes ∣ 2 ^ 32) :
    (∀ bh < c.BH, ∀ owner < c.g.owners, ∀ atom < c.g.bc / 16,
      (u32 ((bh * (c.g.leaves / 16) + c.canonPage owner atom) * bytes)).toNat =
        (bh * (c.g.leaves / 16) + c.canonPage owner atom) * bytes) ↔
      a.BH * a.pages * bytes ≤ 2 ^ 32 := by
  simp only [u32_toNat_eq]
  rw [forall_congr' fun bh => forall_congr' fun _ => h.forall_pages
      (p := fun page => (bh * (c.g.leaves / 16) + page) * bytes < 2 ^ 32),
    forall_pairs (p := fun r => r * bytes < 2 ^ 32), rows_fit_iff hb, h.BH_eq, h.pages_eq]

theorem activity_iff : (∀ bh < c.BH, ∀ owner < c.g.owners, ∀ atom < c.g.bc / 16,
    (c.atomOff bh owner atom).toNat = bh * (c.g.leaves / 16) + c.canonPage owner atom) ↔
      a.BH * a.pages ≤ 2 ^ 32 := by
  simpa only [CarryCall.atomOff_eq, mul_one] using h.page_iff (one_dvd _)

theorem table_iff : (∀ bh < c.BH, ∀ owner < c.g.owners, ∀ atom < c.g.bc / 16,
    (c.tableOff bh owner atom).toNat =
      (bh * (c.g.leaves / 16) + c.canonPage owner atom) * 4) ↔ a.BH * a.pages * 4 ≤ 2 ^ 32 := by
  simpa only [CarryCall.tableOff_eq] using @CarryOperands.Admitted.page_iff _ _ h 4 (by norm_num)

theorem dense_iff (hdense : c.pageTable.isNone) : (∀ table, ∀ bh < c.BH, ∀ owner < c.g.owners,
    ∀ atom < c.g.bc / 16, ∀ byte, CarryCall.PageByte.Valid a.dv byte →
      (CarryCall.stateOff a.dv (c.pageSlot table bh owner atom) byte).toNat =
        (bh * (c.g.leaves / 16) + c.canonPage owner atom) * CarryCall.pageBytes a.dv +
          byte.off a.dv) ↔ a.BH * a.pages * (64 * (a.dv + 1)) ≤ 2 ^ 32 := by
  rw [← pages_fit_iff, ← h.BH_eq, ← h.pages_eq, ← forall_pairs (p := fun r => ∀ byte,
    CarryCall.PageByte.Valid a.dv byte → r * CarryCall.pageBytes a.dv + byte.off a.dv < 2 ^ 32)]
  have hpages := fun bh => h.forall_pages (p := fun page => ∀ byte,
    CarryCall.PageByte.Valid a.dv byte →
      (bh * (c.g.leaves / 16) + page) * CarryCall.pageBytes a.dv + byte.off a.dv < 2 ^ 32)
  constructor
  · intro hoff bh hbh
    refine (hpages bh).1 fun owner howner atom hatom byte hbyte => ?_
    rw [← hoff (fun _ => 0#32) bh hbh owner howner atom hatom byte hbyte]
    exact BitVec.isLt _
  · intro hfit table bh hbh owner howner atom hatom byte hbyte
    have hlt := (hpages bh).2 (hfit bh hbh) owner howner atom hatom byte hbyte
    rw [CarryCall.pageSlot, if_pos hdense, CarryCall.atomOff_eq]
    generalize bh * (c.g.leaves / 16) + c.canonPage owner atom = r at hlt ⊢
    -- a page this low is a nonnegative slot
    have hr : r < 2 ^ 31 := by
      rw [pageBytes_eq] at hlt
      have h2 : r * 2 ≤ r * (64 * (a.dv + 1)) := Nat.mul_le_mul_left _ (by omega)
      omega
    have hnat : (u32 r).toNat = r := u32_toNat_eq.2 (by omega)
    have hint : 0 ≤ (u32 r).toInt := by
      rw [BitVec.toInt_eq_toNat_of_lt (by rw [hnat]; omega)]
      omega
    rw [CarryCall.stateOff_eq _ hint, hnat]
    exact u32_toNat_eq.2 hlt

theorem paged_eq (hpaged : a.pageTable.isSome) {pool : Tensor}
    (hpool : a.stateIn = some pool ∨ a.stateOut = some pool) {slot : BitVec 32}
    (h0 : 0 ≤ slot.toInt) (hlt : slot.toInt < pool.size 0) {byte : CarryCall.PageByte}
    (hbyte : byte.Valid a.dv) : (CarryCall.stateOff a.dv slot byte).toNat =
      slot.toInt.toNat * CarryCall.pageBytes a.dv + byte.off a.dv := by
  have hfit := h.pool_lt hpaged hpool
  have hoff := PageByte.off_le hbyte
  have hnat : slot.toInt.toNat = slot.toNat := by
    rw [BitVec.toInt_eq_toNat_cond] at h0 ⊢
    split_ifs at h0 ⊢
    · omega
    · have hslot := slot.isLt
      omega
  have hrow : (slot.toNat + 1) * (64 * (a.dv + 1)) ≤ pool.size 0 * (64 * (a.dv + 1)) :=
    Nat.mul_le_mul_right _ (by omega)
  rw [CarryCall.stateOff_eq _ h0, hnat, u32_toNat_eq]
  rw [pageBytes_eq] at hoff ⊢
  rw [Nat.succ_mul] at hrow
  omega

end CarryOperands.Admitted

/-- For an admitted call, no displacement wraps exactly when the value plane, the page indices and a
dense state fit 32 bits. -/
theorem CarryOperands.noWrap_iff {a : CarryOperands} {c : CarryCall}
    (h : deriveCarryCall a = .ok c) : a.NoWrap c ↔ a.Fits := by
  have hadm := deriveCarryCall_ok h
  have htable : c.pageTable.isSome = a.pageTable.isSome := by rw [hadm.pageTable_eq, Option.isSome_map]
  have hnone : c.pageTable.isNone = a.pageTable.isNone := by rw [hadm.pageTable_eq, Option.isNone_map]
  have hact := hadm.activity_iff
  have htab := hadm.table_iff
  constructor
  · intro hw
    refine ⟨hadm.value_iff.1 hw.value, ?_, fun hd hs => ?_⟩
    · split_ifs with hpaged
      · exact htab.1 (hw.table (htable ▸ hpaged))
      · rw [mul_one]
        exact hact.1 hw.activity
    · exact (hadm.dense_iff (hnone ▸ hd)).1 (hw.dense (hnone ▸ hd) hs)
  · rintro ⟨hvalue, hpage, hdense⟩
    have hatoms : a.BH * a.pages ≤ 2 ^ 32 := by
      split_ifs at hpage <;> omega
    have hrow : ∀ bh < c.BH, ∀ t < c.L, bh * c.L + t < a.BH * a.L := by
      intro bh hbh t ht
      rw [← hadm.BH_eq, ← hadm.L_eq]
      exact CarryCall.row_lt hbh ht
    refine ⟨fun bh hbh t ht => ?_, hadm.value_iff.2 hvalue, fun bh hbh t ht => ?_, hact.2 hatoms,
      fun hp => ?_, fun hp pool hpool slot h0 hlt byte hbyte => ?_, fun hd hs => ?_⟩
    · rw [CarryCall.routingOff_eq, u32_toNat_eq, hadm.wtot_eq]
      have h1 := hadm.routing_lt
      have h2 := Nat.mul_le_mul_right a.wtot (hrow bh hbh t ht).le
      omega
    · rw [CarryCall.gainOff_eq, u32_toNat_eq]
      have h1 := hadm.rows_lt
      have h2 := hrow bh hbh t ht
      omega
    · refine htab.2 ?_
      rwa [if_pos (htable ▸ hp)] at hpage
    · exact hadm.paged_eq (htable ▸ hp) hpool h0 hlt hbyte
    · exact (hadm.dense_iff hd).2 (hdense (hnone ▸ hd) hs)

/-- Two batch-heads of sixteen dense pages. -/
theorem noWrap_iff_small :
    ∃ c, deriveCarryCall (.ofShape 2 2 [16, 16] 64 (some [2, 16, 16, 65]) false) = .ok c ∧
      (CarryOperands.ofShape 2 2 [16, 16] 64 (some [2, 16, 16, 65]) false).NoWrap c := by
  obtain ⟨c, hc, -⟩ : ∃ c,
      deriveCarryCall (.ofShape 2 2 [16, 16] 64 (some [2, 16, 16, 65]) false) = .ok c ∧ True :=
    exists_ok_of_ok (by decide +kernel)
  exact ⟨c, hc, (CarryOperands.noWrap_iff hc).2 ⟨by decide, by decide, fun _ _ => by decide⟩⟩

/-- Sixteen batch-heads of 65536 dense pages of 4160 bytes: the last pages' offsets pass 2^32. -/
theorem dense_state_wraps :
    ∃ c, deriveCarryCall (.ofShape 16 1 [1024, 1024] 64 (some [16, 65536, 16, 65]) false) = .ok c ∧
      ¬ (CarryOperands.ofShape 16 1 [1024, 1024] 64 (some [16, 65536, 16, 65]) false).NoWrap c := by
  obtain ⟨c, hc, -⟩ : ∃ c, deriveCarryCall
      (.ofShape 16 1 [1024, 1024] 64 (some [16, 65536, 16, 65]) false) = .ok c ∧ True :=
    exists_ok_of_ok (by decide +kernel)
  have hadm := deriveCarryCall_ok hc
  have hdense : c.pageTable.isNone := by rw [hadm.pageTable_eq]; rfl
  refine ⟨c, hc, fun hw => ?_⟩
  have hfit := (hadm.dense_iff hdense).1 (hw.dense hdense (.inl rfl))
  exact absurd hfit (by decide)

end Rola
