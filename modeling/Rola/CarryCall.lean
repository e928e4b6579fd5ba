import Rola.CanonLeaf
import Rola.Seams

/-!
# The carry's call

`csrc/rola/src/carry/carry_host.cuh`, `derive_carry_call`: the refusals of the kernel boundary and
the parameter block they leave. A tensor is what the checks read of it; the extents are exact
integers.
-/

namespace Rola

inductive Dtype where
  | bfloat16 | float | int | byte
  deriving DecidableEq

def Dtype.text : Dtype → String
  | .bfloat16 => "BFloat16"
  | .float => "Float"
  | .int => "Int"
  | .byte => "Byte"

structure Tensor where
  isCuda : Bool
  isContiguous : Bool
  dtype : Dtype
  sizes : List ℕ
  dataPtr : ℕ

def Tensor.size (t : Tensor) (i : ℕ) : ℕ := t.sizes.getD i 0

def Tensor.numel (t : Tensor) : ℕ := t.sizes.prod

/-- `shape`: a shape as a refusal prints it. -/
def shapeText (sizes : List ℕ) : String := "[" ++ ", ".intercalate (sizes.map toString) ++ "]"

/-- `is_warps_per_cta`. -/
def IsWarpsPerCta (warps : ℕ) : Prop := warps = 8 ∨ warps = 4

instance (warps : ℕ) : Decidable (IsWarpsPerCta warps) := inferInstanceAs (Decidable (_ ∨ _))

/-- `kOrders`: first live box, identity. -/
def orders : ℤ := 2

/-- `box_leaves`. -/
def boxLeaves (dv warps : ℕ) : ℕ := leavesPerWarp dv * warps

/-- A level's width as `refuse_shape` takes it. -/
def LawfulWidth (w : ℕ) : Prop := mmaKQuantum ≤ w ∧ ilog2Exact w ≠ none

instance (w : ℕ) : Decidable (LawfulWidth w) := inferInstanceAs (Decidable (_ ∧ _))

def widthText (l w : ℕ) : String :=
  s!"level {l} is {w} digits wide. THE KERNEL DOES NOT PAD: B_l is a power of two at or above " ++
    s!"{mmaKQuantum}."

def widthsCheck : ℕ → List ℕ → Except String Unit
  | _, [] => .ok ()
  | l, w :: ws => do
    require (LawfulWidth w) (widthText l w)
    widthsCheck (l + 1) ws

def refuseShape (widths : List ℕ) (dv pageBits warpsPerCta : ℕ) : Except String Unit := do
  require (pageBits = atomLeavesBits)
    s!"the page rectangle is the trailing {atomLeavesBits} canonical leaf bits; this call names {pageBits}"
  require (widths ≠ [] ∧ widths.length ≤ geomMaxLevels)
    (s!"the addressing block is built to depth {geomMaxLevels}; this call names {widths.length}" ++
      " levels")
  widthsCheck 0 widths
  require (0 < dv ∧ dv % 16 = 0 ∧ ilog2Exact dv ≠ none)
    s!"DV is a power of two at or above sixteen; this call names {dv}"
  require (IsWarpsPerCta warpsPerCta)
    s!"warps_per_cta={warpsPerCta} is not a launch shape this family builds"

def refuseSchedule (schedule : List ℤ) : Except String Unit := do
  require (schedule.length = 1)
    (s!"the schedule names the order policy -- [order] -- and this call passed {schedule.length}" ++
      " entries")
  require (0 ≤ schedule.headD 0 ∧ schedule.headD 0 < orders)
    (s!"the order policy is 0 (first live box, dead last) or 1 (identity), got " ++
      s!"{schedule.headD 0}")

/-- Read side then write side, each in rank order. -/
def carveOrderOf (carveOrder : List ℕ) (D : ℕ) : Except String CarveOrder := do
  require (carveOrder.length = 2 * D)
    (s!"the carve order names each side's {D} levels in rank order (read then write), so it is " ++
      s!"{2 * D} entries; this call names {carveOrder.length}")
  .ok ⟨fun l => if l < D then carveOrder.getD l 0 else l,
    fun l => if l < D then carveOrder.getD (D + l) 0 else l⟩

def refuseOperand (name : String) (t : Tensor) (dtype : Dtype) (want : List ℕ) :
    Except String Unit := do
  require (t.isCuda ∧ t.isContiguous) s!"{name} is a contiguous CUDA tensor"
  require (t.dtype = dtype) s!"{name} is {dtype.text}, got {t.dtype.text}"
  require (t.sizes = want) s!"{name} is {shapeText want}, got {shapeText t.sizes}"

def poolText (name : String) (t : Tensor) (dv : ℕ) : String :=
  s!"{name} is a page pool [pages, {mmaKQuantum}, DV + 1] = [pages, {mmaKQuantum}, {dv + 1}] " ++
    s!"with a page table, got {shapeText t.sizes}"

/-- A paged state is the pool its table's slots index. -/
def refusePool (dv : ℕ) (name : String) (t : Tensor) : Except String Unit := do
  require (t.isCuda ∧ t.isContiguous) s!"{name} is a contiguous CUDA tensor"
  require (t.dtype = .float) s!"{name} is {Dtype.float.text}, got {t.dtype.text}"
  require (t.sizes.length = 3 ∧ 1 ≤ t.size 0 ∧ t.size 1 = mmaKQuantum ∧ t.size 2 = dv + 1)
    (poolText name t dv)
  require (t.numel * 4 < 0x100000000)
    (s!"{name} is larger than 4 GiB: a slot's byte offset is a 32-bit displacement off the " ++
      "pool's base")

/-- A check of an optional plane. -/
def ifGiven (check : Tensor → Except String Unit) : Option Tensor → Except String Unit
  | none => .ok ()
  | some t => check t

/-- `derive_carry_call`'s arguments. -/
structure CarryOperands where
  read : Tensor
  write : Tensor
  gain : Tensor
  v : Tensor
  num : Tensor
  den : Tensor
  widths : List ℕ
  dv : ℕ
  pageBits : ℕ
  warpsPerCta : ℕ
  carveOrder : List ℕ
  schedule : List ℤ
  liveness : Tensor
  activity : Tensor
  stateIn : Option Tensor
  stateOut : Option Tensor
  pageTable : Option Tensor

namespace CarryOperands
variable (a : CarryOperands)

def D : ℕ := a.widths.length
def BH : ℕ := a.read.size 0
def L : ℕ := a.read.size 1
def leaves : ℕ := a.widths.prod
def wtot : ℕ := a.widths.sum
def pages : ℕ := a.leaves / mmaKQuantum

/-- `words`: 32 tokens' liveness a word. -/
def words : ℕ := (a.L + 31) / 32

def operandChecks : Except String Unit := do
  refuseOperand "read" a.read .bfloat16 [a.BH, a.L, a.wtot]
  refuseOperand "write" a.write .bfloat16 [a.BH, a.L, a.wtot]
  refuseOperand "gain" a.gain .bfloat16 [a.BH, a.L]
  refuseOperand "v" a.v .bfloat16 [a.BH, a.L, a.dv]
  refuseOperand "num" a.num .float [a.BH, a.L, a.dv]
  refuseOperand "den" a.den .float [a.BH, a.L]
  refuseOperand "liveness" a.liveness .int [a.BH, 2, a.wtot, a.words]
  refuseOperand "activity" a.activity .byte [a.BH, a.pages]

/-- Without a table the state is the whole plane; with one it is the pool the slots index. -/
def stateChecks : Except String Unit :=
  match a.pageTable with
  | some table => do
    refuseOperand "page_table" table .int [a.BH, a.pages]
    ifGiven (refusePool a.dv "state_in") a.stateIn
    ifGiven (refusePool a.dv "state_out") a.stateOut
  | none => do
    ifGiven (refuseOperand "state_in" · .float [a.BH, a.pages, mmaKQuantum, a.dv + 1]) a.stateIn
    ifGiven (refuseOperand "state_out" · .float [a.BH, a.pages, mmaKQuantum, a.dv + 1]) a.stateOut

def InPlace : Prop :=
  match a.stateIn, a.stateOut with
  | some i, some o => i.dataPtr = o.dataPtr
  | _, _ => True

instance : Decidable a.InPlace := by unfold InPlace; split <;> infer_instance

end CarryOperands

/-- `CarryCall`: the parameter block's addressing and extents, and which planes it was given. -/
structure CarryCall where
  g : CarryGeom
  layRead : SideLayout
  layWrite : SideLayout
  stateIn : Option ℕ
  stateOut : Option ℕ
  pageTable : Option ℕ
  L : ℕ
  livenessWords : ℕ
  order : ℤ
  BH : ℕ

theorem CarryCall.row_lt {c : CarryCall} {bh t : ℕ} (hbh : bh < c.BH) (ht : t < c.L) :
    bh * c.L + t < c.BH * c.L := by
  have h : (bh + 1) * c.L ≤ c.BH * c.L := Nat.mul_le_mul_right _ hbh
  rw [Nat.succ_mul] at h
  omega

def CarryOperands.params (a : CarryOperands) (g : CarryGeom) : CarryCall where
  g := g
  layRead := makeSideLayout a.D (boxLeaves a.dv a.warpsPerCta) g.r.rank g.r.rank
  layWrite := makeSideLayout a.D (boxLeaves a.dv a.warpsPerCta) g.w.rank g.r.rank
  stateIn := a.stateIn.map Tensor.dataPtr
  stateOut := a.stateOut.map Tensor.dataPtr
  pageTable := a.pageTable.map Tensor.dataPtr
  L := a.L
  livenessWords := a.words
  order := a.schedule.headD 0
  BH := a.BH

def deriveCarryCall (a : CarryOperands) : Except String CarryCall := do
  refuseShape a.widths a.dv a.pageBits a.warpsPerCta
  refuseSchedule a.schedule
  a.operandChecks
  a.stateChecks
  require a.InPlace
    ("a carried state is advanced IN PLACE: the exit sweep stores only the pages this call " ++
      "writes, so two planes would silently drop the rest")
  require (a.L ≤ 0x7FFFFFFF ∧ a.BH * a.L * a.wtot < 0x40000000)
    "the packed routing plane's byte offsets are 32-bit displacements off one base"
  require (a.L * a.dv < 0x20000000)
    "the readout planes' byte offsets are 32-bit displacements off one base"
  let order ← carveOrderOf a.carveOrder a.D
  match deriveCarryGeom a.D (widthAt a.widths) (boxLeaves a.dv a.warpsPerCta) a.dv order
      a.warpsPerCta a.warpsPerCta with
  | .error err => .error ("the carry addressing block refuses this call: " ++ err)
  | .ok g => .ok (a.params g)

/-- A contiguous CUDA tensor. -/
def cudaTensor (dtype : Dtype) (sizes : List ℕ) : Tensor := ⟨true, true, dtype, sizes, 0⟩

/-- Well-shaped operands of the shipped launch shape, levels carved innermost first. -/
def CarryOperands.ofShape (BH L : ℕ) (widths : List ℕ) (dv : ℕ) (state : Option (List ℕ))
    (pageTable : Bool) : CarryOperands where
  read := cudaTensor .bfloat16 [BH, L, widths.sum]
  write := cudaTensor .bfloat16 [BH, L, widths.sum]
  gain := cudaTensor .bfloat16 [BH, L]
  v := cudaTensor .bfloat16 [BH, L, dv]
  num := cudaTensor .float [BH, L, dv]
  den := cudaTensor .float [BH, L]
  widths := widths
  dv := dv
  pageBits := atomLeavesBits
  warpsPerCta := 8
  carveOrder := (List.range widths.length).reverse ++ (List.range widths.length).reverse
  schedule := [0]
  liveness := cudaTensor .int [BH, 2, widths.sum, (L + 31) / 32]
  activity := cudaTensor .byte [BH, widths.prod / mmaKQuantum]
  stateIn := state.map (cudaTensor .float)
  stateOut := state.map (cudaTensor .float)
  pageTable := if pageTable then some (cudaTensor .int [BH, widths.prod / mmaKQuantum]) else none

theorem exists_ok_of_ok {α : Type} {x : Except String α} {p : α → Prop} [DecidablePred p]
    (h : (match x with | .ok a => decide (p a) | .error _ => false) = true) :
    ∃ a, x = .ok a ∧ p a := by
  rcases x with _ | a
  · cases h
  · exact ⟨a, rfl, of_decide_eq_true h⟩

theorem prod_widthAt (ws : List ℕ) : ∏ l ∈ Finset.range ws.length, widthAt ws l = ws.prod := by
  induction ws with
  | nil => simp
  | cons w ws ih =>
    rw [List.length_cons, Finset.prod_range_succ', List.prod_cons, mul_comm, ← ih]
    rfl

theorem sum_widthAt (ws : List ℕ) : ∑ l ∈ Finset.range ws.length, widthAt ws l = ws.sum := by
  induction ws with
  | nil => simp
  | cons w ws ih =>
    rw [List.length_cons, Finset.sum_range_succ', List.sum_cons, add_comm, ← ih]
    rfl

/-- What an admitted call is known to meet. -/
structure CarryOperands.Admitted (a : CarryOperands) (c : CarryCall) : Prop where
  widths_ne : a.widths ≠ []
  lawful : ∀ w ∈ a.widths, LawfulWidth w
  dv_pos : 0 < a.dv
  dv_pow : ilog2Exact a.dv ≠ none
  state : a.stateChecks = .ok ()
  L_le : a.L ≤ 0x7FFFFFFF
  routing_lt : a.BH * a.L * a.wtot < 0x40000000
  readout_lt : a.L * a.dv < 0x20000000
  geom : ∃ order, deriveCarryGeom a.D (widthAt a.widths) (boxLeaves a.dv a.warpsPerCta) a.dv order
    a.warpsPerCta a.warpsPerCta = .ok c.g
  params : c = a.params c.g

theorem widthsCheck_ok {ws : List ℕ} {l : ℕ} {u : Unit} (h : widthsCheck l ws = .ok u) :
    ∀ w ∈ ws, LawfulWidth w := by
  induction ws generalizing l with
  | nil => simp
  | cons w ws ih =>
    simp only [widthsCheck, require_bind_ok] at h
    intro x hx
    rcases List.mem_cons.1 hx with rfl | hx
    · exact h.1
    · exact ih h.2 x hx

theorem refuseShape_ok {widths : List ℕ} {dv pageBits warps : ℕ} {u : Unit}
    (h : refuseShape widths dv pageBits warps = .ok u) :
    widths ≠ [] ∧ (∀ w ∈ widths, LawfulWidth w) ∧ 0 < dv ∧ ilog2Exact dv ≠ none := by
  simp only [refuseShape, bind_ok, require_ok] at h
  obtain ⟨_, -, _, ⟨hne, -⟩, v, hw, _, ⟨hdv, -, hpow⟩, -⟩ := h
  exact ⟨hne, widthsCheck_ok hw, hdv, hpow⟩

theorem deriveCarryCall_ok {a : CarryOperands} {c : CarryCall} (h : deriveCarryCall a = .ok c) :
    a.Admitted c := by
  simp only [deriveCarryCall, bind_ok, require_ok] at h
  obtain ⟨_, hshape, _, -, _, -, _, hstate, _, -, _, ⟨hL, hroute⟩, _, hread, order, -, h⟩ := h
  obtain ⟨hne, hlaw, hdv, hpow⟩ := refuseShape_ok hshape
  split at h
  · exact absurd h (by simp)
  · rename_i g hg
    obtain rfl : a.params g = c := by simpa using h
    exact ⟨hne, hlaw, hdv, hpow, hstate, hL, hroute, hread, ⟨order, hg⟩, rfl⟩

namespace CarryOperands.Admitted
variable {a : CarryOperands} {c : CarryCall} (h : a.Admitted c)
include h

theorem L_eq : c.L = a.L := by rw [h.params]; rfl

theorem BH_eq : c.BH = a.BH := by rw [h.params]; rfl

theorem pageTable_eq : c.pageTable = a.pageTable.map Tensor.dataPtr := by rw [h.params]; rfl

theorem sixteen_le_wtot : 16 ≤ a.wtot := by
  obtain ⟨w, hw⟩ := List.exists_mem_of_ne_nil _ h.widths_ne
  exact (h.lawful w hw).1.trans (List.single_le_sum (by simp) w hw)

/-- The packed rows fit in 26 bits. -/
theorem rows_lt : a.BH * a.L < 2 ^ 26 := by
  have h1 := h.routing_lt
  have h2 : a.BH * a.L * 16 ≤ a.BH * a.L * a.wtot := Nat.mul_le_mul_left _ h.sixteen_le_wtot
  omega

theorem wf : c.g.Wf ∧ c.g.D = a.D ∧ c.g.bc = boxLeaves a.dv a.warpsPerCta ∧
    c.g.width = widthAt a.widths := by
  obtain ⟨order, hg⟩ := h.geom
  exact deriveCarryGeom_wf hg

theorem leaves_eq : c.g.leaves = a.leaves := by
  obtain ⟨hwf, hD, -, hwidth⟩ := h.wf
  rw [hwf.leaves_eq, hD, hwidth, MixedRadix.size, CarryOperands.leaves, CarryOperands.D]
  exact prod_widthAt a.widths

theorem wtot_eq : c.g.wtot = a.wtot := by
  obtain ⟨order, hg⟩ := h.geom
  rw [(deriveCarryGeom_sides hg).1, CarryOperands.wtot, CarryOperands.D]
  exact sum_widthAt a.widths

/-- The value width is a power of two that leaves a warp a leaf. -/
theorem two_dv_dvd : 2 * a.dv ∣ 2 ^ 32 := by
  obtain ⟨order, hg⟩ := h.geom
  have hwarp := (deriveCarryGeom_sides hg).2.1
  obtain ⟨e, he⟩ := Option.ne_none_iff_exists'.1 h.dv_pow
  have hdv : a.dv = 2 ^ e := ilog2Exact_eq_some.1 he
  have hle : 2 ^ e ≤ 2 ^ 16 := by
    by_contra hlt
    have hzero : 65536 / 4 / 2 ^ e = 0 := Nat.div_eq_of_lt (by omega)
    rw [leavesPerWarp, regsPerSm, hdv, hzero] at hwarp
    simp at hwarp
  have hexp : e ≤ 16 := (Nat.pow_le_pow_iff_right (by norm_num)).1 hle
  rw [hdv, ← Nat.pow_succ']
  exact pow_dvd_pow 2 (by omega)

theorem pool_lt (hpaged : a.pageTable.isSome) {pool : Tensor}
    (hpool : a.stateIn = some pool ∨ a.stateOut = some pool) :
    pool.size 0 * (64 * (a.dv + 1)) < 2 ^ 32 := by
  obtain ⟨table, htable⟩ := Option.isSome_iff_exists.1 hpaged
  have hstate := h.state
  rw [CarryOperands.stateChecks, htable] at hstate
  simp only [bind_ok] at hstate
  obtain ⟨_, -, _, hin, hout⟩ := hstate
  have hcheck : ∃ name u, refusePool a.dv name pool = .ok u := by
    rcases hpool with hp | hp
    · rw [hp] at hin
      exact ⟨_, _, hin⟩
    · rw [hp] at hout
      exact ⟨_, _, hout⟩
  obtain ⟨name, u, hcheck⟩ := hcheck
  simp only [refusePool, bind_ok, require_ok] at hcheck
  obtain ⟨_, -, _, -, _, ⟨hlen, -, h1, h2⟩, hnumel⟩ := hcheck
  obtain ⟨x, y, z, hsizes⟩ := List.length_eq_three.1 hlen
  simp only [Tensor.size, Tensor.numel, hsizes, List.getD_cons_zero, List.getD_cons_succ,
    List.prod_cons, List.prod_nil, mul_one] at h1 h2 hnumel ⊢
  rw [h1, h2] at hnumel
  calc x * (64 * (a.dv + 1)) = x * (mmaKQuantum * (a.dv + 1)) * 4 := by
        rw [show mmaKQuantum = 16 from rfl]
        ring
    _ < 2 ^ 32 := by omega

end CarryOperands.Admitted

end Rola
