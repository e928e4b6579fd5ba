import Mathlib.Data.Fin.Tuple.Basic
import Mathlib.Algebra.BigOperators.Fin
import Mathlib.Tactic.Ring
import Mathlib.Tactic.Linarith

/-!
# The packed plane of a side

`rola/engine/facts/planes.py`, `_side_plane` and `pack_side`: a side's levels are the windows of one
plane when their dtype, storage, strides and offsets say so, and are copied into a fresh one
otherwise. A tensor is its storage, offset, strides and shape; its elements are bytes of one memory.
-/

namespace Rola.Planes

/-- The element types a level may come in. -/
inductive ElementType where
  | bfloat16 | float16 | float32 | float64
deriving DecidableEq, Repr

def ElementType.elementSize : ElementType → ℕ
  | .bfloat16 | .float16 => 2
  | .float32 => 4
  | .float64 => 8

structure UntypedStorage where
  dataPtr : ℕ
  nbytes : ℕ
deriving DecidableEq, Repr

abbrev Memory := ℕ → BitVec 8

/-- A four-dimensional strided view; a level's dimensions are batch, tokens, heads and width. -/
structure View where
  storage : UntypedStorage
  dtype : ElementType
  shape : Fin 4 → ℕ
  stride : Fin 4 → ℕ
  storageOffset : ℕ

namespace View

def width (v : View) : ℕ := v.shape 3

/-- The element of the storage an index names. -/
def position (v : View) (index : Fin 4 → ℕ) : ℕ := v.storageOffset + ∑ i, index i * v.stride i

def bytes (v : View) (mem : Memory) (index : Fin 4 → ℕ) : List (BitVec 8) :=
  (List.range v.dtype.elementSize).map fun k =>
    mem (v.storage.dataPtr + v.position index * v.dtype.elementSize + k)

/-- The bytes a view of these sizes and strides spans, as the framework computes them. -/
def storageNbytes (dtype : ElementType) (shape stride : Fin 4 → ℕ) (storageOffset : ℕ) : ℕ :=
  if ∃ i, shape i = 0 then 0
  else (storageOffset + (1 + ∑ i, (shape i - 1) * stride i)) * dtype.elementSize

/-- `as_strided`: another view of the same storage, refused where it would leave it. -/
def asStrided (v : View) (shape stride : Fin 4 → ℕ) (storageOffset : ℕ) : Except String View :=
  if v.storage.nbytes < storageNbytes v.dtype shape stride storageOffset then
    .error "as_strided: out of bounds for storage"
  else .ok { v with shape := shape, stride := stride, storageOffset := storageOffset }

end View

/-- A bf16 word from an element's bytes: its own where the element is one, else what the conversion
makes of it. -/
def toBfloat16 (convert : ElementType → List (BitVec 8) → BitVec 16) (dtype : ElementType)
    (bytes : List (BitVec 8)) : BitVec 16 :=
  if dtype = .bfloat16 then bytes.getD 1 0 ++ bytes.getD 0 0 else convert dtype bytes

def View.word (v : View) (mem : Memory) (convert : ElementType → List (BitVec 8) → BitVec 16)
    (index : Fin 4 → ℕ) : BitVec 16 :=
  toBfloat16 convert v.dtype (v.bytes mem index)

/-! ### `_side_plane` -/

/-- The checks of `_side_plane`'s loop. -/
def areWindows (base : View) (want : Fin 4 → ℕ) : List View → ℕ → Bool
  | [], _ => true
  | level :: levels, offset =>
    if level.dtype ≠ .bfloat16 ∨ level.storage.dataPtr ≠ base.storage.dataPtr ∨ level.stride ≠ want ∨
        level.storageOffset ≠ base.storageOffset + offset then false
    else areWindows base want levels (offset + level.width)

def sidePlane (base : View) (rest : List View) : Except String (Option View) :=
  let batch := base.shape 0
  let tokens := base.shape 1
  let heads := base.shape 2
  let total := ((base :: rest).map View.width).sum
  let want := ![heads * tokens * total, total, tokens * total, 1]
  if !areWindows base want (base :: rest) 0 then .ok none
  else
    let span := base.storageOffset + batch * heads * tokens * total
    if base.storage.nbytes < span * base.dtype.elementSize then .ok none
    else (base.asStrided ![batch, heads, tokens, total]
      ![heads * tokens * total, tokens * total, total, 1] base.storageOffset).map some

/-! ### `pack_side` -/

/-- The words of a `[B, H, T, sumW]` plane. -/
abbrev Plane := ℕ → ℕ → ℕ → ℕ → BitVec 16

section Pack

variable (mem : Memory) (convert : ElementType → List (BitVec 8) → BitVec 16)

/-- `packed[:, :, :, offset:offset + width].copy_(level.permute(0, 2, 1, 3))`: a dimension of one is
broadcast, any other must be the destination's. -/
def copyLevel (batch tokens heads : ℕ) (level : View) (offset : ℕ) (packed : Plane) :
    Except String Plane :=
  if (level.shape 0 = batch ∨ level.shape 0 = 1) ∧ (level.shape 1 = tokens ∨ level.shape 1 = 1) ∧
      (level.shape 2 = heads ∨ level.shape 2 = 1) then
    .ok fun b h t c =>
      if offset ≤ c ∧ c < offset + level.width then
        level.word mem convert fun i => if level.shape i = 1 then 0 else ![b, t, h, c - offset] i
      else packed b h t c
  else .error "copy_: the shapes do not broadcast"

def copyLevels (batch tokens heads : ℕ) : List View → ℕ → Plane → Except String Plane
  | [], _, packed => .ok packed
  | level :: levels, offset, packed => do
    copyLevels batch tokens heads levels (offset + level.width)
      (← copyLevel mem convert batch tokens heads level offset packed)

/-- The copy both `pack_side`s make, into a plane of arbitrary words. -/
def packedCopy (empty : Plane) (base : View) (rest : List View) : Except String Plane :=
  copyLevels mem convert (base.shape 0) (base.shape 1) (base.shape 2) (base :: rest) 0 empty

def packSide (empty : Plane) (base : View) (rest : List View) : Except String Plane := do
  match ← sidePlane base rest with
  | some plane => pure fun b h t c => plane.word mem convert ![b, h, t, c]
  | none => packedCopy mem convert empty base rest

/-- `pack_side` of `rola/ops/carry.py`: always the copy, its batch and heads merged. -/
def packSideMerged (empty : Plane) (base : View) (rest : List View) :
    Except String (ℕ → ℕ → ℕ → BitVec 16) := do
  let out ← packedCopy mem convert empty base rest
  if base.shape 0 * base.shape 2 * base.shape 1 = 0 then
    throw "reshape: the unspecified dimension is ambiguous"
  pure fun bh t c => out (bh / base.shape 2) (bh % base.shape 2) t c

end Pack

/-! ### The windows of a plane -/

/-- The first column of a level. -/
def colBase (levels : List View) (l : ℕ) : ℕ := ((levels.take l).map View.width).sum

@[simp] theorem colBase_zero (levels : List View) : colBase levels 0 = 0 := by simp [colBase]

@[simp] theorem colBase_succ (level : View) (levels : List View) (l : ℕ) :
    colBase (level :: levels) (l + 1) = level.width + colBase levels l := by
  simp [colBase]

/-- Every column lies in a level. -/
theorem exists_level (levels : List View) {col : ℕ} (hcol : col < (levels.map View.width).sum) :
    ∃ l, ∃ hl : l < levels.length, colBase levels l ≤ col ∧ col < colBase levels l + levels[l].width := by
  induction levels generalizing col with
  | nil => simp at hcol
  | cons level levels ih =>
    rcases lt_or_ge col level.width with h | h
    · exact ⟨0, by simp, by simp, by simpa using h⟩
    · simp only [List.map_cons, List.sum_cons] at hcol
      obtain ⟨l, hl, hlo, hhi⟩ := @ih (col - level.width) (by omega)
      refine ⟨l + 1, by simpa using hl, ?_, ?_⟩
      · simp only [colBase_succ]
        omega
      · simp only [colBase_succ, List.getElem_cons_succ]
        omega

theorem areWindows_getElem {base : View} {want : Fin 4 → ℕ} {levels : List View} {offset : ℕ}
    (h : areWindows base want levels offset = true) {l : ℕ} (hl : l < levels.length) :
    levels[l].dtype = .bfloat16 ∧ levels[l].storage.dataPtr = base.storage.dataPtr ∧
      levels[l].stride = want ∧ levels[l].storageOffset = base.storageOffset + (offset + colBase levels l) := by
  induction levels generalizing offset l with
  | nil => simp at hl
  | cons level levels ih =>
    unfold areWindows at h
    split at h
    · simp at h
    · rename_i hlevel
      push Not at hlevel
      cases l with
      | zero => simpa using hlevel
      | succ l =>
        obtain ⟨hdtype, hptr, hstride, hoffset⟩ := ih h (by simpa using hl)
        refine ⟨hdtype, hptr, hstride, ?_⟩
        simp only [List.getElem_cons_succ, colBase_succ]
        omega

/-- The plane's last element is the last byte of the span that was checked. -/
theorem storageNbytes_plane (dtype : ElementType) (batch heads tokens total storageOffset : ℕ) :
    View.storageNbytes dtype ![batch, heads, tokens, total]
      ![heads * tokens * total, tokens * total, total, 1] storageOffset ≤
      (storageOffset + batch * heads * tokens * total) * dtype.elementSize := by
  unfold View.storageNbytes
  split
  · exact Nat.zero_le _
  · rename_i hnonempty
    push Not at hnonempty
    obtain ⟨b, rfl⟩ := Nat.exists_eq_succ_of_ne_zero (hnonempty 0)
    obtain ⟨h, rfl⟩ := Nat.exists_eq_succ_of_ne_zero (hnonempty 1)
    obtain ⟨t, rfl⟩ := Nat.exists_eq_succ_of_ne_zero (hnonempty 2)
    obtain ⟨w, rfl⟩ := Nat.exists_eq_succ_of_ne_zero (hnonempty 3)
    refine Nat.mul_le_mul_right _ (Nat.add_le_add_left (le_of_eq ?_) _)
    simp [Fin.sum_univ_four]
    ring

/-- The view of the whole plane at the first level's offset. -/
def planeView (base : View) (total : ℕ) : View :=
  { base with
    shape := ![base.shape 0, base.shape 2, base.shape 1, total]
    stride := ![base.shape 2 * base.shape 1 * total, base.shape 1 * total, total, 1] }

theorem sidePlane_cases {base : View} {rest : List View} {total : ℕ}
    (htotal : ((base :: rest).map View.width).sum = total) :
    sidePlane base rest = .ok none ∨ sidePlane base rest = .ok (some (planeView base total)) ∧
      areWindows base ![base.shape 2 * base.shape 1 * total, total, base.shape 1 * total, 1]
        (base :: rest) 0 = true ∧
      (base.storageOffset + base.shape 0 * base.shape 2 * base.shape 1 * total) *
        base.dtype.elementSize ≤ base.storage.nbytes := by
  unfold sidePlane
  rw [htotal]
  dsimp only
  split
  · exact .inl rfl
  · rename_i hwindows
    split
    · exact .inl rfl
    · rename_i hspan
      have hfit := storageNbytes_plane base.dtype (base.shape 0) (base.shape 2) (base.shape 1) total
        base.storageOffset
      refine .inr ⟨?_, by simpa using hwindows, by omega⟩
      rw [View.asStrided, if_neg (by omega)]
      rfl

variable {mem : Memory} {convert : ElementType → List (BitVec 8) → BitVec 16}

/-- A column of the plane is its level's element at the same address. -/
theorem planeView_word {base : View} {rest : List View} {total : ℕ}
    (h : areWindows base ![base.shape 2 * base.shape 1 * total, total, base.shape 1 * total, 1]
      (base :: rest) 0 = true) {l : ℕ} (hl : l < (base :: rest).length) (b hd t c : ℕ) :
    (planeView base total).word mem convert ![b, hd, t, colBase (base :: rest) l + c] =
      (base :: rest)[l].word mem convert ![b, t, hd, c] := by
  obtain ⟨hdtype, hptr, hstride, hoffset⟩ := areWindows_getElem h hl
  have hbase : base.dtype = .bfloat16 := (areWindows_getElem h (l := 0) (by simp)).1
  have hposition : (planeView base total).position ![b, hd, t, colBase (base :: rest) l + c] =
      (base :: rest)[l].position ![b, t, hd, c] := by
    simp only [View.position, hstride, hoffset, planeView, Fin.sum_univ_four]
    simp
    ring
  unfold View.word View.bytes
  rw [hposition, hdtype, hptr]
  simp only [planeView, hbase]

/-! ### The copy -/

theorem copyLevels_spec {batch tokens heads : ℕ} {levels : List View}
    (hlead : ∀ level ∈ levels, level.shape 0 = batch ∧ level.shape 1 = tokens ∧ level.shape 2 = heads)
    (offset : ℕ) (packed : Plane) :
    ∃ out, copyLevels mem convert batch tokens heads levels offset packed = .ok out ∧
      (∀ b h t c, c < offset → out b h t c = packed b h t c) ∧
      ∀ l, ∀ hl : l < levels.length, ∀ b h t c, b < batch → h < heads → t < tokens →
        c < levels[l].width → out b h t (offset + colBase levels l + c) =
          levels[l].word mem convert ![b, t, h, c] := by
  induction levels generalizing offset packed with
  | nil => exact ⟨packed, rfl, fun _ _ _ _ _ => rfl, by simp⟩
  | cons level levels ih =>
    obtain ⟨h0, h1, h2⟩ := hlead level List.mem_cons_self
    obtain ⟨out, hout, hbelow, hcols⟩ := ih (fun l hl => hlead l (List.mem_cons_of_mem _ hl))
      (offset + level.width) (fun b h t c => if offset ≤ c ∧ c < offset + level.width then
        level.word mem convert fun i => if level.shape i = 1 then 0 else ![b, t, h, c - offset] i
      else packed b h t c)
    refine ⟨out, ?_, fun b h t c hc => ?_, fun l hl b h t c hb hh ht hc => ?_⟩
    · rw [copyLevels, copyLevel, if_pos ⟨.inl h0, .inl h1, .inl h2⟩]
      exact hout
    · rw [hbelow b h t c (by omega), if_neg (by omega)]
    · cases l with
      | zero =>
        simp only [List.getElem_cons_zero] at hc ⊢
        rw [colBase_zero, hbelow _ _ _ _ (by omega), if_pos (by omega)]
        congr 1
        funext i
        -- an index inside a broadcast dimension is its only one
        have hin : ∀ i, ![b, t, h, c] i < level.shape i := by
          simp [Fin.forall_fin_succ, h0, h1, h2, hb, ht, hh]
          exact hc
        rw [show offset + 0 + c - offset = c by omega]
        split
        · have := hin i
          omega
        · rfl
      | succ l =>
        have := hcols l (by simpa using hl) b h t c hb hh ht (by simpa using hc)
        simpa [Nat.add_assoc] using this

/-! ### The two paths -/

theorem mul_add_lt_mul {a A b B : ℕ} (ha : a < A) (hb : b < B) : a * B + b < A * B := by
  calc a * B + b < a * B + B := by omega
    _ = (a + 1) * B := by ring
    _ ≤ A * B := Nat.mul_le_mul_right B ha

/-- An index of the plane lies inside the span. -/
theorem planeView_position_lt {base : View} {total b h t c : ℕ} (hb : b < base.shape 0)
    (hh : h < base.shape 2) (ht : t < base.shape 1) (hc : c < total) :
    (planeView base total).position ![b, h, t, c] <
      base.storageOffset + base.shape 0 * base.shape 2 * base.shape 1 * total := by
  have hrow := mul_add_lt_mul (mul_add_lt_mul (mul_add_lt_mul hb hh) ht) hc
  simp only [View.position, planeView, Fin.sum_univ_four]
  simp
  linarith

/-- Whichever path `pack_side` takes, each column holds its level's element, and a view it returns
stays inside its storage. -/
theorem packSide_exact (mem : Memory) (convert : ElementType → List (BitVec 8) → BitVec 16)
    (empty : Plane) {base : View} {rest : List View}
    (hlead : ∀ level ∈ rest, level.shape 0 = base.shape 0 ∧ level.shape 1 = base.shape 1 ∧
      level.shape 2 = base.shape 2) :
    ∃ plane packed copied, sidePlane base rest = .ok plane ∧
      packSide mem convert empty base rest = .ok packed ∧
      packedCopy mem convert empty base rest = .ok copied ∧
      ∀ b h t col, b < base.shape 0 → h < base.shape 2 → t < base.shape 1 →
        col < ((base :: rest).map View.width).sum →
        ∃ l, ∃ hl : l < (base :: rest).length, colBase (base :: rest) l ≤ col ∧
          col < colBase (base :: rest) l + (base :: rest)[l].width ∧
          let element := (base :: rest)[l].word mem convert ![b, t, h, col - colBase (base :: rest) l]
          packed b h t col = element ∧ copied b h t col = element ∧
          (∀ view ∈ plane, view.word mem convert ![b, h, t, col] = element ∧
            (view.position ![b, h, t, col] + 1) * view.dtype.elementSize ≤ view.storage.nbytes) ∧
          ∃ merged, packSideMerged mem convert empty base rest = .ok merged ∧
            merged (b * base.shape 2 + h) t col = element := by
  obtain ⟨copied, hcopied, -, hcols⟩ := @copyLevels_spec mem convert (base.shape 0)
    (base.shape 1) (base.shape 2) (base :: rest) (by simpa using hlead) 0 empty
  have hmerged : ∀ b h t, b < base.shape 0 → h < base.shape 2 → t < base.shape 1 → ∀ col,
      ∃ merged, packSideMerged mem convert empty base rest = .ok merged ∧
        merged (b * base.shape 2 + h) t col = copied b h t col := by
    intro b h t hb hh ht col
    have hpos : base.shape 0 * base.shape 2 * base.shape 1 ≠ 0 :=
      Nat.mul_ne_zero (Nat.mul_ne_zero (by omega) (by omega)) (by omega)
    refine ⟨fun bh t c => copied (bh / base.shape 2) (bh % base.shape 2) t c, ?_, ?_⟩
    · simp [packSideMerged, packedCopy, hcopied, hpos, bind, Except.bind, pure, Except.pure]
    · simp only
      rw [Nat.mul_comm, Nat.mul_add_div (by omega), Nat.div_eq_of_lt hh, Nat.mul_add_mod,
        Nat.mod_eq_of_lt hh, Nat.add_zero]
  have hcell : ∀ b h t col, b < base.shape 0 → h < base.shape 2 → t < base.shape 1 →
      col < ((base :: rest).map View.width).sum →
      ∃ l, ∃ hl : l < (base :: rest).length, ∃ c, col = colBase (base :: rest) l + c ∧
        c < (base :: rest)[l].width ∧ copied b h t col = (base :: rest)[l].word mem convert ![b, t, h, c] := by
    intro b h t col hb hh ht hcol
    obtain ⟨l, hl, hlo, hhi⟩ := exists_level _ hcol
    obtain ⟨c, rfl⟩ := Nat.exists_eq_add_of_le hlo
    refine ⟨l, hl, c, rfl, by omega, ?_⟩
    simpa using hcols l hl b h t c hb hh ht (by omega)
  rcases @sidePlane_cases base rest _ rfl with hnone | ⟨hsome, hwindows, hspan⟩
  · refine ⟨none, copied, copied, hnone, ?_, hcopied, fun b h t col hb hh ht hcol => ?_⟩
    · rw [packSide, hnone]
      exact hcopied
    · obtain ⟨l, hl, c, rfl, hc, hcopy⟩ := hcell b h t col hb hh ht hcol
      obtain ⟨merged, hmerge, hword⟩ := hmerged b h t hb hh ht (colBase (base :: rest) l + c)
      refine ⟨l, hl, by omega, by omega, ?_⟩
      rw [Nat.add_sub_cancel_left]
      exact ⟨hcopy, hcopy, by simp, merged, hmerge, hword.trans hcopy⟩
  · refine ⟨_, fun b h t c => (planeView base ((base :: rest).map View.width).sum).word mem convert
      ![b, h, t, c], copied, hsome, ?_, hcopied, fun b h t col hb hh ht hcol => ?_⟩
    · rw [packSide, hsome]
      rfl
    · obtain ⟨l, hl, c, rfl, hc, hcopy⟩ := hcell b h t col hb hh ht hcol
      obtain ⟨merged, hmerge, hword⟩ := hmerged b h t hb hh ht (colBase (base :: rest) l + c)
      have hview := @planeView_word mem convert _ _ _ hwindows _ hl b h t c
      refine ⟨l, hl, by omega, by omega, ?_⟩
      rw [Nat.add_sub_cancel_left]
      refine ⟨hview, hcopy, ?_, merged, hmerge, hword.trans hcopy⟩
      rintro _ ⟨⟩
      exact ⟨hview, (Nat.mul_le_mul_right _ (planeView_position_lt hb hh ht hcol)).trans hspan⟩

/-- Two levels of one plane, of one batch, two tokens and one head. -/
def twoLevels : View × View :=
  let storage : UntypedStorage := ⟨4096, 64⟩
  (⟨storage, .bfloat16, ![1, 2, 1, 3], ![10, 5, 10, 1], 4⟩,
    ⟨storage, .bfloat16, ![1, 2, 1, 2], ![10, 5, 10, 1], 7⟩)

theorem packSide_exact_two : (sidePlane twoLevels.1 [twoLevels.2]).map Option.isSome = .ok true ∧
    ∃ plane, sidePlane twoLevels.1 [twoLevels.2] = .ok plane := by
  obtain ⟨plane, -, -, hplane, -⟩ := @packSide_exact (fun _ => 0) (fun _ _ => 0) (fun _ _ _ _ => 0)
    twoLevels.1 [twoLevels.2] (by decide)
  exact ⟨by decide, plane, hplane⟩

end Rola.Planes
