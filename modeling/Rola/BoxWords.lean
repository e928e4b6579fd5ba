import Rola.CarveShapes
import Rola.MapBijections
import Rola.RankedBits

/-!
# The head's box words

`stage_box_words` and `box_words` of `csrc/rola/src/carry/carry_kernel.cuh`, the level lists of
`csrc/rola/src/carry/layout.cuh`, and the variants `carry_kernel` runs. A level is inner, outer or
straddling by where its field falls against a box's four position bits.
-/

namespace Rola

open RankedRadix

variable {D bc T : ℕ} {srank rrank wrank : ℕ → ℕ} {words : ℕ → BitVec 32} {t : ℕ}

/-! ### The layout's level lists -/

/-- `span_base`: a level's first digit row among the box words. -/
def spanBase (D bc l : ℕ) : ℕ := ∑ i ∈ Finset.range l, ownerSpan D bc i

/-- `span_total`. -/
def spanTotal (D bc : ℕ) : ℕ := spanBase D bc D

structure InnerRun where
  row : ℕ
  span : ℕ

structure OuterRun where
  row : ℕ
  bshift : ℕ
  mask : ℕ

/-- The fields of `SideLayout` the box words read. -/
structure BoxLayout extends SideLayout where
  straddle : Option ℕ
  cbits : ℕ
  sshift : ℕ
  srow : ℕ
  singleInner : Option ℕ
  singleOuter : Option ℕ
  innerRow : ℕ
  outerRow : ℕ
  inners : List InnerRun
  outers : List OuterRun

/-- `only`: the one level of a set. -/
def onlyLevel : List ℕ → Option ℕ
  | [l] => some l
  | _ => none

def SideLayout.isInner (L : SideLayout) (l : ℕ) : Bool := L.shift l + L.bits l ≤ atomLeavesBits

def SideLayout.isOuter (L : SideLayout) (l : ℕ) : Bool := !L.isInner l && decide (atomLeavesBits ≤ L.shift l)

def makeBoxLayout (D bc : ℕ) (srank rrank : ℕ → ℕ) : BoxLayout :=
  let L := makeSideLayout D bc srank rrank
  let inner := (List.range D).filter L.isInner
  let outer := (List.range D).filter L.isOuter
  -- the last level that is neither
  let straddle := ((List.range D).filter fun l => !L.isInner l && !L.isOuter l).getLast?
  let singleInner := onlyLevel inner
  let singleOuter := if straddle = none then onlyLevel outer else none
  { L with
    straddle := straddle
    cbits := straddle.elim 0 fun l => L.shift l + L.bits l - atomLeavesBits
    sshift := straddle.elim 0 L.shift
    srow := straddle.elim 0 (spanBase D bc)
    singleInner := singleInner
    singleOuter := singleOuter
    innerRow := singleInner.elim 0 (spanBase D bc)
    outerRow := singleOuter.elim 0 (spanBase D bc)
    inners := inner.map fun l => ⟨spanBase D bc l, 1 <<< L.bits l⟩
    outers := outer.map fun l => ⟨spanBase D bc l, L.shift l - atomLeavesBits, L.dmask l⟩ }

/-! ### The words -/

/-- `stage_box_words`: the table row a staged digit row is copied from. -/
def stagedRow (D bc : ℕ) (abase : ℕ → ℕ) (r : ℕ) : ℕ :=
  (List.range D).foldl (fun row l =>
    if spanBase D bc l ≤ r ∧ r < spanBase D bc l + ownerSpan D bc l then abase l + r - spanBase D bc l else row) 0

/-- The first `n` of a run's words, of at most `cap`, or-ed. -/
def orDigits (words : ℕ → BitVec 32) (row n cap : ℕ) : BitVec 32 :=
  (List.range cap).foldl (fun a d => if d < n then a ||| words (row + d) else a) 0

/-- A sixteen-byte load's words or-ed. -/
def orQuad (words : ℕ → BitVec 32) (row : ℕ) : BitVec 32 :=
  words row ||| words (row + 1) ||| words (row + 2) ||| words (row + 3)

/-- What a stream is compiled for. -/
structure Variant where
  composed : Bool
  straddle : Bool
  deriving DecidableEq

/-- `box_words`: a round's words by box, over what `w` held. -/
def boxWords (bc : ℕ) (v : Variant) (words : ℕ → BitVec 32) (L : BoxLayout) (w : ℕ → BitVec 32) : ℕ → BitVec 32 :=
  if !v.composed && !v.straddle then
    let any := (List.range (mmaKQuantum / 4)).foldl (fun any i => any ||| orQuad words (L.innerRow + 4 * i)) 0
    -- the boxes are written four at a time
    fun b => if b / 4 < bc / mmaKQuantum / 4 then any &&& words (L.outerRow + b) else w b
  else
    let any := L.inners.foldl (fun any run => any &&& orDigits words run.row run.span mmaKQuantum) (BitVec.allOnes 32)
    fun b =>
      let outer := L.outers.foldl (fun w run => w &&& words (run.row + ((b >>> run.bshift) &&& run.mask))) any
      if v.straddle then
        let perClass := 1 <<< (atomLeavesBits - L.sshift)
        let row := L.srow + ((b &&& ((1 <<< L.cbits) - 1)) <<< (atomLeavesBits - L.sshift))
        outer &&& orDigits words row perClass (mmaKQuantum / 2)
      else outer

/-! ### Their bits -/

theorem getLsbD_foldl_and {α : Type*} (l : List α) (f : α → BitVec 32) (a : BitVec 32) :
    (l.foldl (fun a x => a &&& f x) a).getLsbD t = true ↔ a.getLsbD t = true ∧ ∀ x ∈ l, (f x).getLsbD t = true := by
  induction l generalizing a with
  | nil => simp
  | cons x l ih => simp [ih, and_assoc]

theorem getLsbD_orDigits (row n cap : ℕ) : (orDigits words row n cap).getLsbD t = true ↔
    ∃ d < cap, d < n ∧ (words (row + d)).getLsbD t = true := by
  induction cap with
  | zero => simp [orDigits]
  | succ cap ih =>
    have hstep : orDigits words row n (cap + 1) =
        if cap < n then orDigits words row n cap ||| words (row + cap) else orDigits words row n cap := by
      unfold orDigits
      rw [List.range_succ, List.foldl_append, List.foldl_cons, List.foldl_nil]
    rw [hstep]
    simp only [Nat.lt_succ_iff_lt_or_eq, or_and_right, exists_or, exists_eq_left]
    split
    · rename_i hlt
      rw [BitVec.getLsbD_or, Bool.or_eq_true, ih]
      exact or_congr_right (and_iff_right hlt).symm
    · rename_i hge
      rw [ih, or_iff_left fun h => hge h.1]

theorem getLsbD_any (row : ℕ) :
    ((List.range (mmaKQuantum / 4)).foldl (fun any i => any ||| orQuad words (row + 4 * i)) 0).getLsbD t = true ↔
      ∃ d < 16, (words (row + d)).getLsbD t = true := by
  have key : ∀ n, ((List.range n).foldl (fun any i => any ||| orQuad words (row + 4 * i)) 0).getLsbD t = true ↔
      ∃ d < 4 * n, (words (row + d)).getLsbD t = true := by
    intro n
    induction n with
    | zero => simp
    | succ n ih =>
      rw [List.range_succ, List.foldl_append, List.foldl_cons, List.foldl_nil, BitVec.getLsbD_or, Bool.or_eq_true, ih]
      unfold orQuad
      simp only [BitVec.getLsbD_or, Bool.or_eq_true, Nat.mul_succ, Nat.lt_succ_iff_lt_or_eq, or_and_right, exists_or,
        exists_eq_left, Nat.add_assoc, or_assoc]
  exact key 4

section Bits
variable {L : BoxLayout} {v : Variant} {w : ℕ → BitVec 32} {b : ℕ}

theorem boxWords_plain (hv : v = ⟨false, false⟩) (hb : b / 4 < bc / mmaKQuantum / 4) :
    (boxWords bc v words L w b).getLsbD t = true ↔
      (∃ d < 16, (words (L.innerRow + d)).getLsbD t = true) ∧ (words (L.outerRow + b)).getLsbD t = true := by
  subst hv
  show (if b / 4 < bc / mmaKQuantum / 4 then _ else w b).getLsbD t = true ↔ _
  rw [if_pos hb, BitVec.getLsbD_and, Bool.and_eq_true, getLsbD_any]

theorem boxWords_listed (hv : v ≠ ⟨false, false⟩) (ht : t < 32) :
    (boxWords bc v words L w b).getLsbD t = true ↔
      (∀ run ∈ L.inners, ∃ d < 16, d < run.span ∧ (words (run.row + d)).getLsbD t = true) ∧
      (∀ run ∈ L.outers, (words (run.row + ((b >>> run.bshift) &&& run.mask))).getLsbD t = true) ∧
      (v.straddle = true → ∃ d < 8, d < 1 <<< (atomLeavesBits - L.sshift) ∧
        (words (L.srow + ((b &&& ((1 <<< L.cbits) - 1)) <<< (atomLeavesBits - L.sshift)) + d)).getLsbD t = true) := by
  obtain ⟨composed, straddle⟩ := v
  have hplain : (!composed && !straddle) = false := by
    rcases composed with _ | _ <;> rcases straddle with _ | _ <;> simp at hv ⊢
  unfold boxWords
  simp only [hplain, if_neg Bool.false_ne_true]
  have hlist : (L.outers.foldl (fun w run => w &&& words (run.row + ((b >>> run.bshift) &&& run.mask)))
      (L.inners.foldl (fun any run => any &&& orDigits words run.row run.span mmaKQuantum) (BitVec.allOnes 32))).getLsbD t = true ↔
      (∀ run ∈ L.inners, ∃ d < 16, d < run.span ∧ (words (run.row + d)).getLsbD t = true) ∧
      ∀ run ∈ L.outers, (words (run.row + ((b >>> run.bshift) &&& run.mask))).getLsbD t = true := by
    rw [getLsbD_foldl_and, getLsbD_foldl_and, BitVec.getLsbD_allOnes, decide_eq_true ht, and_iff_right rfl]
    simp only [getLsbD_orDigits]
    rfl
  rcases straddle with _ | _
  · simp only [Bool.false_eq_true, if_false, hlist, false_implies, and_true]
  · simp only [if_true, BitVec.getLsbD_and, Bool.and_eq_true, hlist, getLsbD_orDigits, and_assoc, true_implies]
    rfl

end Bits

/-! ### The variants -/

/-- The variant a layout asks for. -/
def BoxLayout.variant (L : BoxLayout) : Variant :=
  ⟨L.singleInner.isNone || L.singleOuter.isNone, L.straddle.isSome⟩

/-- `kMayStraddle`. -/
def mayStraddle (D bc : ℕ) : Bool := (List.range D).any fun l => ownerSpanBits D bc l < atomLeavesBits

/-- `kMayCompose`. -/
def mayCompose (D bc : ℕ) : Bool := decide (2 < D) || mayStraddle D bc

/-- `carry_kernel`'s choice of the read and write streams' variants. -/
def streamVariants (D bc : ℕ) (lr lw : BoxLayout) : Variant × Variant :=
  let rc := lr.singleInner.isNone || lr.singleOuter.isNone
  let rs := lr.straddle.isSome
  let wc := lw.singleInner.isNone || lw.singleOuter.isNone
  let ws := lw.straddle.isSome
  if !mayCompose D bc then (⟨false, false⟩, ⟨false, false⟩)
  else if !rc && !wc then (⟨false, false⟩, ⟨false, false⟩)
  else if !mayStraddle D bc then
    if rc && wc then (⟨true, false⟩, ⟨true, false⟩)
    else if rc then (⟨true, false⟩, ⟨false, false⟩)
    else (⟨false, false⟩, ⟨true, false⟩)
  else if rs && ws then (⟨true, true⟩, ⟨true, true⟩)
  else if rs then (⟨true, true⟩, ⟨wc, false⟩)
  else if ws then (⟨wc, false⟩, ⟨true, true⟩)
  else (⟨rc, false⟩, ⟨wc, false⟩)

/-- The asserts of `BoxPlan` on its depth and box. -/
structure BoxPlan (D bc : ℕ) : Prop where
  depth : 2 ≤ D ∧ D ≤ geomMaxLevels
  pages : 16 ∣ bc
  boxes : 1 ≤ bc / mmaKQuantum ∧ bc / mmaKQuantum ≤ 16
  rows : 4 ∣ spanTotal D bc
  innermost : atomLeavesBits ≤ ownerSpanBits D bc (D - 1)

end Rola
