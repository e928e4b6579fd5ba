import Mathlib.Algebra.BigOperators.Group.Finset.Basic
import Mathlib.Algebra.BigOperators.Intervals
import Mathlib.Algebra.Ring.Defs

/-!
# A warp's matrix operands

The lane layouts of `ldmatrix.x4`, `ldmatrix.x4.trans` and `mma.m16n8k16`: a warp register is a word a lane, a word two
halves. The products are of the halves' values, and the sums are exact.
-/

namespace Warp

/-- A register of every lane's. -/
abbrev Reg := ℕ → BitVec 32

def half (h : ℕ) (x : BitVec 32) : BitVec 16 := x.extractLsb' (16 * h) 16

/-- Eight halves a row at sixteen bytes' address, in memory by halves; matrix `r`'s rows are those lanes
`8 * r .. 8 * r + 7` name, and a lane takes its column's pair. -/
def ldmatrixTrans (mem : ℕ → BitVec 16) (addr : ℕ → ℕ) (r : ℕ) : Reg := fun lane =>
  let at' (row : ℕ) := mem (addr (8 * r + row) / 2 + lane / 4)
  at' (2 * (lane % 4) + 1) ++ at' (2 * (lane % 4))

/-- `ldmatrix.x4`: a lane takes its pair of its row. -/
def ldmatrix (mem : ℕ → BitVec 16) (addr : ℕ → ℕ) (r : ℕ) : Reg := fun lane =>
  let at' (col : ℕ) := mem (addr (8 * r + lane / 4) / 2 + col)
  at' (2 * (lane % 4) + 1) ++ at' (2 * (lane % 4))

/-- The word another lane holds. -/
def shfl (x : Reg) (src : ℕ → ℕ) : Reg := fun lane => x (src lane)

section Mma

variable {K : Type*} [Semiring K]

/-- The A operand's entry `(m, k)` of its four registers. -/
def entryA (a : ℕ → Reg) (m k : ℕ) : BitVec 16 := half (k % 2) (a (m / 8 + 2 * (k / 8)) (4 * (m % 8) + k % 8 / 2))

/-- The B operand's entry `(k, n)` of its two. -/
def entryB (b : ℕ → Reg) (k n : ℕ) : BitVec 16 := half (k % 2) (b (k / 8) (4 * n + k % 8 / 2))

/-- The accumulator entry a lane's register `i` holds. -/
def rowOf (lane i : ℕ) : ℕ := lane / 4 + 8 * (i / 2)

def colOf (lane i : ℕ) : ℕ := 2 * (lane % 4) + i % 2

/-- `mma`: the accumulator's four registers, a row's products with a column added to each. -/
def mma (val : BitVec 16 → K) (c : ℕ → ℕ → K) (a b : ℕ → Reg) : ℕ → ℕ → K := fun lane i =>
  c lane i + ∑ k ∈ Finset.range 16, val (entryA a (rowOf lane i) k) * val (entryB b k (colOf lane i))

end Mma

@[simp] theorem half_zero_append (x y : BitVec 16) : half 0 (x ++ y) = y := BitVec.extractLsb'_append_eq_right

@[simp] theorem half_one_append (x y : BitVec 16) : half 1 (x ++ y) = x := BitVec.extractLsb'_append_eq_left

theorem half_append (x y : BitVec 16) {h : ℕ} (hh : h < 2) : half h (x ++ y) = if h = 0 then y else x := by
  rcases Nat.le_one_iff_eq_zero_or_eq_one.1 (Nat.le_of_lt_succ hh) with rfl | rfl
  · exact half_zero_append x y
  · exact half_one_append x y

/-- A half a lane takes: the element of its column in the row its pair begins or ends at. -/
theorem half_ldmatrixTrans (mem : ℕ → BitVec 16) (addr : ℕ → ℕ) (r lane : ℕ) {h : ℕ} (hh : h < 2) :
    half h (ldmatrixTrans mem addr r lane) = mem (addr (8 * r + (2 * (lane % 4) + h)) / 2 + lane / 4) := by
  unfold ldmatrixTrans
  rw [half_append _ _ hh]
  rcases Nat.le_one_iff_eq_zero_or_eq_one.1 (Nat.le_of_lt_succ hh) with rfl | rfl
  · rfl
  · rfl

theorem half_ldmatrix (mem : ℕ → BitVec 16) (addr : ℕ → ℕ) (r lane : ℕ) {h : ℕ} (hh : h < 2) :
    half h (ldmatrix mem addr r lane) = mem (addr (8 * r + lane / 4) / 2 + (2 * (lane % 4) + h)) := by
  unfold ldmatrix
  rw [half_append _ _ hh]
  rcases Nat.le_one_iff_eq_zero_or_eq_one.1 (Nat.le_of_lt_succ hh) with rfl | rfl
  · rfl
  · rfl

end Warp
