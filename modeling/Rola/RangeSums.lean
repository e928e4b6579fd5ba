import Mathlib.Algebra.BigOperators.Intervals

/-!
# Sums over ranges

Loops that accumulate are sums over their range, and nested loops over blocks are one sum over what the
blocks cover.
-/

namespace Rola
open Finset

variable {M : Type*} [AddCommMonoid M]

theorem sum_blocks (f : ℕ → M) (m n : ℕ) : ∑ x ∈ range (m * n), f x = ∑ a ∈ range m, ∑ b ∈ range n, f (a * n + b) := by
  induction m with
  | zero => simp
  | succ m ih => rw [Nat.succ_mul, sum_range_add, ih, sum_range_succ]

/-- A lane's items in order are a striped row's columns, once each. -/
theorem sum_striped (f : ℕ → M) (LW IPT : ℕ) :
    ∑ lane ∈ range LW, ∑ i ∈ range IPT, f (lane + i * LW) = ∑ col ∈ range (LW * IPT), f col := by
  rw [sum_comm, Nat.mul_comm, sum_blocks]
  exact sum_congr rfl fun i _ => sum_congr rfl fun lane _ => by rw [Nat.add_comm]

theorem foldl_add (f : ℕ → M) (n : ℕ) (m : M) : (List.range n).foldl (fun s i => s + f i) m = m + ∑ i ∈ range n, f i := by
  induction n with
  | zero => simp
  | succ n ih => rw [List.range_succ, List.foldl_append, ih, sum_range_succ, ← add_assoc]; rfl

theorem sum_map_range (f : ℕ → M) (n : ℕ) : ((List.range n).map f).sum = ∑ i ∈ range n, f i := by
  induction n with
  | zero => simp
  | succ n ih => rw [List.range_succ, List.map_append, List.sum_append, ih, sum_range_succ]; simp

end Rola
