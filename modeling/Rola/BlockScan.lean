import Rola.Strided
import Mathlib.Algebra.BigOperators.Intervals

/-!
# Counting and ranking by a block of threads

A block shares out the places `0, …, n - 1` by strides. Its total is the count of the wanted places; pass
by pass, each wanted place is ranked by the wanted places before it, whether or not the block divides `n`.
-/

namespace BlockScan

open Finset

variable {B n base running tid first step : ℕ} {want : ℕ → Bool}

/-- `for (i = first; i < n; i += step)`. -/
def strided (step n first : ℕ) : List ℕ :=
  if first < n ∧ 0 < step then first :: strided step n (first + step) else []
termination_by n - first

theorem strided_runs (hstep : 0 < step) : Strided.Runs step n first (strided step n first) := by
  induction first using strided.induct step n with
  | case1 x hx ih =>
    rw [strided, if_pos hx]
    refine ⟨List.nodup_cons.2 ⟨fun hmem => ?_, ih.nodup⟩, fun y => ⟨fun hy => ?_, fun hy => ?_⟩⟩
    · have := (ih.mem x).1 hmem
      omega
    · rcases List.mem_cons.1 hy with rfl | hy
      · exact ⟨le_rfl, hx.1, by simp⟩
      · obtain ⟨h1, h2, h3⟩ := (ih.mem y).1 hy
        exact ⟨by omega, h2, (Strided.sub_mod_step h1).trans h3⟩
    · obtain ⟨h1, h2, h3⟩ := hy
      rcases Nat.lt_or_ge y (x + step) with hlt | hge
      · rw [Nat.mod_eq_of_lt (by omega)] at h3
        exact List.mem_cons.2 (.inl (by omega))
      · exact List.mem_cons_of_mem _ ((ih.mem y).2 ⟨hge, h2, (Strided.sub_mod_step hge).symm.trans h3⟩)
  | case2 x hx =>
    rw [strided, if_neg hx]
    exact Strided.runs_nil (by omega)

theorem mem_strided (hfirst : first < step) {y : ℕ} : y ∈ strided step n first ↔ y < n ∧ y % step = first := by
  rw [(strided_runs (by omega)).mem]
  constructor
  · rintro ⟨h1, h2, h3⟩
    refine ⟨h2, ?_⟩
    rw [show y = first + (y - first) by omega, Nat.add_mod, h3, Nat.add_zero, Nat.mod_mod, Nat.mod_eq_of_lt hfirst]
  · rintro ⟨h1, rfl⟩
    exact ⟨Nat.mod_le _ _, h1, Nat.sub_mod_eq_zero_of_mod_eq (Nat.mod_mod _ _).symm⟩

/-! ### The total -/

/-- What the threads before `tid` hold. -/
def exclusive (x : ℕ → ℕ) (tid : ℕ) : ℕ := ∑ t ∈ range tid, x t

theorem exclusive_eq_sum (x : ℕ → ℕ) (tid : ℕ) : exclusive x tid = ((List.range tid).map x).sum := by
  induction tid with
  | zero => rfl
  | succ tid ih =>
    rw [List.range_succ, List.map_append, List.sum_append, ← ih]
    unfold exclusive
    simpa using sum_range_succ x tid

/-- Each thread counts its own places. -/
def total (B n : ℕ) (want : ℕ → Bool) : ℕ := exclusive (fun tid => (strided B n tid).countP want) B

theorem total_eq (hB : 0 < B) : total B n want = (List.range n).countP want := by
  have hperm : ((List.range B).flatMap (strided B n)).Perm (List.range n) := Strided.perm_range (fun _ _ => strided_runs hB) hB
  rw [← hperm.countP_eq, List.countP_flatMap, total, exclusive_eq_sum]
  rfl

/-! ### The ranks -/

/-- What thread `tid` brings to a pass. -/
def flag (n : ℕ) (want : ℕ → Bool) (base tid : ℕ) : ℕ := if base + tid < n && want (base + tid) then 1 else 0

/-- One pass: each wanted place, with its rank. -/
def pass (B n : ℕ) (want : ℕ → Bool) (base running : ℕ) : List (ℕ × ℕ) :=
  (List.range B).filterMap fun tid =>
    if base + tid < n && want (base + tid) then some (base + tid, running + exclusive (flag n want base) tid) else none

def passes (B n : ℕ) (want : ℕ → Bool) (base running : ℕ) : List (ℕ × ℕ) :=
  if base < n ∧ 0 < B then
    pass B n want base running ++ passes B n want (base + B) (running + exclusive (flag n want base) B)
  else []
termination_by n - base

/-- A wanted place and how many come before it. -/
def ranked (want : ℕ → Bool) (i : ℕ) : ℕ × ℕ := (i, (List.range i).countP want)

theorem countP_add_exclusive (h : base + tid ≤ n) :
    (List.range base).countP want + exclusive (flag n want base) tid = (List.range (base + tid)).countP want := by
  induction tid with
  | zero => simp [exclusive]
  | succ tid ih =>
    have hsum : exclusive (flag n want base) (tid + 1) = exclusive (flag n want base) tid + flag n want base tid :=
      sum_range_succ _ _
    rw [hsum, ← Nat.add_assoc, ih (by omega), ← Nat.add_assoc, List.range_succ, List.countP_append, List.countP_singleton]
    unfold flag
    rw [decide_eq_true (by omega), Bool.true_and]

theorem pass_eq : pass B n want base ((List.range base).countP want) =
    ((List.range' base (min B (n - base))).filter want).map (ranked want) := by
  induction B with
  | zero => simp [pass]
  | succ B ih =>
    unfold pass at ih ⊢
    rw [List.range_succ, List.filterMap_append, ih]
    rcases Nat.lt_or_ge (base + B) n with hlt | hge
    · rw [Nat.min_eq_left (by omega), Nat.min_eq_left (by omega), List.range'_1_concat, List.filter_append, List.map_append]
      congr 1
      rw [List.filterMap_cons, decide_eq_true hlt, Bool.true_and, countP_add_exclusive hlt.le]
      rcases hw : want (base + B) <;> simp [hw, ranked]
    · rw [Nat.min_eq_right (by omega), Nat.min_eq_right (by omega), List.filterMap_cons,
        decide_eq_false (by omega : ¬base + B < n), Bool.false_and]
      simp

/-- The wanted places in order, each with the count of those before it. -/
theorem passes_eq (hB : 0 < B) (h : base < n → running = (List.range base).countP want) : passes B n want base running =
    ((List.range' base (n - base)).filter want).map (ranked want) := by
  induction base, running using passes.induct B n want with
  | case1 base running hbase ih =>
    obtain rfl := h hbase.1
    rw [passes, if_pos hbase, pass_eq, ih fun hlt => (countP_add_exclusive hlt.le), ← List.map_append, ← List.filter_append]
    rcases Nat.lt_or_ge B (n - base) with hlt | hge
    · rw [Nat.min_eq_left hlt.le, ← Nat.sub_sub, List.range'_append_1, Nat.add_sub_cancel' hlt.le]
    · rw [Nat.min_eq_right hge, Nat.sub_eq_zero_of_le (by omega : n ≤ base + B)]
      simp
  | case2 base running hbase =>
    rw [passes, if_neg hbase, Nat.sub_eq_zero_of_le (by omega)]
    simp

/-! ### A warp's sum -/

/-- `__shfl_down_sync`: a lane past the end reads its own. -/
def shflDown (x : ℕ → ℕ) (off lane : ℕ) : ℕ := if lane + off < 32 then x (lane + off) else x lane

/-- `for (off = 16; off > 0; off >>= 1) x += __shfl_down_sync(x, off)`. -/
def warpReduce (x : ℕ → ℕ) : ℕ → ℕ :=
  [16, 8, 4, 2, 1].foldl (fun x off lane => x lane + shflDown x off lane) x

theorem warpReduce_zero (x : ℕ → ℕ) : warpReduce x 0 = ∑ lane ∈ range 32, x lane := by
  simp [warpReduce, shflDown, sum_range_succ]
  omega

end BlockScan
