import Mathlib.Algebra.BigOperators.Intervals
import Mathlib.Data.Nat.Count
import Mathlib.Data.List.Perm.Subperm
import Mathlib.Order.Interval.Finset.Nat

/-!
# Sorting by rank

An element of a stable sort by buckets lands behind the elements of earlier buckets and the earlier ones
of its own. Its rank is their count, so what is scattered by rank is sorted; the buckets' starts are the
sums a scan by doublings leaves.
-/

namespace CountingSort

open Finset

variable {key : ℕ → ℕ} {n s t u : ℕ}

/-! ### The order of a stable sort -/

/-- `s` is in an earlier bucket, or earlier in its bucket. -/
def Before (key : ℕ → ℕ) (s t : ℕ) : Prop := key s < key t ∨ key s = key t ∧ s < t

instance (key : ℕ → ℕ) (t : ℕ) : DecidablePred fun s => Before key s t :=
  fun _ => inferInstanceAs (Decidable (_ ∨ _))

namespace Before

theorem irrefl (t : ℕ) : ¬ Before key t t := by simp [Before]

theorem trans (h : Before key s t) (h' : Before key t u) : Before key s u := by
  unfold Before at *
  omega

theorem or_of_ne (h : s ≠ t) : Before key s t ∨ Before key t s := by
  unfold Before
  omega

end Before

/-- How many come before `t`. -/
def rank (key : ℕ → ℕ) (n t : ℕ) : ℕ := Nat.count (fun s => Before key s t) n

theorem rank_lt_rank (hs : s < n) (h : Before key s t) : rank key n s < rank key n t := by
  rw [rank, rank, Nat.count_eq_card_filter_range, Nat.count_eq_card_filter_range]
  refine card_lt_card ⟨fun u hu => ?_, fun hsub => ?_⟩
  · rw [mem_filter] at hu ⊢
    exact ⟨hu.1, hu.2.trans h⟩
  · have hmem : s ∈ (range n).filter fun u => Before key u t := by simpa using ⟨hs, h⟩
    exact Before.irrefl s (mem_filter.1 (hsub hmem)).2

theorem rank_lt (ht : t < n) : rank key n t < n := by
  rw [rank, Nat.count_eq_card_filter_range]
  refine (card_lt_card ⟨filter_subset _ _, fun hsub => ?_⟩).trans_eq (card_range n)
  exact Before.irrefl t (mem_filter.1 (hsub (mem_range.2 ht))).2

theorem rank_inj (hs : s < n) (ht : t < n) (h : rank key n s = rank key n t) : s = t := by
  by_contra hne
  rcases @Before.or_of_ne key _ _ hne with hst | hts
  · exact (rank_lt_rank hs hst).ne h
  · exact (rank_lt_rank ht hts).ne' h

theorem before_of_rank_lt (ht : t < n) (h : rank key n s < rank key n t) : Before key s t := by
  rcases eq_or_ne s t with rfl | hne
  · exact absurd h (lt_irrefl _)
  · refine (Before.or_of_ne hne).resolve_right fun hts => ?_
    exact (rank_lt_rank ht hts).not_gt h

/-- A rank is of one element. -/
theorem exists_rank {r : ℕ} (hr : r < n) : ∃ t < n, rank key n t = r := by
  have hmaps : Set.MapsTo (rank key n) (range n : Finset ℕ) (range n : Finset ℕ) := fun t ht => by
    simpa using @CountingSort.rank_lt key _ _ (by simpa using ht)
  have hinj : Set.InjOn (rank key n) (range n : Finset ℕ) := fun s hs t ht h =>
    rank_inj (by simpa using hs) (by simpa using ht) h
  obtain ⟨t, ht, rfl⟩ := surjOn_of_injOn_of_card_le _ hmaps hinj le_rfl (by simpa using hr)
  exact ⟨t, by simpa using ht, rfl⟩

/-! ### By buckets -/

theorem count_lt_eq_sum (key : ℕ → ℕ) (n b : ℕ) :
    Nat.count (fun s => key s < b) n = ∑ c ∈ range b, Nat.count (fun s => key s = c) n := by
  induction n with
  | zero => simp
  | succ n ih =>
    simp only [Nat.count_succ, ih, sum_add_distrib]
    simp

/-- A rank: the buckets before, then the bucket's own. -/
theorem rank_eq (ht : t < n) : rank key n t =
    ∑ b ∈ range (key t), Nat.count (fun s => key s = b) n + Nat.count (fun s => key s = key t) t := by
  rw [← count_lt_eq_sum]
  have hbucket : Nat.count (fun s => key s = key t) t =
      Nat.count (fun s => key s = key t ∧ s < t) n := by
    rw [Nat.count_eq_card_filter_range, Nat.count_eq_card_filter_range]
    congr 1
    ext s
    simp only [mem_filter, mem_range]
    omega
  rw [hbucket, rank, Nat.count_eq_card_filter_range, Nat.count_eq_card_filter_range,
    Nat.count_eq_card_filter_range, ← card_union_of_disjoint, ← filter_or]
  · rfl
  · rw [disjoint_filter]
    intro s _ hlt
    omega

/-- The elements of the buckets below `b` have the ranks below their count. -/
theorem rank_lt_count_iff {b : ℕ} (ht : t < n) :
    rank key n t < Nat.count (fun s => key s < b) n ↔ key t < b := by
  constructor
  · intro h
    by_contra hle
    rw [not_lt] at hle
    refine h.not_ge ?_
    rw [rank, Nat.count_eq_card_filter_range, Nat.count_eq_card_filter_range]
    refine card_le_card fun s hs => ?_
    rw [mem_filter] at hs ⊢
    exact ⟨hs.1, .inl (hs.2.trans_le hle)⟩
  · intro h
    rw [rank, Nat.count_eq_card_filter_range, Nat.count_eq_card_filter_range]
    refine card_lt_card ⟨fun s hs => ?_, fun hsub => ?_⟩
    · rw [mem_filter] at hs ⊢
      refine ⟨hs.1, ?_⟩
      have hbefore := hs.2
      unfold Before at hbefore
      omega
    · have hmem : t ∈ (range n).filter fun s => key s < b := by simpa using ⟨ht, h⟩
      exact Before.irrefl t (mem_filter.1 (hsub hmem)).2

/-! ### What is scattered by rank -/

section Scatter

variable {order : ℕ → ℕ} (h : ∀ t < n, order (rank key n t) = t)
include h

theorem rank_order {r : ℕ} (hr : r < n) : order r < n ∧ rank key n (order r) = r := by
  obtain ⟨t, ht, rfl⟩ := @CountingSort.exists_rank key _ _ hr
  rw [h t ht]
  exact ⟨ht, rfl⟩

theorem scattered_sorted : ((List.range n).map order).Pairwise (Before key) := by
  rw [List.pairwise_map]
  refine List.pairwise_lt_range.imp_of_mem fun {r r'} hr hr' hlt => ?_
  rw [List.mem_range] at hr hr'
  obtain ⟨-, hrank⟩ := rank_order h hr
  obtain ⟨hlt', hrank'⟩ := rank_order h hr'
  exact before_of_rank_lt hlt' (by omega)

theorem scattered_perm : ((List.range n).map order).Perm (List.range n) := by
  have hnodup : ((List.range n).map order).Nodup :=
    (scattered_sorted h).imp fun hbefore => by
      rintro rfl
      exact Before.irrefl _ hbefore
  refine (List.perm_ext_iff_of_nodup hnodup List.nodup_range).2 fun t => ?_
  simp only [List.mem_map, List.mem_range]
  constructor
  · rintro ⟨r, hr, rfl⟩
    exact (rank_order h hr).1
  · intro ht
    exact ⟨rank key n t, rank_lt ht, h t ht⟩

end Scatter

/-! ### Sums by doublings -/

/-- Each lane adds the one `d` below it. -/
def shiftAdd (d : ℕ) (x : ℕ → ℕ) (lane : ℕ) : ℕ := if d ≤ lane then x lane + x (lane - d) else x lane

/-- `k` doublings. -/
def scan (x : ℕ → ℕ) (k : ℕ) : ℕ → ℕ := (List.range k).foldl (fun x s => shiftAdd (2 ^ s) x) x

theorem scan_succ (x : ℕ → ℕ) (k : ℕ) : scan x (k + 1) = shiftAdd (2 ^ k) (scan x k) := by
  simp [scan, List.range_succ]

theorem scan_eq (x : ℕ → ℕ) (k lane : ℕ) :
    scan x k lane = ∑ j ∈ Ico (lane + 1 - 2 ^ k) (lane + 1), x j := by
  induction k generalizing lane with
  | zero => simp [scan]
  | succ k ih =>
    rw [scan_succ, shiftAdd, ih, pow_succ]
    generalize 2 ^ k = d at ih ⊢
    split
    · rw [ih, add_comm, show lane - d + 1 = lane + 1 - d by omega,
        show lane + 1 - d * 2 = lane + 1 - d - d by omega]
      exact sum_Ico_consecutive x (by omega) (by omega)
    · rw [show lane + 1 - d = 0 by omega, show lane + 1 - d * 2 = 0 by omega]

/-- Enough doublings sum all the lanes up to each. -/
theorem scan_eq_sum (x : ℕ → ℕ) {k lane : ℕ} (h : lane < 2 ^ k) :
    scan x k lane = ∑ j ∈ range (lane + 1), x j := by
  rw [scan_eq, show lane + 1 - 2 ^ k = 0 by omega, range_eq_Ico]

end CountingSort
