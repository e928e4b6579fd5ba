import Mathlib.Algebra.Order.BigOperators.Ring.Finset
import Mathlib.Data.Fintype.BigOperators

/-!
# Slots under phased barriers

A barrier's phase completes when all its parties have arrived, and a party can ask only a phase's
parity. A slot has two: its fillers' landed copies complete `full`, its takers' releases `empty`. If a
party refills only what is emptied and releases only what is filled, the arrivals of one phase never
meet another's and the parity is the phase.
-/

namespace PhasedBarrier

open Finset

structure Barrier where
  count : ℕ
  phase : ℕ
  arrived : ℕ
deriving DecidableEq

namespace Barrier

def init (count : ℕ) : Barrier := ⟨count, 0, 0⟩

def arrive (b : Barrier) : Barrier :=
  if b.arrived + 1 = b.count then { b with phase := b.phase + 1, arrived := 0 }
  else { b with arrived := b.arrived + 1 }

/-- Has the phase of this parity completed? -/
def test (b : Barrier) (parity : ℕ) : Bool := b.phase % 2 ≠ parity

variable {b : Barrier} {m : ℕ}

@[simp] theorem arrive_count (b : Barrier) : b.arrive.count = b.count := by
  unfold arrive
  split <;> rfl

theorem phase_le_arrive (b : Barrier) : b.phase ≤ b.arrive.phase := by
  unfold arrive
  split <;> simp

/-- Between two phases a parity tells which. -/
theorem test_iff (hle : m ≤ b.phase) (hge : b.phase ≤ m + 1) : b.test (m % 2) ↔ m < b.phase := by
  simp only [test, decide_eq_true_eq]
  omega

end Barrier

/-! ### Counting arrivals -/

section Counts

variable {ι : Type*} [Fintype ι] {b : Barrier} {a : ι → ℕ} {i : ι} {n : ℕ}

/-- The barrier counts its parties, of which each has arrived `a i` times. -/
structure Counts (b : Barrier) (a : ι → ℕ) : Prop where
  count : b.count = Fintype.card ι
  le : ∀ i, b.phase ≤ a i
  ge : ∀ i, a i ≤ b.phase + 1
  sum : ∑ i, (a i - b.phase) = b.arrived
  lt : b.arrived < b.count

namespace Counts

theorem init [Nonempty ι] : Counts (Barrier.init (Fintype.card ι)) (fun _ : ι => 0) where
  count := rfl
  le _ := le_rfl
  ge _ := Nat.zero_le _
  sum := by simp [Barrier.init]
  lt := Fintype.card_pos

/-- What every party has reached, the phase has. -/
theorem le_phase (h : Counts b a) (hn : ∀ i, n ≤ a i) : n ≤ b.phase := by
  by_contra hlt
  rw [not_le] at hlt
  have hone : ∀ i, a i - b.phase = 1 := by
    intro i
    have hge := h.ge i
    have hni := hn i
    omega
  have hsum := h.sum
  rw [sum_congr rfl fun i _ => hone i, ← card_eq_sum_ones, card_univ] at hsum
  have hcount := h.count
  have harr := h.lt
  omega

variable [DecidableEq ι]

theorem sum_update (h : Counts b a) (hi : a i = b.phase) :
    ∑ j, (Function.update a i (a i + 1) j - b.phase) = b.arrived + 1 := by
  rw [← h.sum, ← add_sum_erase univ (fun j => a j - b.phase) (mem_univ i),
    ← add_sum_erase univ _ (mem_univ i), Function.update_self, hi]
  have hrest : ∑ j ∈ univ.erase i, (Function.update a i (b.phase + 1) j - b.phase) =
      ∑ j ∈ univ.erase i, (a j - b.phase) := by
    refine sum_congr rfl fun j hj => ?_
    rw [Function.update_of_ne (ne_of_mem_erase hj)]
  rw [hrest]
  omega

theorem arrive (h : Counts b a) (hi : a i = b.phase) :
    Counts b.arrive (Function.update a i (a i + 1)) := by
  have hsum := h.sum_update hi
  have hle : ∀ j, b.phase ≤ Function.update a i (a i + 1) j := by
    intro j
    rcases eq_or_ne j i with rfl | hne
    · simp [hi]
    · simpa [hne] using h.le j
  have hge : ∀ j, Function.update a i (a i + 1) j ≤ b.phase + 1 := by
    intro j
    rcases eq_or_ne j i with rfl | hne
    · simp [hi]
    · simpa [hne] using h.ge j
  unfold Barrier.arrive
  split_ifs with hlast
  · -- the last arrival: every party is one past the phase
    have hall : ∀ j, Function.update a i (a i + 1) j = b.phase + 1 := by
      have hcard : ∑ j : ι, (Function.update a i (a i + 1) j - b.phase) = ∑ _j : ι, 1 := by
        rw [hsum, hlast, h.count, ← card_eq_sum_ones, card_univ]
      intro j
      have hone := (sum_eq_sum_iff_of_le fun j _ => by
        have := hge j
        omega).1 hcard j (mem_univ j)
      have hj := hle j
      omega
    refine ⟨h.count, fun j => (hall j).ge, fun j => ?_, ?_, ?_⟩
    · rw [hall j]
      exact Nat.le_succ _
    · simp [hall]
    · exact (Nat.zero_le _).trans_lt h.lt
  · refine ⟨h.count, hle, hge, hsum, ?_⟩
    have hlt := h.lt
    dsimp only
    omega

end Counts

end Counts

/-! ### A slot -/

/-- What the parties have filled, landed and released, beside the barriers and the shares' contents;
a share holds nothing while its copies are in flight. -/
structure Slot (ι L β : Type*) where
  full : Barrier
  empty : Barrier
  filled : ι → List β
  landed : ι → L → ℕ
  released : ι → ℕ
  cell : ι → L → Option β

namespace Slot

variable {ι L β : Type*}

section Moves
variable [DecidableEq ι] [DecidableEq L]

def issue (s : Slot ι L β) (i : ι) (b : β) : Slot ι L β :=
  { s with
    filled := Function.update s.filled i (s.filled i ++ [b])
    cell := Function.update s.cell i fun _ => none }

/-- The oldest of a lane's copies in flight land, and the lane arrives. -/
def land (s : Slot ι L β) (i : ι) (l : L) : Slot ι L β :=
  let n := s.landed i l + 1
  { s with
    full := s.full.arrive
    landed := Function.update s.landed i (Function.update (s.landed i) l n)
    cell := Function.update s.cell i (Function.update (s.cell i) l
      (if n = (s.filled i).length then (s.filled i).getLast? else none)) }

def release (s : Slot ι L β) (i : ι) : Slot ι L β :=
  { s with
    empty := s.empty.arrive
    released := Function.update s.released i (s.released i + 1) }

end Moves

variable [Fintype ι] [Fintype L]

/-- A slot no one has touched. -/
def fresh (ι L β : Type*) [Fintype ι] [Fintype L] : Slot ι L β :=
  { full := Barrier.init (Fintype.card ι * Fintype.card L)
    empty := Barrier.init (Fintype.card ι)
    filled := fun _ => []
    landed := fun _ _ => 0
    released := fun _ => 0
    cell := fun _ _ => none }

structure Inv (s : Slot ι L β) : Prop where
  full : Counts s.full fun x : ι × L => s.landed x.1 x.2
  empty : Counts s.empty s.released
  released_le : ∀ i, s.released i ≤ s.full.phase
  landed_le : ∀ i l, s.landed i l ≤ (s.filled i).length
  filled_le : ∀ i, (s.filled i).length ≤ s.empty.phase + 1
  cell : ∀ i l, s.cell i l = if s.landed i l = (s.filled i).length then (s.filled i).getLast? else none

namespace Inv

variable {s : Slot ι L β} {i j : ι} {l : L} {b : β} {n : ℕ}

theorem fresh [Nonempty ι] [Nonempty L] : (Slot.fresh ι L β).Inv where
  full := by
    have h := Counts.init (ι := ι × L)
    rw [Fintype.card_prod] at h
    exact h
  empty := Counts.init
  released_le _ := le_rfl
  landed_le _ _ := le_rfl
  filled_le _ := Nat.zero_le _
  cell _ _ := by simp [Slot.fresh]

theorem empty_le_full [Nonempty ι] (h : s.Inv) : s.empty.phase ≤ s.full.phase := by
  obtain ⟨i⟩ := ‹Nonempty ι›
  exact (h.empty.le i).trans (h.released_le i)

theorem full_le_filled [Nonempty L] (h : s.Inv) (i : ι) : s.full.phase ≤ (s.filled i).length := by
  obtain ⟨l⟩ := ‹Nonempty L›
  exact (h.full.le (i, l)).trans (h.landed_le i l)

/-- A party refills what is emptied. -/
theorem issue [DecidableEq ι] (h : s.Inv) (hi : (s.filled i).length ≤ s.empty.phase) (b : β) : (s.issue i b).Inv where
  full := h.full
  empty := h.empty
  released_le := h.released_le
  landed_le j l := by
    rcases eq_or_ne j i with rfl | hne
    · have hle := h.landed_le j l
      simp only [Slot.issue, Function.update_self, List.length_append, List.length_singleton]
      omega
    · simpa [Slot.issue, hne] using h.landed_le j l
  filled_le j := by
    rcases eq_or_ne j i with rfl | hne
    · simpa [Slot.issue] using hi
    · simpa [Slot.issue, hne] using h.filled_le j
  cell j l := by
    rcases eq_or_ne j i with rfl | hne
    · have hle := h.landed_le j l
      have hlt : s.landed j l ≠ (s.filled j).length + 1 := by omega
      simp [Slot.issue, hlt]
    · simpa [Slot.issue, hne] using h.cell j l

/-- A lane with copies in flight has not arrived in this phase. -/
theorem landed_eq [Nonempty ι] (h : s.Inv) (hl : s.landed i l < (s.filled i).length) :
    s.landed i l = s.full.phase := by
  have hle := h.full.le (i, l)
  have hE := h.empty_le_full
  have hn := h.filled_le i
  dsimp only at hle
  omega

theorem land [Nonempty ι] [DecidableEq ι] [DecidableEq L] (h : s.Inv) (hl : s.landed i l < (s.filled i).length) : (s.land i l).Inv := by
  have harr := h.full.arrive (i := (i, l)) (h.landed_eq hl)
  have hland : (fun x : ι × L => (s.land i l).landed x.1 x.2) =
      Function.update (fun x : ι × L => s.landed x.1 x.2) (i, l) (s.landed i l + 1) := by
    funext x
    obtain ⟨j, m⟩ := x
    rcases eq_or_ne j i with rfl | hne
    · rcases eq_or_ne m l with rfl | hm
      · simp [Slot.land]
      · simp [Slot.land, hm]
    · simp [Slot.land, hne]
  refine ⟨hland ▸ harr, h.empty, fun j => ?_, fun j m => ?_, h.filled_le, fun j m => ?_⟩
  · exact (h.released_le j).trans s.full.phase_le_arrive
  · rcases eq_or_ne j i with rfl | hne
    · rcases eq_or_ne m l with rfl | hm
      · simpa [Slot.land] using Nat.succ_le_of_lt hl
      · simpa [Slot.land, hm] using h.landed_le j m
    · simpa [Slot.land, hne] using h.landed_le j m
  · rcases eq_or_ne j i with rfl | hne
    · rcases eq_or_ne m l with rfl | hm
      · simp [Slot.land]
      · simpa [Slot.land, hm] using h.cell j m
    · simpa [Slot.land, hne] using h.cell j m

variable [Nonempty L]

/-- A taken slot's phases: filled once more than emptied. -/
theorem phases_of_taken (h : s.Inv) (hi : s.released i < s.full.phase) :
    s.released i = s.empty.phase ∧ s.full.phase = s.empty.phase + 1 := by
  have hle := h.empty.le i
  have hn := h.filled_le i
  have hF := h.full_le_filled i
  omega

theorem release [DecidableEq ι] (h : s.Inv) (hi : s.released i < s.full.phase) : (s.release i).Inv where
  full := h.full
  empty := h.empty.arrive (h.phases_of_taken hi).1
  released_le j := by
    rcases eq_or_ne j i with rfl | hne
    · simpa [Slot.release] using Nat.succ_le_of_lt hi
    · simpa [Slot.release, hne] using h.released_le j
  landed_le := h.landed_le
  filled_le j := (h.filled_le j).trans (Nat.succ_le_succ s.empty.phase_le_arrive)
  cell := h.cell

/-! ### What a taker sees -/

/-- No copy is in flight into a taken slot, and its next fill waits. -/
theorem filled_of_taken (h : s.Inv) (hi : s.released i < s.full.phase) (j : ι) (l : L) :
    s.landed j l = (s.filled j).length ∧ (s.filled j).length = s.released i + 1 ∧
      s.empty.phase < (s.filled j).length := by
  obtain ⟨hu, hF⟩ := h.phases_of_taken hi
  have hle := h.full.le (j, l)
  have hland := h.landed_le j l
  have hn := h.filled_le j
  dsimp only at hle
  omega

/-- The `n`-th take sees the `n`-th fill of every party. -/
theorem cell_of_taken (h : s.Inv) (hi : s.released i < s.full.phase) (j : ι) (l : L) :
    s.cell j l = (s.filled j)[s.released i]? := by
  obtain ⟨hland, hlen, -⟩ := h.filled_of_taken hi j l
  rw [h.cell, if_pos hland, List.getLast?_eq_getElem?, hlen, Nat.add_sub_cancel]

/-! ### What a party's tests say -/

theorem empty_test [Nonempty ι] (h : s.Inv) (hn : 0 < (s.filled i).length) :
    s.empty.test (((s.filled i).length - 1) % 2) ↔ (s.filled i).length ≤ s.empty.phase := by
  have hE := h.empty_le_full
  have hF := h.full_le_filled i
  have hle := h.filled_le i
  rw [Barrier.test_iff (by omega) (by omega)]
  omega

theorem full_test (h : s.Inv) (i : ι) : s.full.test (s.released i % 2) ↔ s.released i < s.full.phase := by
  have hE := h.empty.le i
  have hF := h.full_le_filled i
  have hn := h.filled_le i
  exact Barrier.test_iff (h.released_le i) (by omega)

end Inv

end Slot

end PhasedBarrier
