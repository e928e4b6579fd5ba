import Mathlib.Data.Finset.Card
import Mathlib.Order.Interval.Finset.Nat

/-!
# Last arrivals

Parties each leave a value on a board and then add one to its count; whoever finds the count one short of
the parties is the last, and finds every other party's value there.
-/

namespace Rola

inductive Phase where
  | working
  | stored
  | arrived
deriving DecidableEq

structure Board (V : Type*) where
  slot : ℕ → V
  count : ℕ
  phase : ℕ → Phase

namespace Board

variable {V : Type*} {b : Board V} {i j n : ℕ} {v : V}

def store (b : Board V) (i : ℕ) (v : V) : Board V :=
  { b with slot := Function.update b.slot i v, phase := Function.update b.phase i .stored }

/-- A party that leaves nothing before it arrives. -/
def skip (b : Board V) (i : ℕ) : Board V := { b with phase := Function.update b.phase i .stored }

def arrive (b : Board V) (i : ℕ) : Board V :=
  { b with count := b.count + 1, phase := Function.update b.phase i .arrived }

/-- A party that arrives uncounted. -/
def leave (b : Board V) (i : ℕ) : Board V := { b with phase := Function.update b.phase i .arrived }

@[simp] theorem store_count : (b.store i v).count = b.count := rfl
@[simp] theorem skip_count : (b.skip i).count = b.count := rfl
@[simp] theorem arrive_count : (b.arrive i).count = b.count + 1 := rfl
@[simp] theorem leave_count : (b.leave i).count = b.count := rfl
@[simp] theorem skip_slot : (b.skip i).slot = b.slot := rfl
@[simp] theorem arrive_slot : (b.arrive i).slot = b.slot := rfl
@[simp] theorem leave_slot : (b.leave i).slot = b.slot := rfl

@[simp] theorem store_slot : (b.store i v).slot j = if j = i then v else b.slot j := Function.update_apply ..
@[simp] theorem store_phase : (b.store i v).phase j = if j = i then .stored else b.phase j := Function.update_apply ..
@[simp] theorem skip_phase : (b.skip i).phase j = if j = i then .stored else b.phase j := Function.update_apply ..
@[simp] theorem arrive_phase : (b.arrive i).phase j = if j = i then .arrived else b.phase j := Function.update_apply ..
@[simp] theorem leave_phase : (b.leave i).phase j = if j = i then .arrived else b.phase j := Function.update_apply ..

def arrivedSet (b : Board V) (n : ℕ) : Finset ℕ := (Finset.range n).filter fun i => b.phase i = .arrived

/-- The count is of the parties that have arrived. -/
def Tally (b : Board V) (n : ℕ) : Prop := b.count = (b.arrivedSet n).card

/-- Every party has arrived. -/
def Full (b : Board V) (n : ℕ) : Prop := ∀ i < n, b.phase i = .arrived

theorem mem_arrivedSet : i ∈ b.arrivedSet n ↔ i < n ∧ b.phase i = .arrived := by
  simp [arrivedSet]

theorem Tally.congr {b' : Board V} (h : b.Tally n) (hcount : b'.count = b.count)
    (hphase : ∀ i < n, b'.phase i = .arrived ↔ b.phase i = .arrived) : b'.Tally n := by
  have hset : b'.arrivedSet n = b.arrivedSet n := by
    ext i
    simp only [mem_arrivedSet]
    constructor
    · rintro ⟨hi, hp⟩
      exact ⟨hi, (hphase i hi).1 hp⟩
    · rintro ⟨hi, hp⟩
      exact ⟨hi, (hphase i hi).2 hp⟩
  unfold Tally
  rw [hcount, hset, h]

theorem Tally.store (h : b.Tally n) (hi : b.phase i = .working) : (b.store i v).Tally n := by
  refine h.congr rfl fun j _ => ?_
  rcases eq_or_ne j i with rfl | hne
  · simp [hi]
  · simp [hne]

theorem Tally.skip (h : b.Tally n) (hi : b.phase i = .working) : (b.skip i).Tally n := by
  refine h.congr rfl fun j _ => ?_
  rcases eq_or_ne j i with rfl | hne
  · simp [hi]
  · simp [hne]

theorem arrivedSet_arrive (hi : i < n) : (b.arrive i).arrivedSet n = insert i (b.arrivedSet n) := by
  ext j
  simp only [mem_arrivedSet, arrive_phase, Finset.mem_insert]
  rcases eq_or_ne j i with rfl | hne
  · simp [hi]
  · simp [hne]

theorem Tally.arrive (h : b.Tally n) (hi : i < n) (hph : b.phase i ≠ .arrived) : (b.arrive i).Tally n := by
  unfold Tally
  rw [arrive_count, arrivedSet_arrive hi, Finset.card_insert_of_notMem fun hmem => hph (mem_arrivedSet.1 hmem).2, h]

theorem full_iff : b.Full n ↔ b.arrivedSet n = Finset.range n := by
  rw [Finset.ext_iff]
  simp only [mem_arrivedSet, Finset.mem_range]
  constructor
  · exact fun h i => ⟨fun hi => hi.1, fun hi => ⟨hi, h i hi⟩⟩
  · exact fun h i hi => ((h i).2 hi).2

theorem Tally.full (h : b.Tally n) : b.Full n ↔ b.count = n := by
  rw [full_iff, h]
  constructor
  · intro heq
    rw [heq, Finset.card_range]
  · intro hcard
    refine Finset.eq_of_subset_of_card_le (Finset.filter_subset _ _) ?_
    rw [Finset.card_range, hcard]

/-- The party that finds the count one short completes the board. -/
theorem Tally.last (h : b.Tally n) (hi : i < n) (hph : b.phase i ≠ .arrived) :
    b.count = n - 1 ↔ (b.arrive i).Full n := by
  rw [(h.arrive hi hph).full, arrive_count]
  omega

theorem tally_of_working (hcount : b.count = 0) (h : ∀ i, b.phase i = .working) : b.Tally n := by
  have hempty : b.arrivedSet n = ∅ := by
    ext i
    simp [mem_arrivedSet, h i]
  unfold Tally
  rw [hcount, hempty, Finset.card_empty]

theorem not_full_of_working (hn : 0 < n) (h : ∀ i, b.phase i = .working) : ¬b.Full n := by
  intro hfull
  have := hfull 0 hn
  rw [h 0] at this
  cases this

end Board

end Rola
