import Mathlib.Algebra.BigOperators.Group.List.Basic
import Mathlib.Algebra.Order.Floor.Div
import Mathlib.Data.Finset.Card
import Mathlib.Data.Nat.ModEq
import Mathlib.Order.Interval.Finset.Nat
import Rola.Extent

/-!
# The extent allocator's runs

`rola/ops/paging.py`, `ExtentAllocator`: a cursor over `capacity` slots, moved by `take` to the end of
the run `admission` placed. A run that opens an extent starts on its boundary and one that does not
stays inside the open extent, so either touches as few extents as any run of its length.
-/

namespace Rola

structure ExtentAllocator where
  capacity : ℕ
  extentAtoms : ℕ
  next : ℕ
  extentAtoms_pos : 0 < extentAtoms

structure SlotRun where
  first : ℕ
  count : ℕ
deriving DecidableEq, Repr

def SlotRun.slots (r : SlotRun) : Finset ℕ := Finset.Ico r.first (r.first + r.count)

/-- The extents that hold a slot of the run. -/
def SlotRun.touched (r : SlotRun) (extentAtoms : ℕ) : Finset ℕ := r.slots.image (· / extentAtoms)

namespace ExtentAllocator

/-- `ExtentAllocator.__init__`. -/
def new (capacity : ℕ) (extentAtoms : ℤ) : Except String ExtentAllocator :=
  if h : extentAtoms < 1 then .error s!"extent_atoms must be >= 1, got {extentAtoms}"
  else .ok ⟨capacity, extentAtoms.toNat, 0, by omega⟩

def free (a : ExtentAllocator) : ℕ := a.capacity - a.next

/-- A count at or below zero is placed at the cursor and moves nothing, as a count of zero is. -/
def take (a : ExtentAllocator) (count : ℤ) : Except String ℕ × ExtentAllocator :=
  match admission a.next a.capacity a.extentAtoms count.toNat with
  | .error err => (.error err, a)
  | .ok first => (.ok first, if 0 < count then { a with next := first + count.toNat } else a)

/-- The runs a sequence of takes returned, oldest first, and where it leaves the allocator. -/
def takes (a : ExtentAllocator) : List ℤ → List SlotRun × ExtentAllocator
  | [] => ([], a)
  | count :: counts =>
    match a.take count with
    | (.error _, a') => a'.takes counts
    | (.ok first, a') => (⟨first, count.toNat⟩ :: (a'.takes counts).1, (a'.takes counts).2)

/-- The slots a take skips to reach the next extent. -/
def gap (a : ExtentAllocator) (count : ℕ) : ℕ := placement a.next a.extentAtoms count - a.next

example : ((new 32 4).map fun a => (a.takes [3, 1, 4, 3, 3]).1.map SlotRun.first) =
    .ok [0, 3, 4, 8, 12] := by decide

end ExtentAllocator

/-! ### Extents a run touches -/

section Touched

variable {first count extentAtoms : ℕ}

theorem SlotRun.touched_eq (hpos : 0 < count) (he : 0 < extentAtoms) :
    (SlotRun.mk first count).touched extentAtoms =
      Finset.Icc (first / extentAtoms) ((first + count - 1) / extentAtoms) := by
  ext x
  simp only [touched, slots, Finset.mem_image, Finset.mem_Ico, Finset.mem_Icc]
  refine ⟨?_, fun ⟨hlo, hhi⟩ => ?_⟩
  · rintro ⟨slot, ⟨hlo, hhi⟩, rfl⟩
    exact ⟨Nat.div_le_div_right hlo, Nat.div_le_div_right (by omega)⟩
  · -- the extent's own first slot, or the run's where the run starts later
    have hmul : x * extentAtoms ≤ first + count - 1 := (Nat.le_div_iff_mul_le he).1 hhi
    have hlt : first < (x + 1) * extentAtoms := (Nat.div_lt_iff_lt_mul he).1 (by omega)
    refine ⟨max first (x * extentAtoms), ⟨le_max_left .., ?_⟩, ?_⟩
    · exact max_lt (by omega) (by omega)
    · refine Nat.div_eq_of_lt_le (le_max_right ..) (max_lt hlt ?_)
      exact Nat.mul_lt_mul_of_pos_right (by omega) he

theorem SlotRun.card_touched (hpos : 0 < count) (he : 0 < extentAtoms) :
    ((SlotRun.mk first count).touched extentAtoms).card =
      (first + count - 1) / extentAtoms + 1 - first / extentAtoms := by
  simp [touched_eq hpos he]

/-- No start touches fewer extents than the run's length needs. -/
theorem SlotRun.le_card_touched (hpos : 0 < count) (he : 0 < extentAtoms) :
    (count + extentAtoms - 1) / extentAtoms ≤ ((SlotRun.mk first count).touched extentAtoms).card := by
  have hmod := Nat.div_add_mod first extentAtoms
  have hlt := Nat.mod_lt first he
  rw [card_touched hpos he, show count + extentAtoms - 1 = count - 1 + extentAtoms by omega,
    Nat.add_div_right _ he]
  have hsum : (count - 1) / extentAtoms + first / extentAtoms ≤ (first + count - 1) / extentAtoms := by
    rw [show first + count - 1 = count - 1 + first by omega]
    exact Nat.div_add_div_le_add_div
  omega

theorem extentRemainder_eq (allocated : ℕ) (he : 0 < extentAtoms) : extentRemainder allocated extentAtoms =
    if allocated % extentAtoms = 0 then 0 else extentAtoms - allocated % extentAtoms := by
  unfold extentRemainder
  split
  · rename_i h
    simp [h]
  · exact Nat.mod_eq_of_lt (by omega)

/-- A placed run starts on a boundary, or inside the open extent with room for all of it. -/
theorem placement_fits (allocated count : ℕ) (he : 0 < extentAtoms) :
    placement allocated extentAtoms count % extentAtoms = 0 ∨
      placement allocated extentAtoms count % extentAtoms + count ≤ extentAtoms := by
  have hlt := Nat.mod_lt allocated he
  have hdiv := Nat.div_add_mod allocated extentAtoms
  unfold placement
  rw [extentRemainder_eq allocated he]
  dsimp only
  by_cases h0 : allocated % extentAtoms = 0
  · left
    simp [h0]
  · simp only [h0, if_false]
    split
    · left
      rw [show allocated + (extentAtoms - allocated % extentAtoms) =
        extentAtoms * (allocated / extentAtoms) + extentAtoms by omega]
      simp
    · right
      omega

theorem placement_sub_lt (allocated count : ℕ) (he : 0 < extentAtoms) :
    placement allocated extentAtoms count - allocated < extentAtoms ∧
      (0 < count → placement allocated extentAtoms count - allocated < count) := by
  have hlt : extentRemainder allocated extentAtoms < extentAtoms := Nat.mod_lt _ he
  unfold placement
  dsimp only
  split <;> omega

/-- A placed run touches exactly as many extents as its length needs. -/
theorem card_touched_placement (allocated : ℕ) (hpos : 0 < count) (he : 0 < extentAtoms) :
    ((SlotRun.mk (placement allocated extentAtoms count) count).touched extentAtoms).card =
      (count + extentAtoms - 1) / extentAtoms := by
  have hdiv := Nat.div_add_mod (placement allocated extentAtoms count) extentAtoms
  have hfits := placement_fits allocated count he
  rw [SlotRun.card_touched hpos he, show count + extentAtoms - 1 = count - 1 + extentAtoms by omega,
    Nat.add_div_right _ he]
  generalize placement allocated extentAtoms count = first at *
  rcases hfits with haligned | hroom
  · -- from a boundary, the run's last slot lies as many extents on as its length says
    rw [haligned, Nat.add_zero] at hdiv
    have hlast : (first + count - 1) / extentAtoms = first / extentAtoms + (count - 1) / extentAtoms := by
      rw [show first + count - 1 = count - 1 + extentAtoms * (first / extentAtoms) by omega,
        Nat.add_mul_div_left _ _ he, Nat.add_comm]
    rw [hlast, Nat.add_assoc, Nat.add_sub_cancel_left]
  · have hlast : (first + count - 1) / extentAtoms = first / extentAtoms :=
      Nat.div_eq_of_lt_le (by rw [Nat.mul_comm]; omega)
        (by rw [Nat.add_mul, Nat.mul_comm (first / extentAtoms)]; omega)
    have hone : (count - 1) / extentAtoms = 0 := Nat.div_eq_of_lt (by omega)
    omega

end Touched

/-! ### A sequence of takes -/

namespace ExtentAllocator

variable {a : ExtentAllocator} {count : ℤ} {counts : List ℤ}

theorem new_eq_ok {capacity : ℕ} {extentAtoms : ℤ} : new capacity extentAtoms = .ok a ↔
    ∃ he : 0 < extentAtoms.toNat, ⟨capacity, extentAtoms.toNat, 0, he⟩ = a := by
  unfold new
  split
  · refine ⟨(nomatch ·), fun ⟨he, _⟩ => ?_⟩
    omega
  · simp only [Except.ok.injEq]
    exact ⟨fun h => ⟨by omega, h⟩, fun ⟨_, h⟩ => h⟩

theorem take_cases (a : ExtentAllocator) (count : ℤ) :
    (∃ err, a.take count = (.error err, a) ∧ a.capacity < a.next + a.gap count.toNat + count.toNat) ∨
    (a.take count = (.ok (a.next + a.gap count.toNat),
        { a with next := a.next + a.gap count.toNat + count.toNat }) ∧
      (0 < count → a.next + a.gap count.toNat + count.toNat ≤ a.capacity)) := by
  have hle := le_placement a.next a.extentAtoms count.toNat
  have hgap : a.next + a.gap count.toNat = placement a.next a.extentAtoms count.toNat := by
    simp [gap, hle]
  rw [hgap]
  unfold take
  rcases h : admission a.next a.capacity a.extentAtoms count.toNat with err | first
  · left
    refine ⟨err, rfl, ?_⟩
    by_contra hfit
    rw [admission_eq_ok.2 ⟨rfl, fun _ => by omega⟩] at h
    cases h
  · right
    obtain ⟨rfl, hcap⟩ := admission_eq_ok.1 h
    refine ⟨?_, fun hpos => hcap (by omega)⟩
    by_cases hpos : 0 < count
    · simp [hpos]
    · simp [hpos, Int.toNat_of_nonpos (Int.not_lt.1 hpos)]

theorem gap_lt (a : ExtentAllocator) (count : ℕ) :
    a.gap count < a.extentAtoms ∧ (0 < count → a.gap count < count) :=
  placement_sub_lt a.next count a.extentAtoms_pos

@[simp] theorem gap_zero (a : ExtentAllocator) : a.gap 0 = 0 := by simp [gap]

/-- What a sequence of takes from `a` has returned when the allocator stands at `a'`. -/
structure Ran (a : ExtentAllocator) (runs : List SlotRun) (a' : ExtentAllocator) : Prop where
  capacity : a'.capacity = a.capacity
  extentAtoms : a'.extentAtoms = a.extentAtoms
  above : ∀ r ∈ runs, a.next ≤ r.first
  below : ∀ r ∈ runs, r.first + r.count ≤ a'.next
  ascending : runs.Pairwise fun r r' => r.first + r.count ≤ r'.first
  fewest : ∀ r ∈ runs, 0 < r.count →
    (r.touched a.extentAtoms).card = (r.count + a.extentAtoms - 1) / a.extentAtoms
  next_le : a.next ≤ a'.next
  granted : a'.next = a.next ∨ a'.next < a.next + 2 * (runs.map SlotRun.count).sum
  inside : a.next ≤ a.capacity → a'.next ≤ a.capacity

theorem takes_ran (a : ExtentAllocator) (counts : List ℤ) : Ran a (a.takes counts).1 (a.takes counts).2 := by
  induction counts generalizing a with
  | nil => exact ⟨rfl, rfl, by simp [takes], by simp [takes], .nil, by simp [takes], le_rfl, .inl rfl, id⟩
  | cons count counts ih =>
    obtain ⟨err, htake, -⟩ | ⟨htake, hcap⟩ := take_cases a count
    · simpa [takes, htake] using ih a
    · have h := ih { a with next := a.next + a.gap count.toNat + count.toNat }
      have hgap := a.gap_lt count.toNat
      simp only [takes, htake]
      refine ⟨h.capacity, h.extentAtoms, ?_, ?_, ?_, ?_, ?_, ?_, ?_⟩
      · rintro r (_ | ⟨_, hr⟩)
        · exact Nat.le_add_right ..
        · have := h.above r hr
          simp only at this
          omega
      · rintro r (_ | ⟨_, hr⟩)
        · exact h.next_le
        · exact h.below r hr
      · exact List.pairwise_cons.2 ⟨h.above, h.ascending⟩
      · rintro r (_ | ⟨_, hr⟩) hpos
        · have hfirst : a.next + a.gap count.toNat = placement a.next a.extentAtoms count.toNat :=
            Nat.add_sub_cancel' (le_placement ..)
          rw [hfirst]
          exact card_touched_placement a.next hpos a.extentAtoms_pos
        · exact h.fewest r hr hpos
      · have := h.next_le
        simp only at this
        omega
      · -- a take of none opens no gap, any other one smaller than its count
        have hgranted := h.granted
        simp only [List.map_cons, List.sum_cons] at hgranted ⊢
        rcases Nat.eq_zero_or_pos count.toNat with h0 | hpos
        · simp only [h0, gap_zero, Nat.add_zero, Nat.zero_add] at hgranted ⊢
          exact hgranted
        · have := hgap.2 hpos
          omega
      · intro hle
        refine h.inside ?_
        rcases Nat.eq_zero_or_pos count.toNat with h0 | hpos
        · simpa [h0] using hle
        · exact hcap (by omega)

/-- Every sequence of takes from an empty allocator returns runs that ascend inside the capacity, each
on as few extents as its length needs; a further take opens a gap smaller than the extent and its
count, and is refused only past the free slots. -/
theorem takes_placed {capacity : ℕ} {extentAtoms : ℤ} {fresh : ExtentAllocator}
    (hnew : new capacity extentAtoms = .ok fresh) (counts : List ℤ) (count : ℤ) :
    let runs := (fresh.takes counts).1
    let a := (fresh.takes counts).2
    runs.Pairwise (fun r r' => r.first + r.count ≤ r'.first) ∧
    runs.Pairwise (fun r r' => Disjoint r.slots r'.slots) ∧
    (∀ r ∈ runs, r.first + r.count ≤ capacity) ∧
    (∀ r ∈ runs, 0 < r.count →
      (r.touched extentAtoms.toNat).card = r.count ⌈/⌉ extentAtoms.toNat ∧
      ∀ start, (r.touched extentAtoms.toNat).card ≤
        ((SlotRun.mk start r.count).touched extentAtoms.toNat).card) ∧
    (a.next = 0 ∨ a.next < 2 * (runs.map SlotRun.count).sum) ∧
    (a.gap count.toNat : ℤ) < extentAtoms ∧ (0 < count → (a.gap count.toNat : ℤ) < count) ∧
    ((∃ err, a.take count = (.error err, a) ∧ (a.free : ℤ) < count + a.gap count.toNat) ∨
      ∃ a', a.take count = (.ok (a.next + a.gap count.toNat), a') ∧
        (a'.next : ℤ) = a.next + a.gap count.toNat + max count 0) := by
  obtain ⟨he, rfl⟩ := new_eq_ok.1 hnew
  have h := takes_ran ⟨capacity, extentAtoms.toNat, 0, he⟩ counts
  have hgap := (ExtentAllocator.takes ⟨capacity, extentAtoms.toNat, 0, he⟩ counts).2.gap_lt count.toNat
  rw [h.extentAtoms] at hgap
  simp only at hgap
  refine ⟨h.ascending, h.ascending.imp fun hle => ?_, fun r hr => ?_, fun r hr hpos => ?_, ?_, ?_,
    fun hpos => ?_, ?_⟩
  · refine Finset.disjoint_left.2 fun slot hslot hslot' => ?_
    simp only [SlotRun.slots, Finset.mem_Ico] at hslot hslot'
    omega
  · exact (h.below r hr).trans (h.inside (Nat.zero_le _))
  · have hfewest := h.fewest r hr hpos
    refine ⟨by rw [hfewest, Nat.ceilDiv_eq_add_pred_div], fun start => ?_⟩
    rw [hfewest]
    exact SlotRun.le_card_touched hpos he
  · simpa using h.granted
  · omega
  · have := hgap.2 (by omega)
    omega
  · obtain ⟨err, htake, hlt⟩ | ⟨htake, -⟩ := take_cases _ count
    · refine .inl ⟨err, htake, ?_⟩
      have hle : _ ≤ capacity := h.inside (Nat.zero_le _)
      have hcapacity : _ = capacity := h.capacity
      rw [hcapacity] at hlt
      simp only [free, hcapacity]
      rcases lt_or_ge 0 count with hpos | hneg
      · omega
      · simp only [Int.toNat_of_nonpos hneg, gap_zero] at hlt
        omega
    · exact .inr ⟨_, htake, by simp⟩

theorem takes_placed_extent_four : ∃ fresh, new 32 4 = .ok fresh ∧
    (fresh.takes [3, 1, 4, 3, 40, 3]).2.next = 15 ∧
    (fresh.takes [3, 1, 4, 3, 40, 3]).1.Pairwise (fun r r' => r.first + r.count ≤ r'.first) :=
  ⟨⟨32, 4, 0, by decide⟩, rfl, by decide, (@takes_placed _ 4 _ rfl _ 0).1⟩

end ExtentAllocator

end Rola
