import Mathlib.Data.Nat.Basic
import Mathlib.Tactic.Linarith

/-!
# Where a run of slots lands

`rola/engine/rules/paging.py`, `admission`: a run that fits the current extent's remainder goes
there, any other starts the next extent, and a run past the ceiling is refused whole.
`ExtentAllocator.take` is the cursor it moves.
-/

namespace Rola

/-- `(-allocated) % extent_atoms`: the slots left in the extent the cursor stands in. -/
def extentRemainder (allocated extentAtoms : ℕ) : ℕ :=
  (extentAtoms - allocated % extentAtoms) % extentAtoms

/-- The first slot of a run of `count`, before the ceiling is asked. -/
def placement (allocated extentAtoms count : ℕ) : ℕ :=
  let remainder := extentRemainder allocated extentAtoms
  if remainder ≠ 0 ∧ remainder < count then allocated + remainder else allocated

def admission (allocated capacity extentAtoms count : ℕ) : Except String ℕ :=
  if count = 0 then .ok allocated
  else
    let first := placement allocated extentAtoms count
    if capacity < first + count then
      .error (s!"the page arena cannot serve this launch: {count} new atoms demanded, " ++
        s!"{(capacity : ℤ) - first} free in an arena of {capacity} atoms. " ++
        "The arena grants ALL or refuses -- there is no partial grant and no dropped write. " ++
        "The capacity IS the dense limit, so a demand it cannot serve was not derived from this " ++
        "arena's own keying.")
    else .ok first

variable {allocated capacity extentAtoms count first : ℕ}

theorem le_placement (allocated extentAtoms count : ℕ) : allocated ≤ placement allocated extentAtoms count := by
  unfold placement
  dsimp only
  split <;> omega

@[simp] theorem placement_zero (allocated extentAtoms : ℕ) : placement allocated extentAtoms 0 = allocated := by
  simp [placement]

/-- An aligned cursor opens no gap. -/
theorem placement_of_remainder_zero (h : extentRemainder allocated extentAtoms = 0) :
    placement allocated extentAtoms count = allocated := by
  simp [placement, h]

theorem placement_start (extentAtoms count : ℕ) : placement 0 extentAtoms count = 0 :=
  placement_of_remainder_zero (by simp [extentRemainder])

theorem admission_eq_ok : admission allocated capacity extentAtoms count = .ok first ↔
    first = placement allocated extentAtoms count ∧ (0 < count → first + count ≤ capacity) := by
  unfold admission
  split
  · rename_i h0
    simp [h0, eq_comm]
  · rename_i h0
    dsimp only
    split
    · rename_i hcap
      refine ⟨(nomatch ·), fun ⟨hf, hle⟩ => ?_⟩
      have := hle (by omega)
      omega
    · rename_i hcap
      refine ⟨fun h => ?_, fun ⟨hf, _⟩ => by rw [hf]⟩
      cases h
      exact ⟨rfl, fun _ => by omega⟩

/-- A granted run starts at or past the cursor and ends inside the arena. -/
theorem admission_ok (h : admission allocated capacity extentAtoms count = .ok first)
    (hle : allocated ≤ capacity) : allocated ≤ first ∧ first + count ≤ capacity := by
  obtain ⟨rfl, hcap⟩ := admission_eq_ok.1 h
  rcases Nat.eq_zero_or_pos count with rfl | hpos
  · simpa using hle
  · exact ⟨le_placement .., hcap hpos⟩

theorem admission_isOk_iff : (admission allocated capacity extentAtoms count).isOk ↔
    (0 < count → placement allocated extentAtoms count + count ≤ capacity) := by
  rcases h : admission allocated capacity extentAtoms count with e | first
  · refine ⟨(nomatch ·), fun hle => ?_⟩
    have := admission_eq_ok.2 ⟨rfl, hle⟩
    rw [h] at this
    cases this
  · obtain ⟨rfl, hcap⟩ := admission_eq_ok.1 h
    exact ⟨fun _ => hcap, fun _ => rfl⟩

end Rola
