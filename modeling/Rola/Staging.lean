import Mathlib.Data.Nat.Notation
import Mathlib.Logic.Function.Basic

/-!
# Staged runs

Runs of `n` elements copied to places of their own in one memory: where the places lie apart, a memory's
runs are its contents by place, and a copy to a place is an update of them.
-/

namespace Staging

variable {ι α : Type*} {n : ℕ} {place : ι → ℕ} {S : ι → Prop} {mem : ℕ → α} {content : ι → ℕ → α}

/-- A run of `n` elements to `base`. -/
def stage (n base : ℕ) (x : ℕ → α) (mem : ℕ → α) : ℕ → α := fun a => if base ≤ a ∧ a < base + n then x (a - base) else mem a

/-- Every place of `S` holds its contents. -/
def Laid (n : ℕ) (place : ι → ℕ) (S : ι → Prop) (mem : ℕ → α) (content : ι → ℕ → α) : Prop :=
  ∀ p, S p → ∀ i < n, mem (place p + i) = content p i

/-- The places of `S` do not overlap. -/
def Apart (n : ℕ) (place : ι → ℕ) (S : ι → Prop) : Prop :=
  ∀ p q, S p → S q → p ≠ q → place p + n ≤ place q ∨ place q + n ≤ place p

theorem stage_at (base : ℕ) (x mem : ℕ → α) {i : ℕ} (hi : i < n) : stage n base x mem (base + i) = x i := by
  rw [stage, if_pos (by omega), Nat.add_sub_cancel_left]

theorem stage_of_apart (x mem : ℕ → α) {base a i : ℕ} (h : base + n ≤ a ∨ a + n ≤ base) (hi : i < n) :
    stage n base x mem (a + i) = mem (a + i) := by
  rw [stage, if_neg (by omega)]

section Update

variable [DecidableEq ι]

theorem Laid.stage (h : Laid n place S mem content) (hapart : Apart n place S) {p : ι} (hp : S p) (x : ℕ → α) :
    Laid n place S (stage n (place p) x mem) (Function.update content p x) := by
  intro q hq i hi
  rcases eq_or_ne q p with rfl | hne
  · rw [stage_at _ _ _ hi, Function.update_self]
  · rw [stage_of_apart _ _ (hapart p q hp hq hne.symm) hi, Function.update_of_ne hne]
    exact h q hq i hi

theorem Laid.foldl (hapart : Apart n place S) {copies : List (ι × (ℕ → α))} (hS : ∀ c ∈ copies, S c.1)
    (h : Laid n place S mem content) : Laid n place S (copies.foldl (fun mem c => Staging.stage n (place c.1) c.2 mem) mem)
      (copies.foldl (fun content c => Function.update content c.1 c.2) content) := by
  induction copies generalizing mem content with
  | nil => exact h
  | cons c copies ih => exact ih (fun d hd => hS d (List.mem_cons_of_mem c hd)) (h.stage hapart (hS c List.mem_cons_self) c.2)

/-- A place some copy writes, and every copy to it writes `x`. -/
theorem foldl_update {copies : List (ι × (ℕ → α))} {p : ι} {x : ℕ → α} (hall : ∀ c ∈ copies, c.1 = p → c.2 = x)
    (h : content p = x ∨ ∃ c ∈ copies, c.1 = p) : copies.foldl (fun content c => Function.update content c.1 c.2) content p = x := by
  induction copies generalizing content with
  | nil => simpa using h
  | cons c copies ih =>
    refine ih (fun d hd => hall d (List.mem_cons_of_mem c hd)) ?_
    by_cases hc : c.1 = p
    · left
      dsimp only
      rw [← hall c List.mem_cons_self hc, ← hc, Function.update_self]
    · rcases h with h | ⟨d, hd, hp⟩
      · left
        dsimp only
        rw [Function.update_of_ne (Ne.symm hc), h]
      · rcases List.mem_cons.1 hd with rfl | hd
        · exact absurd hp hc
        · exact .inr ⟨d, hd, hp⟩

end Update

end Staging
