import Mathlib.Logic.Function.Basic
import Mathlib.Order.Nat

/-!
# Objects behind owners

A heap of objects and, for each owner, the object it refers to. A write through an owner updates its
object in place, or gives it a new one. As long as no two owners refer to one object, a write through
one is invisible through the others.
-/

structure Owned (α : Type*) where
  cells : ℕ → Option α
  next : ℕ
  ref : ℕ → Option ℕ

namespace Owned

variable {α : Type*} {o : Owned α} {i j : ℕ} {v : Option α}

def empty (α : Type*) : Owned α := ⟨fun _ => none, 0, fun _ => none⟩

def read (o : Owned α) (i : ℕ) : Option α := (o.ref i).bind o.cells

def write (o : Owned α) (i : ℕ) (v : Option α) : Owned α :=
  match v with
  | none => { o with ref := Function.update o.ref i none }
  | some a =>
    match o.ref i with
    | some r => { o with cells := Function.update o.cells r (some a) }
    | none =>
      { cells := Function.update o.cells o.next (some a)
        next := o.next + 1
        ref := Function.update o.ref i (some o.next) }

/-- Every reference is below the next free object, and no two owners share one. -/
structure Separate (o : Owned α) : Prop where
  lt : ∀ i r, o.ref i = some r → r < o.next
  inj : ∀ i j r, o.ref i = some r → o.ref j = some r → i = j

theorem separate_empty : (empty α).Separate :=
  ⟨fun _ _ h => (nomatch h), fun _ _ _ h => (nomatch h)⟩

@[simp] theorem read_write_self : (o.write i v).read i = v := by
  unfold write read
  rcases v with _ | a
  · simp
  · rcases h : o.ref i with _ | r
    · simp
    · simp [h]

theorem next_le_write : o.next ≤ (o.write i v).next := by
  unfold write
  rcases v with _ | a
  · exact le_rfl
  · rcases o.ref i with _ | r
    · exact Nat.le_succ _
    · exact le_rfl

/-- A reference after a write is an old one, or the object the write made. -/
theorem ref_write {r : ℕ} (h : (o.write i v).ref j = some r) :
    o.ref j = some r ∨ j = i ∧ r = o.next ∧ r < (o.write i v).next := by
  unfold write at h ⊢
  rcases v with _ | a
  · dsimp only at h
    rw [Function.update_apply] at h
    split at h
    · cases h
    · exact .inl h
  · rcases href : o.ref i with _ | r'
    · rw [href] at h
      dsimp only at h ⊢
      rw [Function.update_apply] at h
      split at h
      · cases h
        exact .inr ⟨‹_›, rfl, Nat.lt_succ_self _⟩
      · exact .inl h
    · rw [href] at h
      exact .inl h

theorem Separate.write (h : o.Separate) : (o.write i v).Separate := by
  constructor
  · intro k r hk
    rcases ref_write hk with hold | ⟨-, -, hlt⟩
    · exact (h.lt k r hold).trans_le next_le_write
    · exact hlt
  · intro k l r hk hl
    rcases ref_write hk with hk' | ⟨hki, hr, -⟩ <;> rcases ref_write hl with hl' | ⟨hli, hr', -⟩
    · exact h.inj k l r hk' hl'
    · exact absurd (h.lt k r hk') (hr' ▸ Nat.lt_irrefl _)
    · exact absurd (h.lt l r hl') (hr ▸ Nat.lt_irrefl _)
    · exact hki.trans hli.symm

/-- The frame of a write: what any other owner reads. -/
theorem Separate.read_write_other (h : o.Separate) (hij : j ≠ i) : (o.write i v).read j = o.read j := by
  unfold Owned.write Owned.read
  rcases v with _ | a
  · simp [Function.update_of_ne hij]
  · rcases href : o.ref i with _ | r <;> dsimp only
    · rw [Function.update_of_ne hij]
      rcases hj : o.ref j with _ | r
      · rfl
      · exact Function.update_of_ne (Nat.ne_of_lt (h.lt j r hj)) _ _
    · rcases hj : o.ref j with _ | r'
      · rfl
      · refine Function.update_of_ne (fun heq => hij ?_) _ _
        exact h.inj j i r (heq ▸ hj) href

end Owned
