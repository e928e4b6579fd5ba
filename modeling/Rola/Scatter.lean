import Mathlib.Algebra.BigOperators.Group.List.Basic
import Mathlib.Logic.Function.Basic

/-!
# Visits that update distinct cells

A visit addresses at most one cell, may replace it by a function of what it holds, and adds a reading of
what it leaves there to an accumulator. Where no two visits address one cell, each acts on the cell's
first content, and the order is immaterial.
-/

namespace Scatter

variable {ι κ β γ : Type*} [DecidableEq κ] (addr : ι → Option κ) (writes : ι → Bool) (upd : ι → β → β) (absent : β)

/-- What a visit leaves in its cell, or the value of an absent one. -/
def final (mem : κ → β) (i : ι) : β :=
  match addr i with
  | some c => if writes i then upd i (mem c) else mem c
  | none => absent

def step (mem : κ → β) (i : ι) : κ → β :=
  match addr i with
  | some c => if writes i then Function.update mem c (upd i (mem c)) else mem
  | none => mem

/-- One visit, with its reading. -/
def visit [Add γ] (read : ι → β → γ) (st : (κ → β) × γ) (i : ι) : (κ → β) × γ :=
  (step addr writes upd st.1 i, st.2 + read i (final addr writes upd absent st.1 i))

/-- No two visits address one cell. -/
def Apart (l : List ι) : Prop := l.Pairwise fun i j => ∀ c, addr i = some c → addr j ≠ some c

variable {addr writes upd absent} {mem : κ → β} {l l' : List ι} {i j : ι} {c : κ}

theorem step_of_ne (h : writes i = true → addr i ≠ some c) : step addr writes upd mem i c = mem c := by
  unfold step
  rcases haddr : addr i with _ | c'
  · rfl
  · dsimp only
    split
    · rename_i hw
      refine Function.update_of_ne ?_ _ _
      rintro rfl
      exact h hw haddr
    · rfl

theorem step_self (h : addr i = some c) : step addr writes upd mem i c = final addr writes upd absent mem i := by
  unfold step final
  rw [h]
  dsimp only
  split
  · exact Function.update_self ..
  · rfl

theorem final_step (h : ∀ c, addr i = some c → addr j ≠ some c) :
    final addr writes upd absent (step addr writes upd mem i) j = final addr writes upd absent mem j := by
  unfold final
  rcases haddr : addr j with _ | c
  · rfl
  · dsimp only
    rw [step_of_ne fun _ heq => h c heq haddr]

theorem foldl_of_ne (h : ∀ i ∈ l, writes i = true → addr i ≠ some c) : l.foldl (step addr writes upd) mem c = mem c := by
  induction l generalizing mem with
  | nil => rfl
  | cons i l ih =>
    rw [List.foldl_cons, ih fun j hj => h j (List.mem_cons_of_mem _ hj), step_of_ne (h i List.mem_cons_self)]

theorem foldl_self (hl : Apart addr l) (hi : i ∈ l) (haddr : addr i = some c) :
    l.foldl (step addr writes upd) mem c = final addr writes upd absent mem i := by
  induction l generalizing mem with
  | nil => cases hi
  | cons j l ih =>
    obtain ⟨hj, hl⟩ := List.pairwise_cons.1 hl
    rw [List.foldl_cons]
    rcases List.mem_cons.1 hi with rfl | hi
    · rw [foldl_of_ne fun k hk _ => hj k hk c haddr]
      exact step_self haddr
    · rw [ih hl hi]
      exact final_step fun c' hc' => hj i hi c' hc'

theorem foldl_final (h : ∀ i ∈ l, ∀ c, addr i = some c → addr j ≠ some c) :
    final addr writes upd absent (l.foldl (step addr writes upd) mem) j = final addr writes upd absent mem j := by
  induction l generalizing mem with
  | nil => rfl
  | cons i l ih =>
    rw [List.foldl_cons, ih fun k hk => h k (List.mem_cons_of_mem _ hk)]
    exact final_step (h i List.mem_cons_self)

/-- A run of visits: each reads what it leaves of the first content. -/
theorem foldl_visit [AddMonoid γ] {read : ι → β → γ} {acc : γ} (hl : Apart addr l) :
    l.foldl (visit addr writes upd absent read) (mem, acc) =
      (l.foldl (step addr writes upd) mem, acc + (l.map fun i => read i (final addr writes upd absent mem i)).sum) := by
  induction l generalizing mem acc with
  | nil => simp
  | cons i l ih =>
    obtain ⟨hi, hl⟩ := List.pairwise_cons.1 hl
    have htail : (l.map fun j => read j (final addr writes upd absent (step addr writes upd mem i) j)) =
        l.map fun j => read j (final addr writes upd absent mem j) :=
      List.map_congr_left fun j hj => by rw [final_step (hi j hj)]
    rw [List.foldl_cons, List.foldl_cons, List.map_cons, List.sum_cons, ← add_assoc]
    refine (ih hl).trans ?_
    rw [htail]

end Scatter
