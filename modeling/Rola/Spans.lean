import Mathlib.Algebra.BigOperators.Group.List.Basic
import Mathlib.Algebra.Ring.Nat
import Mathlib.Data.List.GetD
import Mathlib.Data.List.Induction

/-!
# Spans of a packed list

Pieces laid end to end: a piece is the span between its offset and the next, and abutting spans read as one.
-/

namespace Spans

variable {α : Type*}

/-- `xs[start:stop]`. -/
def slice (xs : List α) (start stop : ℕ) : List α := (xs.drop start).take (stop - start)

/-- The offsets of pieces of the given widths, the total last. -/
def offsets (widths : List ℕ) : List ℕ := widths.foldl (fun offsets width => offsets ++ [offsets.getLastD 0 + width]) [0]

/-- Where piece `i` begins. -/
def offset (widths : List ℕ) (i : ℕ) : ℕ := (widths.take i).sum

theorem offsets_eq (widths : List ℕ) : offsets widths = (List.range (widths.length + 1)).map (offset widths) := by
  induction widths using List.reverseRecOn with
  | nil => rfl
  | append_singleton widths w ih =>
    have hlast : (offsets widths).getLastD 0 = offset widths widths.length := by
      rw [ih, List.range_succ, List.map_append, List.map_singleton, List.getLastD_concat]
    have hstep : offsets (widths ++ [w]) = offsets widths ++ [(offsets widths).getLastD 0 + w] := by
      rw [offsets, List.foldl_append]
      rfl
    have hpast : offset widths widths.length + w = offset (widths ++ [w]) (widths ++ [w]).length := by
      simp [offset]
    have hmore : List.range (widths.length + 1 + 1) = List.range (widths.length + 1) ++ [widths.length + 1] := List.range_succ
    rw [hstep, hlast, ih, hpast, List.length_append, List.length_singleton, hmore, List.map_append, List.map_singleton]
    refine congrArg (· ++ _) (List.map_congr_left fun i hi => ?_)
    rw [List.mem_range] at hi
    rw [offset, offset, List.take_append_of_le_length (by omega)]

theorem getD_offsets {widths : List ℕ} {i : ℕ} (hi : i ≤ widths.length) : (offsets widths).getD i 0 = offset widths i := by
  rw [offsets_eq, List.getD_eq_getElem?_getD, List.getElem?_map, List.getElem?_range (by omega)]
  rfl

theorem offset_succ {widths : List ℕ} {i : ℕ} (hi : i < widths.length) :
    offset widths (i + 1) = offset widths i + widths.getD i 0 := by
  rw [offset, offset, List.sum_take_succ _ _ hi, List.getD_eq_getElem _ _ hi]

theorem offset_mono {widths : List ℕ} {i j : ℕ} (h : i ≤ j) : offset widths i ≤ offset widths j := by
  obtain ⟨k, rfl⟩ := Nat.exists_eq_add_of_le h
  rw [offset, offset, List.take_add, List.sum_append]
  exact Nat.le_add_right _ _

theorem offset_length (widths : List ℕ) : offset widths widths.length = widths.sum := by rw [offset, List.take_length]

theorem offsets_last (widths : List ℕ) : (offsets widths).getLastD 0 = widths.sum := by
  rw [offsets_eq, List.range_succ, List.map_append, List.map_singleton, List.getLastD_concat, offset_length]

theorem offset_append {ws vs : List ℕ} {i : ℕ} (hi : i ≤ ws.length) : offset (ws ++ vs) i = offset ws i := by
  rw [offset, offset, List.take_append_of_le_length hi]

/-! ### Slices -/

theorem slice_append (xs : List α) {a b c : ℕ} (hab : a ≤ b) (hbc : b ≤ c) :
    slice xs a b ++ slice xs b c = slice xs a c := by
  unfold slice
  have hsplit : c - a = (b - a) + (c - b) := by omega
  have hdrop : (xs.drop a).drop (b - a) = xs.drop b := by rw [List.drop_drop, Nat.add_sub_cancel' hab]
  rw [hsplit, List.take_add, hdrop]

theorem length_slice {xs : List α} {a b : ℕ} (hb : b ≤ xs.length) : (slice xs a b).length = b - a := by
  unfold slice
  rw [List.length_take, List.length_drop]
  omega

theorem getElem?_slice (xs : List α) {a b d : ℕ} (hd : a + d < b) : (slice xs a b)[d]? = xs[a + d]? := by
  unfold slice
  rw [List.getElem?_take_of_lt (by omega), List.getElem?_drop]

theorem slice_map {β : Type*} (f : α → β) (xs : List α) (a b : ℕ) : slice (xs.map f) a b = (slice xs a b).map f := by
  unfold slice
  rw [← List.map_drop, ← List.map_take]

/-- The entry of a piece in the pieces laid end to end. -/
theorem getElem?_flatten (pieces : List (List α)) (i d : ℕ) (hd : d < (pieces.getD i []).length) :
    pieces.flatten[offset (pieces.map List.length) i + d]? = (pieces.getD i [])[d]? := by
  induction pieces generalizing i with
  | nil => simp at hd
  | cons piece pieces ih =>
    cases i with
    | zero =>
      rw [List.flatten_cons, offset, List.take_zero, List.sum_nil, Nat.zero_add]
      exact List.getElem?_append_left hd
    | succ i =>
      have hoff : offset ((piece :: pieces).map List.length) (i + 1) = piece.length + offset (pieces.map List.length) i := by
        simp [offset]
      rw [List.flatten_cons, hoff, Nat.add_assoc, List.getElem?_append_right (Nat.le_add_right _ _), Nat.add_sub_cancel_left]
      exact ih i hd

/-- A piece is the span at its offset. -/
theorem slice_flatten (pieces : List (List α)) {i : ℕ} (hi : i < pieces.length) :
    slice pieces.flatten (offset (pieces.map List.length) i)
      (offset (pieces.map List.length) i + (pieces.getD i []).length) = pieces.getD i [] := by
  have hend : offset (pieces.map List.length) i + (pieces.getD i []).length ≤ pieces.flatten.length := by
    have hsucc := @offset_succ (pieces.map List.length) i (by rwa [List.length_map])
    have hle : offset (pieces.map List.length) (i + 1) ≤ offset (pieces.map List.length) (pieces.map List.length).length :=
      offset_mono (by rw [List.length_map]; exact hi)
    rw [offset_length, ← List.length_flatten, hsucc] at hle
    rw [List.getD_eq_getElem _ _ hi]
    rw [List.getD_eq_getElem _ _ (by rwa [List.length_map]), List.getElem_map] at hle
    exact hle
  refine List.ext_getElem? fun d => ?_
  rcases Nat.lt_or_ge d (pieces.getD i []).length with hd | hd
  · rw [getElem?_slice _ (Nat.add_lt_add_left hd _), getElem?_flatten _ _ _ hd]
  · rw [List.getElem?_eq_none, List.getElem?_eq_none hd]
    rw [length_slice hend, Nat.add_sub_cancel_left]
    exact hd

/-! ### Abutting spans -/

/-- The spans in order, each joined to the run before it where that run ends at its start. -/
def runs (spans : List (ℕ × ℕ)) : List (ℕ × ℕ) :=
  spans.foldl (fun runs span =>
    match runs.getLast? with
    | some last => if last.2 = span.1 then runs.dropLast ++ [(last.1, span.2)] else runs ++ [span]
    | none => runs ++ [span]) []

theorem runs_snoc (spans : List (ℕ × ℕ)) (span : ℕ × ℕ) : runs (spans ++ [span]) =
    match (runs spans).getLast? with
    | some last => if last.2 = span.1 then (runs spans).dropLast ++ [(last.1, span.2)] else runs spans ++ [span]
    | none => runs spans ++ [span] := by
  rw [runs, List.foldl_append]
  rfl

theorem runs_ordered (spans : List (ℕ × ℕ)) (h : ∀ span ∈ spans, span.1 ≤ span.2) : ∀ run ∈ runs spans, run.1 ≤ run.2 := by
  induction spans using List.reverseRecOn with
  | nil => intro run hrun; cases hrun
  | append_singleton spans span ih =>
    have ih := ih fun span' hspan' => h span' (List.mem_append_left _ hspan')
    have hspan := h span (by simp)
    intro run hrun
    rw [runs_snoc] at hrun
    split at hrun
    · rename_i last hlast
      have hmem := List.mem_of_getLast? hlast
      split at hrun
      · rename_i habut
        rcases List.mem_append.1 hrun with hrun | hrun
        · exact ih run (List.dropLast_subset _ hrun)
        · rw [List.mem_singleton.1 hrun]
          have := ih last hmem
          dsimp only
          omega
      · rcases List.mem_append.1 hrun with hrun | hrun
        · exact ih run hrun
        · rw [List.mem_singleton.1 hrun]
          exact hspan
    · rcases List.mem_append.1 hrun with hrun | hrun
      · exact ih run hrun
      · rw [List.mem_singleton.1 hrun]
        exact hspan

/-- Runs read what their spans read, in order. -/
theorem flatMap_runs (xs : List α) (spans : List (ℕ × ℕ)) (h : ∀ span ∈ spans, span.1 ≤ span.2) :
    (runs spans).flatMap (fun run => slice xs run.1 run.2) = spans.flatMap fun span => slice xs span.1 span.2 := by
  induction spans using List.reverseRecOn with
  | nil => rfl
  | append_singleton spans span ih =>
    have hinit : ∀ span' ∈ spans, span'.1 ≤ span'.2 := fun span' hspan' => h span' (List.mem_append_left _ hspan')
    have ih := ih hinit
    rw [runs_snoc, List.flatMap_append, ← ih]
    split
    · rename_i last hlast
      split
      · rename_i habut
        have hle := runs_ordered spans hinit last (List.mem_of_getLast? hlast)
        have hrebuilt := List.dropLast_append_getLast? last hlast
        have hjoin := slice_append xs hle (by rw [habut]; exact h span (by simp) : last.2 ≤ span.2)
        conv_rhs => rw [← hrebuilt]
        rw [List.flatMap_append, List.flatMap_append, List.append_assoc]
        simp only [List.flatMap_singleton]
        rw [← hjoin, habut]
      · rw [List.flatMap_append]
    · rw [List.flatMap_append]

end Spans
