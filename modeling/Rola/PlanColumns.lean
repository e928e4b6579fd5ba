import Rola.PlanWalk

/-!
# The plan's columns

The four offset spaces: the logits' and the values' columns are packed over every level, the midpoint
plane's over the union levels, the support words' over the levels that can be zero. Spans of different
levels are apart in each.
-/

namespace Rola.RoutingPlan

namespace Span

def covers (span : Span) (tensor : Tensor) (column : ℤ) : Prop :=
  span.tensor = tensor ∧ span.start ≤ column ∧ column < span.start + span.width

/-- No column in common. -/
def Apart (a b : Span) : Prop := a.tensor = b.tensor → a.start + a.width ≤ b.start ∨ b.start + b.width ≤ a.start

/-- Inside a tensor of so many columns. -/
def Within (span : Span) (tensor : Tensor) (width : ℕ) : Prop :=
  span.tensor = tensor ∧ 0 ≤ span.start ∧ span.start + span.width ≤ width

theorem Apart.symm {a b : Span} (h : a.Apart b) : b.Apart a := fun heq => (h heq.symm).symm

theorem apart_of_tensor {a b : Span} (h : a.tensor ≠ b.tensor) : a.Apart b := fun heq => absurd heq h

end Span

/-- Can one of a level's factors be zero. -/
def LevelRouting.sparse (level : LevelRouting) : Bool := level.readCanZero || level.writeCanZero

variable {routing : ResolvedRouting}

/-! ### The offsets -/

theorem levelOffsets_getD {n : ℕ} (hn : n ≤ routing.levels.length) : routing.levelOffsets.getD n 0 = levelStart routing n := by
  rw [ResolvedRouting.levelOffsets, Spans.getD_offsets (by rwa [ResolvedRouting.branches, List.length_map])]
  rfl

theorem levelStart_succ {n : ℕ} (hn : n < routing.levels.length) : levelStart routing (n + 1) = levelStart routing n + widthAt routing n :=
  Spans.offset_succ (by rwa [ResolvedRouting.branches, List.length_map])

theorem levelStart_mono {i j : ℕ} (h : i ≤ j) : levelStart routing i ≤ levelStart routing j := Spans.offset_mono h

theorem levelStart_length : levelStart routing routing.levels.length = routing.branches.sum := by
  have hlength : routing.branches.length = routing.levels.length := List.length_map _
  rw [levelStart, List.take_of_length_le (Nat.le_of_eq hlength)]

theorem packedStart_mono (kept : LevelRouting → Bool) {i j : ℕ} (h : i ≤ j) : packedStart routing kept i ≤ packedStart routing kept j := by
  obtain ⟨k, rfl⟩ := Nat.exists_eq_add_of_le h
  rw [packedStart, packedStart, List.take_add, List.filter_append, List.map_append, List.sum_append]
  exact Nat.le_add_right _ _

theorem midpointWidth_eq : routing.midpointWidth = packedStart routing LevelRouting.isUnion routing.levels.length := by
  rw [packedStart, List.take_length]
  rfl

/-- The support words' columns of a level. -/
def supportOffset (routing : ResolvedRouting) (x : LevelRouting × ℕ) : ℤ :=
  if x.1.sparse then (packedStart routing LevelRouting.sparse x.2 : ℤ) else -1

theorem supportFlag_eq_zero (level : LevelRouting) :
    ((if level.readCanZero then 1 else 0) ||| (if level.writeCanZero then 2 else 0) = 0) ↔ level.sparse = false := by
  rw [LevelRouting.sparse]
  cases level.readCanZero <;> cases level.writeCanZero <;> decide

theorem supportOffsets_fold {n : ℕ} (hn : n ≤ routing.levels.length) :
    (routing.levels.take n).foldl (fun (st : List ℤ × ℕ) level =>
        if (if level.readCanZero then 1 else 0) ||| (if level.writeCanZero then 2 else 0) = 0 then (st.1 ++ [-1], st.2)
        else (st.1 ++ [(st.2 : ℤ)], st.2 + level.width)) ([], 0) =
      ((routing.levels.zipIdx.take n).map (supportOffset routing), packedStart routing LevelRouting.sparse n) := by
  induction n with
  | zero => rfl
  | succ n ih =>
    rw [List.take_succ_eq_append_getElem hn, List.foldl_append, ih (by omega), levels_zipIdx hn, List.map_append, List.map_singleton,
      packedStart_succ _ hn, widthAt_eq hn, List.foldl_cons, List.foldl_nil, supportOffset]
    dsimp only
    simp only [supportFlag_eq_zero]
    cases h : routing.levels[n].sparse with
    | false => simp
    | true => simp

theorem supportOffsets_eq : routing.supportOffsets = routing.levels.zipIdx.map (supportOffset routing) := by
  have hfold := @supportOffsets_fold routing _ (Nat.le_refl _)
  rw [List.take_length, List.take_of_length_le (Nat.le_of_eq List.length_zipIdx)] at hfold
  rw [ResolvedRouting.supportOffsets, ResolvedRouting.branches, ResolvedRouting.supportSideFlags, List.zip_map', List.foldl_map, hfold]

theorem supportStart_eq {n : ℕ} (hn : n < routing.levels.length) (hsparse : routing.levels[n].sparse = true) :
    supportStart routing n = packedStart routing LevelRouting.sparse n := by
  rw [supportStart, supportOffsets_eq, List.getD_eq_getElem _ _ (by rwa [List.length_map, List.length_zipIdx]), List.getElem_map,
    List.getElem_zipIdx, Nat.zero_add, supportOffset, if_pos hsparse]

theorem supportWidth_eq : routing.supportWidth = packedStart routing LevelRouting.sparse routing.levels.length := by
  have hbranches : routing.branches = routing.levels.zipIdx.map fun x => x.1.width := by
    conv_lhs => rw [ResolvedRouting.branches, ← List.zipIdx_map_fst 0 routing.levels, List.map_map]
    rfl
  have hkept : ∀ x : LevelRouting × ℕ, decide (0 ≤ supportOffset routing x) = x.1.sparse := by
    intro x
    rw [supportOffset]
    cases x.1.sparse with
    | false => rfl
    | true => exact decide_eq_true (Int.natCast_nonneg _)
  rw [ResolvedRouting.supportWidth, supportOffsets_eq, hbranches, List.zip_map', List.filter_map, List.map_map]
  simp only [Function.comp_def, hkept]
  rw [packedStart, List.take_length]
  conv_rhs => rw [← List.zipIdx_map_fst 0 routing.levels, List.filter_map, List.map_map]
  rfl

/-! ### Spans of levels -/

theorem packed_apart (kept : LevelRouting → Bool) {i j : ℕ} (hi : i < routing.levels.length) (hkept : kept routing.levels[i] = true)
    (hij : i < j) : packedStart routing kept i + widthAt routing i ≤ packedStart routing kept j := by
  have hsucc := packedStart_succ kept hi
  rw [if_pos hkept] at hsucc
  rw [← hsucc]
  exact packedStart_mono kept hij

theorem levelStart_apart {i j : ℕ} (hi : i < routing.levels.length) (hij : i < j) :
    levelStart routing i + widthAt routing i ≤ levelStart routing j := by
  rw [← levelStart_succ hi]
  exact levelStart_mono hij

theorem logitSpan_apart {i j : ℕ} (hi : i < routing.levels.length) (hij : i < j) (a b : Tensor) :
    (logitSpan routing a i).Apart (logitSpan routing b j) := by
  intro _
  have h := levelStart_apart hi hij
  left
  unfold logitSpan
  dsimp only
  omega

theorem valueSpan_apart {i j : ℕ} (hj : j < routing.levels.length) (hij : i < j) (a b : Tensor) :
    (valueSpan routing a i).Apart (valueSpan routing b j) := by
  intro _
  have h := levelStart_apart (Nat.lt_trans hij hj) hij
  left
  unfold valueSpan
  dsimp only
  rw [levelOffsets_getD (by omega), levelOffsets_getD (by omega)]
  omega

theorem midpointSpan_apart {i j : ℕ} (hi : i < routing.levels.length) (hunion : routing.levels[i].isUnion = true) (hij : i < j) :
    (midpointSpan routing i).Apart (midpointSpan routing j) := by
  intro _
  have h := packed_apart LevelRouting.isUnion hi hunion hij
  left
  unfold midpointSpan midpointStart
  dsimp only
  omega

theorem supportSpan_apart {i j : ℕ} (hi : i < routing.levels.length) (hj : j < routing.levels.length)
    (hsparse : routing.levels[i].sparse = true) (hsparse' : routing.levels[j].sparse = true) (hij : i < j) :
    (supportSpan routing i).Apart (supportSpan routing j) := by
  intro _
  have h := packed_apart LevelRouting.sparse hi hsparse hij
  left
  unfold supportSpan
  dsimp only
  rw [supportStart_eq hi hsparse, supportStart_eq hj hsparse']
  omega

theorem valueSpan_within {n : ℕ} (hn : n < routing.levels.length) (tensor : Tensor) :
    (valueSpan routing tensor n).Within tensor (routing.levelOffsets.getLastD 0) := by
  have h := levelStart_apart hn hn
  rw [levelStart_length, ← Spans.offsets_last] at h
  refine ⟨rfl, ?_, ?_⟩
  · exact Int.natCast_nonneg _
  · unfold valueSpan
    dsimp only
    rw [levelOffsets_getD (by omega)]
    exact_mod_cast h

theorem midpointSpan_within {n : ℕ} (hn : n < routing.levels.length) (hunion : routing.levels[n].isUnion = true) :
    (midpointSpan routing n).Within .midpoints routing.midpointWidth := by
  have h := packed_apart LevelRouting.isUnion hn hunion hn
  rw [← midpointWidth_eq] at h
  refine ⟨rfl, Int.natCast_nonneg _, ?_⟩
  unfold midpointSpan midpointStart
  dsimp only
  exact_mod_cast h

theorem supportSpan_within {n : ℕ} (hn : n < routing.levels.length) (hsparse : routing.levels[n].sparse = true) :
    (supportSpan routing n).Within .supportWords routing.supportWidth := by
  have h := packed_apart LevelRouting.sparse hn hsparse hn
  rw [← supportWidth_eq] at h
  unfold supportSpan Span.Within
  dsimp only
  rw [supportStart_eq hn hsparse]
  exact ⟨rfl, Int.natCast_nonneg _, by exact_mod_cast h⟩

/-- Every column of an output is a level's. -/
theorem exists_level_covers {column : ℕ} (hcolumn : column < routing.branches.sum) :
    ∃ n, n < routing.levels.length ∧ levelStart routing n ≤ column ∧ column < levelStart routing n + widthAt routing n := by
  have hsearch : ∀ n, n ≤ routing.levels.length → column < levelStart routing n →
      ∃ i, i < n ∧ levelStart routing i ≤ column ∧ column < levelStart routing i + widthAt routing i := by
    intro n hn hlt
    induction n with
    | zero => exact absurd hlt (Nat.not_lt_zero _)
    | succ n ih =>
      rw [levelStart_succ hn] at hlt
      by_cases hle : levelStart routing n ≤ column
      · exact ⟨n, Nat.lt_succ_self n, hle, hlt⟩
      · obtain ⟨i, hi, h⟩ := ih (by omega) (by omega)
        exact ⟨i, Nat.lt_succ_of_lt hi, h⟩
  refine hsearch _ (Nat.le_refl _) ?_
  rwa [levelStart_length]

/-- What each level has apart from the others' is apart in all. -/
theorem pairwise_levels {β : Type} {R : β → β → Prop} {f : LevelRouting × ℕ → List β}
    (hself : ∀ n (hn : n < routing.levels.length), (f (routing.levels[n], n)).Pairwise R)
    (hlevels : ∀ i j (hi : i < routing.levels.length) (hj : j < routing.levels.length), i < j → ∀ a ∈ f (routing.levels[i], i),
      ∀ b ∈ f (routing.levels[j], j), R a b) : (routing.levels.zipIdx.flatMap f).Pairwise R := by
  have hget : ∀ n (hn : n < routing.levels.zipIdx.length), routing.levels.zipIdx[n] =
      (getElem routing.levels n (by rwa [List.length_zipIdx] at hn), n) := by
    intro n hn
    rw [List.getElem_zipIdx, Nat.zero_add]
  rw [List.pairwise_flatMap]
  refine ⟨fun x hx => ?_, List.pairwise_iff_getElem.2 fun i j hi hj hij => ?_⟩
  · obtain ⟨n, hn, rfl⟩ := List.getElem_of_mem hx
    rw [hget]
    exact hself n (by rwa [List.length_zipIdx] at hn)
  · rw [hget, hget]
    exact hlevels i j (by rwa [List.length_zipIdx] at hi) (by rwa [List.length_zipIdx] at hj) hij

end Rola.RoutingPlan
