import Rola.PlanBatching

/-!
# The walks' solves

Level by level, a forward walk adds the solves of the per-level definition at the level's own columns, and
the backward walk's launches are those solves' own.
-/

namespace Rola.RoutingPlan

section Levels

variable (routing : ResolvedRouting)

/-- Where a level's columns begin: of the logits and values, of a plane packed over the kept levels alone, of
the midpoint plane and of the support words. -/
def levelStart (index : ℕ) : ℕ := (routing.branches.take index).sum

def packedStart (kept : LevelRouting → Bool) (index : ℕ) : ℕ := (((routing.levels.take index).filter kept).map LevelRouting.width).sum

def midpointStart (index : ℕ) : ℕ := packedStart routing LevelRouting.isUnion index

def supportStart (index : ℕ) : ℤ := routing.supportOffsets.getD index (-1)

def widthAt (index : ℕ) : ℕ := routing.branches.getD index 0

/-- A level's columns of a tensor. -/
def logitSpan (tensor : Tensor) (index : ℕ) : Span := ⟨tensor, levelStart routing index, widthAt routing index⟩

def valueSpan (tensor : Tensor) (index : ℕ) : Span := ⟨tensor, routing.levelOffsets.getD index 0, widthAt routing index⟩

def midpointSpan (index : ℕ) : Span := ⟨.midpoints, midpointStart routing index, widthAt routing index⟩

def supportSpan (index : ℕ) : Span := ⟨.supportWords, supportStart routing index, widthAt routing index⟩

/-- The union levels before a level. -/
def unionLevels (index : ℕ) : List (LevelRouting × ℕ) := (routing.levels.zipIdx.take index).filter fun x => x.1.isUnion

/-- A level-side solved alone. -/
def factorSolve (op : Activation) (source : Tensor) (outputs : List Tensor) (index : ℕ) : Solve where
  stores := outputs.map fun output => (valueSpan routing output index, .activation op (logitSpan routing source index))
  logits := [logitSpan routing source index]
  midpoint := []
  support := if op.exactZeros then [supportSpan routing index] else []

/-- A level's solves, by themselves. -/
def levelSolves (shared : Bool) (level : LevelRouting) (index : ℕ) : List Solve :=
  match level with
  | .union _ alpha =>
    [{ stores := [(valueSpan routing .readValues index,
          .unionRead alpha (logitSpan routing .readLogits index) (logitSpan routing .writeLogits index)),
        (valueSpan routing .writeValues index,
          .unionWrite alpha (logitSpan routing .readLogits index) (logitSpan routing .writeLogits index))]
       logits := [logitSpan routing .readLogits index, logitSpan routing .writeLogits index]
       midpoint := [midpointSpan routing index]
       support := [supportSpan routing index] }]
  | .tied _ op => [factorSolve routing op .writeLogits (if shared then [.readValues] else [.readValues, .writeValues]) index]
  | .independent _ read write =>
    [factorSolve routing read .readLogits [.readValues] index, factorSolve routing write .writeLogits [.writeValues] index]

/-- A level-side's backward, at the level's columns. -/
def factorGrad (op : Activation) (output : Tensor) (cotangents : List Tensor) (target : Tensor) (index : ℕ) : Grad :=
  gradFactor op output cotangents target (widthAt routing index) (levelStart routing index) (routing.levelOffsets.getD index 0)
    (supportStart routing index)

/-- A level's backward launches, by themselves. -/
def levelGrads (level : LevelRouting) (index : ℕ) : List Grad :=
  match level with
  | .union _ alpha =>
    [{ kind := .union
       alpha := some alpha
       logits := [logitSpan routing .readLogits index, logitSpan routing .writeLogits index]
       outputs := [valueSpan routing .readValues index, valueSpan routing .writeValues index]
       cotangents := [valueSpan routing .readValues index, valueSpan routing .writeValues index]
       midpoint := [midpointSpan routing index]
       support := [supportSpan routing index]
       targets := [logitSpan routing .readLogits index, logitSpan routing .writeLogits index] }]
  | .tied _ op => [factorGrad routing op .readValues [.readValues, .writeValues] .writeLogits index]
  | .independent _ read write =>
    [factorGrad routing read .readValues [.readValues] .readLogits index,
      factorGrad routing write .writeValues [.writeValues] .writeLogits index]

end Levels

variable {routing : ResolvedRouting} {id : Tensor → ℕ} {shared : Bool} {heads : ℕ}

theorem levels_zipIdx {n : ℕ} (hn : n < routing.levels.length) : routing.levels.zipIdx.take (n + 1) =
    routing.levels.zipIdx.take n ++ [(routing.levels[n], n)] := by
  rw [List.take_succ_eq_append_getElem (by rwa [List.length_zipIdx]), List.getElem_zipIdx, Nat.zero_add]

theorem widthAt_eq {n : ℕ} (hn : n < routing.levels.length) : widthAt routing n = routing.levels[n].width := by
  rw [widthAt, ResolvedRouting.branches, List.getD_eq_getElem _ _ (by rwa [List.length_map]), List.getElem_map]

theorem packedStart_succ (kept : LevelRouting → Bool) {n : ℕ} (hn : n < routing.levels.length) : packedStart routing kept (n + 1) =
    packedStart routing kept n + if kept routing.levels[n] then widthAt routing n else 0 := by
  rw [packedStart, List.take_succ_eq_append_getElem hn, List.filter_append, List.map_append, List.sum_append, widthAt_eq hn]
  refine congrArg (_ + ·) ?_
  cases h : kept routing.levels[n] <;> simp [h]

theorem midpointStart_succ {n : ℕ} (hn : n < routing.levels.length) : midpointStart routing (n + 1) =
    midpointStart routing n + if routing.levels[n].isUnion then widthAt routing n else 0 := packedStart_succ _ hn

theorem unionLevels_succ {n : ℕ} (hn : n < routing.levels.length) : unionLevels routing (n + 1) =
    unionLevels routing n ++ if routing.levels[n].isUnion then [(routing.levels[n], n)] else [] := by
  rw [unionLevels, levels_zipIdx hn, List.filter_append, List.filter_singleton, cond_eq_ite]
  rfl

/-! ### The forward -/

/-- What a level's columns are added as. -/
theorem addFactor_issue {plan : Plan} (h : plan.Inv id shared) (hid : shared = false → id .readValues ≠ id .writeValues)
    {op : Activation} {source output : Tensor} {second : Option Tensor} {index : ℕ}
    (hentmax : [some source, some output, second, some .supportWords] ∈ operandsOf shared .entmax)
    (hsoftmax : [some source, some output, second] ∈ operandsOf shared .softmax) :
    (plan.addFactor id heads op source output second (widthAt routing index) (levelStart routing index)
        (routing.levelOffsets.getD index 0) (supportStart routing index)).Inv id shared ∧
      (plan.addFactor id heads op source output second (widthAt routing index) (levelStart routing index)
        (routing.levelOffsets.getD index 0) (supportStart routing index)).issue.Perm
        (plan.issue ++ [factorSolve routing op source (output :: second.toList) index]) := by
  cases op with
  | entmax alpha =>
    refine ⟨h.add hentmax, (Plan.issue_add h hid hentmax).trans (List.Perm.of_eq (congrArg (fun solve => _ ++ [solve]) ?_))⟩
    cases second <;> rfl
  | softmax =>
    refine ⟨h.add hsoftmax, (Plan.issue_add h hid hsoftmax).trans (List.Perm.of_eq (congrArg (fun solve => _ ++ [solve]) ?_))⟩
    cases second <;> rfl

/-- The walk's state before a level. -/
structure WalkInv (routing : ResolvedRouting) (id : Tensor → ℕ) (shared : Bool) (n : ℕ) (st : Walk) : Prop where
  plan : st.plan.Inv id shared
  issue : st.plan.issue.Perm ((routing.levels.zipIdx.take n).flatMap fun x => levelSolves routing shared x.1 x.2)
  midpointOffset : st.midpointOffset = midpointStart routing n
  midpointOffsets : st.midpointOffsets = (unionLevels routing n).map fun x => midpointStart routing x.2

theorem WalkInv.step {n : ℕ} {st : Walk} (h : WalkInv routing id shared n st)
    (hid : shared = false → id .readValues ≠ id .writeValues) (hshared : shared = true → ∀ level ∈ routing.levels, level.isTied = true)
    (hn : n < routing.levels.length) :
    WalkInv routing id shared (n + 1) (walkLevel id shared heads false routing st n routing.levels[n]) := by
  have hissue : ∀ {plan : Plan}, plan.issue.Perm (st.plan.issue ++ levelSolves routing shared routing.levels[n] n) →
      plan.issue.Perm ((routing.levels.zipIdx.take (n + 1)).flatMap fun x => levelSolves routing shared x.1 x.2) := by
    intro plan hplan
    rw [levels_zipIdx hn, List.flatMap_append, List.flatMap_singleton]
    exact hplan.trans (h.issue.append_right _)
  have hmidpoint := midpointStart_succ hn
  have hunions := unionLevels_succ hn
  have hwidth := widthAt_eq hn
  have hmem := List.getElem_mem hn
  generalize routing.levels[n] = level at *
  cases level with
  | union width alpha =>
    have hnot : shared = false := by
      cases shared with
      | false => rfl
      | true => exact absurd (hshared rfl _ hmem) Bool.false_ne_true
    subst hnot
    have hoperands : [some Tensor.readLogits, some .writeLogits, some .midpoints, some .supportWords, some .readValues, some .writeValues] ∈
        operandsOf false .union := by simp [operandsOf]
    refine ⟨h.plan.add hoperands, hissue ((Plan.issue_add h.plan hid hoperands).trans (List.Perm.of_eq ?_)), ?_, ?_⟩
    · rw [h.midpointOffset]
      rfl
    · rw [hmidpoint, ← h.midpointOffset]
      rfl
    · rw [hunions, List.map_append, ← h.midpointOffsets]
      exact congrArg (fun offset => st.midpointOffsets ++ [offset]) h.midpointOffset
  | tied width op =>
    have hentmax : [some Tensor.writeLogits, some .readValues, if shared then none else some .writeValues, some .supportWords] ∈
        operandsOf shared .entmax := by cases shared <;> simp [operandsOf]
    have hsoftmax : [some Tensor.writeLogits, some .readValues, if shared then none else some .writeValues] ∈
        operandsOf shared .softmax := by cases shared <;> simp [operandsOf]
    obtain ⟨hinv, hperm⟩ := @addFactor_issue routing id shared heads st.plan h.plan hid op _ _ _ n hentmax hsoftmax
    refine ⟨hinv, hissue (hperm.trans (List.Perm.of_eq ?_)), ?_, ?_⟩
    · cases shared <;> rfl
    · rw [hmidpoint, ← h.midpointOffset]
      rfl
    · rw [hunions, List.map_append, ← h.midpointOffsets]
      exact (List.append_nil _).symm
  | independent width read write =>
    have hnot : shared = false := by
      cases shared with
      | false => rfl
      | true => exact absurd (hshared rfl _ hmem) Bool.false_ne_true
    subst hnot
    obtain ⟨hinv, hperm⟩ := @addFactor_issue routing id false heads st.plan h.plan hid read .readLogits .readValues none n
      (by simp [operandsOf]) (by simp [operandsOf])
    obtain ⟨hinv', hperm'⟩ := @addFactor_issue routing id false heads _ hinv hid write .writeLogits .writeValues none n
      (by simp [operandsOf]) (by simp [operandsOf])
    refine ⟨hinv', hissue (hperm'.trans ((hperm.append_right _).trans (List.Perm.of_eq ?_))), ?_, ?_⟩
    · rw [List.append_assoc]
      rfl
    · rw [hmidpoint, ← h.midpointOffset]
      rfl
    · rw [hunions, List.map_append, ← h.midpointOffsets]
      exact (List.append_nil _).symm

theorem walk_inv (hid : shared = false → id .readValues ≠ id .writeValues)
    (hshared : shared = true → ∀ level ∈ routing.levels, level.isTied = true) {n : ℕ} (hn : n ≤ routing.levels.length) :
    WalkInv routing id shared n ((routing.levels.zipIdx.take n).foldl
      (fun st x => walkLevel id shared heads false routing st x.2 x.1) ⟨.empty, 0, []⟩) := by
  induction n with
  | zero => exact ⟨Plan.Inv.empty id shared, List.Perm.refl _, rfl, rfl⟩
  | succ n ih =>
    rw [levels_zipIdx hn, List.foldl_append]
    exact (ih (by omega)).step hid hshared hn

/-! ### The backward -/

/-- The columns the forward saved for a union level are the ones it wrote. -/
theorem midpointOffsets_getD {n : ℕ} (hn : n < routing.levels.length) (hunion : routing.levels[n].isUnion = true) :
    ((unionLevels routing routing.levels.length).map fun x => midpointStart routing x.2).getD (unionLevels routing n).length 0 =
      midpointStart routing n := by
  have hsplit : unionLevels routing routing.levels.length = unionLevels routing (n + 1) ++
      (routing.levels.zipIdx.drop (n + 1)).filter fun x => x.1.isUnion := by
    rw [unionLevels, unionLevels, ← List.filter_append, List.take_append_drop, List.take_of_length_le (Nat.le_of_eq List.length_zipIdx)]
  rw [hsplit, unionLevels_succ hn, if_pos hunion, List.append_assoc, List.map_append, List.getD_append_right _ _ _ _ (by simp),
    List.length_map, Nat.sub_self]
  rfl

theorem backward_fold {n : ℕ} (hn : n ≤ routing.levels.length) :
    (routing.levels.zipIdx.take n).foldl (fun st x => gradLevel routing
        ((unionLevels routing routing.levels.length).map fun x => midpointStart routing x.2) st x.2 x.1) (0, []) =
      ((unionLevels routing n).length, (routing.levels.zipIdx.take n).flatMap fun x => levelGrads routing x.1 x.2) := by
  induction n with
  | zero => rfl
  | succ n ih =>
    rw [levels_zipIdx hn, List.foldl_append, ih (by omega), unionLevels_succ hn, List.length_append, List.flatMap_append,
      List.flatMap_singleton, List.foldl_cons, List.foldl_nil]
    have hmidpoint := midpointOffsets_getD hn
    generalize routing.levels[n] = level at *
    cases level with
    | union width alpha =>
      unfold gradLevel
      dsimp only
      rw [hmidpoint rfl]
      rfl
    | tied width op => rfl
    | independent width read write => rfl

theorem backward_eq : backward routing false ((unionLevels routing routing.levels.length).map fun x => midpointStart routing x.2) =
    routing.levels.zipIdx.flatMap fun x => levelGrads routing x.1 x.2 := by
  have hall : routing.levels.zipIdx.take routing.levels.length = routing.levels.zipIdx :=
    List.take_of_length_le (Nat.le_of_eq List.length_zipIdx)
  have hfold := @backward_fold routing _ (Nat.le_refl _)
  rw [hall] at hfold
  rw [backward, if_neg Bool.false_ne_true, hfold]

end Rola.RoutingPlan
