import Mathlib.Data.List.Forall2
import Rola.PlanColumns

/-!
# The batched plan is the per-level definition

The launches of either forward walk, together, store each level's factors where the level lies and nowhere
else, and the backward walk, which recomputes every offset, reads what they stored.
-/

namespace Rola.RoutingPlan

inductive Side where
  | read
  | write
deriving DecidableEq

/-- A level's factor of a side. -/
def factorOf (factors : Factor × Factor) : Side → Factor
  | .read => factors.1
  | .write => factors.2

/-- The tensor a side's factors are stored in. -/
def outputOf (shared : Bool) : Side → Tensor
  | .read => .readValues
  | .write => if shared then .readValues else .writeValues

/-- The outputs one span of storage stands for. -/
def sidesOf (shared : Bool) (span : Span) : List Span :=
  if shared then [{ span with tensor := .readValues }, { span with tensor := .writeValues }] else [span]

/-- The solver and `alpha` of a factor. -/
def Factor.operator : Factor → Kind × Option Alpha
  | unionRead alpha _ _ => (.union, some alpha)
  | unionWrite alpha _ _ => (.union, some alpha)
  | activation (.entmax alpha) _ => (.entmax, some alpha)
  | activation .softmax _ => (.softmax, none)

/-- A backward launch reads what a forward solve wrote, and writes the gradients of what it read. -/
structure Reads (shared : Bool) (grad : Grad) (solve : Solve) : Prop where
  operator : ∀ store ∈ solve.stores, store.2.operator = (grad.kind, grad.alpha)
  support : grad.support = solve.support
  midpoint : grad.midpoint = solve.midpoint
  logits : grad.logits = if grad.kind = .union then solve.logits else []
  outputs : ∀ output ∈ grad.outputs, output ∈ solve.stores.map Prod.fst
  factors : ∀ store ∈ solve.stores, ∃ output ∈ grad.outputs, (output, store.2) ∈ solve.stores
  cotangents : grad.cotangents = solve.stores.flatMap fun store => sidesOf shared store.1
  targets : grad.targets = solve.logits

/-- A forward walk's launches and the backward walk's, against the per-level definition. -/
structure Batched (routing : ResolvedRouting) (shared : Bool) (walk : Walk) (grads : List Grad) : Prop where
  stores : ∀ store, store ∈ walk.plan.issue.flatMap Solve.stores ↔ ∃ side index factors,
    (torchRoutingFactorLevels routing)[index]? = some factors ∧
      store = (valueSpan routing (outputOf shared side) index, factorOf factors side)
  storesApart : ((walk.plan.issue.flatMap Solve.stores).map Prod.fst).Pairwise Span.Apart
  columns : ∀ side, ∀ column < routing.branches.sum,
    ∃ store ∈ walk.plan.issue.flatMap Solve.stores, store.1.covers (outputOf shared side) column
  support : (walk.plan.issue.flatMap Solve.support).Pairwise Span.Apart ∧
    ∀ span ∈ walk.plan.issue.flatMap Solve.support, span.Within .supportWords routing.supportWidth
  midpoint : (walk.plan.issue.flatMap Solve.midpoint).Pairwise Span.Apart ∧
    ∀ span ∈ walk.plan.issue.flatMap Solve.midpoint, span.Within .midpoints routing.midpointWidth
  launches : ∀ launch ∈ walk.plan.issued, launch.entries.length ≤ MAX_BATCHED_LEVELS ∧ ∃ operator padded, ∀ entry ∈ launch.entries,
    widthClass entry.width = padded ∧ ∀ store ∈ (launch.solve entry).stores, store.2.operator = operator
  backward : ∃ solves, walk.plan.issue.Perm solves ∧ List.Forall₂ (Reads shared) grads solves
  targetsApart : (grads.flatMap Grad.targets).Pairwise Span.Apart
  targets : ∀ span, span ∈ grads.flatMap Grad.targets ↔ span ∈ walk.plan.issue.flatMap Solve.logits

variable {routing : ResolvedRouting} {shared : Bool}

/-! ### One level -/

theorem torch_getElem? {n : ℕ} (hn : n < routing.levels.length) : (torchRoutingFactorLevels routing)[n]? =
    some (match routing.levels[n] with
      | .union _ alpha => (.unionRead alpha (logitSpan routing .readLogits n) (logitSpan routing .writeLogits n),
        .unionWrite alpha (logitSpan routing .readLogits n) (logitSpan routing .writeLogits n))
      | .tied _ op => (.activation op (logitSpan routing .writeLogits n), .activation op (logitSpan routing .writeLogits n))
      | .independent _ read write => (.activation read (logitSpan routing .readLogits n),
        .activation write (logitSpan routing .writeLogits n))) := by
  rw [torchRoutingFactorLevels, List.getElem?_map, List.getElem?_eq_getElem (by rwa [List.length_zipIdx]), List.getElem_zipIdx,
    Nat.zero_add]
  rfl

theorem levelSolves_stores (hshared : shared = true → ∀ level ∈ routing.levels, level.isTied = true) {n : ℕ}
    (hn : n < routing.levels.length) (store : Span × Factor) :
    store ∈ (levelSolves routing shared routing.levels[n] n).flatMap Solve.stores ↔ ∃ side factors,
      (torchRoutingFactorLevels routing)[n]? = some factors ∧
        store = (valueSpan routing (outputOf shared side) n, factorOf factors side) := by
  have hboth : ∀ factors : Factor × Factor, (∃ side, store = (valueSpan routing (outputOf shared side) n, factorOf factors side)) ↔
      store = (valueSpan routing (outputOf shared .read) n, factors.1) ∨ store = (valueSpan routing (outputOf shared .write) n, factors.2) := by
    intro factors
    constructor
    · rintro ⟨side, rfl⟩
      cases side with
      | read => exact Or.inl rfl
      | write => exact Or.inr rfl
    · rintro (rfl | rfl)
      · exact ⟨.read, rfl⟩
      · exact ⟨.write, rfl⟩
  have hsome : ∀ factors : Factor × Factor, (torchRoutingFactorLevels routing)[n]? = some factors →
      ((∃ side factors', (torchRoutingFactorLevels routing)[n]? = some factors' ∧
        store = (valueSpan routing (outputOf shared side) n, factorOf factors' side)) ↔
      store = (valueSpan routing (outputOf shared .read) n, factors.1) ∨
        store = (valueSpan routing (outputOf shared .write) n, factors.2)) := by
    intro factors hfactors
    rw [← hboth factors]
    refine exists_congr fun side => ?_
    rw [hfactors]
    constructor
    · rintro ⟨factors', heq, rfl⟩
      cases heq
      rfl
    · rintro rfl
      exact ⟨factors, rfl, rfl⟩
  rw [hsome _ (torch_getElem? hn)]
  have hmem := List.getElem_mem hn
  generalize routing.levels[n] = level at *
  cases level with
  | union width alpha =>
    cases shared with
    | true => exact absurd (hshared rfl _ hmem) Bool.false_ne_true
    | false => simp [levelSolves, outputOf]
  | tied width op => cases shared <;> simp [levelSolves, factorSolve, outputOf]
  | independent width read write =>
    cases shared with
    | true => exact absurd (hshared rfl _ hmem) Bool.false_ne_true
    | false => simp [levelSolves, factorSolve, outputOf]

theorem levelSolves_apart {n : ℕ} (level : LevelRouting) :
    (((levelSolves routing shared level n).flatMap Solve.stores).map Prod.fst).Pairwise Span.Apart := by
  have htwo : [valueSpan routing .readValues n, valueSpan routing .writeValues n].Pairwise Span.Apart :=
    List.pairwise_pair.2 (Span.apart_of_tensor (show Tensor.readValues ≠ .writeValues by decide))
  cases level with
  | union width alpha => exact htwo
  | tied width op =>
    cases shared with
    | true => exact List.pairwise_singleton _ _
    | false => exact htwo
  | independent width read write => exact htwo

theorem levelSolves_support {n : ℕ} (hn : n < routing.levels.length) :
    (levelSolves routing shared routing.levels[n] n).flatMap Solve.support =
      if routing.levels[n].sparse then [supportSpan routing n] else [] := by
  have hmem := List.getElem_mem hn
  generalize routing.levels[n] = level at *
  cases level with
  | union width alpha => rfl
  | tied width op => cases op <;> rfl
  | independent width read write =>
    -- one side at most has zeros, so one solve at most packs support
    have hone := routing.independent width read write hmem
    cases read with
    | softmax => cases write <;> rfl
    | entmax alpha =>
      cases write with
      | softmax => rfl
      | entmax alpha' => cases hone

theorem levelSolves_midpoint {n : ℕ} (level : LevelRouting) :
    (levelSolves routing shared level n).flatMap Solve.midpoint = if level.isUnion then [midpointSpan routing n] else [] := by
  cases level <;> rfl

theorem factorGrad_reads {op : Activation} {output target : Tensor} {outputs cotangents : List Tensor} {n : ℕ}
    (houtput : output ∈ outputs) (hcotangents : cotangents.map (fun tensor => valueSpan routing tensor n) =
      outputs.flatMap fun output => sidesOf shared (valueSpan routing output n)) :
    Reads shared (factorGrad routing op output cotangents target n) (factorSolve routing op target outputs n) := by
  have hgrad : ∀ grad solve, grad = factorGrad routing op output cotangents target n → solve = factorSolve routing op target outputs n →
      Reads shared grad solve := by
    intro grad solve hgrad hsolve
    have hoperator : ∀ store ∈ solve.stores, store.2.operator = (grad.kind, grad.alpha) := by
      intro store hstore
      rw [hsolve] at hstore
      obtain ⟨_, _, rfl⟩ := List.mem_map.1 hstore
      rw [hgrad]
      cases op <;> rfl
    have houtputs : grad.outputs = [valueSpan routing output n] := by
      rw [hgrad]
      cases op <;> rfl
    refine ⟨hoperator, ?_, ?_, ?_, ?_, ?_, ?_, ?_⟩
    · rw [hgrad, hsolve]
      cases op <;> rfl
    · rw [hgrad, hsolve]
      cases op <;> rfl
    · rw [hgrad]
      cases op <;> rfl
    · intro span hspan
      rw [houtputs, List.mem_singleton] at hspan
      rw [hspan, hsolve, factorSolve, List.map_map]
      exact List.mem_map.2 ⟨output, houtput, rfl⟩
    · intro store hstore
      rw [hsolve] at hstore ⊢
      obtain ⟨_, _, rfl⟩ := List.mem_map.1 hstore
      refine ⟨valueSpan routing output n, ?_, List.mem_map.2 ⟨output, houtput, rfl⟩⟩
      rw [houtputs]
      exact List.mem_singleton_self _
    · rw [hsolve, factorSolve, List.flatMap_map, ← hcotangents, hgrad]
      cases op <;> rfl
    · rw [hgrad, hsolve]
      cases op <;> rfl
  exact hgrad _ _ rfl rfl

theorem level_reads (hshared : shared = true → ∀ level ∈ routing.levels, level.isTied = true) {n : ℕ} (hn : n < routing.levels.length) :
    List.Forall₂ (Reads shared) (levelGrads routing routing.levels[n] n) (levelSolves routing shared routing.levels[n] n) := by
  have hmem := List.getElem_mem hn
  generalize routing.levels[n] = level at *
  cases level with
  | union width alpha =>
    cases shared with
    | true => exact absurd (hshared rfl _ hmem) Bool.false_ne_true
    | false =>
      refine List.Forall₂.cons ⟨?_, rfl, rfl, rfl, ?_, ?_, rfl, rfl⟩ List.Forall₂.nil
      · simp [Factor.operator]
      · simp
      · simp
  | tied width op =>
    refine List.Forall₂.cons (factorGrad_reads ?_ ?_) List.Forall₂.nil
    · cases shared <;> simp
    · cases shared <;> rfl
  | independent width read write =>
    cases shared with
    | true => exact absurd (hshared rfl _ hmem) Bool.false_ne_true
    | false =>
      exact List.Forall₂.cons (factorGrad_reads (List.mem_singleton_self _) rfl)
        (List.Forall₂.cons (factorGrad_reads (List.mem_singleton_self _) rfl) List.Forall₂.nil)

theorem levelGrads_apart {n : ℕ} (level : LevelRouting) : ((levelGrads routing level n).flatMap Grad.targets).Pairwise Span.Apart := by
  have htwo : [logitSpan routing .readLogits n, logitSpan routing .writeLogits n].Pairwise Span.Apart :=
    List.pairwise_pair.2 (Span.apart_of_tensor (show Tensor.readLogits ≠ .writeLogits by decide))
  cases level with
  | union width alpha => exact htwo
  | tied width op => cases op <;> exact List.pairwise_singleton _ _
  | independent width read write => cases read <;> cases write <;> exact htwo

/-! ### One launch -/

theorem launch_batched {launch : Launch} (h : launch.Wf shared) : launch.entries.length ≤ MAX_BATCHED_LEVELS ∧
    ∃ operator padded, ∀ entry ∈ launch.entries, widthClass entry.width = padded ∧
      ∀ store ∈ (launch.solve entry).stores, store.2.operator = operator := by
  obtain ⟨padded, hpadded⟩ := h.widthClass
  have hoperator : ∃ operator, ∀ entry, ∀ store ∈ (launch.solve entry).stores, store.2.operator = operator := by
    refine ⟨(launch.kind, if launch.kind = .softmax then none else launch.alpha), fun entry store hstore => ?_⟩
    unfold Launch.solve at hstore
    split at hstore
    · rename_i hkind halpha _
      rw [hkind, halpha]
      dsimp only at hstore
      rcases List.mem_append.1 hstore with hstore | hstore
      · obtain ⟨_, _, rfl⟩ := List.mem_map.1 hstore
        rfl
      · obtain ⟨_, _, rfl⟩ := List.mem_map.1 hstore
        rfl
    · rename_i hkind halpha _
      rw [hkind, halpha]
      obtain ⟨_, _, hstore⟩ := List.mem_flatMap.1 hstore
      obtain ⟨_, _, rfl⟩ := List.mem_map.1 hstore
      rfl
    · rename_i hkind _
      rw [hkind]
      obtain ⟨_, _, hstore⟩ := List.mem_flatMap.1 hstore
      obtain ⟨_, _, rfl⟩ := List.mem_map.1 hstore
      rfl
    · exact absurd hstore List.not_mem_nil
  obtain ⟨operator, hoperator⟩ := hoperator
  exact ⟨h.length_le, operator, padded, fun entry hentry => ⟨hpadded entry hentry, hoperator entry⟩⟩

/-! ### The walks -/

theorem mem_flatMap_levels {β : Type} {f : LevelRouting × ℕ → List β} {b : β} :
    b ∈ routing.levels.zipIdx.flatMap f ↔ ∃ n, ∃ hn : n < routing.levels.length, b ∈ f (routing.levels[n], n) := by
  rw [List.mem_flatMap]
  constructor
  · rintro ⟨x, hx, hb⟩
    obtain ⟨n, hn, rfl⟩ := List.getElem_of_mem hx
    rw [List.getElem_zipIdx, Nat.zero_add] at hb
    exact ⟨n, by rwa [List.length_zipIdx] at hn, hb⟩
  · rintro ⟨n, hn, hb⟩
    refine ⟨(routing.levels[n], n), ?_, hb⟩
    rw [List.mem_iff_getElem]
    exact ⟨n, by rwa [List.length_zipIdx], by rw [List.getElem_zipIdx, Nat.zero_add]⟩

/-- The solves of all levels, in order. -/
abbrev solvesOf (routing : ResolvedRouting) (shared : Bool) : List Solve :=
  routing.levels.zipIdx.flatMap fun x => levelSolves routing shared x.1 x.2

theorem mem_solvesOf {β : Type} {field : Solve → List β} {b : β} : b ∈ (solvesOf routing shared).flatMap field ↔
    ∃ n, ∃ hn : n < routing.levels.length, b ∈ (levelSolves routing shared routing.levels[n] n).flatMap field := by
  rw [solvesOf, List.flatMap_assoc, mem_flatMap_levels]

theorem solvesOf_stores (hshared : shared = true → ∀ level ∈ routing.levels, level.isTied = true) (store : Span × Factor) :
    store ∈ (solvesOf routing shared).flatMap Solve.stores ↔ ∃ side index factors,
      (torchRoutingFactorLevels routing)[index]? = some factors ∧
        store = (valueSpan routing (outputOf shared side) index, factorOf factors side) := by
  rw [mem_solvesOf]
  constructor
  · rintro ⟨n, hn, hstore⟩
    obtain ⟨side, factors, h⟩ := (levelSolves_stores hshared hn store).1 hstore
    exact ⟨side, n, factors, h⟩
  · rintro ⟨side, n, factors, hfactors, hstore⟩
    have hn : n < routing.levels.length := by
      have hlt := (List.getElem?_eq_some_iff.1 hfactors).1
      rwa [torchRoutingFactorLevels, List.length_map, List.length_zipIdx] at hlt
    exact ⟨n, hn, (levelSolves_stores hshared hn store).2 ⟨side, factors, hfactors, hstore⟩⟩

theorem store_span {n : ℕ} {level : LevelRouting} {span : Span}
    (h : span ∈ ((levelSolves routing shared level n).flatMap Solve.stores).map Prod.fst) : ∃ tensor, span = valueSpan routing tensor n := by
  cases level with
  | union width alpha =>
    simp only [levelSolves, List.flatMap_cons, List.flatMap_nil, List.append_nil, List.map_cons, List.map_nil, List.mem_cons,
      List.not_mem_nil, or_false] at h
    rcases h with rfl | rfl
    · exact ⟨_, rfl⟩
    · exact ⟨_, rfl⟩
  | tied width op =>
    simp only [levelSolves, factorSolve, List.flatMap_cons, List.flatMap_nil, List.append_nil, List.map_map, List.mem_map] at h
    obtain ⟨tensor, -, rfl⟩ := h
    exact ⟨tensor, rfl⟩
  | independent width read write =>
    simp only [levelSolves, factorSolve, List.flatMap_cons, List.flatMap_nil, List.append_nil, List.map_cons, List.map_nil,
      List.map_append, List.mem_append, List.mem_singleton] at h
    rcases h with rfl | rfl
    · exact ⟨_, rfl⟩
    · exact ⟨_, rfl⟩

theorem solvesOf_storesApart : (((solvesOf routing shared).flatMap Solve.stores).map Prod.fst).Pairwise Span.Apart := by
  rw [solvesOf, List.flatMap_assoc, List.map_flatMap]
  refine pairwise_levels (fun n _ => levelSolves_apart _) fun i j hi hj hij a ha b hb => ?_
  obtain ⟨tensor, rfl⟩ := store_span ha
  obtain ⟨tensor', rfl⟩ := store_span hb
  exact valueSpan_apart hj hij tensor tensor'

theorem solvesOf_support : ((solvesOf routing shared).flatMap Solve.support).Pairwise Span.Apart ∧
    ∀ span ∈ (solvesOf routing shared).flatMap Solve.support, span.Within .supportWords routing.supportWidth := by
  have hmem : ∀ {n : ℕ} (hn : n < routing.levels.length) {span : Span},
      span ∈ (levelSolves routing shared routing.levels[n] n).flatMap Solve.support →
        routing.levels[n].sparse = true ∧ span = supportSpan routing n := by
    intro n hn span hspan
    rw [levelSolves_support hn] at hspan
    cases hsparse : routing.levels[n].sparse with
    | false =>
      rw [hsparse] at hspan
      exact absurd hspan List.not_mem_nil
    | true =>
      rw [hsparse] at hspan
      exact ⟨rfl, List.mem_singleton.1 hspan⟩
  constructor
  · rw [solvesOf, List.flatMap_assoc]
    refine pairwise_levels (fun n hn => ?_) fun i j hi hj hij a ha b hb => ?_
    · rw [levelSolves_support hn]
      split
      · exact List.pairwise_singleton _ _
      · exact List.Pairwise.nil
    · obtain ⟨hsparse, rfl⟩ := hmem hi ha
      obtain ⟨hsparse', rfl⟩ := hmem hj hb
      exact supportSpan_apart hi hj hsparse hsparse' hij
  · intro span hspan
    obtain ⟨n, hn, hspan⟩ := mem_solvesOf.1 hspan
    obtain ⟨hsparse, rfl⟩ := hmem hn hspan
    exact supportSpan_within hn hsparse

theorem solvesOf_midpoint : ((solvesOf routing shared).flatMap Solve.midpoint).Pairwise Span.Apart ∧
    ∀ span ∈ (solvesOf routing shared).flatMap Solve.midpoint, span.Within .midpoints routing.midpointWidth := by
  have hmem : ∀ {n : ℕ} (hn : n < routing.levels.length) {span : Span},
      span ∈ (levelSolves routing shared routing.levels[n] n).flatMap Solve.midpoint →
        routing.levels[n].isUnion = true ∧ span = midpointSpan routing n := by
    intro n hn span hspan
    rw [levelSolves_midpoint] at hspan
    cases hunion : routing.levels[n].isUnion with
    | false =>
      rw [hunion] at hspan
      exact absurd hspan List.not_mem_nil
    | true =>
      rw [hunion] at hspan
      exact ⟨rfl, List.mem_singleton.1 hspan⟩
  constructor
  · rw [solvesOf, List.flatMap_assoc]
    refine pairwise_levels (fun n hn => ?_) fun i j hi hj hij a ha b hb => ?_
    · rw [levelSolves_midpoint]
      split
      · exact List.pairwise_singleton _ _
      · exact List.Pairwise.nil
    · obtain ⟨hunion, rfl⟩ := hmem hi ha
      obtain ⟨-, rfl⟩ := hmem hj hb
      exact midpointSpan_apart hi hunion hij
  · intro span hspan
    obtain ⟨n, hn, hspan⟩ := mem_solvesOf.1 hspan
    obtain ⟨hunion, rfl⟩ := hmem hn hspan
    exact midpointSpan_within hn hunion

theorem solvesOf_reads (hshared : shared = true → ∀ level ∈ routing.levels, level.isTied = true) :
    List.Forall₂ (Reads shared) (routing.levels.zipIdx.flatMap fun x => levelGrads routing x.1 x.2) (solvesOf routing shared) := by
  have hlevels : ∀ n ≤ routing.levels.length, List.Forall₂ (Reads shared)
      ((routing.levels.zipIdx.take n).flatMap fun x => levelGrads routing x.1 x.2)
      ((routing.levels.zipIdx.take n).flatMap fun x => levelSolves routing shared x.1 x.2) := by
    intro n hn
    induction n with
    | zero => exact List.Forall₂.nil
    | succ n ih =>
      rw [levels_zipIdx hn, List.flatMap_append, List.flatMap_append, List.flatMap_singleton, List.flatMap_singleton]
      exact List.rel_append (ih (by omega)) (level_reads hshared hn)
  have h := hlevels _ (Nat.le_refl _)
  rwa [List.take_of_length_le (Nat.le_of_eq List.length_zipIdx)] at h

theorem grads_targets {grads : List Grad} {solves : List Solve} (h : List.Forall₂ (Reads shared) grads solves) :
    grads.flatMap Grad.targets = solves.flatMap Solve.logits := by
  induction h with
  | nil => rfl
  | cons hread _ ih => rw [List.flatMap_cons, List.flatMap_cons, hread.targets, ih]

theorem target_span {n : ℕ} {level : LevelRouting} {span : Span}
    (h : span ∈ (levelGrads routing level n).flatMap Grad.targets) : ∃ tensor, span = logitSpan routing tensor n := by
  cases level with
  | union width alpha =>
    simp only [levelGrads, List.flatMap_cons, List.flatMap_nil, List.append_nil, List.mem_cons, List.not_mem_nil, or_false] at h
    rcases h with rfl | rfl
    · exact ⟨_, rfl⟩
    · exact ⟨_, rfl⟩
  | tied width op => cases op <;> exact ⟨_, List.mem_singleton.1 h⟩
  | independent width read write =>
    have htwo : span ∈ [logitSpan routing .readLogits n, logitSpan routing .writeLogits n] := by
      cases read <;> cases write <;> exact h
    rcases List.mem_cons.1 htwo with rfl | htwo
    · exact ⟨_, rfl⟩
    · exact ⟨_, List.mem_singleton.1 htwo⟩

theorem grads_apart :
    ((routing.levels.zipIdx.flatMap fun x => levelGrads routing x.1 x.2).flatMap Grad.targets).Pairwise Span.Apart := by
  rw [List.flatMap_assoc]
  refine pairwise_levels (fun n _ => levelGrads_apart _) fun i j hi hj hij a ha b hb => ?_
  obtain ⟨tensor, rfl⟩ := target_span ha
  obtain ⟨tensor', rfl⟩ := target_span hb
  exact logitSpan_apart hi hij tensor tensor'

theorem walk_batched {id : Tensor → ℕ} {heads : ℕ} (hid : shared = false → id .readValues ≠ id .writeValues)
    (hshared : shared = true → ∀ level ∈ routing.levels, level.isTied = true) :
    Batched routing shared (walk id shared heads false routing)
      (backward routing false (walk id shared heads false routing).midpointOffsets) := by
  have hall : routing.levels.zipIdx.take routing.levels.length = routing.levels.zipIdx :=
    List.take_of_length_le (Nat.le_of_eq List.length_zipIdx)
  have hinv : WalkInv routing id shared routing.levels.length (walk id shared heads false routing) := by
    have h := @walk_inv routing id shared heads hid hshared _ (Nat.le_refl _)
    rwa [hall] at h
  have hissue : (walk id shared heads false routing).plan.issue.Perm (solvesOf routing shared) := by
    have h := hinv.issue
    rwa [hall] at h
  rw [hinv.midpointOffsets, backward_eq]
  have hmem : ∀ {β : Type} {field : Solve → List β} {b : β}, b ∈ (walk id shared heads false routing).plan.issue.flatMap field ↔
      b ∈ (solvesOf routing shared).flatMap field := fun {β field b} => (hissue.flatMap_right field).mem_iff
  have hapart : ∀ {field : Solve → List Span}, ((solvesOf routing shared).flatMap field).Pairwise Span.Apart →
      ((walk id shared heads false routing).plan.issue.flatMap field).Pairwise Span.Apart :=
    fun h => ((hissue.flatMap_right _).pairwise_iff Span.Apart.symm).2 h
  have hreads := solvesOf_reads hshared
  refine ⟨fun store => ?_, ?_, fun side column hcolumn => ?_, ?_, ?_, fun launch hlaunch => ?_, ?_, grads_apart, fun span => ?_⟩
  · rw [hmem]
    exact solvesOf_stores hshared store
  · exact (((hissue.flatMap_right _).map Prod.fst).pairwise_iff Span.Apart.symm).2 solvesOf_storesApart
  · obtain ⟨n, hn, hle, hlt⟩ := exists_level_covers hcolumn
    have hlength : n < (torchRoutingFactorLevels routing).length := by
      rwa [torchRoutingFactorLevels, List.length_map, List.length_zipIdx]
    refine ⟨_, hmem.2 ((solvesOf_stores hshared _).2 ⟨side, n, _, List.getElem?_eq_getElem hlength, rfl⟩), rfl, ?_, ?_⟩
    · rw [valueSpan, levelOffsets_getD (by omega)]
      exact Int.ofNat_le.2 hle
    · rw [valueSpan, levelOffsets_getD (by omega)]
      exact Int.ofNat_lt.2 hlt
  · exact ⟨hapart solvesOf_support.1, fun span hspan => solvesOf_support.2 span (hmem.1 hspan)⟩
  · exact ⟨hapart solvesOf_midpoint.1, fun span hspan => solvesOf_midpoint.2 span (hmem.1 hspan)⟩
  · exact launch_batched (hinv.plan.launches launch hlaunch)
  · exact ⟨_, hissue, hreads⟩
  · rw [hmem, grads_targets hreads]

/-! ### Layouts -/

/-- A launch reads the rows of the flat plane, in either layout. -/
theorem Layout.launchRow_eq (layout : Layout) {stream token : ℕ} (hstream : stream < layout.arenaShape.1)
    (htoken : token < layout.arenaShape.2) : layout.launchRow stream token = layout.flatRow stream token := by
  cases layout with
  | flat streams tokens =>
    unfold Layout.launchRow Layout.flatRow Layout.heads
    simp
  | tokenMajor batch tokens heads =>
    replace htoken : token < tokens := htoken
    have hpos : 0 < tokens := Nat.lt_of_le_of_lt (Nat.zero_le _) htoken
    have hrow : (stream * tokens + token) / tokens = stream := by
      rw [Nat.mul_comm, Nat.mul_add_div hpos, Nat.div_eq_of_lt htoken, Nat.add_zero]
    unfold Layout.launchRow Layout.flatRow Layout.heads
    dsimp only
    have hb : (stream * tokens + token) / (heads * tokens) = stream / heads := by
      rw [Nat.mul_comm heads, ← Nat.div_div_eq_div_mul, hrow]
    have ht : (stream * tokens + token) % tokens = token := by
      rw [Nat.mul_comm, Nat.mul_add_mod, Nat.mod_eq_of_lt htoken]
    have hh : stream - stream / heads * heads = stream % heads := by
      rw [Nat.mul_comm]
      exact (Nat.mod_eq_sub_mul_div).symm
    rw [hb, ht, hrow, hh]

theorem walk_empty (id : Tensor → ℕ) (shared : Bool) (heads : ℕ) (routing : ResolvedRouting) :
    (walk id shared heads true routing).plan.issued = [] := by
  have hfold : ∀ (levels : List (LevelRouting × ℕ)) (st : Walk), st.plan.issued = [] →
      (levels.foldl (fun st x => walkLevel id shared heads true routing st x.2 x.1) st).plan.issued = [] := by
    intro levels
    induction levels with
    | nil => exact fun st h => h
    | cons x levels ih =>
      intro st h
      rw [List.foldl_cons]
      refine ih _ ?_
      obtain ⟨level, index⟩ := x
      cases level <;> exact h
  exact hfold _ _ rfl

/-- A forward walk and its backward, under a layout: nothing where there is no row, else the per-level
definition. -/
def Matches (routing : ResolvedRouting) (shared : Bool) (layout : Layout) (walk : Walk) : Prop :=
  (layout.emptyLaunch = true → walk.plan.issued = [] ∧ backward routing layout.emptyLaunch walk.midpointOffsets = []) ∧
    (layout.emptyLaunch = false → Batched routing shared walk (backward routing layout.emptyLaunch walk.midpointOffsets))

theorem walk_matches {id : Tensor → ℕ} (layout : Layout) (hid : shared = false → id .readValues ≠ id .writeValues)
    (hshared : shared = true → ∀ level ∈ routing.levels, level.isTied = true) :
    Matches routing shared layout (walk id shared layout.heads layout.emptyLaunch routing) := by
  constructor
  · intro hempty
    rw [hempty]
    exact ⟨walk_empty id shared layout.heads routing, rfl⟩
  · intro hempty
    rw [hempty]
    exact walk_batched hid hshared

/-- Both walks, under either layout, for any mix of levels. -/
theorem batched_plan_exact (routing : ResolvedRouting) (layout : Layout) (id : Tensor → ℕ) :
    (∀ stream token, stream < layout.arenaShape.1 → token < layout.arenaShape.2 →
      layout.launchRow stream token = layout.flatRow stream token) ∧
    (id .readValues ≠ id .writeValues → Matches routing false layout (levelsForward id layout routing)) ∧
    ((routing.fullyShared = false → id .readValues ≠ id .writeValues) →
      Matches routing routing.fullyShared layout (arenaForward id layout routing)) := by
  refine ⟨fun stream token => layout.launchRow_eq, fun hid => ?_, fun hid => ?_⟩
  · exact walk_matches layout (fun _ => hid) fun h => absurd h Bool.false_ne_true
  · exact walk_matches layout hid fun h => List.all_eq_true.1 h

/-- A union level between an independent and a tied one. -/
def mixedRouting : ResolvedRouting where
  levels := [.independent 16 .softmax (.entmax .two), .union 8 .onehalf, .tied 16 (.entmax .two)]
  nonempty := List.cons_ne_nil _ _
  widths := by decide
  independent := by
    intro width read write h
    simp only [List.mem_cons, List.not_mem_nil, or_false, reduceCtorEq] at h
    cases h
    rfl

/-- Token-major, its tensors all distinct. -/
theorem batched_plan_exact_mixed :
    Matches mixedRouting false (.tokenMajor 2 3 4) (levelsForward (fun tensor => tensor.ctorIdx) (.tokenMajor 2 3 4) mixedRouting) ∧
      Matches mixedRouting mixedRouting.fullyShared (.flat 8 3) (arenaForward (fun tensor => tensor.ctorIdx) (.flat 8 3) mixedRouting) :=
  ⟨(batched_plan_exact mixedRouting (.tokenMajor 2 3 4) fun tensor => tensor.ctorIdx).2.1 (by decide),
    (batched_plan_exact mixedRouting (.flat 8 3) fun tensor => tensor.ctorIdx).2.2 (by decide)⟩

end Rola.RoutingPlan
