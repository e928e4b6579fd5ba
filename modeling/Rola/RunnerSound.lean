import Rola.Runner
import Mathlib.Data.List.Induction

/-!
# A validated graph can be walked

Whatever is masked and whatever was already in the bag, a node of the tuple leaves every fact it gives
behind it; so the facts a walk has are the ones `validate_dag` counted, and a node that is called finds its needs.
-/

namespace Rola.Graph

section Validate
variable {Fact : Type} [FactNames Fact] {dag pre post : List (Node Fact)} {n : Node Fact} {seeds : List Fact}

theorem mem_available {f : Fact} : f ∈ available seeds dag ↔ f ∈ seeds ∨ ∃ n ∈ dag, f ∈ n.gives := by
  simp [available]

theorem available_cons : available (seeds ++ n.gives) dag = available seeds (n :: dag) := by
  simp [available]

/-- A validated tuple's nodes read what the tuple has given by then. -/
theorem needs_available [DecidableEq Fact] (h : validateDag (pre ++ n :: post) seeds = .ok ()) : ∀ f ∈ n.needs, f ∈ available seeds pre := by
  have hfold : ∃ avail, (pre ++ n :: post).foldlM validateStep seeds = .ok avail := by
    unfold validateDag at h
    rcases hf : (pre ++ n :: post).foldlM validateStep seeds with e | avail
    · rw [hf] at h
      cases h
    · exact ⟨avail, rfl⟩
  obtain ⟨avail, hfold⟩ := hfold
  clear h
  induction pre generalizing seeds with
  | nil =>
    rw [List.nil_append, List.foldlM_cons] at hfold
    unfold validateStep at hfold
    dsimp only at hfold
    split at hfold
    · cases hfold
    · rename_i hmissing
      intro f hf
      rw [not_not, List.filter_eq_nil_iff] at hmissing
      have := hmissing f hf
      simpa [available] using this
  | cons m pre ih =>
    rw [List.cons_append, List.foldlM_cons] at hfold
    have hm : ∃ a, validateStep seeds m = .ok a := by
      rcases hs : validateStep seeds m with e | a
      · rw [hs] at hfold
        cases hfold
      · exact ⟨a, rfl⟩
    obtain ⟨a, hm⟩ := hm
    have ha : a = seeds ++ m.gives := by
      unfold validateStep at hm
      dsimp only at hm
      split at hm
      · cases hm
      · cases hm
        rfl
    rw [hm, ha] at hfold
    intro f hf
    rw [← available_cons]
    exact ih hfold f hf

end Validate

section Walk
variable {Fact V : Type} [FactNames Fact] [DecidableEq Fact] [DecidableEq V] [FactValue V]
  {body : Bodies Fact V} {dag pre post : List (Node Fact)} {n : Node Fact} {seeds : List Fact}
  {st st' : Memo Fact V × Bag Fact V} {bag : Bag Fact V}

/-! ### One node -/

omit [FactNames Fact] [DecidableEq V] [FactValue V] in
theorem foldl_update_ne_none (l : List (Fact × V)) (bag : Bag Fact V) (f : Fact) :
    l.foldl (fun (bag : Bag Fact V) (p : Fact × V) => Function.update bag p.1 (some p.2)) bag f ≠ none ↔ bag f ≠ none ∨ f ∈ l.map Prod.fst := by
  induction l generalizing bag with
  | nil => simp
  | cons p l ih =>
    rw [List.foldl_cons, ih, List.map_cons, List.mem_cons]
    rcases eq_or_ne f p.1 with rfl | hne
    · simp
    · simp [hne]

omit [FactNames Fact] [DecidableEq V] [FactValue V] in
theorem produce_ne_none {gives : List Fact} {produced : List V} (hlen : produced.length = gives.length) (f : Fact) :
    produce bag gives produced f ≠ none ↔ bag f ≠ none ∨ f ∈ gives := by
  unfold produce
  rw [foldl_update_ne_none, List.map_fst_zip (Nat.le_of_eq hlen.symm)]

omit [FactNames Fact] [DecidableEq V] in
theorem seedNull_ne_none (gives : List Fact) (f : Fact) : seedNull bag gives f ≠ none ↔ bag f ≠ none ∨ f ∈ gives := by
  unfold seedNull
  by_cases hf : f ∈ gives <;> by_cases hb : bag f = none <;> simp [hf, hb]

omit [DecidableEq Fact] [DecidableEq V] [FactValue V] in
theorem present_iff : n.present bag = true ↔ n.gives ≠ [] ∧ ∀ f ∈ n.gives, bag f ≠ none := by
  unfold Node.present
  rw [decide_eq_true_iff]

/-- What a node's step may do. -/
theorem runStep_cases (h : runStep body st n = .ok st') :
    (n.masked st.2 = true ∧ st' = (st.1, seedNull st.2 n.gives)) ∨
    (n.masked st.2 = false ∧ n.present st.2 = true ∧ st' = st) ∨
    (n.Executes st.2 ∧ (∀ f ∈ n.needs, st.2 f ≠ none) ∧ ∃ produced, n.fetch body st = .ok (st'.1, produced) ∧
      (n.gives = [] ∧ st'.2 = st.2 ∨ n.gives ≠ [] ∧ produced.length = n.gives.length ∧ st'.2 = produce st.2 n.gives produced)) := by
  unfold runStep at h
  split at h
  · rename_i hmask
    cases h
    exact .inl ⟨hmask, rfl⟩
  · rename_i hmask
    rw [Bool.not_eq_true] at hmask
    split at h
    · rename_i hpresent
      cases h
      exact .inr (.inl ⟨hmask, hpresent, rfl⟩)
    · rename_i hpresent
      rw [Bool.not_eq_true] at hpresent
      dsimp only at h
      split at h
      · cases h
      · rename_i habsent
        rw [not_not, List.filter_eq_nil_iff] at habsent
        refine .inr (.inr ⟨⟨hmask, hpresent⟩, fun f hf => by simpa using habsent f hf, ?_⟩)
        split at h
        · cases h
        · rename_i memo produced hfetch
          split at h
          · rename_i hgives
            cases h
            exact ⟨produced, hfetch, .inl ⟨hgives, rfl⟩⟩
          · rename_i hgives
            split at h
            · cases h
            · rename_i hlen
              cases h
              exact ⟨produced, hfetch, .inr ⟨hgives, not_not.1 hlen, rfl⟩⟩

/-- Whatever it does, a node leaves the facts it gives. -/
theorem runStep_ne_none (h : runStep body st n = .ok st') (f : Fact) :
    st'.2 f ≠ none ↔ st.2 f ≠ none ∨ f ∈ n.gives := by
  rcases runStep_cases h with ⟨-, rfl⟩ | ⟨-, hpresent, rfl⟩ | ⟨-, -, produced, -, ⟨hgives, heq⟩ | ⟨-, hlen, heq⟩⟩
  · exact seedNull_ne_none _ f
  · rw [or_iff_left_of_imp fun hf => (present_iff.1 hpresent).2 f hf]
  · rw [heq, hgives]
    simp
  · rw [heq]
    exact produce_ne_none hlen f

/-! ### A walk -/

theorem run_append (pre post : List (Node Fact)) (st : Memo Fact V × Bag Fact V) :
    run body (pre ++ post) st = (run body pre st).bind fun st' => run body post st' :=
  List.foldlM_append

theorem run_snoc (h : run body pre st = .ok st') : run body (pre ++ [n]) st = runStep body st' n := by
  rw [run_append, h]
  show (runStep body st' n).bind pure = _
  rcases runStep body st' n with e | st'' <;> rfl

/-- The facts a walk has are the bag's and its tuple's. -/
theorem run_ne_none (h : run body pre st = .ok st') (f : Fact) :
    st'.2 f ≠ none ↔ st.2 f ≠ none ∨ ∃ n ∈ pre, f ∈ n.gives := by
  induction pre generalizing st with
  | nil =>
    cases h
    simp
  | cons n pre ih =>
    have hcons : run body (n :: pre) st = (runStep body st n).bind fun st' => run body pre st' := rfl
    rcases hs : runStep body st n with e | st₁
    · rw [hcons, hs] at h
      cases h
    · rw [hcons, hs] at h
      rw [ih h, runStep_ne_none hs, List.exists_mem_cons_iff, or_assoc]

/-- A walk that fails does so at one of its nodes. -/
theorem run_error {e : WalkError Fact} (h : run body dag st = .error e) : ∃ pre n post st', dag = pre ++ n :: post ∧
    run body pre st = .ok st' ∧ runStep body st' n = .error e := by
  induction dag generalizing st with
  | nil => cases h
  | cons n dag ih =>
    have hcons : run body (n :: dag) st = (runStep body st n).bind fun st' => run body dag st' := rfl
    rw [hcons] at h
    rcases hs : runStep body st n with e' | st₁
    · rw [hs] at h
      cases h
      exact ⟨[], n, dag, st, rfl, rfl, hs⟩
    · rw [hs] at h
      obtain ⟨pre, m, post, st', rfl, hpre, hstep⟩ := ih h
      refine ⟨n :: pre, m, post, st', rfl, ?_, hstep⟩
      show (runStep body st n).bind (fun st' => run body pre st') = .ok st'
      rw [hs]
      exact hpre

/-! ### A validated walk -/

/-- A node of a validated tuple that is reached finds its needs. -/
theorem needs_present (hdag : validateDag (pre ++ n :: post) seeds = .ok ()) (hbag : ∀ f ∈ seeds, st.2 f ≠ none)
    (h : run body pre st = .ok st') : ∀ f ∈ n.needs, st'.2 f ≠ none := by
  intro f hf
  rw [run_ne_none h]
  exact (mem_available.1 (needs_available hdag f hf)).imp (hbag f) id

/-- Each body returns one value for each fact its node gives, and so did the calls the caches hold. -/
structure Returns (body : Bodies Fact V) (dag : List (Node Fact)) (memo : Memo Fact V) : Prop where
  body : ∀ n ∈ dag, ∀ bag, ∃ produced, body n bag = .ok produced ∧ produced.length = n.gives.length
  memo : ∀ n ∈ dag, ∀ key produced, memo n key = some produced → produced.length = n.gives.length

omit [FactValue V] in
/-- A node's call yields a value an output, and its cache keeps one. -/
theorem fetch_ok (hret : Returns body dag st.1) (hn : n ∈ dag) : ∃ memo produced, n.fetch body st = .ok (memo, produced) ∧
    produced.length = n.gives.length ∧ Returns body dag memo := by
  unfold Node.fetch
  rcases hc : if n.cached then st.1 n (n.key st.2) else none with _ | produced
  · obtain ⟨produced, hbody, hlen⟩ := hret.body n hn st.2
    rw [hbody]
    refine ⟨_, produced, rfl, hlen, hret.body, fun m hm key out hkey => ?_⟩
    split at hkey
    · rcases eq_or_ne m n with rfl | hne
      · rw [Function.update_self] at hkey
        rcases eq_or_ne key (m.key st.2) with rfl | hk
        · rw [Function.update_self] at hkey
          cases hkey
          exact hlen
        · rw [Function.update_of_ne hk] at hkey
          exact hret.memo m hm key out hkey
      · rw [Function.update_of_ne hne] at hkey
        exact hret.memo m hm key out hkey
    · exact hret.memo m hm key out hkey
  · split at hc
    · exact ⟨_, produced, rfl, hret.memo n hn _ _ hc, hret⟩
    · cases hc

theorem runStep_ok (hret : Returns body dag st.1) (hn : n ∈ dag) (hneeds : ∀ f ∈ n.needs, st.2 f ≠ none) :
    ∃ st', runStep body st n = .ok st' ∧ Returns body dag st'.1 := by
  unfold runStep
  split
  · exact ⟨_, rfl, hret⟩
  split
  · exact ⟨_, rfl, hret⟩
  have habsent : n.needs.filter (fun f => st.2 f = none) = [] := by
    rw [List.filter_eq_nil_iff]
    intro f hf
    simpa using hneeds f hf
  obtain ⟨memo, produced, hfetch, hlen, hret'⟩ := fetch_ok hret hn
  dsimp only
  rw [habsent, if_neg (not_not.2 rfl), hfetch]
  dsimp only
  split
  · exact ⟨_, rfl, hret'⟩
  · rw [if_neg (not_not.2 hlen)]
    exact ⟨_, rfl, hret'⟩

/-- A validated walk whose bodies return ends. -/
theorem run_ok (hdag : validateDag dag seeds = .ok ()) (hbag : ∀ f ∈ seeds, st.2 f ≠ none) (hret : Returns body dag st.1)
    (hpre : pre <+: dag) : ∃ st', run body pre st = .ok st' ∧ Returns body dag st'.1 := by
  induction pre using List.reverseRecOn with
  | nil => exact ⟨st, rfl, hret⟩
  | append_singleton pre n ih =>
    obtain ⟨post, rfl⟩ := hpre
    rw [List.append_assoc, List.singleton_append] at *
    obtain ⟨st₁, hrun, hret₁⟩ := ih (List.prefix_append pre _)
    rw [run_snoc hrun]
    exact runStep_ok hret₁ (by simp) (needs_present hdag hbag hrun)

/-- No walk of a validated tuple is stopped for a missing need, whatever its bodies do; and where they return, it ends. -/
theorem validateDag_sound {memo : Memo Fact V} (hdag : validateDag dag seeds = .ok ()) (hbag : ∀ f ∈ seeds, bag f ≠ none) :
    (∀ name absent, run body dag (memo, bag) ≠ .error (.reachedWithout name absent)) ∧
    (∀ pre n post st, dag = pre ++ n :: post → run body pre (memo, bag) = .ok st → n.Executes st.2 →
      ∀ f ∈ n.needs, st.2 f ≠ none) ∧
    (Returns body dag memo → ∃ st, run body dag (memo, bag) = .ok st ∧
      ∀ f, st.2 f ≠ none ↔ bag f ≠ none ∨ ∃ n ∈ dag, f ∈ n.gives) := by
  refine ⟨fun name absent herr => ?_, ?_, fun hret => ?_⟩
  · obtain ⟨pre, n, post, st, rfl, hrun, hstep⟩ := run_error herr
    have hneeds : ∀ f ∈ n.needs, st.2 f ≠ none := by
      refine needs_present hdag ?_ hrun
      exact hbag
    unfold runStep at hstep
    split at hstep
    · cases hstep
    split at hstep
    · cases hstep
    have habsent : n.needs.filter (fun f => st.2 f = none) = [] := by
      rw [List.filter_eq_nil_iff]
      intro f hf
      simpa using hneeds f hf
    dsimp only at hstep
    rw [habsent, if_neg (not_not.2 rfl)] at hstep
    split at hstep
    · rename_i e hfetch
      cases hstep
      unfold Node.fetch at hfetch
      split at hfetch
      · cases hfetch
      · split at hfetch <;> cases hfetch
    · split at hstep
      · cases hstep
      · split at hstep <;> cases hstep
  · rintro pre n post st rfl hrun -
    refine needs_present hdag ?_ hrun
    exact hbag
  · have hend : ∃ st, run body dag (memo, bag) = .ok st ∧ Returns body dag st.1 :=
      run_ok hdag hbag hret (List.prefix_refl dag)
    obtain ⟨st, hrun, -⟩ := hend
    exact ⟨st, hrun, run_ne_none hrun⟩

end Walk

/-- Values that are the call's mask or null. -/
instance : FactValue (Option Mask) := ⟨none, id, rfl⟩

/-- Each node returns the stateless mask for its mask and null for the rest. -/
def statelessBodies : Bodies ChunkFact (Option Mask) := fun n _ => .ok (n.gives.map fun f => if f = .mask then some .m1 else none)

/-- The chunk tuple under the stateless mask, which skips its residency. -/
theorem validateDag_sound_chunk : validateDag chunkDag chunkSeeds = .ok () ∧
    ∃ st, run statelessBodies chunkDag (fun _ _ => none, fun f => if f ∈ chunkSeeds then some none else none) = .ok st := by
  have hvalid : validateDag chunkDag chunkSeeds = .ok () := rfl
  have hret : Returns statelessBodies chunkDag fun _ _ => none :=
    ⟨fun _ _ _ => ⟨_, rfl, List.length_map _⟩, nofun⟩
  obtain ⟨-, -, hends⟩ := @validateDag_sound ChunkFact (Option Mask) _ _ _ _ statelessBodies chunkDag chunkSeeds
    (fun f => if f ∈ chunkSeeds then some none else none) (fun _ _ => none) hvalid fun f hf => by simp [hf]
  obtain ⟨st, hrun, -⟩ := hends hret
  exact ⟨hvalid, st, hrun⟩

end Rola.Graph
