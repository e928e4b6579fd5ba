import Rola.RunnerSound

/-!
# Supplied facts

A node is skipped whole, by all its outputs, while facts are supplied one by one: a node one of whose
outputs is supplied and another is not is called, and overwrites what was supplied. A supply is kept
exactly where each node's outputs are supplied together.
-/

namespace Rola.Graph

section Supply
variable {Fact : Type} [FactNames Fact] [DecidableEq Fact]

/-- The bodies read what they declare, return a value an output, and a cached one is a function of its key. -/
structure Lawful {V : Type} [DecidableEq V] [FactValue V] (body : Bodies Fact V) (dag : List (Node Fact)) : Prop where
  returns : ∀ n ∈ dag, ∀ bag, ∃ produced, body n bag = .ok produced ∧ produced.length = n.gives.length
  reads : ∀ n ∈ dag, ∀ bag bag', (∀ f ∈ n.needs, bag f = bag' f) → body n bag = body n bag'
  pure : ∀ n ∈ dag, n.cached = true → ∀ bag bag', n.key bag = n.key bag' → body n bag = body n bag'

/-- The caches hold what the bodies return. -/
def Holds {V : Type} [DecidableEq V] [FactValue V] (body : Bodies Fact V) (dag : List (Node Fact)) (memo : Memo Fact V) : Prop :=
  ∀ n ∈ dag, ∀ key produced, memo n key = some produced → produced.length = n.gives.length ∧
    ∀ bag, n.key bag = key → body n bag = .ok produced

/-- `facts.update(ctx.supplied)`. -/
def withSupply {V : Type} (supply ctx : Bag Fact V) : Bag Fact V := fun f => (supply f).or (ctx f)

/-- At every point of a walk over a supply: the supplied facts are as supplied, the node that is called next lacks an
output and has none supplied, and every fact the unsupplied walk has by then has its value there. -/
def RespectsSupply (dag : List (Node Fact)) (seeds S : List Fact) : Prop :=
  ∀ (V : Type) [DecidableEq V] [FactValue V] (body : Bodies Fact V), Lawful body dag →
  ∀ memo memo' : Memo Fact V, Holds body dag memo → Holds body dag memo' →
  ∀ ctx supply : Bag Fact V, (∀ f, ctx f ≠ none ↔ f ∈ seeds) → (∀ f, supply f ≠ none ↔ f ∈ S) →
    (∃ st, run body dag (memo, withSupply supply ctx) = .ok st) ∧
    ∀ pre post, dag = pre ++ post → ∀ st, run body pre (memo, withSupply supply ctx) = .ok st →
      (∀ f ∈ S, st.2 f = supply f) ∧
      (∀ n, post.head? = some n → n.Executes st.2 → (n.gives ≠ [] → ∃ g ∈ n.gives, st.2 g = none) ∧ ∀ g ∈ n.gives, g ∉ S) ∧
      ∀ base, run body dag (memo', ctx) = .ok base → (∀ f ∈ S, base.2 f ≠ none → base.2 f = supply f) →
        ∀ base', run body pre (memo', ctx) = .ok base' → ∀ f, base'.2 f ≠ none → st.2 f = base'.2 f

/-- A node that gives something new and has an output supplied has them all supplied, and none of them given before it. -/
def Together (dag : List (Node Fact)) (seeds S : List Fact) : Prop :=
  ∀ k : Fin dag.length, ¬ (∀ g ∈ (dag.get k).gives, g ∈ available seeds (dag.take k)) → (∃ g ∈ (dag.get k).gives, g ∈ S) →
    ∀ g ∈ (dag.get k).gives, g ∈ S ∧ g ∉ available seeds (dag.take k)

instance (dag : List (Node Fact)) (seeds S : List Fact) : Decidable (Together dag seeds S) :=
  inferInstanceAs (Decidable (∀ _ : Fin dag.length, _))

omit [DecidableEq Fact] in
theorem together_iff {dag : List (Node Fact)} {seeds S : List Fact} : Together dag seeds S ↔
    ∀ pre n post, dag = pre ++ n :: post → ¬ (∀ g ∈ n.gives, g ∈ available seeds pre) → (∃ g ∈ n.gives, g ∈ S) →
      ∀ g ∈ n.gives, g ∈ S ∧ g ∉ available seeds pre := by
  constructor
  · rintro h pre n post rfl
    have hk := h ⟨pre.length, by simp⟩
    simpa using hk
  · intro h k
    refine h (dag.take k) (dag.get k) (dag.drop (k + 1)) ?_
    rw [List.get_eq_getElem, ← List.drop_eq_getElem_cons k.isLt, List.take_append_drop]

end Supply

section Walk
variable {Fact V : Type} [FactNames Fact] [DecidableEq Fact] [DecidableEq V] [FactValue V]
  {body : Bodies Fact V} {dag pre post : List (Node Fact)} {n : Node Fact} {seeds S : List Fact}
  {st st' base base' : Memo Fact V × Bag Fact V} {bag bag' ctx supply : Bag Fact V} {memo memo' : Memo Fact V} {f : Fact}

/-! ### What a call leaves -/

omit [FactNames Fact] [DecidableEq V] [FactValue V] in
/-- A fact has the last value produced for it, or its own. -/
theorem produce_congr {gives : List Fact} {produced : List V} (h : f ∉ gives → bag f = bag' f)
    (hlen : produced.length = gives.length) : produce bag gives produced f = produce bag' gives produced f := by
  unfold produce
  have key : ∀ (l : List (Fact × V)) (bag bag' : Bag Fact V), (f ∉ l.map Prod.fst → bag f = bag' f) →
      l.foldl (fun (bag : Bag Fact V) (p : Fact × V) => Function.update bag p.1 (some p.2)) bag f =
        l.foldl (fun (bag : Bag Fact V) (p : Fact × V) => Function.update bag p.1 (some p.2)) bag' f := by
    intro l
    induction l with
    | nil => exact fun bag bag' h => h (by simp)
    | cons p l ih =>
      intro bag bag' h
      refine ih _ _ fun hf => ?_
      dsimp only
      rcases eq_or_ne f p.1 with rfl | hne
      · rw [Function.update_self, Function.update_self]
      · rw [Function.update_of_ne hne, Function.update_of_ne hne]
        exact h (by simp [hne, hf])
  refine key _ _ _ fun hf => h ?_
  rwa [List.map_fst_zip (Nat.le_of_eq hlen.symm)] at hf

omit [FactNames Fact] [DecidableEq V] [FactValue V] in
theorem produce_of_notMem {gives : List Fact} {produced : List V} (hf : f ∉ gives) : produce bag gives produced f = bag f := by
  unfold produce
  have key : ∀ l : List (Fact × V), (∀ p ∈ l, p.1 ≠ f) → ∀ bag : Bag Fact V,
      l.foldl (fun (bag : Bag Fact V) (p : Fact × V) => Function.update bag p.1 (some p.2)) bag f = bag f := by
    intro l
    induction l with
    | nil => exact fun _ _ => rfl
    | cons p l ih =>
      intro h bag
      rw [List.foldl_cons, ih fun q hq => h q (List.mem_cons_of_mem _ hq), Function.update_of_ne (h p List.mem_cons_self).symm]
  refine key _ (fun p hp heq => hf ?_) bag
  rw [← heq]
  exact (List.of_mem_zip hp).1

/-- A call under sound caches returns what the body does. -/
theorem fetch_eq (hlaw : Lawful body dag) (hn : n ∈ dag) (hmemo : Holds body dag st.1) {produced : List V}
    (h : n.fetch body st = .ok (memo, produced)) : body n st.2 = .ok produced ∧ Holds body dag memo := by
  unfold Node.fetch at h
  split at h
  · rename_i out hcache
    cases h
    split at hcache
    · exact ⟨(hmemo n hn _ _ hcache).2 _ rfl, hmemo⟩
    · cases hcache
  · rename_i hcache
    split at h
    · cases h
    · rename_i out hbody
      cases h
      refine ⟨hbody, fun m hm key out hkey => ?_⟩
      split at hkey
      · rename_i hcached
        rcases eq_or_ne m n with rfl | hne
        · rw [Function.update_self] at hkey
          rcases eq_or_ne key (m.key st.2) with rfl | hk
          · rw [Function.update_self] at hkey
            cases hkey
            refine ⟨?_, fun bag hbag => by rw [hlaw.pure m hm hcached bag st.2 hbag, hbody]⟩
            obtain ⟨out', hout', hlen⟩ := hlaw.returns m hm st.2
            rw [hbody] at hout'
            cases hout'
            exact hlen
          · rw [Function.update_of_ne hk] at hkey
            exact hmemo m hm key out hkey
        · rw [Function.update_of_ne hne] at hkey
          exact hmemo m hm key out hkey
      · exact hmemo m hm key out hkey

theorem runStep_holds (hlaw : Lawful body dag) (hn : n ∈ dag) (hmemo : Holds body dag st.1)
    (h : runStep body st n = .ok st') : Holds body dag st'.1 := by
  rcases runStep_cases h with ⟨-, rfl⟩ | ⟨-, -, rfl⟩ | ⟨-, -, produced, hfetch, -⟩
  · exact hmemo
  · exact hmemo
  · exact (fetch_eq hlaw hn hmemo hfetch).2

/-- A fact already there keeps its value past a node that is not called, or does not give it. -/
theorem runStep_keeps (h : runStep body st n = .ok st') (hf : st.2 f ≠ none) (hexec : n.Executes st.2 → f ∉ n.gives) :
    st'.2 f = st.2 f := by
  rcases runStep_cases h with ⟨-, rfl⟩ | ⟨-, -, rfl⟩ | ⟨hn, -, produced, -, ⟨-, heq⟩ | ⟨-, -, heq⟩⟩
  · show (if f ∈ n.gives ∧ st.2 f = none then _ else st.2 f) = _
    rw [if_neg fun hc => hf hc.2]
  · rfl
  · rw [heq]
  · rw [heq, produce_of_notMem (hexec hn)]

theorem run_split {pre post : List (Node Fact)} (h : run body (pre ++ post) st = .ok base) :
    ∃ st₁, run body pre st = .ok st₁ ∧ run body post st₁ = .ok base := by
  rw [run_append] at h
  rcases hp : run body pre st with e | st₁
  · rw [hp] at h
    cases h
  · rw [hp] at h
    exact ⟨st₁, rfl, h⟩

omit [FactNames Fact] [DecidableEq Fact] [DecidableEq V] [FactValue V] in
theorem withSupply_ne_none (hctx : ∀ f, ctx f ≠ none ↔ f ∈ seeds) (hsupply : ∀ f, supply f ≠ none ↔ f ∈ S) (f : Fact) :
    withSupply supply ctx f ≠ none ↔ f ∈ seeds ∨ f ∈ S := by
  rw [← hctx, ← hsupply]
  unfold withSupply
  rcases supply f with _ | v <;> simp

/-! ### A supply kept -/

section Kept
variable (htog : Together dag seeds S) (hctx : ∀ f, ctx f ≠ none ↔ f ∈ seeds) (hsupply : ∀ f, supply f ≠ none ↔ f ∈ S)
include htog

omit [DecidableEq Fact] [DecidableEq V] in
/-- A node called over the supply has no output supplied. -/
theorem Together.not_supplied (hdag : dag = pre ++ n :: post) (hkeys : ∀ f, st.2 f ≠ none ↔ f ∈ available seeds pre ∨ f ∈ S)
    (hexec : n.Executes st.2) : ∀ g ∈ n.gives, g ∉ S := by
  intro g hg hgS
  have hnew : ¬ ∀ g ∈ n.gives, g ∈ available seeds pre ∨ g ∈ S := by
    intro hall
    have hpresent : n.present st.2 = true :=
      present_iff.2 ⟨List.ne_nil_of_mem hg, fun f hf => (hkeys f).2 (hall f hf)⟩
    rw [hexec.2] at hpresent
    cases hpresent
  refine hnew fun f hf => .inr ?_
  have hmissing : ¬ ∀ g ∈ n.gives, g ∈ available seeds pre := fun hall => hnew fun f hf => .inl (hall f hf)
  exact (together_iff.1 htog pre n post hdag hmissing ⟨g, hg, hgS⟩ f hf).1

omit [DecidableEq Fact] [DecidableEq V] in
/-- A supplied fact the unsupplied walk has is not given again. -/
theorem Together.not_given (hdag : dag = pre ++ n :: post) (hkeys : ∀ f, st.2 f ≠ none ↔ f ∈ available seeds pre)
    (hexec : n.Executes st.2) (hfS : f ∈ S) (hf : f ∈ available seeds pre) : f ∉ n.gives := by
  intro hgive
  have hmissing : ¬ ∀ g ∈ n.gives, g ∈ available seeds pre := by
    intro hall
    have hpresent : n.present st.2 = true :=
      present_iff.2 ⟨List.ne_nil_of_mem hgive, fun f hf => (hkeys f).2 (hall f hf)⟩
    rw [hexec.2] at hpresent
    cases hpresent
  exact (together_iff.1 htog pre n post hdag hmissing ⟨f, hgive, hfS⟩ f hgive).2 hf

include hctx

theorem Together.stable (hdag : dag = pre ++ post) (hpre : run body pre (memo, ctx) = .ok st)
    (hrun : run body post st = .ok base) (hfS : f ∈ S) (hf : st.2 f ≠ none) : base.2 f = st.2 f := by
  induction post generalizing pre st with
  | nil =>
    cases hrun
    rfl
  | cons n post ih =>
    have hkeys : ∀ f, st.2 f ≠ none ↔ f ∈ available seeds pre := by
      intro f
      rw [run_ne_none hpre, mem_available]
      exact or_congr_left (hctx f)
    have hcons : run body (n :: post) st = (runStep body st n).bind fun st' => run body post st' := rfl
    rw [hcons] at hrun
    rcases hs : runStep body st n with e | st₁
    · rw [hs] at hrun
      cases hrun
    · rw [hs] at hrun
      have hkeep := runStep_keeps hs hf fun hexec => htog.not_given hdag hkeys hexec hfS ((hkeys f).1 hf)
      rw [← hkeep]
      refine @ih (pre ++ [n]) _ (by rw [hdag]; simp) ?_ hrun (hkeep ▸ hf)
      rw [run_snoc hpre, hs]

include hsupply

/-- The walk over the supply, as far as a prefix. -/
theorem Together.kept (hdag : dag = pre ++ post) (hrun : run body pre (memo, withSupply supply ctx) = .ok st) :
    ∀ f ∈ S, st.2 f = supply f := by
  induction pre using List.reverseRecOn generalizing post st with
  | nil =>
    cases hrun
    intro f hf
    show (supply f).or (ctx f) = _
    rcases hv : supply f with _ | v
    · exact absurd hv ((hsupply f).2 hf)
    · rfl
  | append_singleton pre n ih =>
    obtain ⟨st₁, hpre, hpost⟩ := run_split hrun
    rw [List.append_assoc, List.singleton_append] at hdag
    have hstep : runStep body st₁ n = .ok st := by
      rw [← run_snoc hpre]
      exact hrun
    have hkeys : ∀ f, st₁.2 f ≠ none ↔ f ∈ available seeds pre ∨ f ∈ S := by
      intro f
      rw [run_ne_none hpre, withSupply_ne_none hctx hsupply, mem_available, or_right_comm]
    intro f hf
    rw [runStep_keeps hstep ((hkeys f).2 (.inr hf)) fun hexec hg => htog.not_supplied hdag hkeys hexec f hg hf]
    exact ih hdag hpre f hf

/-- The two walks, side by side: the supply agrees with what the unsupplied walk ends with. -/
theorem Together.agree (hvalid : validateDag dag seeds = .ok ()) (hmask : FactNames.mask ∉ S) (hlaw : Lawful body dag)
    (hmemo : Holds body dag memo) (hmemo' : Holds body dag memo') (hbase : run body dag (memo', ctx) = .ok base)
    (hends : ∀ f ∈ S, base.2 f ≠ none → base.2 f = supply f) (hdag : dag = pre ++ post)
    (hrun : run body pre (memo, withSupply supply ctx) = .ok st) (hrun' : run body pre (memo', ctx) = .ok base') :
    Holds body dag st.1 ∧ Holds body dag base'.1 ∧ ∀ f, base'.2 f ≠ none → st.2 f = base'.2 f := by
  -- a supplied fact is already, in the unsupplied walk, what that walk ends with
  have hsame : ∀ pre post base', dag = pre ++ post → run body pre (memo', ctx) = .ok base' → ∀ f ∈ S, base'.2 f ≠ none →
      supply f = base'.2 f := by
    intro pre post base' hdag hpre f hfS hf
    have hrest : run body post base' = .ok base := by
      rw [hdag] at hbase
      obtain ⟨st₁, hst₁, hpost⟩ := run_split hbase
      rw [hpre] at hst₁
      cases hst₁
      exact hpost
    have hstable := htog.stable hctx hdag hpre hrest hfS hf
    rw [← hends f hfS (hstable ▸ hf), hstable]
  induction pre using List.reverseRecOn generalizing post st base' with
  | nil =>
    cases hrun
    cases hrun'
    refine ⟨hmemo, hmemo', fun f hf => ?_⟩
    show (supply f).or (ctx f) = ctx f
    rcases hv : supply f with _ | v
    · rfl
    · have hfS := (hsupply f).1 (by rw [hv]; exact Option.some_ne_none v)
      have := hsame [] dag (memo', ctx) rfl rfl f hfS hf
      rw [← hv, this]
      show (ctx f).or (ctx f) = ctx f
      rcases ctx f with _ | c <;> rfl
  | append_singleton pre n ih =>
    obtain ⟨st₁, hpre, hpost⟩ := run_split hrun
    obtain ⟨base₁, hpre', hpost'⟩ := run_split hrun'
    have hstep : runStep body st₁ n = .ok st := by
      rw [← run_snoc hpre]
      exact hrun
    have hstep' : runStep body base₁ n = .ok base' := by
      rw [← run_snoc hpre']
      exact hrun'
    have hdag' : dag = pre ++ n :: post := by
      rw [hdag, List.append_assoc, List.singleton_append]
    have hn : n ∈ dag := by
      rw [hdag']
      simp
    obtain ⟨hholds, hholds', hagree⟩ := ih hdag' hpre hpre'
    have hkeys : ∀ f, st₁.2 f ≠ none ↔ f ∈ available seeds pre ∨ f ∈ S := by
      intro f
      rw [run_ne_none hpre, withSupply_ne_none hctx hsupply, mem_available, or_right_comm]
    have hkeys' : ∀ f, base₁.2 f ≠ none ↔ f ∈ available seeds pre := by
      intro f
      rw [run_ne_none hpre', mem_available]
      exact or_congr_left (hctx f)
    refine ⟨runStep_holds hlaw hn hholds hstep, runStep_holds hlaw hn hholds' hstep', fun f hf => ?_⟩
    have hkept := htog.kept hctx hsupply hdag hrun
    by_cases hfS : f ∈ S
    · rw [hkept f hfS]
      exact hsame (pre ++ [n]) post base' hdag hrun' f hfS hf
    have hbag : st₁.2 f = base₁.2 f := by
      by_cases hb : base₁.2 f = none
      · rw [hb]
        by_contra hne
        exact ((hkeys f).1 hne).elim (fun h => (hkeys' f).2 h hb) hfS
      · exact hagree f hb
    have hmasked : n.masked st₁.2 = n.masked base₁.2 := by
      have hm : st₁.2 FactNames.mask = base₁.2 FactNames.mask := by
        by_cases hb : base₁.2 FactNames.mask = none
        · rw [hb]
          by_contra hne
          exact ((hkeys _).1 hne).elim (fun h => (hkeys' _).2 h hb) hmask
        · exact hagree _ hb
      unfold Node.masked
      rw [hm]
    -- the node is called in both walks, or its outputs are all supplied
    rcases runStep_cases hstep' with ⟨hm', rfl⟩ | ⟨hm', hp', rfl⟩ | ⟨hexec', -, produced', hfetch', hout'⟩
    · rcases runStep_cases hstep with ⟨-, rfl⟩ | ⟨hm, -⟩ | ⟨hexec, -⟩
      · show (if f ∈ n.gives ∧ st₁.2 f = none then _ else st₁.2 f) = if f ∈ n.gives ∧ base₁.2 f = none then _ else base₁.2 f
        rw [hbag]
      · rw [hmasked, hm'] at hm
        cases hm
      · have := hexec.1
        rw [hmasked, hm'] at this
        cases this
    · have hp : n.present st₁.2 = true := by
        obtain ⟨hne, hall⟩ := present_iff.1 hp'
        exact present_iff.2 ⟨hne, fun g hg => (hkeys g).2 (.inl ((hkeys' g).1 (hall g hg)))⟩
      rcases runStep_cases hstep with ⟨hm, -⟩ | ⟨-, -, rfl⟩ | ⟨hexec, -⟩
      · rw [hmasked, hm'] at hm
        cases hm
      · exact hbag
      · have := hexec.2
        rw [hp] at this
        cases this
    · rcases runStep_cases hstep with ⟨hm, -⟩ | ⟨-, hp, rfl⟩ | ⟨hexec, -, produced, hfetch, hout⟩
      · have := hexec'.1
        rw [← hmasked, hm] at this
        cases this
      · -- skipped over the supply: `f` is not its output
        obtain ⟨hne, hall⟩ := present_iff.1 hp
        have hfg : f ∉ n.gives := by
          intro hg
          have hnew : ¬ ∀ g ∈ n.gives, g ∈ available seeds pre := by
            intro havail
            have hpresent : n.present base₁.2 = true := present_iff.2 ⟨hne, fun g hg => (hkeys' g).2 (havail g hg)⟩
            rw [hexec'.2] at hpresent
            cases hpresent
          have hsome : ∃ g ∈ n.gives, g ∈ S := by
            by_contra hnone
            exact hnew fun g hg => ((hkeys g).1 (hall g hg)).resolve_right fun hS => hnone ⟨g, hg, hS⟩
          exact hfS (together_iff.1 htog pre n post hdag' hnew hsome f hg).1
        rcases hout' with ⟨hgives, -⟩ | ⟨-, -, heq'⟩
        · exact absurd hgives hne
        · rw [heq', produce_of_notMem hfg]
          exact hbag
      · have hneeds : ∀ g ∈ n.needs, st₁.2 g = base₁.2 g := by
          intro g hg
          have havail := needs_available (hdag' ▸ hvalid) g hg
          exact hagree g ((hkeys' g).2 havail)
        have hbody := (fetch_eq hlaw hn hholds hfetch).1
        have hbody' := (fetch_eq hlaw hn hholds' hfetch').1
        rw [hlaw.reads n hn _ _ hneeds, hbody'] at hbody
        cases hbody
        rcases hout with ⟨hgives, heq⟩ | ⟨hne, hlen, heq⟩
        · rcases hout' with ⟨-, heq'⟩ | ⟨hne', -⟩
          · rw [heq, heq']
            exact hbag
          · exact absurd hgives hne'
        · rcases hout' with ⟨hgives', -⟩ | ⟨-, -, heq'⟩
          · exact absurd hgives' hne
          · rw [heq, heq']
            exact produce_congr (fun _ => hbag) hlen

end Kept

omit [DecidableEq Fact] in
theorem Lawful.returns' (hlaw : Lawful body dag) (hmemo : Holds body dag memo) : Returns body dag memo :=
  ⟨hlaw.returns, fun n hn key produced h => (hmemo n hn key produced h).1⟩

end Walk

section Exact
variable {Fact : Type} [FactNames Fact] [DecidableEq Fact] {dag : List (Node Fact)} {seeds S : List Fact}

theorem Together.respects (hvalid : validateDag dag seeds = .ok ()) (hmask : FactNames.mask ∉ S) (htog : Together dag seeds S) :
    RespectsSupply dag seeds S := by
  intro V _ _ body hlaw memo memo' hmemo hmemo' ctx supply hctx hsupply
  have hseeds : ∀ f ∈ seeds, withSupply supply ctx f ≠ none := fun f hf =>
    (withSupply_ne_none hctx hsupply f).2 (.inl hf)
  refine ⟨?_, fun pre post hdag st hrun => ⟨htog.kept hctx hsupply hdag hrun, ?_, ?_⟩⟩
  · have hend : ∃ st, run body dag (memo, withSupply supply ctx) = .ok st ∧ Returns body dag st.1 :=
      run_ok hvalid hseeds (hlaw.returns' hmemo) (List.prefix_refl dag)
    obtain ⟨st, hrun, -⟩ := hend
    exact ⟨st, hrun⟩
  · intro n hn hexec
    obtain ⟨post, rfl⟩ := List.head?_eq_some_iff.1 hn
    have hkeys : ∀ f, st.2 f ≠ none ↔ f ∈ available seeds pre ∨ f ∈ S := by
      intro f
      rw [run_ne_none hrun, withSupply_ne_none hctx hsupply, mem_available, or_right_comm]
    refine ⟨fun hne => ?_, htog.not_supplied hdag hkeys hexec⟩
    by_contra hall
    have hpresent : n.present st.2 = true := present_iff.2 ⟨hne, fun g hg h => hall ⟨g, hg, h⟩⟩
    rw [hexec.2] at hpresent
    cases hpresent
  · intro base hbase hends base' hrun'
    exact (htog.agree hctx hsupply hvalid hmask hlaw hmemo hmemo' hbase hends hdag hrun hrun').2.2

/-- Values that are no mask. -/
structure Plain where
  val : ℕ
  deriving DecidableEq

instance : FactValue Plain := ⟨⟨0⟩, fun _ => none, rfl⟩

/-- Each node returns one value for all its outputs. -/
def constantBodies (value : Node Fact → Plain) : Bodies Fact Plain := fun n _ => .ok (List.replicate n.gives.length (value n))

section Constant
variable {value : Node Fact → Plain} {n : Node Fact} {pre post : List (Node Fact)} {st st' : Memo Fact Plain × Bag Fact Plain}

omit [DecidableEq Fact] in
theorem constantBodies_lawful : Lawful (constantBodies value) dag :=
  ⟨fun _ _ _ => ⟨_, rfl, List.length_replicate⟩, fun _ _ _ _ _ => rfl, fun _ _ _ _ _ _ => rfl⟩

omit [DecidableEq Fact] in
theorem not_masked (n : Node Fact) (bag : Bag Fact Plain) : n.masked bag = false := by
  unfold Node.masked
  rcases bag FactNames.mask with _ | v <;> rfl

omit [DecidableEq Fact] in
theorem emptyMemo_holds : Holds (constantBodies value) dag fun _ _ => none := nofun

/-- A constant node's outputs have its value. -/
theorem runStep_constant (hn : n ∈ dag) (hmemo : Holds (constantBodies value) dag st.1) (hexec : n.Executes st.2)
    (h : runStep (constantBodies value) st n = .ok st') {g : Fact} (hg : g ∈ n.gives) : st'.2 g = some (value n) := by
  rcases runStep_cases h with ⟨hm, -⟩ | ⟨-, hp, -⟩ | ⟨-, -, produced, hfetch, ⟨hgives, -⟩ | ⟨-, -, heq⟩⟩
  · rw [hexec.1] at hm
    cases hm
  · rw [hexec.2] at hp
    cases hp
  · rw [hgives] at hg
    cases hg
  · have hbody := (fetch_eq constantBodies_lawful hn hmemo hfetch).1
    cases hbody
    rw [heq]
    have key : ∀ (gives : List Fact) (bag : Bag Fact Plain), g ∈ gives ∨ bag g = some (value n) →
        produce bag gives (List.replicate gives.length (value n)) g = some (value n) := by
      intro gives
      induction gives with
      | nil => exact fun bag h => h.resolve_left (by simp)
      | cons a gives ih =>
        intro bag h
        refine ih _ ?_
        rcases eq_or_ne g a with rfl | hne
        · exact .inr (Function.update_self _ _ _)
        · exact h.imp (fun hmem => (List.mem_cons.1 hmem).resolve_left hne) fun hb => (Function.update_of_ne hne _ _).trans hb
    exact key _ _ (.inl hg)

/-- A value no node of the walk returns is not in its bag. -/
theorem run_constant_ne {v : Plain} (hsub : ∀ m ∈ pre, m ∈ dag) (hmemo : Holds (constantBodies value) dag st.1)
    (hbag : ∀ f, st.2 f ≠ some v) (hv : ∀ m ∈ pre, value m ≠ v) (h : run (constantBodies value) pre st = .ok st') :
    Holds (constantBodies value) dag st'.1 ∧ ∀ f, st'.2 f ≠ some v := by
  induction pre using List.reverseRecOn generalizing st' with
  | nil =>
    cases h
    exact ⟨hmemo, hbag⟩
  | append_singleton pre n ih =>
    obtain ⟨st₁, hpre, -⟩ := run_split h
    have hstep : runStep (constantBodies value) st₁ n = .ok st' := by
      rw [← run_snoc hpre]
      exact h
    have hn : n ∈ dag := hsub n (by simp)
    obtain ⟨hmemo₁, hbag₁⟩ := ih (fun m hm => hsub m (by simp [hm])) (fun m hm => hv m (by simp [hm])) hpre
    refine ⟨runStep_holds constantBodies_lawful hn hmemo₁ hstep, fun f => ?_⟩
    by_cases hgive : n.Executes st₁.2 ∧ f ∈ n.gives
    · rw [runStep_constant hn hmemo₁ hgive.1 hstep hgive.2]
      exact fun heq => hv n (by simp) (Option.some.inj heq)
    · have hmask := not_masked n st₁.2
      by_cases hf : st₁.2 f = none
      · rw [show st'.2 f = none from ?_]
        · exact Option.some_ne_none v ∘ Eq.symm
        · by_contra hne
          have hg := ((runStep_ne_none hstep f).1 hne).resolve_left (not_not.2 hf)
          refine hgive ⟨⟨hmask, ?_⟩, hg⟩
          rw [← Bool.not_eq_true, present_iff]
          exact fun hp => hp.2 f hg hf
      · rw [runStep_keeps hstep hf fun hexec hg => hgive ⟨hexec, hg⟩]
        exact hbag₁ f

end Constant

/-- A supply that every walk respects is together. -/
theorem RespectsSupply.together (hvalid : validateDag dag seeds = .ok ()) (h : RespectsSupply dag seeds S) :
    Together dag seeds S := by
  rw [together_iff]
  rintro pre n post hdag hnew hsome
  have hn : n ∈ dag := by
    rw [hdag]
    simp
  have hpre : n ∉ pre := fun hmem => hnew fun g hg => mem_available.2 (.inr ⟨n, hmem, hg⟩)
  -- the node alone returns two; whatever was there before is none or one
  let value : Node Fact → Plain := fun m => if m = n then ⟨2⟩ else ⟨1⟩
  let ctx : Bag Fact Plain := fun f => if f ∈ seeds then some ⟨0⟩ else none
  have hctx : ∀ f, ctx f ≠ none ↔ f ∈ seeds := by
    intro f
    by_cases hf : f ∈ seeds <;> simp [ctx, hf]
  have hret : Returns (constantBodies value) dag (fun _ _ => none) := constantBodies_lawful.returns' emptyMemo_holds
  have hend : ∃ st, run (constantBodies value) dag (fun _ _ => none, ctx) = .ok st ∧ Returns (constantBodies value) dag st.1 :=
    run_ok hvalid (fun f hf => (hctx f).2 hf) hret (List.prefix_refl dag)
  obtain ⟨base, hbase, -⟩ := hend
  let supply : Bag Fact Plain := fun f => if f ∈ S then some ((base.2 f).getD ⟨0⟩) else none
  have hsupply : ∀ f, supply f ≠ none ↔ f ∈ S := by
    intro f
    by_cases hf : f ∈ S <;> simp [supply, hf]
  have hends : ∀ f ∈ S, base.2 f ≠ none → base.2 f = supply f := by
    intro f hf hb
    obtain ⟨v, hv⟩ := Option.ne_none_iff_exists'.1 hb
    simp [supply, hf, hv]
  have hseeds : ∀ f ∈ seeds, withSupply supply ctx f ≠ none := fun f hf => (withSupply_ne_none hctx hsupply f).2 (.inl hf)
  obtain ⟨hok, hwalk⟩ := h Plain (constantBodies value) constantBodies_lawful _ _ emptyMemo_holds emptyMemo_holds ctx supply
    hctx hsupply
  obtain ⟨st, hst⟩ := hok
  have hdag' : dag = (pre ++ [n]) ++ post := by rw [hdag]; simp
  obtain ⟨st₁, hst₁, -⟩ := run_split (hdag ▸ hst)
  obtain ⟨st₂, hst₂, -⟩ := run_split (hdag' ▸ hst)
  obtain ⟨base₁, hbase₁, -⟩ := run_split (hdag ▸ hbase)
  obtain ⟨base₂, hbase₂, -⟩ := run_split (hdag' ▸ hbase)
  obtain ⟨-, hcall, hagree₁⟩ := hwalk pre (n :: post) hdag st₁ hst₁
  obtain ⟨-, -, hagree₂⟩ := hwalk (pre ++ [n]) post hdag' st₂ hst₂
  have hkeys : ∀ f, st₁.2 f ≠ none ↔ f ∈ available seeds pre ∨ f ∈ S := by
    intro f
    rw [run_ne_none hst₁, withSupply_ne_none hctx hsupply, mem_available, or_right_comm]
  have hall : ∀ g ∈ n.gives, g ∈ available seeds pre ∨ g ∈ S := by
    by_contra hmissing
    have hexec : n.Executes st₁.2 := by
      refine ⟨not_masked n _, ?_⟩
      rw [← Bool.not_eq_true, present_iff]
      exact fun hp => hmissing fun g hg => (hkeys g).1 (hp.2 g hg)
    obtain ⟨g, hg, hgS⟩ := hsome
    exact (hcall n rfl hexec).2 g hg hgS
  have hfresh : ∀ g ∈ n.gives, g ∉ available seeds pre := by
    intro g hg havail
    have hkeys' : ∀ f, base₁.2 f ≠ none ↔ f ∈ available seeds pre := by
      intro f
      rw [run_ne_none hbase₁, mem_available]
      exact or_congr_left (hctx f)
    have hexec' : n.Executes base₁.2 := by
      refine ⟨not_masked n _, ?_⟩
      rw [← Bool.not_eq_true, present_iff]
      exact fun hp => hnew fun f hf => (hkeys' f).1 (hp.2 f hf)
    have hvalue : ∀ m ∈ pre, value m ≠ ⟨2⟩ := by
      intro m hm
      have hne : m ≠ n := by
        rintro rfl
        exact hpre hm
      rw [show value m = ⟨1⟩ from if_neg hne]
      decide
    have hsub : ∀ m ∈ pre, m ∈ dag := fun m hm => by rw [hdag]; simp [hm]
    have hbefore := run_constant_ne (v := ⟨2⟩) hsub emptyMemo_holds
      (fun f => by by_cases hf : f ∈ seeds <;> simp [ctx, hf])
      hvalue hbase₁
    have hafter : base₂.2 g = some ⟨2⟩ := by
      rw [run_snoc hbase₁] at hbase₂
      rw [runStep_constant hn hbefore.1 hexec' hbase₂ hg]
      exact congrArg some (if_pos rfl)
    have hskip : st₂ = st₁ := by
      rw [run_snoc hst₁] at hst₂
      have hpresent : n.present st₁.2 = true :=
        present_iff.2 ⟨List.ne_nil_of_mem hg, fun f hf => (hkeys f).2 (hall f hf)⟩
      rcases runStep_cases hst₂ with ⟨hm, -⟩ | ⟨-, -, heq⟩ | ⟨hexec, -⟩
      · rw [not_masked n] at hm
        cases hm
      · exact heq
      · have := hexec.2
        rw [hpresent] at this
        cases this
    have heq₁ := hagree₁ base hbase hends base₁ hbase₁ g ((hkeys' g).2 havail)
    have heq₂ := hagree₂ base hbase hends base₂ hbase₂ g (by rw [hafter]; exact Option.some_ne_none _)
    rw [hskip, heq₁, hafter] at heq₂
    exact hbefore.2 g heq₂
  exact fun g hg => ⟨(hall g hg).resolve_left (hfresh g hg), hfresh g hg⟩

end Exact

end Rola.Graph
