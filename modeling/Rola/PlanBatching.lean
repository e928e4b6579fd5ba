import Rola.RoutingPlan

/-!
# Batching keeps the solves

A launch's levels are those added under its key, and a key names its operands, so issuing the launches
solves what was added, once each.
-/

namespace Rola.RoutingPlan

/-- Adding an element's worth to one list of a concatenation. -/
theorem flatMap_modify_perm {α β : Type} {l : List α} {i : ℕ} {a : α} (hi : l[i]? = some a) {f : α → α} {g : α → List β} {x : β}
    (hf : g (f a) = g a ++ [x]) : ((l.modify i f).flatMap g).Perm (l.flatMap g ++ [x]) := by
  obtain ⟨hlt, rfl⟩ := List.getElem?_eq_some_iff.1 hi
  have hsplit : l.flatMap g = (l.take i).flatMap g ++ (g l[i] ++ (l.drop (i + 1)).flatMap g) := by
    conv_lhs => rw [← List.take_append_drop i l, List.drop_eq_getElem_cons hlt, List.flatMap_append, List.flatMap_cons]
  rw [List.modify_eq_take_cons_drop hlt, List.flatMap_append, List.flatMap_cons, hf, hsplit, List.append_assoc, List.append_assoc,
    List.append_assoc]
  exact (List.perm_append_comm.append_left _).append_left _

/-! ### The operands -/

/-- The operands the walks add under a kind: a tied level's second output is none where the sides share. -/
def operandsOf (shared : Bool) : Kind → List (List (Option Tensor))
  | .union => if shared then [] else
      [[some .readLogits, some .writeLogits, some .midpoints, some .supportWords, some .readValues, some .writeValues]]
  | .entmax => if shared then [[some .writeLogits, some .readValues, none, some .supportWords]] else
      [[some .writeLogits, some .readValues, some .writeValues, some .supportWords],
        [some .readLogits, some .readValues, none, some .supportWords],
        [some .writeLogits, some .writeValues, none, some .supportWords]]
  | .softmax => if shared then [[some .writeLogits, some .readValues, none]] else
      [[some .writeLogits, some .readValues, some .writeValues], [some .readLogits, some .readValues, none],
        [some .writeLogits, some .writeValues, none]]

/-- Under a kind, operands are told apart by their identities, the sides' outputs being two unless shared. -/
theorem operands_inj {id : Tensor → ℕ} {shared : Bool} (hid : shared = false → id .readValues ≠ id .writeValues) {kind : Kind}
    {a b : List (Option Tensor)} (ha : a ∈ operandsOf shared kind) (hb : b ∈ operandsOf shared kind)
    (h : a.map (Option.map id) = b.map (Option.map id)) : a = b := by
  cases shared with
  | true => cases kind <;> simp_all [operandsOf]
  | false =>
    have hne := hid rfl
    cases kind with
    | union => simp_all [operandsOf]
    | entmax =>
      simp only [operandsOf, Bool.false_eq_true, if_false, List.mem_cons, List.not_mem_nil, or_false] at ha hb
      rcases ha with rfl | rfl | rfl <;> rcases hb with rfl | rfl | rfl <;> simp_all
    | softmax =>
      simp only [operandsOf, Bool.false_eq_true, if_false, List.mem_cons, List.not_mem_nil, or_false] at ha hb
      rcases ha with rfl | rfl | rfl <;> rcases hb with rfl | rfl | rfl <;> simp_all

/-! ### The plan -/

/-- A launch under a key. -/
structure Launch.Under (id : Tensor → ℕ) (key : Key) (launch : Launch) : Prop where
  kind : launch.kind = key.kind
  alpha : launch.alpha = key.alpha
  heads : launch.heads = key.heads
  operands : launch.operands.map (Option.map id) = key.ids
  nonempty : launch.entries ≠ []
  entries : ∀ entry ∈ launch.entries, widthClass entry.width = key.widthClass

/-- A launch as the walks build them. -/
structure Launch.Wf (shared : Bool) (launch : Launch) : Prop where
  operands : launch.operands ∈ operandsOf shared launch.kind
  length_le : launch.entries.length ≤ MAX_BATCHED_LEVELS
  widthClass : ∃ w, ∀ entry ∈ launch.entries, widthClass entry.width = w

structure Plan.Inv (id : Tensor → ℕ) (shared : Bool) (plan : Plan) : Prop where
  opened : ∀ key i, plan.opened key = some i → ∃ launch, plan.issued[i]? = some launch ∧ launch.Under id key
  launches : ∀ launch ∈ plan.issued, launch.Wf shared

theorem Plan.Inv.empty (id : Tensor → ℕ) (shared : Bool) : Plan.empty.Inv id shared :=
  ⟨fun _ _ h => absurd h (Option.some_ne_none _).symm, fun _ h => absurd h List.not_mem_nil⟩

theorem Plan.room_some {plan : Plan} {key : Key} {i : ℕ} (h : plan.room key = some i) :
    plan.opened key = some i ∧ ∃ launch, plan.issued[i]? = some launch ∧ launch.full = false := by
  unfold Plan.room at h
  rw [Option.bind_eq_some_iff] at h
  obtain ⟨j, hj, h⟩ := h
  rw [Option.bind_eq_some_iff] at h
  obtain ⟨launch, hlaunch, h⟩ := h
  split at h
  · cases h
  · rename_i hfull
    cases h
    exact ⟨hj, launch, hlaunch, Bool.eq_false_iff.2 hfull⟩

theorem Launch.solve_add (launch : Launch) (entry : Entry) : (launch.add entry).solve = launch.solve := by
  funext e
  unfold Launch.solve Launch.add
  rfl

theorem Launch.solve_congr {launch launch' : Launch} (hkind : launch.kind = launch'.kind) (halpha : launch.alpha = launch'.alpha)
    (hoperands : launch.operands = launch'.operands) : launch.solve = launch'.solve := by
  funext e
  unfold Launch.solve
  rw [hkind, halpha, hoperands]

section Add

variable {id : Tensor → ℕ} {shared : Bool} {plan : Plan} {kind : Kind} {alpha : Option Alpha} {operands : List (Option Tensor)}
  {heads : ℕ} {entry : Entry}

/-- What the call asks for. -/
abbrev asked (kind : Kind) (alpha : Option Alpha) (operands : List (Option Tensor)) (heads : ℕ) (entry : Entry) : Solve :=
  (⟨kind, alpha, operands, heads, []⟩ : Launch).solve entry

theorem Plan.Inv.add (h : plan.Inv id shared) (hoperands : operands ∈ operandsOf shared kind) :
    (plan.add id kind alpha operands heads entry).Inv id shared := by
  unfold Plan.add
  dsimp only
  split
  · rename_i i hroom
    obtain ⟨hopened, launch, hlaunch, hfull⟩ := Plan.room_some hroom
    obtain ⟨launch', hlaunch', hunder⟩ := h.opened _ _ hopened
    obtain rfl : launch = launch' := Option.some.inj (hlaunch.symm.trans hlaunch')
    refine ⟨fun key' j hkey' => ?_, fun launch' hmem => ?_⟩
    · obtain ⟨old, hold, hold'⟩ := h.opened key' j hkey'
      dsimp only
      rw [List.getElem?_modify]
      by_cases hij : i = j
      · subst hij
        obtain rfl : launch = old := Option.some.inj (hlaunch.symm.trans hold)
        refine ⟨launch.add entry, by rw [hlaunch]; exact congrArg some (if_pos rfl), hold'.kind, hold'.alpha, hold'.heads, hold'.operands,
          List.append_ne_nil_of_right_ne_nil _ (List.cons_ne_nil _ _), fun e he => ?_⟩
        rcases List.mem_append.1 he with he | he
        · exact hold'.entries e he
        · -- both keys class the launch's first level
          obtain ⟨first, hfirst⟩ := List.exists_mem_of_ne_nil _ hunder.nonempty
          rw [List.mem_singleton.1 he, ← hold'.entries first hfirst, hunder.entries first hfirst]
      · exact ⟨old, by rw [hold]; exact congrArg some (if_neg hij), hold'⟩
    · have hwf := h.launches launch (List.mem_of_getElem? hlaunch)
      rw [List.modify_eq_take_cons_drop (List.getElem?_eq_some_iff.1 hlaunch).1] at hmem
      rcases List.mem_append.1 hmem with hmem | hmem
      · exact h.launches launch' (List.mem_of_mem_take hmem)
      · rcases List.mem_cons.1 hmem with rfl | hmem
        · obtain ⟨hlt, hget⟩ := List.getElem?_eq_some_iff.1 hlaunch
          rw [hget]
          refine ⟨hwf.operands, ?_, ⟨widthClass entry.width, fun e he => ?_⟩⟩
          · have hne : launch.entries.length ≠ MAX_BATCHED_LEVELS := by
              intro heq
              rw [Launch.full, heq, beq_self_eq_true] at hfull
              cases hfull
            have hle := hwf.length_le
            rw [Launch.add, List.length_append, List.length_singleton]
            omega
          · rcases List.mem_append.1 he with he | he
            · exact hunder.entries e he
            · rw [List.mem_singleton.1 he]
        · exact h.launches launch' (List.mem_of_mem_drop hmem)
  · refine ⟨fun key' j hkey' => ?_, fun launch' hmem => ?_⟩
    · dsimp only at hkey' ⊢
      by_cases hkey : key' = ⟨kind, alpha, widthClass entry.width, heads, operands.map (Option.map id)⟩
      · rw [hkey, Function.update_self] at hkey'
        cases hkey'
        refine ⟨⟨kind, alpha, operands, heads, [entry]⟩, by simp, ?_⟩
        rw [hkey]
        exact ⟨rfl, rfl, rfl, rfl, List.cons_ne_nil _ _, fun e he => by rw [List.mem_singleton.1 he]⟩
      · rw [Function.update_of_ne hkey] at hkey'
        obtain ⟨old, hold, hunder⟩ := h.opened key' j hkey'
        refine ⟨old, ?_, hunder⟩
        rw [List.getElem?_append_left (List.getElem?_eq_some_iff.1 hold).1, hold]
    · rcases List.mem_append.1 hmem with hmem | hmem
      · exact h.launches launch' hmem
      · rw [List.mem_singleton.1 hmem]
        refine ⟨hoperands, ?_, ⟨widthClass entry.width, fun e he => by rw [List.mem_singleton.1 he]⟩⟩
        unfold MAX_BATCHED_LEVELS
        simp

theorem Plan.issue_add (h : plan.Inv id shared) (hid : shared = false → id .readValues ≠ id .writeValues)
    (hoperands : operands ∈ operandsOf shared kind) :
    (plan.add id kind alpha operands heads entry).issue.Perm (plan.issue ++ [asked kind alpha operands heads entry]) := by
  unfold Plan.add Plan.issue
  dsimp only
  split
  · rename_i i hroom
    obtain ⟨hopened, launch, hlaunch, -⟩ := Plan.room_some hroom
    obtain ⟨launch', hlaunch', hunder⟩ := h.opened _ _ hopened
    obtain rfl : launch = launch' := Option.some.inj (hlaunch.symm.trans hlaunch')
    refine flatMap_modify_perm hlaunch ?_
    have hwf := h.launches launch (List.mem_of_getElem? hlaunch)
    have hsame : launch.operands = operands := by
      refine operands_inj hid ?_ hoperands hunder.operands
      rw [← show launch.kind = kind from hunder.kind]
      exact hwf.operands
    rw [Launch.solve_add, Launch.add, List.map_append, List.map_singleton]
    have hsolve : launch.solve = (⟨kind, alpha, operands, heads, []⟩ : Launch).solve :=
      Launch.solve_congr hunder.kind hunder.alpha hsame
    rw [hsolve]
  · rw [List.flatMap_append, List.flatMap_singleton]
    exact List.Perm.refl _

end Add

end Rola.RoutingPlan
