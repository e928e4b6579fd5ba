import Rola.BoxAgreement
import Rola.CanonLeaf
import Mathlib.Data.List.GetD
import Mathlib.Data.List.Permutation
import Mathlib.Tactic.IntervalCases

/-!
# The shapes of a side's carve

`sub_boxes` of `csrc/rola/src/common/geom.cuh`. At depth four two level orders always carve one shape: a
count the first two levels hold leaves the last two alone, and one they do not hold empties both. So the
twenty-four orders carve at most twelve.
-/

namespace Rola

open Finset

variable {D bc ns T w : ℕ}

/-! ### Collecting without repeats -/

section Collect

variable {α β : Type*} [DecidableEq α] [DecidableEq β] {f : α → β} {cap : ℕ}

omit [DecidableEq α] in
/-- The images of a list, each once, up to a bound. -/
def collect (f : α → β) (cap : ℕ) (l : List α) : List β :=
  l.foldl (fun set a => if f a ∉ set ∧ set.length < cap then set ++ [f a] else set) []

/-- A bounded collection that the images fit drops none of them. -/
theorem collect_spec (l : List α) (hcap : (l.toFinset.image f).card ≤ cap) :
    (collect f cap l).Nodup ∧ ∀ x, x ∈ collect f cap l ↔ ∃ a ∈ l, f a = x := by
  induction l using List.reverseRecOn with
  | nil => simp [collect]
  | append_singleton l a ih =>
    have hsub : l.toFinset.image f ⊆ (l ++ [a]).toFinset.image f :=
      image_subset_image fun x hx => by
        rw [List.mem_toFinset] at hx ⊢
        exact List.mem_append_left _ hx
    obtain ⟨hnodup, hmem⟩ := ih ((card_le_card hsub).trans hcap)
    have hstep : collect f cap (l ++ [a]) = if f a ∉ collect f cap l ∧ (collect f cap l).length < cap then
        collect f cap l ++ [f a] else collect f cap l := by
      unfold collect
      rw [List.foldl_append, List.foldl_cons, List.foldl_nil]
    rw [hstep]
    generalize collect f cap l = set at hnodup hmem
    by_cases ha : f a ∈ set
    · rw [if_neg fun hc => hc.1 ha]
      refine ⟨hnodup, fun x => ?_⟩
      rw [hmem]
      constructor
      · rintro ⟨b, hb, rfl⟩
        exact ⟨b, List.mem_append_left _ hb, rfl⟩
      · rintro ⟨b, hb, rfl⟩
        rcases List.mem_append.1 hb with hb | hb
        · exact ⟨b, hb, rfl⟩
        · rw [List.mem_singleton.1 hb]
          exact (hmem _).1 ha
    · have hnew : (set ++ [f a]).Nodup := hnodup.append (List.nodup_singleton _) (by simpa using ha)
      have hlen : set.length < cap := by
        have hin : (set ++ [f a]).toFinset ⊆ (l ++ [a]).toFinset.image f := by
          intro x hx
          rw [List.mem_toFinset, List.mem_append, List.mem_singleton, hmem] at hx
          rw [mem_image]
          rcases hx with ⟨b, hb, rfl⟩ | rfl
          · exact ⟨b, by simp [hb], rfl⟩
          · exact ⟨a, by simp, rfl⟩
        have hcard := (card_le_card hin).trans hcap
        rw [List.toFinset_card_of_nodup hnew, List.length_append, List.length_singleton] at hcard
        omega
      rw [if_pos ⟨ha, hlen⟩]
      refine ⟨hnew, fun x => ?_⟩
      simp only [List.mem_append, List.mem_singleton, hmem]
      constructor
      · rintro (⟨b, hb, rfl⟩ | rfl)
        · exact ⟨b, .inl hb, rfl⟩
        · exact ⟨a, .inr rfl, rfl⟩
      · rintro ⟨b, hb | rfl, rfl⟩
        · exact .inl ⟨b, hb, rfl⟩
        · exact .inr rfl

omit [DecidableEq α] in
/-- Images that come in pairs are at most half. -/
theorem card_image_le_half {s : Finset α} (h : ∀ a ∈ s, ∃ b ∈ s, b ≠ a ∧ f b = f a) : 2 * (s.image f).card ≤ s.card := by
  refine mul_card_image_le_card s 2 fun x hx => ?_
  obtain ⟨a, ha, rfl⟩ := mem_image.1 hx
  obtain ⟨b, hb, hne, heq⟩ := h a ha
  exact one_lt_card.2 ⟨b, mem_filter.2 ⟨hb, heq⟩, a, mem_filter.2 ⟨ha, rfl⟩, hne⟩

end Collect

/-! ### Two levels of a carve -/

/-- A carve by the levels of a list. -/
def carveList (D bc ns : ℕ) (order : List ℕ) : (ℕ → ℕ) × ℕ := order.foldl (carveStep D) (ownerSpanBits D bc, ilog2 ns)

variable {b : ℕ → ℕ} {want i j : ℕ}

theorem carveStep_of_done : carveStep D (b, 0) i = (b, 0) := by
  simp [carveStep]

theorem foldl_carveStep_of_done (order : List ℕ) : order.foldl (carveStep D) (b, 0) = (b, 0) := by
  induction order with
  | nil => rfl
  | cons i order ih => rw [List.foldl_cons, carveStep_of_done, ih]

/-- What two levels can give they give whole. -/
theorem carveStep_done (hne : i ≠ j) (hle : want ≤ (b i - floorBits D i) + (b j - floorBits D j)) :
    (carveStep D (carveStep D (b, want) i) j).2 = 0 := by
  unfold carveStep
  dsimp only
  rw [Function.update_of_ne hne.symm]
  omega

/-- Two levels asked for more than they have give all of it in either order. -/
theorem carveStep_comm (hne : i ≠ j) (hle : (b i - floorBits D i) + (b j - floorBits D j) ≤ want) :
    carveStep D (carveStep D (b, want) i) j = carveStep D (carveStep D (b, want) j) i := by
  unfold carveStep
  dsimp only
  rw [Function.update_of_ne hne.symm, Function.update_of_ne hne, Function.update_comm hne]
  refine Prod.ext ?_ (by omega)
  dsimp only
  congr 2
  · congr 1
    omega
  · omega

/-! ### Level orders -/

/-- The level order of a code. -/
def codeOrder (D code : ℕ) : List ℕ := levelOrder D [0, 1, 2, 3] code

theorem codeOrder_length {code : ℕ} : (codeOrder D code).length = D := by
  unfold codeOrder
  generalize [0, 1, 2, 3] = pool
  induction D generalizing pool code with
  | zero => rfl
  | succ D ih =>
    unfold levelOrder
    rw [List.length_cons, ih]

theorem mem_depths (hD : 1 ≤ D) (hD4 : D ≤ geomMaxLevels) : D ∈ [1, 2, 3, 4] := by
  unfold geomMaxLevels at hD4
  interval_cases D <;> simp

/-- A depth's orders are its permutations. -/
theorem mem_codeOrder : ∀ D ∈ [1, 2, 3, 4], ∀ order ∈ (List.range D).permutations', ∃ code < D.factorial,
    codeOrder D code = order := by
  decide

theorem codeOrder_perm : ∀ D ∈ [1, 2, 3, 4], ∀ code < D.factorial, codeOrder D code ∈ (List.range D).permutations' := by
  decide

/-- At depth four another code has the same head, and another the head the other way round. -/
theorem codeOrder_swap : ∀ code < 24,
    (∃ code' < 24, code' ≠ code ∧ codeOrder 4 code' =
      [(codeOrder 4 code).getD 0 0, (codeOrder 4 code).getD 1 0, (codeOrder 4 code).getD 3 0, (codeOrder 4 code).getD 2 0]) ∧
    ∃ code' < 24, code' ≠ code ∧ codeOrder 4 code' =
      [(codeOrder 4 code).getD 1 0, (codeOrder 4 code).getD 0 0, (codeOrder 4 code).getD 2 0, (codeOrder 4 code).getD 3 0] := by
  decide

theorem ranksEachOnce_iff {order : ℕ → ℕ} : RanksEachOnce D order ↔ ((List.range D).map order).Perm (List.range D) := by
  constructor
  · intro h
    have hinj : ∀ i < D, ∀ j < D, order i = order j → i = j := by
      intro i hi j hj heq
      rcases Nat.lt_trichotomy i j with hlt | heq' | hgt
      · exact absurd heq ((h j hj).2 i hlt)
      · exact heq'
      · exact absurd heq.symm ((h i hi).2 j hgt)
    have hnodup : ((List.range D).map order).Nodup :=
      List.nodup_range.map_on fun i hi j hj => hinj i (List.mem_range.1 hi) j (List.mem_range.1 hj)
    refine (List.subperm_of_subset hnodup fun x hx => ?_).perm_of_length_le (by simp)
    obtain ⟨i, hi, rfl⟩ := List.mem_map.1 hx
    exact List.mem_range.2 (h i (List.mem_range.1 hi)).1
  · intro hperm i hi
    refine ⟨List.mem_range.1 (hperm.subset (List.mem_map.2 ⟨i, List.mem_range.2 hi, rfl⟩)), fun j hj heq => ?_⟩
    have hnodup := hperm.nodup_iff.2 List.nodup_range
    have := List.inj_on_of_nodup_map hnodup (List.mem_range.2 (hj.trans hi)) (List.mem_range.2 hi) heq
    omega

/-- The codes are the level orders. -/
theorem exists_code (hD : 1 ≤ D) (hD4 : D ≤ geomMaxLevels) {order : ℕ → ℕ} (h : RanksEachOnce D order) :
    ∃ code < D.factorial, codeOrder D code = (List.range D).map order := by
  exact mem_codeOrder D (mem_depths hD hD4) _ (List.mem_permutations'.2 (ranksEachOnce_iff.1 h))

theorem map_getD_range {order : List ℕ} (hlen : order.length = D) : (List.range D).map (fun p => order.getD p 0) = order := by
  refine List.ext_getElem (by simp [hlen]) fun i hi hi' => ?_
  rw [List.getElem_map, List.getElem_range, List.getD_eq_getElem _ _ hi']

theorem ranksEachOnce_code (hD : 1 ≤ D) (hD4 : D ≤ geomMaxLevels) {code : ℕ} (hcode : code < D.factorial) :
    RanksEachOnce D fun p => (codeOrder D code).getD p 0 := by
  rw [ranksEachOnce_iff, map_getD_range codeOrder_length]
  exact List.mem_permutations'.1 (codeOrder_perm D (mem_depths hD hD4) code hcode)

/-! ### The shapes -/

/-- The shape of a code. -/
def codeShape (D bc ns code : ℕ) : List ℕ := (List.range D).map (carveList D bc ns (codeOrder D code)).1

theorem carveSubBits_eq (order : ℕ → ℕ) : carveSubBits D bc ns order = (carveList D bc ns ((List.range D).map order)).1 := rfl

theorem subBoxes_eq : subBoxes D bc ns = collect (codeShape D bc ns) geomMaxSubBoxes (List.range D.factorial) := by
  unfold subBoxes collect codeShape
  refine List.foldl_ext _ _ _ fun set code _ => ?_
  dsimp only
  rw [carveSubBits_eq, show (List.range D).map (fun p => (levelOrder D [0, 1, 2, 3] code).getD p 0) = codeOrder D code from
    map_getD_range codeOrder_length]
  -- the two tests decide membership by different instances
  split_ifs <;> rfl

/-- Every order at depth four shares its shape with another. -/
theorem exists_same_shape : ∀ code ∈ range 24, ∃ code' ∈ range 24, code' ≠ code ∧
    codeShape 4 bc ns code' = codeShape 4 bc ns code := by
  intro code hcode
  rw [mem_range] at hcode
  obtain ⟨⟨tail, htail, hnet, horder⟩, head, hhead, hneh, horder'⟩ := codeOrder_swap code hcode
  have hlist : codeOrder 4 code = [(codeOrder 4 code).getD 0 0, (codeOrder 4 code).getD 1 0, (codeOrder 4 code).getD 2 0,
      (codeOrder 4 code).getD 3 0] := (map_getD_range codeOrder_length).symm
  have hne : (codeOrder 4 code).getD 0 0 ≠ (codeOrder 4 code).getD 1 0 :=
    (ranksEachOnce_code (by decide) le_rfl hcode 1 (by decide)).2 0 (by decide)
  unfold codeShape carveList
  rw [hlist]
  generalize (codeOrder 4 code).getD 0 0 = a at *
  generalize (codeOrder 4 code).getD 1 0 = b at *
  generalize (codeOrder 4 code).getD 2 0 = c at *
  generalize (codeOrder 4 code).getD 3 0 = d at *
  rcases Nat.le_total (ilog2 ns) ((ownerSpanBits 4 bc a - floorBits 4 a) + (ownerSpanBits 4 bc b - floorBits 4 b)) with hle | hle
  · refine ⟨tail, mem_range.2 htail, hnet, ?_⟩
    have hdone := carveStep_done hne hle
    rw [horder]
    simp only [List.foldl_cons, List.foldl_nil]
    generalize carveStep 4 (carveStep 4 (ownerSpanBits 4 bc, ilog2 ns) a) b = st at hdone
    obtain ⟨bits, want⟩ := st
    obtain rfl : want = 0 := hdone
    simp only [carveStep_of_done]
  · refine ⟨head, mem_range.2 hhead, hneh, ?_⟩
    rw [horder']
    simp only [List.foldl_cons, List.foldl_nil]
    rw [carveStep_comm hne.symm (by omega)]

theorem card_shapes_le (hD : 1 ≤ D) (hD4 : D ≤ geomMaxLevels) :
    ((List.range D.factorial).toFinset.image (codeShape D bc ns)).card ≤ geomMaxSubBoxes := by
  have hrange : ∀ n : ℕ, (List.range n).toFinset = range n := fun n => by
    ext x
    simp
  rw [hrange]
  unfold geomMaxLevels at hD4
  rcases Nat.lt_or_ge D 4 with hlt | hge
  · refine card_image_le.trans ((card_range _).trans_le ?_)
    interval_cases D <;> decide
  · obtain rfl : D = 4 := by omega
    have := card_image_le_half (s := range 24) (f := codeShape 4 bc ns) exists_same_shape
    rw [card_range] at this
    show ((range 24).image _).card ≤ 12
    omega

/-! ### The bits of the owner box -/

theorem pickLevel_none {b : ℕ → ℕ} (h : pickLevel D b = none) : ∀ i < D, b i ≤ floorBits D i := by
  have key : ∀ n, (List.range n).foldl (fun pick i =>
      if floorBits D i < b i ∧ pick.all (fun q => b q < b i) then some i else pick) none = none →
      ∀ i < n, b i ≤ floorBits D i := by
    intro n
    induction n with
    | zero => exact fun _ i hi => absurd hi (Nat.not_lt_zero i)
    | succ n ih =>
      intro hn
      rw [List.range_succ, List.foldl_append, List.foldl_cons, List.foldl_nil] at hn
      split at hn
      · cases hn
      · rename_i hlast
        rw [hn] at hlast
        intro i hi
        rcases Nat.lt_succ_iff_lt_or_eq.1 hi with hlt | rfl
        · exact ih hn i hlt
        · by_contra hgt
          exact hlast ⟨not_le.1 hgt, rfl⟩
  exact key D h

theorem pickLevel_lt {b : ℕ → ℕ} (h : pickLevel D b = some i) : i < D := by
  have key : ∀ n, ∀ q, (List.range n).foldl (fun pick i =>
      if floorBits D i < b i ∧ pick.all (fun q => b q < b i) then some i else pick) none = some q → q < n := by
    intro n
    induction n with
    | zero => exact fun q hq => nomatch hq
    | succ n ih =>
      intro q hq
      rw [List.range_succ, List.foldl_append, List.foldl_cons, List.foldl_nil] at hq
      split at hq
      · cases hq
        exact Nat.lt_succ_self _
      · exact (ih q hq).trans (Nat.lt_succ_self _)
  exact key D i h

theorem sum_shrinkSpans {n : ℕ} {b : ℕ → ℕ} (h : ∑ l ∈ range D, floorBits D l + n ≤ ∑ l ∈ range D, b l) :
    ∑ l ∈ range D, shrinkSpans D n b l = ∑ l ∈ range D, b l - n := by
  induction n generalizing b with
  | zero => rfl
  | succ n ih =>
    unfold shrinkSpans
    rcases hi : pickLevel D b with _ | i
    · have := sum_le_sum fun l hl => pickLevel_none hi l (mem_range.1 hl)
      omega
    · have hpos := pickLevel_some hi
      have hsum : ∑ l ∈ range D, Function.update b i (b i - 1) l + 1 = ∑ l ∈ range D, b l := by
        have hmem := mem_range.2 (pickLevel_lt hi)
        rw [sum_update_of_mem hmem, ← add_sum_erase _ b hmem, sdiff_singleton_eq_erase]
        omega
      dsimp only
      rw [ih (by omega)]
      omega

/-- The owner box's spans multiply to its leaves. -/
theorem sum_ownerSpanBits (hD : 1 ≤ D) (hT : atomLeavesBits ≤ T) : ∑ l ∈ range D, ownerSpanBits D (2 ^ T) l = T := by
  have hfloor : ∑ l ∈ range D, floorBits D l = atomLeavesBits := by
    unfold floorBits
    rw [sum_ite_eq' (range D) (D - 1) fun _ => atomLeavesBits, if_pos (mem_range.2 (by omega))]
  have hbalanced : ∑ l ∈ range D, balancedBits T D l = T := by
    unfold balancedBits
    rw [sum_spread _ (Nat.mod_lt _ hD).le, Nat.div_add_mod]
  have hle : T ≤ ∑ l ∈ range D, max (balancedBits T D l) (floorBits D l) :=
    hbalanced.symm.trans_le (sum_le_sum fun l _ => le_max_left _ _)
  unfold ownerSpanBits
  dsimp only
  rw [ilog2_two_pow, sum_shrinkSpans (by omega)]
  omega

/-! ### What a carve leaves -/

theorem carveStep_bounds {st : (ℕ → ℕ) × ℕ} {l : ℕ} (hfloor : ∀ i, floorBits D i ≤ st.1 i) :
    (∀ k, floorBits D k ≤ (carveStep D st i).1 k) ∧ (carveStep D st i).1 l ≤ st.1 l := by
  have hi := hfloor i
  unfold carveStep
  dsimp only
  refine ⟨fun k => ?_, ?_⟩
  · rcases eq_or_ne k i with rfl | hne
    · rw [Function.update_self]
      omega
    · rw [Function.update_of_ne hne]
      exact hfloor k
  · rcases eq_or_ne l i with rfl | hne
    · rw [Function.update_self]
      exact Nat.sub_le _ _
    · rw [Function.update_of_ne hne]

theorem foldl_carveStep_bounds {st : (ℕ → ℕ) × ℕ} (order : List ℕ) (hfloor : ∀ l, floorBits D l ≤ st.1 l) (l : ℕ) :
    floorBits D l ≤ (order.foldl (carveStep D) st).1 l ∧ (order.foldl (carveStep D) st).1 l ≤ st.1 l := by
  induction order generalizing st with
  | nil => exact ⟨hfloor l, le_rfl⟩
  | cons i order ih =>
    obtain ⟨hstep, hle⟩ := @carveStep_bounds D i st l hfloor
    rw [List.foldl_cons]
    exact ⟨(ih hstep).1, (ih hstep).2.trans hle⟩

theorem carveSubBits_bounds (order : ℕ → ℕ) (l : ℕ) :
    floorBits D l ≤ carveSubBits D bc ns order l ∧ carveSubBits D bc ns order l ≤ ownerSpanBits D bc l :=
  foldl_carveStep_bounds _ (fun _ => shrinkSpans_floor (le_max_right _ _)) l

theorem ranksEachOnce_reverse {levelAt : ℕ → ℕ} (h : RanksEachOnce D levelAt) : RanksEachOnce D fun p => levelAt (D - 1 - p) := by
  refine fun r hr => ⟨(h _ (by omega)).1, fun r' hr' heq => ?_⟩
  exact (h (D - 1 - r') (by omega)).2 (D - 1 - r) (by omega) heq.symm

/-! ### The set -/

/-- The members of the set are the shapes of the level orders, once each. -/
theorem mem_subBoxes (hD : 1 ≤ D) (hD4 : D ≤ geomMaxLevels) (bc ns : ℕ) : (subBoxes D bc ns).Nodup ∧
    ∀ shape, shape ∈ subBoxes D bc ns ↔ ∃ order, RanksEachOnce D order ∧ (List.range D).map (carveSubBits D bc ns order) = shape := by
  rw [subBoxes_eq]
  obtain ⟨hnodup, hmem⟩ := collect_spec (List.range D.factorial) (@card_shapes_le D bc ns hD hD4)
  refine ⟨hnodup, fun shape => (hmem shape).trans ?_⟩
  constructor
  · rintro ⟨code, hcode, rfl⟩
    refine ⟨_, ranksEachOnce_code hD hD4 (List.mem_range.1 hcode), ?_⟩
    rw [carveSubBits_eq, map_getD_range codeOrder_length]
    rfl
  · rintro ⟨order, horder, rfl⟩
    obtain ⟨code, hcode, hlist⟩ := exists_code hD hD4 horder
    refine ⟨code, List.mem_range.2 hcode, ?_⟩
    unfold codeShape
    rw [hlist, carveSubBits_eq]

theorem gridRefusal_text {span grid rowSpan : ℕ → ℕ} {l : ℕ} {err : String} (h : gridRefusal span grid rowSpan l = some err) :
    err ≠ "this side's carved sub-box is not a member of the generated set" := by
  unfold gridRefusal at h
  split at h
  · cases h
    decide
  split at h
  · cases h
    decide
  · cases h

/-- A side is never refused for a shape outside the set. -/
theorem deriveSide_member (hD : 1 ≤ D) (hD4 : D ≤ geomMaxLevels) (width span levelAt : ℕ → ℕ) (bc NS : ℕ) :
    deriveSide D width span bc levelAt NS ≠ .error "this side's carved sub-box is not a member of the generated set" := by
  intro herr
  unfold deriveSide at herr
  split at herr
  · exact absurd (Except.error.inj herr) (by decide)
  split at herr
  · exact absurd (Except.error.inj herr) (by decide)
  rename_i horder
  dsimp only at herr
  split at herr
  · exact absurd (Except.error.inj herr) (by decide)
  split at herr
  · rename_i hnone
    rw [List.idxOf?_eq_none_iff] at hnone
    refine hnone (((mem_subBoxes hD hD4 bc NS).2 _).2 ⟨_, ranksEachOnce_reverse (not_not.1 horder), rfl⟩)
  · split at herr
    · rename_i err hgrid
      obtain ⟨l, -, hl⟩ := List.exists_of_findSome?_eq_some hgrid
      exact gridRefusal_text hl (Except.error.inj herr)
    split at herr
    · exact absurd (Except.error.inj herr) (by decide)
    split at herr
    · exact absurd (Except.error.inj herr) (by decide)
    · cases herr

/-- The generated set is every level order's shape, each once, and no side is refused for want of one; an order that
reaches the stream count keeps the innermost span at sixteen and leaves `BC / NS` leaves. -/
theorem subBoxes_complete (hD : 1 ≤ D) (hD4 : D ≤ geomMaxLevels) (hT : atomLeavesBits ≤ T) (w : ℕ) :
    (subBoxes D (2 ^ T) (2 ^ w)).Nodup ∧ (subBoxes D (2 ^ T) (2 ^ w)).length ≤ geomMaxSubBoxes ∧
    (∀ shape, shape ∈ subBoxes D (2 ^ T) (2 ^ w) ↔
      ∃ order, RanksEachOnce D order ∧ (List.range D).map (carveSubBits D (2 ^ T) (2 ^ w) order) = shape) ∧
    (∀ width span levelAt, deriveSide D width span (2 ^ T) levelAt (2 ^ w) ≠
      .error "this side's carved sub-box is not a member of the generated set") ∧
    ∀ order, RanksEachOnce D order →
      ∑ l ∈ range D, (ownerSpanBits D (2 ^ T) l - carveSubBits D (2 ^ T) (2 ^ w) order l) = w →
      16 ≤ 2 ^ carveSubBits D (2 ^ T) (2 ^ w) order (D - 1) ∧
        ∏ l ∈ range D, 2 ^ carveSubBits D (2 ^ T) (2 ^ w) order l = 2 ^ T / 2 ^ w := by
  obtain ⟨hnodup, hmem⟩ := mem_subBoxes hD hD4 (2 ^ T) (2 ^ w)
  refine ⟨hnodup, ?_, hmem, fun width span levelAt => deriveSide_member hD hD4 _ _ _ _ _, fun order _ hreach => ⟨?_, ?_⟩⟩
  · rw [← List.toFinset_card_of_nodup hnodup]
    refine (card_le_card fun shape hshape => ?_).trans (@card_shapes_le D (2 ^ T) (2 ^ w) hD hD4)
    obtain ⟨order, horder, rfl⟩ := (hmem shape).1 (List.mem_toFinset.1 hshape)
    obtain ⟨code, hcode, hlist⟩ := exists_code hD hD4 horder
    refine mem_image.2 ⟨code, by simpa using hcode, ?_⟩
    unfold codeShape
    rw [hlist, carveSubBits_eq]
  · have hfloor := (@carveSubBits_bounds D (2 ^ T) (2 ^ w) order (D - 1)).1
    unfold floorBits at hfloor
    rw [if_pos rfl] at hfloor
    exact (show (16 : ℕ) = 2 ^ atomLeavesBits from rfl).trans_le (Nat.pow_le_pow_right two_pos hfloor)
  · have hsplit := sum_congr (show range D = range D from rfl) fun l _ =>
      Nat.add_sub_cancel' (@carveSubBits_bounds D (2 ^ T) (2 ^ w) order l).2
    rw [sum_add_distrib, hreach, sum_ownerSpanBits hD hT] at hsplit
    rw [prod_pow_eq_pow_sum, Nat.pow_div (by omega) (by decide)]
    congr 1
    omega

/-- Depth four, 2 ^ 17 leaves over sixty-four streams: the set is full. -/
theorem subBoxes_complete_full : (subBoxes 4 (2 ^ 17) (2 ^ 6)).length = geomMaxSubBoxes ∧
    ∀ shape, shape ∈ subBoxes 4 (2 ^ 17) (2 ^ 6) ↔
      ∃ order, RanksEachOnce 4 order ∧ (List.range 4).map (carveSubBits 4 (2 ^ 17) (2 ^ 6) order) = shape :=
  ⟨by decide +kernel, (subBoxes_complete (by decide) (by decide) (by decide) 6).2.2.1⟩

end Rola
