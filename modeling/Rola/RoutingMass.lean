import Mathlib.Tactic.FieldSimp
import Mathlib.Tactic.NormNum
import Rola.PaddingExact
import Rola.Producer
import Rola.RangeSums

/-!
# The routing mass moves and nothing else does

What `_fold` divides out of the write levels it gives the gain, so a leaf's deposit is the solved one. The
read levels keep theirs, and either consumer divides each level that is not declared on the simplex by its
own sum; a declared level's sum is one.
-/

namespace Rola.Producer
open Finset
open Padding (Shaped leafProduct radixStrides naiveRola Operands)

variable {K : Type} [Field K]

/-! ### The fold -/

/-- A solved level on the simplex. -/
def simplex (level : List K) : List K := level.map fun x => x / level.sum

theorem fold_levels (H : ℕ) (levels : List (Plane K)) (skip : List Bool) (carryMass : Bool) :
    (fold H levels skip carryMass).1 = (levels.zip skip).map fun x => fun b t h =>
      if x.2 || carryMass then x.1 (b * H + h) t else simplex (x.1 (b * H + h) t) := by
  show ((levels.zip skip).foldl (foldLevel H carryMass) ([], none)).1 = _
  induction levels.zip skip using List.reverseRecOn with
  | nil => rfl
  | append_singleton zs z ih =>
    obtain ⟨plane, unitSum⟩ := z
    rw [List.foldl_append, List.map_append, ← ih]
    cases unitSum <;> cases carryMass <;> rfl

/-- The mass a side folds: its undeclared levels' sums. -/
def sideMass (zs : List (Plane K × Bool)) (bh t : ℕ) : K := (zs.map fun x => if x.2 then 1 else (x.1 bh t).sum).prod

/-- The loop's product is its levels' mass, or none while every level is declared. -/
def MassOf (zs : List (Plane K × Bool)) : Option (ℕ → ℕ → K) → Prop
  | none => ∀ x ∈ zs, x.2 = true
  | some mass => mass = sideMass zs

theorem sideMass_declared {zs : List (Plane K × Bool)} (h : ∀ x ∈ zs, x.2 = true) (bh t : ℕ) : sideMass zs bh t = 1 := by
  refine List.prod_eq_one fun m hm => ?_
  obtain ⟨x, hx, rfl⟩ := List.mem_map.1 hm
  rw [if_pos (h x hx)]

theorem foldLevel_mass (H : ℕ) (carryMass : Bool) (zs : List (Plane K × Bool)) :
    MassOf zs (zs.foldl (foldLevel H carryMass) ([], none)).2 := by
  induction zs using List.reverseRecOn with
  | nil => intro x hx; cases hx
  | append_singleton zs z ih =>
    obtain ⟨plane, unitSum⟩ := z
    rw [List.foldl_append, List.foldl_cons, List.foldl_nil]
    generalize zs.foldl (foldLevel H carryMass) ([], none) = st at ih
    obtain ⟨levels, mass⟩ := st
    cases unitSum with
    | true =>
      show MassOf _ mass
      cases mass with
      | none =>
        intro x hx
        rcases List.mem_append.1 hx with hx | hx
        · exact ih x hx
        · rw [List.mem_singleton.1 hx]
      | some mass =>
        rw [show mass = sideMass zs from ih]
        funext bh t
        simp [sideMass]
    | false =>
      cases mass with
      | none =>
        funext bh t
        have hone := sideMass_declared ih bh t
        unfold sideMass at hone ⊢
        rw [List.map_append, List.prod_append, hone]
        simp
      | some mass =>
        show (fun bh t => mass bh t * (plane bh t).sum) = _
        rw [show mass = sideMass zs from ih]
        funext bh t
        simp [sideMass]

/-! ### The bundle -/

/-- A side's levels at a batch, token and head, and a side's planes at a stream and token. -/
def levelsAt (levels : List (Level K)) (b t h : ℕ) : List (List K) := levels.map fun level => level b t h

def planesAt (planes : List (Plane K)) (bh t : ℕ) : List (List K) := planes.map fun plane => plane bh t

/-- Solved levels of the topology's widths, with nonzero sums, one where the level is declared on the simplex. -/
structure Solved (topology : Topology) (duty : Duty) (planes : List (Plane K)) : Prop where
  widths : ∀ bh t, Shaped topology.widths (planesAt planes bh t)
  sum_ne_zero : ∀ plane ∈ planes, ∀ bh t, (plane bh t).sum ≠ 0
  declared : ∀ l (hl : l < planes.length), topology.simplexOutput l duty = true → ∀ bh t, (planes[l] bh t).sum = 1

section Bundle

variable {topology : Topology} {duty : Duty} {planes readBh writeBh : List (Plane K)} {H : ℕ} {gain : Column K}

theorem Solved.length (hs : Solved topology duty planes) : planes.length = topology.D := by
  have h : (planesAt planes 0 0).map List.length = topology.widths := hs.widths 0 0
  rw [Topology.D, ← h, List.length_map, planesAt, List.length_map]

theorem length_skip : (skip topology duty).length = topology.D := by rw [skip, List.length_map, List.length_range]

theorem simplex_of_sum_one {level : List K} (h : level.sum = 1) : simplex level = level := by
  rw [simplex, h]
  simp

/-- Dividing a level by its sum divides its factor of a leaf's product. -/
theorem leafProduct_folded {zs : List (List K × Bool)} {strides : List ℕ} (hlength : strides.length = zs.length)
    (hsum : ∀ x ∈ zs, x.1.sum ≠ 0) (leaf : ℕ) :
    (zs.map fun x => if x.2 then 1 else x.1.sum).prod * leafProduct (zs.map fun x => if x.2 then x.1 else simplex x.1) strides leaf =
      leafProduct (zs.map Prod.fst) strides leaf := by
  induction zs generalizing strides with
  | nil => simp [leafProduct]
  | cons z zs ih =>
    obtain ⟨level, declared⟩ := z
    cases strides with
    | nil => cases hlength
    | cons stride strides =>
      have hrest := ih (Nat.succ.inj hlength) fun x hx => hsum x (List.mem_cons_of_mem _ hx)
      have hne : level.sum ≠ 0 := hsum (level, declared) List.mem_cons_self
      have hcons : ∀ (first : List K) (levels : List (List K)), leafProduct (first :: levels) (stride :: strides) leaf =
          first.getD (leaf / stride % first.length) 0 * leafProduct levels strides leaf := by
        intro first levels
        simp [leafProduct]
      rw [List.map_cons, List.map_cons, List.map_cons, List.prod_cons, hcons, hcons, ← hrest]
      cases declared with
      | true => simp [mul_left_comm]
      | false =>
        have hentry : (simplex level).getD (leaf / stride % (simplex level).length) 0 =
            level.getD (leaf / stride % level.length) 0 / level.sum := by
          rw [simplex, List.length_map, List.getD_eq_getElem?_getD, List.getElem?_map, List.getD_eq_getElem?_getD]
          cases level[leaf / stride % level.length]? with
          | none => simp
          | some x => rfl
        simp only [Bool.false_eq_true, if_false, hentry]
        field_simp

theorem zip_fst (hs : Solved topology duty planes) (bh t : ℕ) :
    ((planes.zip (skip topology duty)).map fun x => (x.1 bh t, x.2)).map Prod.fst = planesAt planes bh t := by
  have hlength : planes.length ≤ (skip topology duty).length := by rw [hs.length, length_skip]
  rw [List.map_map, planesAt]
  conv_rhs => rw [← List.map_fst_zip hlength, List.map_map]
  rfl

theorem forward_gWrite : (forward topology H readBh writeBh gain).gWrite =
    match ((writeBh.zip (skip topology .write)).foldl (foldLevel H false) ([], none)).2.map (permuted H) with
      | none => gain
      | some mass => fun b t h => gain b t h * mass b t h := rfl

/-- The gain's share and the levels' are the solved deposit. -/
theorem deposit_exact (hw : Solved topology .write writeBh) (b t h leaf : ℕ) :
    (forward topology H readBh writeBh gain).gWrite b t h *
        leafProduct (levelsAt (forward topology H readBh writeBh gain).write b t h) (radixStrides topology.widths) leaf =
      gain b t h * leafProduct (planesAt writeBh (b * H + h) t) (radixStrides topology.widths) leaf := by
  have hfolded := @leafProduct_folded K _
    ((writeBh.zip (skip topology .write)).map fun x => (x.1 (b * H + h) t, x.2)) (radixStrides topology.widths)
    (by simp [radixStrides, hw.length, length_skip, Topology.D]) (fun x hx => by
      obtain ⟨z, hz, rfl⟩ := List.mem_map.1 hx
      exact hw.sum_ne_zero _ (List.of_mem_zip hz).1 _ _) leaf
  rw [zip_fst hw, List.map_map, List.map_map] at hfolded
  have hlevels : levelsAt (forward topology H readBh writeBh gain).write b t h =
      (writeBh.zip (skip topology .write)).map fun x =>
        if x.2 then x.1 (b * H + h) t else simplex (x.1 (b * H + h) t) := by
    show levelsAt (fold H writeBh (skip topology .write) false).1 b t h = _
    rw [fold_levels, levelsAt, List.map_map]
    refine List.map_congr_left fun x _ => ?_
    rw [Function.comp_apply, Bool.or_false]
  have hgain : (forward topology H readBh writeBh gain).gWrite b t h =
      gain b t h * sideMass (writeBh.zip (skip topology .write)) (b * H + h) t := by
    have hmass := foldLevel_mass H false (writeBh.zip (skip topology .write))
    rw [forward_gWrite]
    cases hfold : ((writeBh.zip (skip topology .write)).foldl (foldLevel H false) ([], none)).2 with
    | none =>
      rw [hfold] at hmass
      rw [sideMass_declared hmass, mul_one]
      rfl
    | some mass =>
      rw [hfold] at hmass
      rw [show sideMass _ = mass from hmass.symm]
      rfl
  rw [hgain, hlevels, mul_assoc]
  exact congrArg (gain b t h * ·) hfolded

/-! ### The read side -/

theorem read_eq (hr : Solved topology .read readBh) : (forward topology H readBh writeBh gain).read = readBh.map (permuted H) := by
  have hlength : readBh.length ≤ (skip topology .read).length := by rw [hr.length, length_skip]
  show (fold H readBh (skip topology .read) true).1 = _
  rw [fold_levels]
  conv_rhs => rw [← List.map_fst_zip hlength, List.map_map]
  refine List.map_congr_left fun x _ => ?_
  funext b t h
  rw [Bool.or_true, if_pos rfl]
  rfl

/-- A level is left as it is only where it is declared on the simplex. -/
theorem readNeedsNormalization_getD (hr : Solved topology .read readBh) {l : ℕ} (hl : l < topology.D) :
    (forward topology H readBh writeBh gain).readNeedsNormalization.getD l false = !topology.simplexOutput l .read := by
  have hmass := foldLevel_mass H true (readBh.zip (skip topology .read))
  have hread := congrArg List.length (@read_eq K _ topology readBh writeBh H gain hr)
  rw [List.length_map, hr.length] at hread
  unfold RouteFactors.readNeedsNormalization
  cases hfold : ((readBh.zip (skip topology .read)).foldl (foldLevel H true) ([], none)).2 with
  | none =>
    have hnone : (forward topology H readBh writeBh gain).readMass = none :=
      show Option.map (permuted H) ((readBh.zip (skip topology .read)).foldl (foldLevel H true) ([], none)).2 = none by
        rw [hfold]; rfl
    rw [hfold] at hmass
    have hl' : l < (readBh.zip (skip topology .read)).length := by
      rw [List.length_zip, hr.length, length_skip, Nat.min_self]
      exact hl
    have hdeclared := hmass _ (List.getElem_mem hl')
    rw [List.getElem_zip] at hdeclared
    dsimp only at hdeclared
    simp only [skip, List.getElem_map, List.getElem_range] at hdeclared
    rw [hnone, hdeclared]
    dsimp only
    rw [List.getD_eq_getElem?_getD, List.getElem?_replicate]
    split <;> rfl
  | some mass =>
    have hsome : (forward topology H readBh writeBh gain).readMass = some (permuted H mass) :=
      show Option.map (permuted H) ((readBh.zip (skip topology .read)).foldl (foldLevel H true) ([], none)).2 = _ by
        rw [hfold]; rfl
    rw [hsome]
    dsimp only
    rw [List.getD_eq_getElem?_getD, List.getElem?_map, hread, List.getElem?_range hl]
    rfl

/-- A normalised level is the solved one over its own sum. -/
theorem normalized_eq (hr : Solved topology .read readBh) {l : ℕ} (hl : l < topology.D) (bh t : ℕ) :
    (if (!topology.simplexOutput l .read) = true then simplex ((planesAt readBh bh t).getD l []) else (planesAt readBh bh t).getD l []) =
      simplex ((planesAt readBh bh t).getD l []) := by
  have hl' : l < readBh.length := by rw [hr.length]; exact hl
  cases hd : topology.simplexOutput l .read with
  | false => rfl
  | true =>
    have hone := hr.declared l hl' hd bh t
    have hget : (planesAt readBh bh t).getD l [] = readBh[l] bh t := by
      rw [planesAt, List.getD_eq_getElem _ _ (by rwa [List.length_map]), List.getElem_map]
    rw [hget, simplex_of_sum_one hone]
    rfl

/-- Both consumers ask one predicate. -/
theorem readSimplex_eq (routes : RouteFactors K) : routes.readSimplex = (routes.read.zip routes.readNeedsNormalization).map fun x =>
    fun b t h => if x.2 then simplex (x.1 b t h) else x.1 b t h := by
  unfold RouteFactors.readSimplex RouteFactors.readNeedsNormalization
  cases routes.readMass with
  | none =>
    dsimp only
    conv_lhs => rw [← @List.map_fst_zip _ _ routes.read (List.replicate routes.read.length false) (by rw [List.length_replicate])]
    refine List.map_congr_left fun x hx => ?_
    funext b t h
    rw [List.eq_of_mem_replicate (List.of_mem_zip hx).2, if_neg Bool.false_ne_true]
  | some mass =>
    refine List.map_congr_left fun x _ => ?_
    obtain ⟨level, needs⟩ := x
    funext b t h
    cases needs <;> rfl

omit [Field K] in
theorem length_readNeedsNormalization (routes : RouteFactors K) : routes.readNeedsNormalization.length = routes.read.length := by
  unfold RouteFactors.readNeedsNormalization
  split
  · rw [List.length_replicate]
  · rw [List.length_map, List.length_range]

theorem readSimplex_exact (hr : Solved topology .read readBh) (b t h : ℕ) :
    levelsAt (forward topology H readBh writeBh gain).readSimplex b t h = (planesAt readBh (b * H + h) t).map simplex := by
  have hread := @read_eq K _ topology readBh writeBh H gain hr
  have hneeds := length_readNeedsNormalization (forward topology H readBh writeBh gain)
  have hlength : (forward topology H readBh writeBh gain).read.length = readBh.length := by rw [hread, List.length_map]
  rw [readSimplex_eq, levelsAt, List.map_map]
  refine List.ext_getElem ?_ fun l hl hl' => ?_
  · rw [List.length_map, List.length_zip, hneeds, hlength, Nat.min_self, List.length_map, planesAt, List.length_map]
  · rw [List.length_map, planesAt, List.length_map] at hl'
    have hlD : l < topology.D := by rw [← hr.length]; exact hl'
    have hneed := @readNeedsNormalization_getD K _ topology readBh writeBh H gain hr l hlD
    rw [List.getD_eq_getElem _ _ (by rw [hneeds, hlength]; exact hl')] at hneed
    have hlevel : getElem (forward topology H readBh writeBh gain).read l (by rw [hlength]; exact hl') = permuted H readBh[l] := by
      simp only [hread, List.getElem_map]
    have hget : (planesAt readBh (b * H + h) t).getD l [] = readBh[l] (b * H + h) t := by
      rw [planesAt, List.getD_eq_getElem _ _ (by rwa [List.length_map]), List.getElem_map]
    have hnorm := normalized_eq hr hlD (b * H + h) t
    rw [hget] at hnorm
    rw [List.getElem_map, List.getElem_zip, Function.comp_apply, List.getElem_map, hneed, hlevel]
    simp only [planesAt, List.getElem_map]
    exact hnorm

end Bundle

/-! ### The decode kernel's fold -/

theorem laneSum_eq (row : ℕ → K) (width lane : ℕ) : laneSum row width lane =
    ∑ i ∈ range ((width + 31) / 32), if lane + i * 32 < width then row (lane + i * 32) else 0 := by
  rw [laneSum, foldl_add, zero_add, ← sum_filter]
  refine sum_congr (ext fun i => ?_) fun _ _ => rfl
  rw [mem_filter, mem_range, mem_range]
  omega

/-- Lane 0 ends with the row's sum. -/
theorem rowSum_eq (row : ℕ → K) (width : ℕ) : rowSum row width = ∑ g ∈ range width, row g := by
  have hlanes : rowSum row width = ∑ lane ∈ range 32, laneSum row width lane := by
    simp [rowSum, shflDown, sum_range_succ]
    ring
  rw [hlanes, sum_congr rfl fun lane _ => laneSum_eq row width lane, sum_striped (fun g => if g < width then row g else 0), ← sum_filter]
  refine sum_congr (ext fun g => ?_) fun _ _ => rfl
  rw [mem_filter, mem_range, mem_range]
  omega

omit [Field K] in
/-- An address every store of which holds one value ends with it. -/
theorem foldl_store {stores : List (ℕ × K)} {a : ℕ} {v : K} (out : ℕ → K) (hmem : (a, v) ∈ stores)
    (hsame : ∀ store ∈ stores, store.1 = a → store.2 = v) :
    stores.foldl (fun out store => Function.update out store.1 store.2) out a = v := by
  induction stores using List.reverseRecOn with
  | nil => cases hmem
  | append_singleton stores store ih =>
    rw [List.foldl_append, List.foldl_cons, List.foldl_nil]
    by_cases hstore : store.1 = a
    · rw [hstore, Function.update_self]
      exact hsame store (by simp) hstore
    · rw [Function.update_of_ne (Ne.symm hstore)]
      refine ih ?_ fun store' hstore' => hsame store' (List.mem_append_left _ hstore')
      rcases List.mem_append.1 hmem with hmem | hmem
      · exact hmem
      · rw [← List.mem_singleton.1 hmem] at hstore
        exact absurd rfl hstore

section Decode

variable {D : ℕ} {levelWidth : ℕ → ℕ} {rows : ℕ → ℕ → K} {normalize : ℕ → Bool} {sSum out : ℕ → K}

theorem ampOffset_inj {l l' g g' : ℕ} (hg : g < levelWidth l) (hg' : g' < levelWidth l')
    (h : ampOffset levelWidth l + g = ampOffset levelWidth l' + g') : l = l' ∧ g = g' := by
  have hmono : ∀ {i j}, i < j → ampOffset levelWidth i + levelWidth i ≤ ampOffset levelWidth j := by
    intro i j hij
    rw [ampOffset, ← sum_range_succ]
    exact sum_le_sum_of_subset (range_subset_range.2 hij)
  rcases Nat.lt_trichotomy l l' with hlt | rfl | hgt
  · have := hmono hlt
    omega
  · exact ⟨rfl, by omega⟩
  · have := hmono hgt
    omega

theorem mem_stores {a : ℕ} {v : K} {sums : ℕ → K} :
    ((a, v) ∈ (List.range kDecodeThreads).flatMap fun tid => foldRows D levelWidth (ampOffset levelWidth) rows normalize sums tid) ↔
      ∃ l < D, ∃ g < levelWidth l, a = ampOffset levelWidth l + g ∧ v = if normalize l then rows l g / sums l else rows l g := by
  simp only [List.mem_flatMap, foldRows, List.mem_map, List.mem_range, kDecodeThreads]
  constructor
  · rintro ⟨tid, htid, l, hl, i, hi, heq⟩
    obtain ⟨rfl, rfl⟩ := Prod.mk.inj heq
    exact ⟨l, hl, tid + i * 1024, by omega, rfl, rfl⟩
  · rintro ⟨l, hl, g, hg, rfl, rfl⟩
    refine ⟨g % 1024, Nat.mod_lt _ (by omega), l, hl, g / 1024, by omega, ?_⟩
    rw [Nat.mod_add_div' g 1024]

/-- A level's rows as the walk reads them. -/
theorem stagedRead_eq (hD : D ≤ 32) {l g : ℕ} (hl : l < D) (hg : g < levelWidth l) :
    stagedRead D levelWidth (ampOffset levelWidth) rows normalize sSum out (ampOffset levelWidth l + g) =
      if normalize l then rows l g / ∑ i ∈ range (levelWidth l), rows l i else rows l g := by
  have hvalue : (if normalize l then rows l g / foldRowSums D levelWidth rows normalize sSum l else rows l g) =
      if normalize l then rows l g / ∑ i ∈ range (levelWidth l), rows l i else rows l g := by
    cases hn : normalize l with
    | false => rfl
    | true => rw [if_pos rfl, if_pos rfl, foldRowSums, if_pos ⟨by unfold kDecodeThreads; omega, hl, hn⟩, rowSum_eq]
  refine foldl_store out (mem_stores.2 ⟨l, hl, g, hg, rfl, hvalue.symm⟩) fun store hstore ha => ?_
  obtain ⟨l', hl', g', hg', ha', hv⟩ := mem_stores.1 (show (store.1, store.2) ∈ _ from hstore)
  obtain ⟨rfl, rfl⟩ := ampOffset_inj hg' hg (ha'.symm.trans ha)
  exact hv.trans hvalue

end Decode

/-! ### The run -/

/-- A batch-head's tokens. -/
def tokens (read write : ℕ → List (List K)) (gain : ℕ → K) (value : ℕ → List K) (T : ℕ) : List (Operands K) :=
  (List.range T).map fun t => ⟨read t, write t, gain t, value t⟩

/-- A run is decided by its reads and its deposits. -/
theorem naiveRola_congr {pow : K → K → K} {eps : K} {widths : List ℕ} {dV : ℕ} {read read' write write' : ℕ → List (List K)}
    {gain gain' : ℕ → K} {value : ℕ → List K} (hread : ∀ t, read t = read' t)
    (hdeposit : ∀ t leaf, gain t * leafProduct (write t) (radixStrides widths) leaf =
      gain' t * leafProduct (write' t) (radixStrides widths) leaf) (T : ℕ) :
    naiveRola pow none eps widths dV (tokens read write gain value T) =
      naiveRola pow none eps widths dV (tokens read' write' gain' value T) := by
  induction T with
  | zero => rfl
  | succ T ih =>
    have hsnoc : ∀ (read write : ℕ → List (List K)) (gain : ℕ → K), tokens read write gain value (T + 1) =
        tokens read write gain value T ++ [⟨read T, write T, gain T, value T⟩] := by
      intro read write gain
      rw [tokens, List.range_succ, List.map_append]
      rfl
    have hupdate : ∀ state : Padding.State K, Padding.update pow none widths ⟨read T, write T, gain T, value T⟩ state =
        Padding.update pow none widths ⟨read' T, write' T, gain' T, value T⟩ state := by
      intro state
      funext leaf col
      exact congrArg (fun deposit => 1 * state leaf col + deposit * (value T ++ [1]).getD col 0) (hdeposit T leaf)
    have hreadout : ∀ state : Padding.State K, Padding.readout widths ⟨read T, write T, gain T, value T⟩ state =
        Padding.readout widths ⟨read' T, write' T, gain' T, value T⟩ state := by
      intro state
      funext col
      exact congrArg (fun levels => ∑ leaf ∈ range (Padding.leafCapacity widths),
        leafProduct levels (radixStrides widths) leaf * state leaf col) (hread T)
    rw [hsnoc, hsnoc, Padding.naiveRola_snoc, Padding.naiveRola_snoc, ih, hupdate, hreadout]

/-- The read levels a decode step walks at a batch, token and head, over what its staging held. -/
def decodeRead (routes : RouteFactors K) (b t h : ℕ) (sSum out : ℕ → K) : List (List K) :=
  (List.range routes.topology.D).map fun l => (List.range (routes.topology.widths.getD l 0)).map fun g =>
    stagedRead routes.topology.D (routes.topology.widths.getD · 0) (ampOffset (routes.topology.widths.getD · 0))
      (fun l g => ((levelsAt routes.read b t h).getD l []).getD g 0) (routes.readNeedsNormalization.getD · false) sSum out
      (ampOffset (routes.topology.widths.getD · 0) l + g)

variable {topology : Topology} {readBh writeBh : List (Plane K)} {H : ℕ} {gain : Column K}

theorem decodeRead_exact (hD : topology.D ≤ 32) (hr : Solved topology .read readBh) (b t h : ℕ) (sSum out : ℕ → K) :
    decodeRead (forward topology H readBh writeBh gain) b t h sSum out = (planesAt readBh (b * H + h) t).map simplex := by
  have hshape : (planesAt readBh (b * H + h) t).map List.length = topology.widths := hr.widths (b * H + h) t
  have hlength : (planesAt readBh (b * H + h) t).length = topology.D := by rw [planesAt, List.length_map, hr.length]
  have hlevels : levelsAt (forward topology H readBh writeBh gain).read b t h = planesAt readBh (b * H + h) t := by
    rw [read_eq hr, levelsAt, List.map_map]
    rfl
  refine List.ext_getElem ?_ fun l hl hl' => ?_
  · rw [decodeRead, List.length_map, List.length_range, List.length_map, hlength]
    rfl
  · rw [List.length_map, hlength] at hl'
    have hwidth : topology.widths.getD l 0 = ((planesAt readBh (b * H + h) t).getD l []).length := by
      rw [← hshape, List.getD_eq_getElem _ _ (by rw [List.length_map, hlength]; exact hl'), List.getElem_map,
        List.getD_eq_getElem _ _ (by rw [hlength]; exact hl')]
    have hlevel : getElem ((planesAt readBh (b * H + h) t).map simplex) l (by rw [List.length_map, hlength]; exact hl') =
        simplex ((planesAt readBh (b * H + h) t).getD l []) := by
      rw [List.getElem_map, List.getD_eq_getElem _ _ (by rw [hlength]; exact hl')]
    have hneed := @readNeedsNormalization_getD K _ topology readBh writeBh H gain hr l hl'
    rw [hlevel, ← normalized_eq hr hl' (b * H + h) t]
    generalize hlev : (planesAt readBh (b * H + h) t).getD l [] = level at hwidth
    have hentries : level = (List.range (topology.widths.getD l 0)).map fun g => level.getD g 0 := by
      refine List.ext_getElem (by rw [List.length_map, List.length_range, hwidth]) fun g hg _ => ?_
      rw [List.getElem_map, List.getElem_range, List.getD_eq_getElem _ _ hg]
    have hsum : level.sum = ∑ g ∈ range (topology.widths.getD l 0), level.getD g 0 := by
      rw [← sum_map_range, ← hentries]
    simp only [decodeRead, List.getElem_map, List.getElem_range]
    have hstaged : ∀ g ∈ List.range (topology.widths.getD l 0),
        stagedRead topology.D (topology.widths.getD · 0) (ampOffset (topology.widths.getD · 0))
          (fun l g => ((levelsAt (forward topology H readBh writeBh gain).read b t h).getD l []).getD g 0)
          ((forward topology H readBh writeBh gain).readNeedsNormalization.getD · false) sSum out
          (ampOffset (topology.widths.getD · 0) l + g) =
        if (!topology.simplexOutput l .read) = true then level.getD g 0 / level.sum else level.getD g 0 := by
      intro g hg
      refine (stagedRead_eq hD hl' (List.mem_range.1 hg)).trans ?_
      rw [hneed, hlevels, hlev, hsum]
    refine (List.map_congr_left hstaged).trans ?_
    cases hd : topology.simplexOutput l .read with
    | true => exact hentries.symm
    | false =>
      refine Eq.trans ?_ (congrArg (List.map fun x => x / level.sum) hentries).symm
      rw [List.map_map]
      rfl

/-- The bundle's deposits are the solved levels', and either consumer reads each solved level over its own sum. -/
theorem routing_mass_exact (hD : topology.D ≤ 4) (hr : Solved topology .read readBh) (hw : Solved topology .write writeBh) :
    (∀ b t h leaf, (forward topology H readBh writeBh gain).gWrite b t h *
        leafProduct (levelsAt (forward topology H readBh writeBh gain).write b t h) (radixStrides topology.widths) leaf =
      gain b t h * leafProduct (planesAt writeBh (b * H + h) t) (radixStrides topology.widths) leaf) ∧
    ∀ (pow : K → K → K) (eps : K) (dV b h T : ℕ) (value : ℕ → List K),
      naiveRola pow none eps topology.widths dV (tokens (levelsAt (forward topology H readBh writeBh gain).readSimplex b · h)
          (levelsAt (forward topology H readBh writeBh gain).write b · h) ((forward topology H readBh writeBh gain).gWrite b · h)
          value T) =
        naiveRola pow none eps topology.widths dV (tokens (fun t => (planesAt readBh (b * H + h) t).map simplex)
          (planesAt writeBh (b * H + h)) (gain b · h) value T) ∧
      ∀ sSum out : ℕ → ℕ → K, naiveRola pow none eps topology.widths dV
          (tokens (fun t => decodeRead (forward topology H readBh writeBh gain) b t h (sSum t) (out t))
            (levelsAt (forward topology H readBh writeBh gain).write b · h) ((forward topology H readBh writeBh gain).gWrite b · h)
            value T) =
        naiveRola pow none eps topology.widths dV (tokens (fun t => (planesAt readBh (b * H + h) t).map simplex)
          (planesAt writeBh (b * H + h)) (gain b · h) value T) := by
  refine ⟨fun b t h leaf => deposit_exact hw b t h leaf, fun pow eps dV b h T value => ⟨?_, fun sSum out => ?_⟩⟩
  · exact naiveRola_congr (fun t => readSimplex_exact hr b t h) (fun t leaf => deposit_exact hw b t h leaf) T
  · exact naiveRola_congr (fun t => decodeRead_exact (by omega) hr b t h (sSum t) (out t)) (fun t leaf => deposit_exact hw b t h leaf) T

/-- Two levels of which one duty of one is declared on the simplex. -/
def mixedTopology : Topology := ⟨[2, 3], fun l duty => decide (l = 0 ∧ duty = .write)⟩

def mixedRead : List (Plane ℚ) := [fun _ _ => [1, 1], fun _ _ => [2, 4, 2]]

def mixedWrite : List (Plane ℚ) := [fun _ _ => [1, 0], fun _ _ => [3, 3, 0]]

theorem routing_mass_exact_mixed :
    (forward mixedTopology 1 mixedRead mixedWrite fun _ _ _ => 5).gWrite 0 0 0 *
        leafProduct (levelsAt (forward mixedTopology 1 mixedRead mixedWrite fun _ _ _ => 5).write 0 0 0) (radixStrides [2, 3]) 1 =
      5 * leafProduct (planesAt mixedWrite 0 0) (radixStrides [2, 3]) 1 ∧
    naiveRola (fun a _ => a) none 1 [2, 3] 1 (tokens
        (levelsAt (forward mixedTopology 1 mixedRead mixedWrite fun _ _ _ => 5).readSimplex 0 · 0)
        (levelsAt (forward mixedTopology 1 mixedRead mixedWrite fun _ _ _ => 5).write 0 · 0)
        ((forward mixedTopology 1 mixedRead mixedWrite fun _ _ _ => 5).gWrite 0 · 0) (fun _ => [1]) 2) =
      naiveRola (fun a _ => a) none 1 [2, 3] 1 (tokens (fun t => (planesAt mixedRead (0 * 1 + 0) t).map simplex)
        (planesAt mixedWrite (0 * 1 + 0)) (fun _ => 5) (fun _ => [1]) 2) := by
  have hr : Solved mixedTopology .read mixedRead := by
    refine ⟨fun _ _ => rfl, fun plane hplane bh t => ?_, fun l _ hd => by simp [mixedTopology] at hd⟩
    rcases List.mem_pair.1 hplane with rfl | rfl
    · norm_num
    · norm_num
  have hw : Solved mixedTopology .write mixedWrite := by
    refine ⟨fun _ _ => rfl, fun plane hplane bh t => ?_, fun l hl hd bh t => ?_⟩
    · rcases List.mem_pair.1 hplane with rfl | rfl
      · norm_num
      · norm_num
    · have hzero : l = 0 := by simpa [mixedTopology] using hd
      subst hzero
      show ([1, 0] : List ℚ).sum = 1
      norm_num
  have h := @routing_mass_exact ℚ _ mixedTopology mixedRead mixedWrite 1 (fun _ _ _ => 5) (by decide) hr hw
  exact ⟨h.1 0 0 0 1, (h.2 (fun a _ => a) 1 1 0 0 2 fun _ => [1]).1⟩

end Rola.Producer
