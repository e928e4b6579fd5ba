import Rola.BlockScan
import Rola.LaunchRun

/-!
# The claim a CTA makes, thread by thread

`decode_step_kernel`: a block counts the written atoms the table does not map, and where the pool holds
them it walks its candidates again, pass by pass, ranking each by the block's scan. The last arriver's
warp folds the row by lanes and counts what it maps. Neither is more than the launch's own account of it.
`n_candidates` is an `int` that is zero or a power of two, so the loops' counters are `int`s too.
-/

namespace Rola

variable {R P O : Type}

namespace HeadCall

variable (C : HeadCall R P O) (n : ℕ) (candidate : ℕ → Option ℕ) (h : HeadState R P O)

/-- `a >= 0 && page_row[a] < 0`, of candidate `i`. -/
def wants (table : ℕ → Option ℕ) (i : ℕ) : Bool := (candidate i).any fun a => (table a).isNone

/-- The admission question and the claim, as a CTA's threads make them. -/
def admission : Ask × List (ℕ × ℕ) :=
  let done := C.paged && h.done
  if C.paged && !done then
    let want := wants candidate h.table
    let demand := BlockScan.total decodeThreads n want
    if 0 < demand then
      let cursor := if 0 < C.poolCap then h.cursor else 0
      let claimed := decide ((demand : ℤ) ≤ (C.poolCap : ℤ) - cursor)
      (⟨done, claimed, !claimed⟩,
        if claimed then (BlockScan.passes decodeThreads n want 0 0).filterMap fun x =>
          (candidate x.1).map fun a => (a, C.poolSlots (cursor + x.2)) else [])
    else (⟨done, false, false⟩, [])
  else (⟨done, false, false⟩, [])

variable {C n candidate h}

theorem wanted_eq (hcand : C.cand = (List.range n).filterMap candidate) :
    C.wanted h = ((List.range n).filter (wants candidate h.table)).filterMap candidate := by
  unfold wanted
  rw [hcand, List.filter_filterMap, List.filterMap_filter]
  refine List.filterMap_congr fun i _ => ?_
  unfold wants
  rcases candidate i with _ | a
  · rfl
  · simp [Option.filter]

theorem wants_isSome {table : ℕ → Option ℕ} {i : ℕ} (hw : wants candidate table i = true) : (candidate i).isSome = true := by
  unfold wants at hw
  rcases hc : candidate i with _ | a
  · simp [hc] at hw
  · rfl

theorem length_wanted (table : ℕ → Option ℕ) (n : ℕ) :
    (((List.range n).filter (wants candidate table)).filterMap candidate).length = (List.range n).countP (wants candidate table) := by
  rw [List.length_filterMap_eq_countP, List.countP_eq_length_filter (p := wants candidate table)]
  exact List.countP_eq_length.2 fun i hi => wants_isSome (List.mem_filter.1 hi).2

/-- The block's total is the count of the wanted atoms. -/
theorem total_wants (hcand : C.cand = (List.range n).filterMap candidate) :
    BlockScan.total decodeThreads n (wants candidate h.table) = (C.wanted h).length := by
  rw [BlockScan.total_eq (by decide), wanted_eq hcand, length_wanted]

/-- A wanted place's rank is its atom's place among the wanted atoms. -/
theorem ranked_wants (table : ℕ → Option ℕ) (slot : ℕ → ℕ) (n : ℕ) :
    (((List.range n).filter (wants candidate table)).map (BlockScan.ranked (wants candidate table))).filterMap
      (fun x => (candidate x.1).map fun a => (a, slot x.2)) =
    (((List.range n).filter (wants candidate table)).filterMap candidate).zipIdx.map fun x => (x.1, slot x.2) := by
  induction n with
  | zero => rfl
  | succ n ih =>
    rw [List.range_succ, List.filter_append, List.map_append, List.filterMap_append, ih, List.filterMap_append,
      List.zipIdx_append, List.map_append, length_wanted]
    congr 1
    rcases hw : wants candidate table n with _ | _
    · simp [hw]
    · obtain ⟨a, ha⟩ := Option.isSome_iff_exists.1 (wants_isSome hw)
      simp [hw, ha, BlockScan.ranked]

/-- The ranks of a claim are the places of its atoms among the wanted. -/
theorem claims_passes (hcand : C.cand = (List.range n).filterMap candidate) (slot : ℕ → ℕ) :
    ((BlockScan.passes decodeThreads n (wants candidate h.table) 0 0).filterMap fun x =>
      (candidate x.1).map fun a => (a, slot x.2)) = (C.wanted h).zipIdx.map fun x => (x.1, slot x.2) := by
  have hpass : BlockScan.passes decodeThreads n (wants candidate h.table) 0 0 = _ :=
    BlockScan.passes_eq (by decide) fun _ => rfl
  rw [hpass, wanted_eq hcand, Nat.sub_zero, ← List.range_eq_range', ranked_wants]

/-- A CTA's threads ask and claim what the launch says of them. -/
theorem admit_eq (hcand : C.cand = (List.range n).filterMap candidate) :
    C.admission n candidate h = (C.askOf h, C.claimsOf h) := by
  have hfits : ∀ d cursor : ℕ, decide ((d : ℤ) ≤ (C.poolCap : ℤ) - cursor) = decide (cursor + d ≤ C.poolCap) := by
    intro d cursor
    rw [decide_eq_decide]
    omega
  have hclaims := claims_passes (h := h) hcand fun i => C.poolSlots (C.poolCursor h + i)
  unfold admission claimsOf askOf
  dsimp only
  rw [show (if 0 < C.poolCap then h.cursor else 0) = C.poolCursor h from rfl, total_wants hcand, hfits, hclaims]
  rcases C.paged with _ | _
  · simp
  rcases h.done with _ | _
  · by_cases hd : 0 < (C.wanted h).length
    · simp [hd]
    · simp [hd]
  · simp

end HeadCall

/-! ### The fold -/

namespace HeadState

variable {h : HeadState R P O} {table shadow : ℕ → Option ℕ} {atoms lane k : ℕ} {l : List ℕ}

/-- One atom of the fold. -/
def foldAtom (shadow : ℕ → Option ℕ) (st : (ℕ → Option ℕ) × ℕ) (a : ℕ) : (ℕ → Option ℕ) × ℕ :=
  if (shadow a).isSome && (st.1 a).isNone then (Function.update st.1 a (shadow a), st.2 + 1) else st

/-- One lane. -/
def foldLane (shadow : ℕ → Option ℕ) (atoms : ℕ) (table : ℕ → Option ℕ) (lane : ℕ) : (ℕ → Option ℕ) × ℕ :=
  (BlockScan.strided 32 atoms lane).foldl (foldAtom shadow) (table, 0)

/-- The lanes of the last arriver's warp: the row they leave, and each one's count. -/
def foldLanes (shadow : ℕ → Option ℕ) (atoms : ℕ) (table : ℕ → Option ℕ) : (ℕ → Option ℕ) × (ℕ → ℕ) :=
  (List.range 32).foldl (fun st lane =>
    let r := foldLane shadow atoms st.1 lane
    (r.1, Function.update st.2 lane r.2)) (table, fun _ => 0)

/-- The publication, as its warp makes it. -/
def publishWarp (h : HeadState R P O) (ask : Ask) (atoms : ℕ) : HeadState R P O :=
  let r := foldLanes h.shadow atoms h.table
  { h with
    table := if ask.claimed then r.1 else h.table
    cursor := h.cursor + if ask.claimed then BlockScan.warpReduce r.2 0 else 0
    done := if ask.needy then h.done else true
    pc := .published }

/-- An atom the fold maps. -/
def fresh (shadow table : ℕ → Option ℕ) (a : ℕ) : Bool := (shadow a).isSome && (table a).isNone

/-- Atoms once each: the row's absences filled from the shadow row, and counted. -/
theorem foldl_foldAtom (hl : l.Nodup) : l.foldl (foldAtom shadow) (table, k) =
    (fun a => if a ∈ l then (table a).or (shadow a) else table a, k + l.countP (fresh shadow table)) := by
  induction l generalizing table k with
  | nil => simp
  | cons a l ih =>
    obtain ⟨ha, hl⟩ := List.nodup_cons.1 hl
    have hother : ∀ b ∈ l, Function.update table a (shadow a) b = table b := fun b hb =>
      Function.update_of_ne (fun hc : b = a => ha (hc ▸ hb)) ..
    rw [List.foldl_cons, List.countP_cons]
    by_cases hfresh : fresh shadow table a = true
    · have hcount : l.countP (fresh shadow (Function.update table a (shadow a))) = l.countP (fresh shadow table) :=
        List.countP_congr fun b hb => by
          unfold fresh
          rw [hother b hb]
      rw [show foldAtom shadow (table, k) a = (Function.update table a (shadow a), k + 1) from if_pos hfresh, ih hl, hcount,
        if_pos hfresh]
      refine Prod.ext (funext fun b => ?_) (by omega)
      unfold fresh at hfresh
      rw [Bool.and_eq_true, Option.isNone_iff_eq_none] at hfresh
      dsimp only
      rcases eq_or_ne b a with rfl | hne
      · rw [if_neg ha, if_pos List.mem_cons_self, Function.update_self, hfresh.2, Option.none_or]
      · rw [Function.update_of_ne hne]
        simp only [List.mem_cons, hne, false_or]
    · rw [show foldAtom shadow (table, k) a = (table, k) from if_neg hfresh, ih hl, if_neg hfresh]
      refine Prod.ext (funext fun b => ?_) rfl
      dsimp only
      rcases eq_or_ne b a with rfl | hne
      · rw [if_neg ha, if_pos List.mem_cons_self]
        unfold fresh at hfresh
        rcases htab : table b with _ | slot
        · rcases hsh : shadow b with _ | slot
          · rfl
          · rw [htab, hsh] at hfresh
            exact absurd rfl hfresh
        · rfl
      · simp only [List.mem_cons, hne, false_or]

theorem foldLane_eq (hlane : lane < 32) : foldLane shadow atoms table lane =
    (fun a => if a < atoms ∧ a % 32 = lane then (table a).or (shadow a) else table a,
      (BlockScan.strided 32 atoms lane).countP (fresh shadow table)) := by
  unfold foldLane
  rw [foldl_foldAtom (BlockScan.strided_runs (by decide)).nodup, Nat.zero_add]
  simp only [BlockScan.mem_strided hlane]

/-- The lanes below `k` have filled their atoms and no others. -/
theorem foldl_foldLane (hk : k ≤ 32) : (List.range k).foldl (fun (st : (ℕ → Option ℕ) × (ℕ → ℕ)) lane =>
    ((foldLane shadow atoms st.1 lane).1, Function.update st.2 lane (foldLane shadow atoms st.1 lane).2)) (table, fun _ => 0) =
    (fun a => if a < atoms ∧ a % 32 < k then (table a).or (shadow a) else table a,
      fun lane => if lane < k then (BlockScan.strided 32 atoms lane).countP (fresh shadow table) else 0) := by
  induction k with
  | zero => simp
  | succ k ih =>
    rw [List.range_succ, List.foldl_append, ih (by omega), List.foldl_cons, List.foldl_nil, foldLane_eq (by omega)]
    have hcount : (BlockScan.strided 32 atoms k).countP (fresh shadow fun a =>
        if a < atoms ∧ a % 32 < k then (table a).or (shadow a) else table a) =
        (BlockScan.strided 32 atoms k).countP (fresh shadow table) := by
      refine List.countP_congr fun a ha => ?_
      have hmod := ((BlockScan.mem_strided (by omega)).1 ha).2
      unfold fresh
      dsimp only
      rw [if_neg (by omega)]
    rw [hcount]
    refine Prod.ext (funext fun a => ?_) (funext fun lane => ?_)
    · dsimp only
      by_cases hlt : a < atoms ∧ a % 32 < k
      · rw [if_neg (by omega), if_pos hlt, if_pos (by omega)]
      · rw [if_neg hlt]
        refine if_congr ?_ rfl rfl
        omega
    · dsimp only
      rcases eq_or_ne lane k with rfl | hne
      · rw [Function.update_self, if_pos (Nat.lt_succ_self _)]
      · rw [Function.update_of_ne hne]
        refine if_congr ?_ rfl rfl
        omega

/-- The warp's fold is the row's, and its sum the count. -/
theorem foldLanes_eq : foldLanes shadow atoms table =
    (fun a => if a < atoms then (table a).or (shadow a) else table a,
      fun lane => if lane < 32 then (BlockScan.strided 32 atoms lane).countP (fresh shadow table) else 0) := by
  have hlt : ∀ a : ℕ, a % 32 < 32 := fun a => Nat.mod_lt _ (by decide)
  unfold foldLanes
  dsimp only
  rw [foldl_foldLane le_rfl]
  simp only [hlt, and_true]

theorem publishWarp_eq (h : HeadState R P O) (ask : Ask) (atoms : ℕ) : h.publishWarp ask atoms = h.publish ask atoms := by
  have hsum : BlockScan.warpReduce (fun lane =>
      if lane < 32 then (BlockScan.strided 32 atoms lane).countP (fresh h.shadow h.table) else 0) 0 = h.folded atoms := by
    rw [BlockScan.warpReduce_zero]
    have htotal : BlockScan.total 32 atoms (fresh h.shadow h.table) = _ := BlockScan.total_eq (by decide)
    unfold folded
    refine Eq.trans (Finset.sum_congr rfl fun lane hlane => if_pos (Finset.mem_range.1 hlane)) htotal
  unfold publishWarp publish foldTable
  dsimp only
  rw [foldLanes_eq, hsum]
  rcases ask.claimed with _ | _
  · simp
  · simp

end HeadState

end Rola
