import Rola.DecodeStep
import Rola.WalkSplit
import Mathlib.Algebra.BigOperators.Group.Finset.Basic

/-!
# A decode step is a step of the recurrence

Whatever the split, each leaf of the write product is decayed and deposited into once, every other leaf is
kept, and the readout is the ratio of the read sums over the leaves so left.
-/

namespace Rola

open MixedRadix

variable {dv : ℕ}

namespace DecodeParams

variable {p : DecodeParams} {tok : Token dv} {slotOf : ℕ → Option ℕ} {nSplit : ℕ} {deposit : Bool}
  {pages : ℕ → StatePage dv} {v : Visit} {leaf : ℕ}

/-! ### A visit as a scatter -/

/-- A leaf's row, zero where its atom has no slot. -/
def leafRow (slotOf : ℕ → Option ℕ) (pages : ℕ → StatePage dv) (leaf : ℕ) : Row dv :=
  match slotOf (leaf / 16) with
  | some slot => pages slot (leaf % 16)
  | none => 0

def rowAddr (slotOf : ℕ → Option ℕ) (leaf : ℕ) : Option (ℕ × ℕ) := (slotOf (leaf / 16)).map fun slot => (slot, leaf % 16)

def visitWrites (deposit : Bool) (v : Visit) : Bool := v.inW && deposit

def visitUpd (p : DecodeParams) (tok : Token dv) (v : Visit) (sv : Row dv) : Row dv :=
  tok.keep v.leaf • sv + (p.amplitude tok.saW v.digit * tok.sw) • tok.deposit

def visitRead (p : DecodeParams) (tok : Token dv) (v : Visit) (sv : Row dv) : Row dv :=
  if v.inR then p.amplitude tok.saR v.digit • sv else 0

/-- What a visit leaves of its leaf. -/
def visitFinal (p : DecodeParams) (tok : Token dv) (slotOf : ℕ → Option ℕ) (deposit : Bool) (pages : ℕ → StatePage dv)
    (v : Visit) : Row dv :=
  Scatter.final (fun v : Visit => rowAddr slotOf v.leaf) (visitWrites deposit) (p.visitUpd tok) 0 (Function.uncurry pages) v

/-- The pages after a run of visits. -/
def visitPages (p : DecodeParams) (tok : Token dv) (slotOf : ℕ → Option ℕ) (deposit : Bool) (pages : ℕ → StatePage dv)
    (vs : List Visit) : ℕ → StatePage dv :=
  Function.curry (vs.foldl (Scatter.step (fun v : Visit => rowAddr slotOf v.leaf) (visitWrites deposit) (p.visitUpd tok))
    (Function.uncurry pages))

/-- What a run of visits reads. -/
def visitSum (p : DecodeParams) (tok : Token dv) (slotOf : ℕ → Option ℕ) (deposit : Bool) (pages : ℕ → StatePage dv)
    (vs : List Visit) : Row dv :=
  (vs.map fun v => p.visitRead tok v (p.visitFinal tok slotOf deposit pages v)).sum

/-- No two visits are of one row. -/
abbrev RowsApart (slotOf : ℕ → Option ℕ) (vs : List Visit) : Prop :=
  Scatter.Apart (fun v : Visit => rowAddr slotOf v.leaf) vs

theorem visitLeaf_eq (acc : Row dv) : p.visitLeaf tok slotOf deposit (pages, acc) v =
    (Function.curry (Scatter.visit (fun v : Visit => rowAddr slotOf v.leaf) (visitWrites deposit) (p.visitUpd tok) 0
      (p.visitRead tok) (Function.uncurry pages, acc) v).1,
    (Scatter.visit (fun v : Visit => rowAddr slotOf v.leaf) (visitWrites deposit) (p.visitUpd tok) 0
      (p.visitRead tok) (Function.uncurry pages, acc) v).2) := by
  have hatom : v.leaf >>> atomShift = v.leaf / 16 := Nat.shiftRight_eq_div_pow _ _
  have hrow : v.leaf &&& 15 = v.leaf % 16 := Nat.and_two_pow_sub_one_eq_mod _ 4
  unfold visitLeaf Scatter.visit Scatter.step Scatter.final rowAddr visitRead
  dsimp only
  rw [hatom, hrow]
  rcases slotOf (v.leaf / 16) with _ | slot
  · dsimp only [Option.map_none]
    split <;> simp
  · dsimp only [Option.map_some, visitWrites]
    by_cases hw : (v.inW && deposit) = true
    · simp only [hw, if_true]
      rw [← Function.uncurry_update_update, Function.curry_uncurry]
      split <;> simp [visitUpd]
    · simp only [hw, if_false, Bool.false_eq_true]
      split <;> simp

/-- A run of visits to distinct rows. -/
theorem foldl_visitLeaf {vs : List Visit} {acc : Row dv} (h : RowsApart slotOf vs) :
    vs.foldl (p.visitLeaf tok slotOf deposit) (pages, acc) =
      (p.visitPages tok slotOf deposit pages vs, acc + p.visitSum tok slotOf deposit pages vs) := by
  have hrun : ∀ (vs : List Visit) (mem : ℕ × ℕ → Row dv) (acc : Row dv),
      vs.foldl (p.visitLeaf tok slotOf deposit) (Function.curry mem, acc) =
        (Function.curry (vs.foldl (Scatter.visit (fun v : Visit => rowAddr slotOf v.leaf) (visitWrites deposit)
          (p.visitUpd tok) 0 (p.visitRead tok)) (mem, acc)).1,
        (vs.foldl (Scatter.visit (fun v : Visit => rowAddr slotOf v.leaf) (visitWrites deposit)
          (p.visitUpd tok) 0 (p.visitRead tok)) (mem, acc)).2) := by
    intro vs
    induction vs with
    | nil => exact fun _ _ => rfl
    | cons v vs ih =>
      intro mem acc
      rw [List.foldl_cons, List.foldl_cons, visitLeaf_eq, Function.uncurry_curry]
      exact ih _ _
  have := hrun vs (Function.uncurry pages) acc
  rw [Function.curry_uncurry, Scatter.foldl_visit h] at this
  exact this

theorem visitSum_append {vs vs' : List Visit} : p.visitSum tok slotOf deposit pages (vs ++ vs') =
    p.visitSum tok slotOf deposit pages vs + p.visitSum tok slotOf deposit pages vs' := by
  unfold visitSum
  rw [List.map_append, List.sum_append]

theorem visitSum_flatMap {α : Type*} (l : List α) (chunk : α → List Visit) :
    p.visitSum tok slotOf deposit pages (l.flatMap chunk) =
      (l.map fun a => p.visitSum tok slotOf deposit pages (chunk a)).sum := by
  induction l with
  | nil => rfl
  | cons a l ih => rw [List.flatMap_cons, visitSum_append, ih, List.map_cons, List.sum_cons]

theorem visitPages_append {vs vs' : List Visit} : p.visitPages tok slotOf deposit pages (vs ++ vs') =
    p.visitPages tok slotOf deposit (p.visitPages tok slotOf deposit pages vs) vs' := by
  unfold visitPages
  rw [List.foldl_append, Function.uncurry_curry]

/-- Visits elsewhere do not change what a run reads. -/
theorem visitSum_after {vs vs' : List Visit} (h : RowsApart slotOf (vs ++ vs')) :
    p.visitSum tok slotOf deposit (p.visitPages tok slotOf deposit pages vs) vs' =
      p.visitSum tok slotOf deposit pages vs' := by
  unfold visitSum
  congr 1
  refine List.map_congr_left fun v hv => ?_
  congr 1
  unfold visitFinal visitPages
  rw [Function.uncurry_curry]
  exact Scatter.foldl_final fun v' hv' => (List.pairwise_append.1 h).2.2 v' hv' v hv

/-! ### Chunks of a run -/

/-- Chunks of visits one after the other, each with its own partial. -/
theorem foldlM_chunks {σ α : Type*} {f : (ℕ → StatePage dv) × σ → α → Option ((ℕ → StatePage dv) × σ)} {chunk : α → List Visit}
    {put : α → Row dv → σ → σ} {l : List α} {out : σ}
    (hf : ∀ a ∈ l, ∀ pages out, RowsApart slotOf (chunk a) → f (pages, out) a =
      some (p.visitPages tok slotOf deposit pages (chunk a), put a (p.visitSum tok slotOf deposit pages (chunk a)) out))
    (h : RowsApart slotOf (l.flatMap chunk)) : l.foldlM f (pages, out) =
      some (p.visitPages tok slotOf deposit pages (l.flatMap chunk),
        l.foldl (fun out a => put a (p.visitSum tok slotOf deposit pages (chunk a)) out) out) := by
  induction l generalizing pages out with
  | nil => rfl
  | cons a l ih =>
    rw [List.flatMap_cons] at h ⊢
    obtain ⟨hhead, htail, -⟩ := List.pairwise_append.1 h
    rw [List.foldlM_cons, hf a List.mem_cons_self pages out hhead]
    refine (ih (fun b hb => hf b (List.mem_cons_of_mem _ hb)) htail).trans ?_
    rw [visitPages_append, List.foldl_cons]
    congr 2
    refine List.foldl_ext _ _ _ fun out b hb => ?_
    have hsub : ((chunk a ++ chunk b).Sublist (chunk a ++ l.flatMap chunk)) :=
      (List.Sublist.refl _).append (by simpa using (List.singleton_sublist.2 hb).flatMap chunk)
    rw [visitSum_after (h.sublist hsub)]

/-! ### The launch's visits -/

/-- No two atoms share a slot. -/
def SlotsInj (slotOf : ℕ → Option ℕ) (atoms : ℕ) : Prop :=
  ∀ a < atoms, ∀ a' < atoms, ∀ slot, slotOf a = some slot → slotOf a' = some slot → a = a'

theorem SlotsInj.row {atoms leaf' : ℕ} {c : ℕ × ℕ} (hinj : SlotsInj slotOf atoms) (hl : leaf < atoms * 16)
    (hl' : leaf' < atoms * 16) (hc : rowAddr slotOf leaf = some c) (hc' : rowAddr slotOf leaf' = some c) : leaf = leaf' := by
  obtain ⟨slot, hslot, rfl⟩ := Option.map_eq_some_iff.1 hc
  obtain ⟨slot', hslot', heq⟩ := Option.map_eq_some_iff.1 hc'
  obtain ⟨rfl, hrow⟩ := Prod.mk.inj heq
  have := hinj _ (by omega) _ (by omega) _ hslot hslot'
  omega

/-- The live segments come first. -/
theorem retired_iff {m : Masks} {seg : ℕ} (hseg : seg < nSplit) : p.retired m seg = true ↔ p.nLive nSplit m ≤ seg := by
  unfold retired nLive unitBlockWarps
  rw [decide_eq_true_iff]
  dsimp only
  split
  · omega
  · split <;> omega

theorem nLive_pos {m : Masks} (hn : 1 ≤ nSplit) : 1 ≤ p.nLive nSplit m ∧ p.nLive nSplit m ≤ nSplit := by
  unfold nLive unitBlockWarps
  dsimp only
  split
  · omega
  · split <;> omega

/-- What a CTA visits. -/
def segVisits (p : DecodeParams) (m : Masks) (nSplit seg : ℕ) : List Visit :=
  (List.range decodeWarps).flatMap fun warp => p.threadVisits m nSplit (firstUnit nSplit seg warp)

namespace Wf

variable (h : p.Wf) (hw : ∀ l < p.D, ∃ e, p.levelWidth l = 2 ^ e) (hn : 1 ≤ nSplit) (hfits : p.Fits nSplit)
include h hw hn hfits

theorem mem_headVisits {m : Masks} (hv : v ∈ p.headVisits m nSplit) : v.leaf < p.N ∧
    (∀ l < p.D, v.digit l = p.latDigits v.leaf l) ∧ v.inR = p.inProduct m.r (p.latDigits v.leaf) ∧
      v.inW = p.inProduct m.w (p.latDigits v.leaf) := by
  obtain ⟨term, hterm, hv⟩ := List.mem_flatMap.1 ((h.headVisits_perm hw hn hfits m).mem_iff.1 hv)
  obtain ⟨-, hlt, hdig, -, hr, hwr⟩ := h.of_mem_termVisits (Nat.le_of_lt_succ (List.mem_range.1 hterm)) hv
  exact ⟨hlt, hdig, hr, hwr⟩

theorem exists_headVisits {m : Masks} (hleaf : leaf < p.N)
    (hor : p.inProduct m.r (p.latDigits leaf) = true ∨ p.inProduct m.w (p.latDigits leaf) = true) :
    ∃ v ∈ p.headVisits m nSplit, v.leaf = leaf := by
  obtain ⟨term, hD, hlive⟩ := exists_live hor
  obtain ⟨v, hv, hvl⟩ := h.exists_mem_termVisits (h.published hw hn hfits m) hD hleaf hlive
  refine ⟨v, (h.headVisits_perm hw hn hfits m).mem_iff.2 ?_, hvl⟩
  exact List.mem_flatMap.2 ⟨term, List.mem_range.2 (Nat.lt_succ_of_le hD), hv⟩

theorem headVisits_nodup (m : Masks) : ((p.headVisits m nSplit).map Visit.leaf).Nodup :=
  ((h.headVisits_perm hw hn hfits m).map _).nodup_iff.2 (h.visits_nodup (h.published hw hn hfits m))

theorem headVisits_apart (m : Masks) {atoms : ℕ} (hN : p.N = atoms * 16) (hinj : SlotsInj slotOf atoms) :
    RowsApart slotOf (p.headVisits m nSplit) := by
  refine (List.pairwise_map.1 (h.headVisits_nodup hw hn hfits m)).imp_of_mem fun {v v'} hv hv' hne c hc hc' => hne ?_
  have hl := (h.mem_headVisits hw hn hfits hv).1
  have hl' := (h.mem_headVisits hw hn hfits hv').1
  rw [hN] at hl hl'
  exact hinj.row hl hl' hc hc'

/-! ### The combines -/

theorem walkWarp_eq {seg warp : ℕ} (hseg : seg < nSplit) (hwarp : warp < decodeWarps)
    (hap : RowsApart slotOf (p.threadVisits tok.masks nSplit (firstUnit nSplit seg warp))) :
    p.walkWarp tok slotOf nSplit deposit pages seg warp =
      some (p.visitPages tok slotOf deposit pages (p.threadVisits tok.masks nSplit (firstUnit nSplit seg warp)),
        p.visitSum tok slotOf deposit pages (p.threadVisits tok.masks nSplit (firstUnit nSplit seg warp))) := by
  unfold walkWarp
  rw [h.warpVisits_eq hw hn hfits tok.masks hseg hwarp, Option.map_some, foldl_visitLeaf hap, zero_add]

theorem walkCta_eq {seg : ℕ} (hseg : seg < nSplit) (hap : RowsApart slotOf (p.segVisits tok.masks nSplit seg)) :
    p.walkCta tok slotOf nSplit deposit pages seg =
      some (p.visitPages tok slotOf deposit pages (p.segVisits tok.masks nSplit seg),
        p.visitSum tok slotOf deposit pages (p.segVisits tok.masks nSplit seg)) := by
  have hwarps := @DecodeParams.foldlM_chunks _ p tok slotOf deposit pages _ _ (fun (st : (ℕ → StatePage dv) × List (Row dv)) warp =>
      (p.walkWarp tok slotOf nSplit deposit st.1 seg warp).map fun r => (r.1, st.2 ++ [r.2])) (fun warp => p.threadVisits tok.masks nSplit (firstUnit nSplit seg warp)) (fun _ part fold => fold ++ [part]) (List.range decodeWarps) ([]) (fun warp hwarp pages out hap => by
      rw [h.walkWarp_eq hw hn hfits hseg (List.mem_range.1 hwarp) hap]
      rfl) hap
  have hput : ∀ (l : List ℕ) (g : ℕ → Row dv) (out : List (Row dv)),
      (l.foldl (fun fold warp => fold ++ [g warp]) out).foldl (· + ·) 0 = (out.foldl (· + ·) 0) + (l.map g).sum := by
    intro l g
    induction l with
    | nil => simp
    | cons a l ih =>
      intro out
      rw [List.foldl_cons, ih, List.foldl_append, List.map_cons, List.sum_cons, List.foldl_cons, List.foldl_nil, add_assoc]
  unfold walkCta
  rw [hwarps, Option.map_some, hput, List.foldl_nil, zero_add, ← visitSum_flatMap]
  rfl

omit h hw hn hfits in
/-- A segment's place in the workspace holds its part, unless it retired. -/
theorem foldl_parts {m : Masks} (g : ℕ → Row dv) (ws : ℕ → Row dv) {n sl : ℕ} :
    (List.range n).foldl (fun out seg => if p.retired m seg then out else Function.update out seg (g seg)) ws sl =
      if sl < n ∧ p.retired m sl = false then g sl else ws sl := by
  induction n with
  | zero => simp
  | succ n ih =>
    rw [List.range_succ, List.foldl_append, List.foldl_cons, List.foldl_nil]
    rcases Nat.lt_trichotomy sl n with hlt | rfl | hgt
    · split
      · rw [ih]
        simp [hlt, hlt.trans (Nat.lt_succ_self n)]
      · rw [Function.update_of_ne hlt.ne, ih]
        simp [hlt, hlt.trans (Nat.lt_succ_self n)]
    · rcases hret : p.retired m sl with _ | _
      · simp
      · rw [if_pos rfl, ih]
        simp
    · split
      · rw [ih]
        simp [hgt.not_gt, (Nat.succ_le_of_lt hgt).not_gt]
      · rw [Function.update_of_ne hgt.ne', ih]
        simp [hgt.not_gt, (Nat.succ_le_of_lt hgt).not_gt]

theorem segVisits_retired {m : Masks} {seg : ℕ} (hret : p.retired m seg = true) : p.segVisits m nSplit seg = [] :=
  List.flatMap_eq_nil_iff.2 fun _ _ => h.threadVisits_retired hw hn hfits m hret

/-- A batch-head's launch: its visits, and the ratio of what they read. -/
theorem walkHead_eq {eps : ℚ} {ws : ℕ → Row dv} (hap : RowsApart slotOf (p.headVisits tok.masks nSplit)) :
    p.walkHead tok slotOf nSplit eps deposit ws pages =
      some (p.visitPages tok slotOf deposit pages (p.headVisits tok.masks nSplit), fun col =>
        (p.visitSum tok slotOf deposit pages (p.headVisits tok.masks nSplit)).1 col /
          ((p.visitSum tok slotOf deposit pages (p.headVisits tok.masks nSplit)).2 + eps)) := by
  have hcap := hfits.2
  have hsegs := @DecodeParams.foldlM_chunks _ p tok slotOf deposit pages _ _ (fun (st : (ℕ → StatePage dv) × (ℕ → Row dv)) seg =>
      if intCeiling ≤ seg * unitBlockWarps then none
      else if p.retired tok.masks seg then some st
      else (p.walkCta tok slotOf nSplit deposit st.1 seg).map fun r => (r.1, Function.update st.2 seg r.2)) (p.segVisits tok.masks nSplit) (fun seg part out => if p.retired tok.masks seg then out else Function.update out seg part) (List.range nSplit) ws (fun seg hseg pages out hap => by
      have hlt := List.mem_range.1 hseg
      rw [if_neg (by unfold unitBlockWarps; omega)]
      by_cases hret : p.retired tok.masks seg = true
      · rw [if_pos hret, if_pos hret, h.segVisits_retired hw hn hfits hret]
        rfl
      · rw [if_neg hret, if_neg hret, h.walkCta_eq hw hn hfits hlt hap]
        rfl) hap
  have hparts : ∀ sl < p.nLive nSplit tok.masks, (List.range nSplit).foldl (fun out seg =>
      if p.retired tok.masks seg then out
      else Function.update out seg (p.visitSum tok slotOf deposit pages (p.segVisits tok.masks nSplit seg))) ws sl =
      p.visitSum tok slotOf deposit pages (p.segVisits tok.masks nSplit sl) := by
    intro sl hsl
    have hlt := hsl.trans_le (nLive_pos hn).2
    have hret : p.retired tok.masks sl = false := by
      rw [Bool.eq_false_iff, Ne, retired_iff hlt]
      omega
    rw [foldl_parts, if_pos ⟨hlt, hret⟩]
  have htotal : p.visitSum tok slotOf deposit pages (p.headVisits tok.masks nSplit) =
      ((List.range (p.nLive nSplit tok.masks)).map fun sl =>
        p.visitSum tok slotOf deposit pages (p.segVisits tok.masks nSplit sl)).sum := by
    obtain ⟨k, hk⟩ := Nat.exists_eq_add_of_le (nLive_pos (p := p) (m := tok.masks) hn).2
    have hhead : p.visitSum tok slotOf deposit pages (p.headVisits tok.masks nSplit) = ((List.range nSplit).map fun sl =>
        p.visitSum tok slotOf deposit pages (p.segVisits tok.masks nSplit sl)).sum := visitSum_flatMap _ _
    have htail : (((List.range k).map (p.nLive nSplit tok.masks + ·)).map fun sl =>
        p.visitSum tok slotOf deposit pages (p.segVisits tok.masks nSplit sl)).sum = 0 := by
      refine List.sum_eq_zero fun x hx => ?_
      simp only [List.mem_map, List.mem_range] at hx
      obtain ⟨sl, ⟨i, hi, rfl⟩, rfl⟩ := hx
      rw [h.segVisits_retired hw hn hfits ((retired_iff (by omega)).2 (Nat.le_add_right _ _))]
      rfl
    have hsplit : List.range nSplit = List.range (p.nLive nSplit tok.masks) ++
        (List.range k).map (p.nLive nSplit tok.masks + ·) := by
      conv_lhs => rw [hk]
      exact List.range_add
    rw [hhead, hsplit, List.map_append, List.sum_append, htail, add_zero]
  have hcombine : ∀ (l : List ℕ) (g : ℕ → Row dv) (acc : Row dv),
      l.foldl (fun acc sl => acc + g sl) acc = acc + (l.map g).sum := by
    intro l g
    induction l with
    | nil => simp
    | cons a l ih =>
      intro acc
      rw [List.foldl_cons, ih, List.map_cons, List.sum_cons, add_assoc]
  unfold walkHead
  rw [if_pos (h.published hw hn hfits _), hsegs, Option.map_some]
  dsimp only
  have hpart : (if 1 < p.nLive nSplit tok.masks then
      (List.range (p.nLive nSplit tok.masks)).foldl (fun acc sl => acc + (List.range nSplit).foldl (fun out seg =>
        if p.retired tok.masks seg then out
        else Function.update out seg (p.visitSum tok slotOf deposit pages (p.segVisits tok.masks nSplit seg))) ws sl) 0
      else (List.range nSplit).foldl (fun out seg => if p.retired tok.masks seg then out
        else Function.update out seg (p.visitSum tok slotOf deposit pages (p.segVisits tok.masks nSplit seg))) ws 0) =
      p.visitSum tok slotOf deposit pages (p.headVisits tok.masks nSplit) := by
    rw [htotal]
    split
    · rw [hcombine, zero_add]
      congr 1
      exact List.map_congr_left fun sl hsl => hparts sl (List.mem_range.1 hsl)
    · have hone : p.nLive nSplit tok.masks = 1 := by
        have := (nLive_pos (p := p) (m := tok.masks) hn).1
        omega
      rw [hparts 0 (by omega), hone]
      simp
  rw [hpart]
  rfl

/-! ### The recurrence, leaf by leaf -/

omit h hw hn hfits in
theorem amplitude_ne_zero {sa : ℕ → ℕ → ℚ} {d : ℕ → ℕ} :
    p.amplitude sa d ≠ 0 ↔ p.inProduct (fun l d => decide (sa l d ≠ 0)) d = true := by
  unfold amplitude
  rw [Finset.prod_ne_zero_iff, inProduct_iff]
  simp

omit h hw hn hfits in
theorem amplitude_congr {sa : ℕ → ℕ → ℚ} {d d' : ℕ → ℕ} (hd : ∀ l < p.D, d l = d' l) :
    p.amplitude sa d = p.amplitude sa d' :=
  Finset.prod_congr rfl fun l hl => by rw [hd l (Finset.mem_range.1 hl)]

omit h hw hn hfits in
theorem leafRow_eq : leafRow slotOf pages leaf =
    match rowAddr slotOf leaf with
    | some c => Function.uncurry pages c
    | none => 0 := by
  unfold leafRow rowAddr
  rcases slotOf (leaf / 16) with _ | slot <;> rfl

section Inj

variable {atoms : ℕ} (hN : p.N = atoms * 16) (hinj : SlotsInj slotOf atoms)
include hN hinj

theorem leafRow_of_mem (hv : v ∈ p.headVisits tok.masks nSplit) :
    leafRow slotOf (p.visitPages tok slotOf deposit pages (p.headVisits tok.masks nSplit)) v.leaf =
      p.visitFinal tok slotOf deposit pages v := by
  rw [leafRow_eq]
  rcases haddr : rowAddr slotOf v.leaf with _ | c
  · dsimp only
    unfold visitFinal Scatter.final
    dsimp only
    rw [haddr]
  · dsimp only
    unfold visitPages
    rw [Function.uncurry_curry]
    exact Scatter.foldl_self (h.headVisits_apart hw hn hfits tok.masks hN hinj) hv haddr

/-- Each leaf of the write product is decayed and deposited into once, every other kept. -/
theorem leafRow_visitPages (hleaf : leaf < p.N) :
    leafRow slotOf (p.visitPages tok slotOf deposit pages (p.headVisits tok.masks nSplit)) leaf =
      if p.amplitude tok.saW (p.latDigits leaf) ≠ 0 ∧ deposit = true ∧ (slotOf (leaf / 16)).isSome = true then
        tok.keep leaf • leafRow slotOf pages leaf +
          (p.amplitude tok.saW (p.latDigits leaf) * tok.sw) • tok.deposit
      else leafRow slotOf pages leaf := by
  by_cases hwrite : p.amplitude tok.saW (p.latDigits leaf) ≠ 0
  · obtain ⟨v, hv, rfl⟩ := h.exists_headVisits hw hn hfits (m := tok.masks) hleaf (.inr (amplitude_ne_zero.1 hwrite))
    obtain ⟨-, hdig, -, hin⟩ := h.mem_headVisits hw hn hfits hv
    have hinW : v.inW = true := hin.trans (amplitude_ne_zero.1 hwrite)
    rw [h.leafRow_of_mem hw hn hfits hN hinj hv]
    unfold visitFinal Scatter.final rowAddr visitWrites visitUpd leafRow
    dsimp only
    rw [hinW, Bool.true_and, amplitude_congr hdig]
    rcases hslot : slotOf (v.leaf / 16) with _ | slot
    · simp
    · rcases deposit with _ | _ <;> simp [hwrite]
  · rw [if_neg fun hc => hwrite hc.1, leafRow_eq, leafRow_eq]
    rcases haddr : rowAddr slotOf leaf with _ | c
    · rfl
    · dsimp only
      unfold visitPages
      rw [Function.uncurry_curry]
      refine Scatter.foldl_of_ne fun v hv hwr hvaddr => hwrite ?_
      obtain ⟨hlt, -, -, hin⟩ := h.mem_headVisits hw hn hfits hv
      rw [hN] at hlt hleaf
      rw [← hinj.row hlt hleaf hvaddr haddr]
      exact amplitude_ne_zero.2 (hin.symm.trans (Bool.and_eq_true_iff.1 hwr).1)

/-- The readout sums every leaf as the step left it. -/
theorem visitSum_eq : p.visitSum tok slotOf deposit pages (p.headVisits tok.masks nSplit) =
    ∑ leaf ∈ Finset.range p.N, p.amplitude tok.saR (p.latDigits leaf) •
      leafRow slotOf (p.visitPages tok slotOf deposit pages (p.headVisits tok.masks nSplit)) leaf := by
  have hread : ∀ v ∈ p.headVisits tok.masks nSplit, p.visitRead tok v (p.visitFinal tok slotOf deposit pages v) =
      p.amplitude tok.saR (p.latDigits v.leaf) •
        leafRow slotOf (p.visitPages tok slotOf deposit pages (p.headVisits tok.masks nSplit)) v.leaf := by
    intro v hv
    obtain ⟨-, hdig, hin, -⟩ := h.mem_headVisits hw hn hfits hv
    rw [h.leafRow_of_mem hw hn hfits hN hinj hv]
    unfold visitRead
    split
    · rw [amplitude_congr hdig]
    · rename_i hr
      have hzero : p.amplitude tok.saR (p.latDigits v.leaf) = 0 := by
        by_contra hne
        exact hr (hin.trans (amplitude_ne_zero.1 hne))
      rw [hzero, zero_smul]
  have hnodup := @DecodeParams.Wf.headVisits_nodup _ nSplit h hw hn hfits tok.masks
  unfold visitSum
  rw [List.map_congr_left hread]
  have hmap : ((p.headVisits tok.masks nSplit).map fun v => p.amplitude tok.saR (p.latDigits v.leaf) •
      leafRow slotOf (p.visitPages tok slotOf deposit pages (p.headVisits tok.masks nSplit)) v.leaf) =
      ((p.headVisits tok.masks nSplit).map Visit.leaf).map fun leaf => p.amplitude tok.saR (p.latDigits leaf) •
        leafRow slotOf (p.visitPages tok slotOf deposit pages (p.headVisits tok.masks nSplit)) leaf := by
    rw [List.map_map]
    rfl
  rw [hmap, ← List.sum_toFinset _ hnodup]
  refine Finset.sum_subset (fun leaf hleaf => ?_) fun leaf hleaf hout => ?_
  · obtain ⟨v, hv, rfl⟩ := List.mem_map.1 (List.mem_toFinset.1 hleaf)
    exact Finset.mem_range.2 (h.mem_headVisits hw hn hfits hv).1
  · have hzero : p.amplitude tok.saR (p.latDigits leaf) = 0 := by
      by_contra hne
      obtain ⟨v, hv, rfl⟩ := @DecodeParams.Wf.exists_headVisits _ nSplit _ h hw hn hfits tok.masks (Finset.mem_range.1 hleaf) (.inl (amplitude_ne_zero.1 hne))
      exact hout (List.mem_toFinset.2 (List.mem_map_of_mem hv))
    rw [hzero, zero_smul]

omit hinj in
/-- A head writes no slot but its own atoms'. -/
theorem visitPages_other {slot : ℕ} (hother : ∀ a < atoms, slotOf a ≠ some slot) :
    p.visitPages tok slotOf deposit pages (p.headVisits tok.masks nSplit) slot = pages slot := by
  funext row
  unfold visitPages
  refine (Scatter.foldl_of_ne (c := (slot, row)) fun v hv _ haddr => ?_ :)
  obtain ⟨slot', hslot', heq⟩ := Option.map_eq_some_iff.1 haddr
  have hlt := (h.mem_headVisits hw hn hfits hv).1
  rw [hN] at hlt
  exact hother (v.leaf / 16) (by omega) ((Prod.mk.inj heq).1 ▸ hslot')

end Inj

end Wf

end DecodeParams

end Rola
