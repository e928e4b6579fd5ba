import Rola.LaunchRun

/-!
# What a launch leaves in the storage

A batch-head's claims, its fold and its visits, whatever the order: the shadow row ends as the claim
merged into it, the table as its fold, and each row a visit writes is written once, from what the launch
found there.
-/

namespace Rola

variable {R P O : Type}

namespace HeadCall

variable {C : HeadCall R P O} {h h0 h' : HeadState R P O} {seg atoms a : ℕ} {e : HeadEvent}

/-- The pool slot a wanted atom's rank names. -/
def claimSlot (C : HeadCall R P O) (h0 : HeadState R P O) (a : ℕ) : ℕ :=
  C.poolSlots (C.poolCursor h0 + (C.wanted h0).idxOf a)

/-- The shadow row with the claim in it. -/
def claimRow (C : HeadCall R P O) (h0 : HeadState R P O) (a : ℕ) : Option ℕ :=
  if (C.askOf h0).claimed = true ∧ a ∈ C.wanted h0 then some (C.claimSlot h0 a) else h0.shadow a

/-- The table row with the claim folded in. -/
def foldRow (C : HeadCall R P O) (h0 : HeadState R P O) (a : ℕ) : Option ℕ :=
  if (C.askOf h0).claimed = true then (h0.table a).or (C.claimRow h0 a) else h0.table a

/-- The slot a launch finds an atom at. -/
def rowSlot (C : HeadCall R P O) (h0 : HeadState R P O) (a : ℕ) : Option ℕ :=
  if C.paged = true then C.foldRow h0 a else some (C.denseBase + a)

def foldCount (C : HeadCall R P O) (h0 : HeadState R P O) (atoms : ℕ) : ℕ :=
  (List.range atoms).countP fun a => (C.claimRow h0 a).isSome && (h0.table a).isNone

theorem mem_claimsOf (hnodup : C.cand.Nodup) {x : ℕ × ℕ} (hx : x ∈ C.claimsOf h0) :
    (C.askOf h0).claimed = true ∧ x.1 ∈ C.wanted h0 ∧ x.2 = C.claimSlot h0 x.1 := by
  unfold claimsOf at hx
  split at hx
  · rename_i hcl
    obtain ⟨⟨a, i⟩, hmem, rfl⟩ := List.mem_map.1 hx
    obtain ⟨hlt, hget⟩ := List.mem_zipIdx' hmem
    dsimp only at hlt hget ⊢
    refine ⟨hcl, hget ▸ List.getElem_mem hlt, ?_⟩
    have hwanted : (C.wanted h0).Nodup := hnodup.filter _
    unfold claimSlot
    rw [hget, hwanted.idxOf_getElem]
  · cases hx

theorem map_fst_claimsOf (hcl : (C.askOf h0).claimed = true) : (C.claimsOf h0).map Prod.fst = C.wanted h0 := by
  unfold claimsOf
  rw [if_pos hcl, List.map_map]
  exact List.zipIdx_map_fst _ _

structure ShadowInv (C : HeadCall R P O) (h0 h : HeadState R P O) : Prop where
  keep : ∀ a, h.shadow a = h0.shadow a ∨
    (C.askOf h0).claimed = true ∧ a ∈ C.wanted h0 ∧ h.shadow a = some (C.claimSlot h0 a)
  left : ∀ seg, ∀ x ∈ (h.cta seg).claims, (C.askOf h0).claimed = true ∧ x.1 ∈ C.wanted h0 ∧ x.2 = C.claimSlot h0 x.1
  written : (C.askOf h0).claimed = true → ∀ seg, (h.cta seg).ask ≠ none → ∀ a ∈ C.wanted h0,
    a ∉ (h.cta seg).claims.map Prod.fst → h.shadow a = some (C.claimSlot h0 a)

/-- Past its claims a CTA finds the whole claim in the shadow row. -/
theorem ShadowInv.row (hsh : ShadowInv C h0 h) (hclaimed : (C.askOf h0).claimed = true) (hask : (h.cta seg).ask ≠ none)
    (hcl : (h.cta seg).claims = []) : h.shadow a = C.claimRow h0 a := by
  unfold claimRow
  by_cases hmem : a ∈ C.wanted h0
  · rw [if_pos ⟨hclaimed, hmem⟩]
    exact hsh.written hclaimed seg hask a hmem (by rw [hcl]; exact List.not_mem_nil)
  · rw [if_neg fun hc => hmem hc.2]
    rcases hsh.keep a with heq | ⟨-, hc, -⟩
    · exact heq
    · exact absurd hc hmem

theorem ShadowInv.fresh (hf : Fresh h) (hclaims : ∀ seg, (h.cta seg).claims = []) : ShadowInv C h h where
  keep _ := .inl rfl
  left seg x hx := by
    rw [hclaims seg] at hx
    cases hx
  written _ seg hask := absurd (hf.ask seg) hask

/-- The claims and the shadow row are the prologues' alone. -/
theorem ShadowInv.congr (hsh : ShadowInv C h0 h) (hshadow : h'.shadow = h.shadow)
    (hask : ∀ seg, (h'.cta seg).ask = (h.cta seg).ask) (hclaims : ∀ seg, (h'.cta seg).claims = (h.cta seg).claims) :
    ShadowInv C h0 h' where
  keep a := by
    rw [hshadow]
    exact hsh.keep a
  left seg x hx := by
    rw [hclaims seg] at hx
    exact hsh.left seg x hx
  written hcl seg hne a ha hnot := by
    rw [hask seg] at hne
    rw [hclaims seg] at hnot
    rw [hshadow]
    exact hsh.written hcl seg hne a ha hnot

theorem setCta_ask {k : Cta R P} (hask : k.ask = (h.cta seg).ask) (seg' : ℕ) :
    ((h.setCta seg k).cta seg').ask = (h.cta seg').ask := by
  unfold HeadState.setCta
  rcases eq_or_ne seg' seg with rfl | hne
  · simpa using hask
  · simp [hne]

theorem setCta_claims {k : Cta R P} (hcl : k.claims = (h.cta seg).claims) (seg' : ℕ) :
    ((h.setCta seg k).cta seg').claims = (h.cta seg').claims := by
  unfold HeadState.setCta
  rcases eq_or_ne seg' seg with rfl | hne
  · simpa using hcl
  · simp [hne]

section Step

variable [Zero R] {mem mem' : Storage R}

theorem ShadowInv.step (hC : C.Counted) (hnodup : C.cand.Nodup) (hinv : HeadInv C h0 h) (hsh : ShadowInv C h0 h)
    (hstep : C.Takes atoms h mem e h' mem') : ShadowInv C h0 h' := by
  cases hstep with
  | @start seg hlive hask =>
    obtain ⟨hsame, hpc⟩ := hinv.askOf_eq hC hlive hask
    obtain ⟨htable, hcursor, -⟩ := hinv.row hpc
    have hclaims : C.claimsOf h = C.claimsOf h0 := by
      unfold claimsOf wanted poolCursor
      rw [hsame, htable, hcursor]
    have hcta : ∀ seg', (C.start h seg).cta seg' = if seg' = seg then C.asked h seg else h.cta seg' :=
      fun seg' => Function.update_apply ..
    refine ⟨hsh.keep, fun seg' x hx => ?_, fun hcl seg' hne a ha hnot => ?_⟩
    · rw [hcta] at hx
      split at hx
      · exact mem_claimsOf hnodup (hclaims ▸ hx)
      · exact hsh.left seg' x hx
    · rw [hcta] at hne hnot
      split at hnot
      · have hmem : a ∈ (C.claimsOf h).map Prod.fst := by
          rw [hclaims, map_fst_claimsOf hcl]
          exact ha
        exact absurd hmem hnot
      · rename_i hother
        rw [if_neg hother] at hne
        exact hsh.written hcl seg' hne a ha hnot
  | @claim seg a slot rest hcl =>
    obtain ⟨hclaimed, hmem, hslot⟩ := hsh.left seg (a, slot) (by rw [hcl]; exact List.mem_cons_self)
    dsimp only at hmem hslot
    refine ⟨fun a' => ?_, fun seg' x hx => ?_, fun _ seg' hne a' ha' hnot => ?_⟩
    · dsimp only
      rw [Function.update_apply]
      split
      · rename_i heq
        rw [heq]
        exact .inr ⟨hclaimed, hmem, by rw [hslot]⟩
      · exact hsh.keep a'
    · unfold HeadState.setCta at hx
      dsimp only at hx
      rcases eq_or_ne seg' seg with rfl | hne
      · rw [Function.update_self] at hx
        exact hsh.left seg' x (by rw [hcl]; exact List.mem_cons_of_mem _ hx)
      · rw [Function.update_of_ne hne] at hx
        exact hsh.left seg' x hx
    · dsimp only
      rw [Function.update_apply]
      split
      · rename_i heq
        rw [heq, hslot]
      · rename_i hother
        unfold HeadState.setCta at hne hnot
        dsimp only at hne hnot
        rcases eq_or_ne seg' seg with rfl | hseg
        · rw [Function.update_self] at hne hnot
          refine hsh.written hclaimed seg' hne a' ha' ?_
          rw [hcl, List.map_cons, List.mem_cons, not_or]
          exact ⟨hother, hnot⟩
        · rw [Function.update_of_ne hseg] at hne hnot
          exact hsh.written hclaimed seg' hne a' ha' hnot
  | visit hask hcl htodo hwarp => exact hsh.congr rfl (setCta_ask rfl) (setCta_claims rfl)
  | deposit hask hcl htodo hwarp hph => exact hsh.congr rfl (setCta_ask rfl) (setCta_claims rfl)
  | arrive hwarp hph => exact hsh.congr rfl (setCta_ask rfl) (setCta_claims rfl)
  | store hask hpart hn hph => exact hsh.congr rfl (fun _ => rfl) fun _ => rfl
  | bump hph => exact hsh.congr rfl (fun _ => rfl) fun _ => rfl
  | alone hpart hn hph => exact hsh.congr rfl (fun _ => rfl) fun _ => rfl
  | readout hpc hask hpart => exact hsh.congr (by simp) (fun _ => by simp) fun _ => by simp
  | publish hpc hask hpaged => exact hsh.congr rfl (fun _ => rfl) fun _ => rfl

omit [Zero R] in
/-- A CTA with a part has written its claims. -/
theorem HeadInv.claims_of_part (hinv : HeadInv C h0 h) (hpart : (h.cta seg).part ≠ none) : (h.cta seg).claims = [] := by
  have hfull := (hinv.cta seg).part.1 hpart
  refine ((hinv.cta seg).gone 0 ?_).1
  rw [hfull 0 (by decide)]
  decide

/-- What a batch-head's row is, before its publication and after. -/
structure RowInv (C : HeadCall R P O) (atoms : ℕ) (h0 h : HeadState R P O) : Prop where
  before : h.pc ≠ .published → h.table = h0.table ∧ h.cursor = h0.cursor
  after : h.pc = .published → (∀ a < atoms, h.table a = C.foldRow h0 a) ∧
    h.cursor = h0.cursor + if (C.askOf h0).claimed = true then C.foldCount h0 atoms else 0

theorem RowInv.step (hC : C.Counted) (hinv : HeadInv C h0 h) (hsh : ShadowInv C h0 h) (hrow : RowInv C atoms h0 h)
    (hstep : C.Takes atoms h mem e h' mem') : RowInv C atoms h0 h' := by
  by_cases he : e = .publish
  · subst he
    cases hstep with
    | @publish seg ask hpc hask hpaged =>
      have hok := hinv.pc
      unfold PcOk at hok
      rw [hpc] at hok
      obtain ⟨htable, hcursor⟩ := hrow.before (by rw [hpc]; exact fun hc => (nomatch hc))
      have hasked := (hinv.asked seg ask hask).2
      have hcl := hinv.claims_of_part (hinv.part_of_full hok.1 hok.2.1)
      have hshadow : (C.askOf h0).claimed = true → ∀ a, h.shadow a = C.claimRow h0 a := fun hclaimed a =>
        hsh.row hclaimed (by rw [hask]; exact Option.some_ne_none _) hcl
      refine ⟨fun hne => absurd rfl hne, fun _ => ⟨fun a ha => ?_, ?_⟩⟩
      · show (if a < atoms then h.foldTable ask a else h.table a) = _
        rw [if_pos ha]
        unfold HeadState.foldTable foldRow
        rw [hasked, htable]
        by_cases hclaimed : (C.askOf h0).claimed = true
        · rw [if_pos hclaimed, if_pos hclaimed, hshadow hclaimed]
        · rw [if_neg hclaimed, if_neg hclaimed]
      · show h.cursor + (if ask.claimed then h.folded atoms else 0) = _
        rw [hasked, hcursor]
        by_cases hclaimed : (C.askOf h0).claimed = true
        · rw [if_pos hclaimed, if_pos hclaimed]
          unfold HeadState.folded foldCount
          rw [htable]
          simp only [hshadow hclaimed]
        · rw [if_neg hclaimed, if_neg hclaimed]
  · obtain ⟨htable, hcursor, -, hpc⟩ := hinv.frame hC hstep he
    refine ⟨fun hne => ?_, fun heq => ?_⟩
    · rw [htable, hcursor]
      exact hrow.before fun hc => hne (hpc.2 hc)
    · rw [htable, hcursor]
      exact hrow.after (hpc.1 heq)

end Step

end HeadCall

namespace HeadCall

variable {C : HeadCall R P O} {h h0 : HeadState R P O} {ask : Ask} {v : LeafVisit R P}

/-- Where a visit's row is. -/
def addr (C : HeadCall R P O) (h0 : HeadState R P O) (v : LeafVisit R P) : Option (ℕ × ℕ) :=
  (C.rowSlot h0 (v.leaf / 16)).map fun slot => (slot, v.leaf % 16)

/-- What a visit makes of a row. -/
def after (C : HeadCall R P O) (h0 : HeadState R P O) (v : LeafVisit R P) (r : R) : R :=
  if v.inW && !(C.askOf h0).done then v.upd r else r

/-- The row a visit reads. -/
def value [Zero R] (C : HeadCall R P O) (h0 : HeadState R P O) (mem : Storage R) (v : LeafVisit R P) : R :=
  match C.addr h0 v with
  | none => 0
  | some a => C.after h0 v (mem a.1 a.2)

theorem visitLeaf_mem [Zero R] {mem : Storage R} (hslot : C.slotOf h ask (v.leaf / 16) = C.rowSlot h0 (v.leaf / 16))
    (hask : ask = C.askOf h0) (a : ℕ × ℕ) : (C.visitLeaf h ask mem v).1 a.1 a.2 =
      if C.addr h0 v = some a then C.after h0 v (mem a.1 a.2) else mem a.1 a.2 := by
  unfold visitLeaf addr after
  rw [hslot, ← hask]
  rcases C.rowSlot h0 (v.leaf / 16) with _ | slot
  · simp
  · dsimp only [Option.map_some]
    by_cases hw : (v.inW && !ask.done) = true
    · rw [if_pos hw]
      dsimp only
      by_cases ha : a = (slot, v.leaf % 16)
      · subst ha
        simp [hw]
      · rw [if_neg fun hc => ha (Option.some.inj hc).symm, Function.update_apply]
        split
        · rename_i hs
          rw [Function.update_of_ne fun hr => ha (Prod.ext hs hr), hs]
        · rfl
    · rw [if_neg hw, if_neg hw, ite_self]

theorem visitLeaf_val [Zero R] {mem : Storage R} (hslot : C.slotOf h ask (v.leaf / 16) = C.rowSlot h0 (v.leaf / 16))
    (hask : ask = C.askOf h0) : (C.visitLeaf h ask mem v).2 = C.value h0 mem v := by
  unfold visitLeaf value addr after
  rw [hslot, ← hask]
  rcases C.rowSlot h0 (v.leaf / 16) with _ | slot
  · rfl
  · dsimp only [Option.map_some]
    split <;> rfl

/-- A CTA past its claims resolves an atom where the launch's fold has it. -/
theorem slotOf_eq {seg : ℕ} (hsh : ShadowInv C h0 h) (htable : h.table = h0.table) (hasked : ask = C.askOf h0)
    (hask : (h.cta seg).ask = some ask) (hcl : (h.cta seg).claims = []) (a : ℕ) : C.slotOf h ask a = C.rowSlot h0 a := by
  unfold slotOf rowSlot foldRow
  by_cases hpaged : C.paged = true
  · rw [if_pos hpaged, if_pos hpaged, htable, hasked]
    by_cases hclaimed : (C.askOf h0).claimed = true
    · rw [if_pos hclaimed, if_pos hclaimed, hsh.row hclaimed (by rw [hask]; exact Option.some_ne_none _) hcl]
    · rw [if_neg hclaimed, if_neg hclaimed, Option.or_none]
  · rw [if_neg hpaged, if_neg hpaged]

end HeadCall

namespace Launch

variable {L : Launch R P O} {s s0 s' : LaunchState R P O} {ev : LaunchEvent} {bh seg warp : ℕ}

/-- What a warp visits. -/
def work (L : Launch R P O) (s0 : LaunchState R P O) (bh seg warp : ℕ) : List (LeafVisit R P) :=
  if L.needy s0 bh then [] else (L.call bh).visits seg warp

/-- What it has still to visit. -/
def left (L : Launch R P O) (s0 s : LaunchState R P O) (bh seg warp : ℕ) : List (LeafVisit R P) :=
  match ((s.heads bh).cta seg).ask with
  | none => L.work s0 bh seg warp
  | some _ => ((s.heads bh).cta seg).todo warp

/-- A warp of a live CTA. -/
structure Key (L : Launch R P O) where
  bh : ℕ
  seg : ℕ
  warp : ℕ
  bh_lt : bh < L.BH
  live : (L.call bh).Live seg
  warp_lt : warp < decodeWarps

namespace Key

def addr (k : L.Key) (s0 : LaunchState R P O) (v : LeafVisit R P) : Option (ℕ × ℕ) :=
  (L.call k.bh).addr (s0.heads k.bh) v

def after (k : L.Key) (s0 : LaunchState R P O) (v : LeafVisit R P) (r : R) : R :=
  (L.call k.bh).after (s0.heads k.bh) v r

def value [Zero R] (k : L.Key) (s0 : LaunchState R P O) (v : LeafVisit R P) : R :=
  (L.call k.bh).value (s0.heads k.bh) s0.mem v

def work (k : L.Key) (s0 : LaunchState R P O) : List (LeafVisit R P) := L.work s0 k.bh k.seg k.warp

def left (k : L.Key) (s0 s : LaunchState R P O) : List (LeafVisit R P) := L.left s0 s k.bh k.seg k.warp

def cta (k : L.Key) (s : LaunchState R P O) : Cta R P := (s.heads k.bh).cta k.seg

/-- A visit that writes. -/
def writes (k : L.Key) (s0 : LaunchState R P O) (v : LeafVisit R P) : Bool :=
  v.inW && !((L.call k.bh).askOf (s0.heads k.bh)).done

theorem left_eq (k : L.Key) : k.left s0 s = match (k.cta s).ask with
    | none => k.work s0
    | some _ => (k.cta s).todo k.warp := rfl

end Key

/-- No two visits of the launch are of one row. -/
structure Apart (L : Launch R P O) (s0 : LaunchState R P O) : Prop where
  same : ∀ k : L.Key, (k.work s0).Pairwise fun v v' => ∀ a, k.addr s0 v = some a → k.addr s0 v' ≠ some a
  cross : ∀ k k' : L.Key, k ≠ k' → ∀ v ∈ k.work s0, ∀ v' ∈ k'.work s0, ∀ a, k.addr s0 v = some a → k'.addr s0 v' ≠ some a

section Walk

variable [Zero R]

/-- What the visits have made of the storage. -/
structure WalkInv (L : Launch R P O) (s0 s : LaunchState R P O) : Prop where
  pend : ∀ k : L.Key, ∀ v ∈ k.left s0 s, ∀ a, k.addr s0 v = some a → s.mem a.1 a.2 = s0.mem a.1 a.2
  past : ∀ k : L.Key, (k.cta s).ask ≠ none → ∃ pre, k.work s0 = pre ++ (k.cta s).todo k.warp ∧
    (k.cta s).acc k.warp = pre.foldl (fun acc v => v.read acc (k.value s0 v)) (L.call k.bh).zero ∧
    ∀ v ∈ pre, ∀ a, k.addr s0 v = some a → s.mem a.1 a.2 = k.after s0 v (s0.mem a.1 a.2)
  other : ∀ a, (∀ k : L.Key, ∀ v ∈ k.work s0, k.writes s0 v = true → k.addr s0 v ≠ some a) → s.mem a.1 a.2 = s0.mem a.1 a.2

omit [Zero R] in
theorem left_congr (hask : ∀ k : L.Key, (k.cta s').ask = (k.cta s).ask) (htodo : ∀ k : L.Key, (k.cta s').todo = (k.cta s).todo)
    (k : L.Key) : k.left s0 s' = k.left s0 s := by
  have h1 := hask k
  have h2 := htodo k
  unfold Key.cta at h1 h2
  unfold Key.left left
  rw [h1, h2]

/-- Only the prologues and the visits matter to the storage. -/
theorem WalkInv.congr (hwalk : L.WalkInv s0 s) (hmem : s'.mem = s.mem) (hask : ∀ k : L.Key, (k.cta s').ask = (k.cta s).ask)
    (htodo : ∀ k : L.Key, (k.cta s').todo = (k.cta s).todo) (hacc : ∀ k : L.Key, (k.cta s').acc = (k.cta s).acc) :
    L.WalkInv s0 s' where
  pend k v hv a ha := by
    rw [left_congr hask htodo] at hv
    rw [hmem]
    exact hwalk.pend k v hv a ha
  past k hne := by
    rw [hask k] at hne
    rw [htodo k, hacc k, hmem]
    exact hwalk.past k hne
  other a ha := by
    rw [hmem]
    exact hwalk.other a ha

theorem WalkInv.fresh (hf : L.Fresh s) : L.WalkInv s s where
  pend _ _ _ _ _ := rfl
  past k hne := absurd ((hf.head k.bh k.bh_lt).ask k.seg) hne
  other _ _ := rfl

/-- The claims and the shadow rows of every batch-head. -/
def Shadowed (L : Launch R P O) (s0 s : LaunchState R P O) : Prop :=
  ∀ bh < L.BH, HeadCall.ShadowInv (L.call bh) (s0.heads bh) (s.heads bh)

theorem WalkInv.left_subset (hwalk : L.WalkInv s0 s) (k : L.Key) {v : LeafVisit R P} (hv : v ∈ k.left s0 s) : v ∈ k.work s0 := by
  have hpast := hwalk.past k
  unfold Key.left left at hv
  unfold Key.cta at hpast
  rcases hask : ((s.heads k.bh).cta k.seg).ask with _ | ask
  · rw [hask] at hv
    exact hv
  · rw [hask] at hv hpast
    obtain ⟨pre, hwork, -⟩ := hpast (Option.some_ne_none _)
    rw [hwork]
    exact List.mem_append_right _ hv

/-- A prologue hands its warps the launch's visits. -/
theorem WalkInv.start (hL : L.Counted) (hinv : L.Inv s0 s) (hwalk : L.WalkInv s0 s) (hbh : bh < L.BH)
    (hlive : (L.call bh).Live seg) (hask : ((s.heads bh).cta seg).ask = none) :
    L.WalkInv s0 { s with heads := Function.update s.heads bh ((L.call bh).start (s.heads bh) seg) } := by
  obtain ⟨hsame, -⟩ := (hinv.head bh hbh).askOf_eq (hL bh hbh) hlive hask
  have hcta : ∀ k : L.Key, k.cta { s with heads := Function.update s.heads bh ((L.call bh).start (s.heads bh) seg) } =
      if k.bh = bh ∧ k.seg = seg then (L.call bh).asked (s.heads bh) seg else k.cta s := by
    intro k
    unfold Key.cta
    dsimp only
    by_cases hk : k.bh = bh
    · rw [hk, Function.update_self]
      refine (Function.update_apply ..).trans ?_
      by_cases hseg : k.seg = seg <;> simp [hseg]
    · rw [Function.update_of_ne hk, if_neg fun hc => hk hc.1]
  have htodo : ∀ k : L.Key, k.bh = bh → k.seg = seg → ((L.call bh).asked (s.heads bh) seg).todo k.warp = k.work s0 := by
    rintro k rfl rfl
    unfold HeadCall.asked Key.work work needy
    dsimp only
    rw [hsame]
    split <;> rfl
  have hleft : ∀ k : L.Key, k.left s0 { s with heads := Function.update s.heads bh ((L.call bh).start (s.heads bh) seg) } =
      k.left s0 s := by
    intro k
    have hk := hcta k
    unfold Key.cta at hk
    unfold Key.left left
    rw [hk]
    by_cases heq : k.bh = bh ∧ k.seg = seg
    · rw [if_pos heq, heq.1, heq.2, hask]
      refine (htodo k heq.1 heq.2).trans ?_
      unfold Key.work
      rw [heq.1, heq.2]
    · rw [if_neg heq]
  refine ⟨fun k v hv a ha => ?_, fun k hne => ?_, hwalk.other⟩
  · rw [hleft] at hv
    exact hwalk.pend k v hv a ha
  · rw [hcta] at hne ⊢
    split
    · rename_i heq
      refine ⟨[], ?_, ?_, fun v hv => (nomatch hv)⟩
      · rw [htodo k heq.1 heq.2]
        rfl
      · unfold HeadCall.asked
        rw [heq.1]
        rfl
    · rename_i hother
      rw [if_neg hother] at hne
      exact hwalk.past k hne

/-- What one visit leaves in the storage. -/
theorem visit_mem (hinv : L.Inv s0 s) (hsh : L.Shadowed s0 s) (k : L.Key) {ask : Ask} {v : LeafVisit R P}
    (hask : (k.cta s).ask = some ask) (hcl : (k.cta s).claims = []) (hpc : (s.heads k.bh).pc = .walking) :
    (∀ a : ℕ × ℕ, ((L.call k.bh).visitLeaf (s.heads k.bh) ask s.mem v).1 a.1 a.2 =
      if k.addr s0 v = some a then k.after s0 v (s.mem a.1 a.2) else s.mem a.1 a.2) ∧
    ((L.call k.bh).visitLeaf (s.heads k.bh) ask s.mem v).2 = (L.call k.bh).value (s0.heads k.bh) s.mem v := by
  have hhead := hinv.head k.bh k.bh_lt
  have hasked := (hhead.asked k.seg ask hask).2
  have hslot := HeadCall.slotOf_eq (hsh k.bh k.bh_lt) (hhead.row hpc).1 hasked hask hcl (v.leaf / 16)
  exact ⟨HeadCall.visitLeaf_mem hslot hasked, HeadCall.visitLeaf_val hslot hasked⟩

omit [Zero R] in
theorem cta_visit (k k' : L.Key) (c : Cta R P) (mem : Storage R) :
    k'.cta { s with heads := Function.update s.heads k.bh ((s.heads k.bh).setCta k.seg c), mem := mem } =
      if k'.bh = k.bh ∧ k'.seg = k.seg then c else k'.cta s := by
  unfold Key.cta HeadState.setCta
  dsimp only
  by_cases hbh : k'.bh = k.bh
  · rw [hbh, Function.update_self]
    refine (Function.update_apply ..).trans ?_
    by_cases hseg : k'.seg = k.seg <;> simp [hseg]
  · rw [Function.update_of_ne hbh, if_neg fun hc => hbh hc.1]

omit [Zero R] in
theorem Key.eq_iff {k k' : L.Key} : k = k' ↔ k.bh = k'.bh ∧ k.seg = k'.seg ∧ k.warp = k'.warp := by
  constructor
  · rintro rfl
    exact ⟨rfl, rfl, rfl⟩
  · rintro ⟨h1, h2, h3⟩
    cases k
    cases k'
    simp_all

/-- A visit writes its own row, which no other visit of the launch names. -/
theorem WalkInv.visit (hap : L.Apart s0) (hinv : L.Inv s0 s) (hsh : L.Shadowed s0 s) (hwalk : L.WalkInv s0 s) (k : L.Key)
    {ask : Ask} {v : LeafVisit R P} {rest : List (LeafVisit R P)} (hask : (k.cta s).ask = some ask)
    (hcl : (k.cta s).claims = []) (htodo : (k.cta s).todo k.warp = v :: rest) (hpc : (s.heads k.bh).pc = .walking) :
    L.WalkInv s0 { s with
      heads := Function.update s.heads k.bh ((s.heads k.bh).setCta k.seg { k.cta s with
        todo := Function.update (k.cta s).todo k.warp rest
        acc := Function.update (k.cta s).acc k.warp
          (v.read ((k.cta s).acc k.warp) ((L.call k.bh).visitLeaf (s.heads k.bh) ask s.mem v).2) })
      mem := ((L.call k.bh).visitLeaf (s.heads k.bh) ask s.mem v).1 } := by
  obtain ⟨hmem, hval⟩ := visit_mem hinv hsh k (v := v) hask hcl hpc
  rw [hval]
  generalize ((L.call k.bh).visitLeaf (s.heads k.bh) ask s.mem v).1 = mem' at hmem ⊢
  obtain ⟨pre, hwork, hacc, hpre⟩ := hwalk.past k (by rw [hask]; exact Option.some_ne_none _)
  rw [htodo] at hwork
  have hleft : k.left s0 s = v :: rest := by
    rw [Key.left_eq, hask]
    exact htodo
  have hsame := hap.same k
  rw [hwork, List.pairwise_append, List.pairwise_cons] at hsame
  have hvalue : (L.call k.bh).value (s0.heads k.bh) s.mem v = k.value s0 v := by
    unfold Key.value HeadCall.value
    rcases haddr : (L.call k.bh).addr (s0.heads k.bh) v with _ | a
    · rfl
    · dsimp only
      rw [hwalk.pend k v (by rw [hleft]; exact List.mem_cons_self) a haddr]
  rw [hvalue]
  have hmine : v ∈ k.work s0 := by
    rw [hwork]
    exact List.mem_append_right _ List.mem_cons_self
  -- no other warp names the visit's row
  have hkeep : ∀ k' : L.Key, k' ≠ k → ∀ v' ∈ k'.work s0, ∀ a, k'.addr s0 v' = some a → mem' a.1 a.2 = s.mem a.1 a.2 := by
    intro k' hne v' hv' a ha
    rw [hmem, if_neg fun hc => hap.cross k' k hne v' hv' v hmine a ha hc]
  have hcta := fun k' : L.Key => cta_visit (s := s) k k'
  refine ⟨fun k' v' hv' a ha => ?_, fun k' hne => ?_, fun a ha => ?_⟩
  · rcases eq_or_ne k' k with rfl | hk
    · have hv'' : v' ∈ rest := by
        rw [Key.left_eq, hcta, if_pos ⟨rfl, rfl⟩] at hv'
        simpa [hask] using hv'
      have hrest : v' ∈ k'.left s0 s := by
        rw [hleft]
        exact List.mem_cons_of_mem _ hv''
      rw [← hwalk.pend k' v' hrest a ha]
      exact (hmem a).trans (if_neg fun hc => hsame.2.1.1 v' hv'' a hc ha)
    · have hold : v' ∈ k'.left s0 s := by
        rw [Key.left_eq, hcta] at hv'
        rw [Key.left_eq]
        by_cases heq : k'.bh = k.bh ∧ k'.seg = k.seg
        · rw [if_pos heq] at hv'
          have hwarp : k'.warp ≠ k.warp := fun hc => hk (Key.eq_iff.2 ⟨heq.1, heq.2, hc⟩)
          have hcta' : k'.cta s = k.cta s := by
            unfold Key.cta
            rw [heq.1, heq.2]
          rw [hcta']
          simpa [hask, Function.update_of_ne hwarp] using hv'
        · rwa [if_neg heq] at hv'
      exact (hkeep k' hk v' (hwalk.left_subset k' hold) a ha).trans (hwalk.pend k' v' hold a ha)
  · rw [hcta] at hne ⊢
    rcases eq_or_ne k' k with rfl | hk
    · rw [if_pos ⟨rfl, rfl⟩]
      refine ⟨pre ++ [v], ?_, ?_, fun v' hv' a ha => ?_⟩
      · dsimp only
        rw [Function.update_self, hwork, List.append_assoc]
        rfl
      · dsimp only
        rw [Function.update_self, List.foldl_append, hacc]
        rfl
      · dsimp only
        rcases List.mem_append.1 hv' with hv' | hv'
        · rw [← hpre v' hv' a ha, hmem, if_neg fun hc => hsame.2.2 v' hv' v List.mem_cons_self a ha hc]
        · rw [List.mem_singleton.1 hv'] at ha ⊢
          rw [hmem, if_pos ha, hwalk.pend k' v (by rw [hleft]; exact List.mem_cons_self) a ha]
    · have hold : (k'.cta s).ask ≠ none := by
        by_cases heq : k'.bh = k.bh ∧ k'.seg = k.seg
        · unfold Key.cta at hask ⊢
          rw [heq.1, heq.2, hask]
          exact Option.some_ne_none _
        · rwa [if_neg heq] at hne
      obtain ⟨pre', hwork', hacc', hpre'⟩ := hwalk.past k' hold
      have hpast : ∀ v' ∈ pre', ∀ a, k'.addr s0 v' = some a → mem' a.1 a.2 = k'.after s0 v' (s0.mem a.1 a.2) := by
        intro v' hv' a ha
        rw [hkeep k' hk v' (by rw [hwork']; exact List.mem_append_left _ hv') a ha]
        exact hpre' v' hv' a ha
      refine ⟨pre', ?_, ?_, hpast⟩
      · split
        · rename_i heq
          have hwarp : k'.warp ≠ k.warp := fun hc => hk (Key.eq_iff.2 ⟨heq.1, heq.2, hc⟩)
          dsimp only
          rw [Function.update_of_ne hwarp, hwork']
          unfold Key.cta
          rw [heq.1, heq.2]
        · exact hwork'
      · split
        · rename_i heq
          have hwarp : k'.warp ≠ k.warp := fun hc => hk (Key.eq_iff.2 ⟨heq.1, heq.2, hc⟩)
          dsimp only
          rw [Function.update_of_ne hwarp, ← hacc']
          unfold Key.cta
          rw [heq.1, heq.2]
        · exact hacc'
  · dsimp only
    rw [hmem, ← hwalk.other a ha]
    split
    · rename_i haddr
      have hskip : k.writes s0 v = false := by
        by_contra hw
        rw [Bool.not_eq_false] at hw
        exact ha k v hmine hw haddr
      unfold Key.after HeadCall.after
      unfold Key.writes at hskip
      rw [hskip]
      rfl
    · rfl

/-- Only a prologue and a visit matter to the storage. -/
theorem WalkInv.head {e : HeadEvent} {h' : HeadState R P O} {mem' : Storage R} {growth : Board Bool} (hL : L.Counted)
    (hap : L.Apart s0) (hinv : L.Inv s0 s) (hsh : L.Shadowed s0 s) (hwalk : L.WalkInv s0 s) (hbh : bh < L.BH)
    (hstep : (L.call bh).Takes L.atoms (s.heads bh) s.mem e h' mem') :
    L.WalkInv s0 { s with heads := Function.update s.heads bh h', mem := mem', growth := growth } := by
  have hquiet : ∀ h' : HeadState R P O, (∀ seg, (h'.cta seg).ask = ((s.heads bh).cta seg).ask ∧
      (h'.cta seg).todo = ((s.heads bh).cta seg).todo ∧ (h'.cta seg).acc = ((s.heads bh).cta seg).acc) →
      L.WalkInv s0 { s with heads := Function.update s.heads bh h', growth := growth } := by
    intro h' hsame
    have hkey : ∀ k : L.Key,
        (k.cta { s with heads := Function.update s.heads bh h', growth := growth }).ask = (k.cta s).ask ∧
        (k.cta { s with heads := Function.update s.heads bh h', growth := growth }).todo = (k.cta s).todo ∧
        (k.cta { s with heads := Function.update s.heads bh h', growth := growth }).acc = (k.cta s).acc := by
      intro k
      unfold Key.cta
      dsimp only
      by_cases hk : k.bh = bh
      · rw [hk, Function.update_self]
        exact hsame k.seg
      · rw [Function.update_of_ne hk]
        exact ⟨rfl, rfl, rfl⟩
    exact hwalk.congr rfl (fun k => (hkey k).1) (fun k => (hkey k).2.1) fun k => (hkey k).2.2
  have hset : ∀ seg (c : Cta R P), c.ask = ((s.heads bh).cta seg).ask → c.todo = ((s.heads bh).cta seg).todo →
      c.acc = ((s.heads bh).cta seg).acc → ∀ seg', (((s.heads bh).setCta seg c).cta seg').ask = ((s.heads bh).cta seg').ask ∧
        (((s.heads bh).setCta seg c).cta seg').todo = ((s.heads bh).cta seg').todo ∧
        (((s.heads bh).setCta seg c).cta seg').acc = ((s.heads bh).cta seg').acc := by
    intro seg c h1 h2 h3 seg'
    unfold HeadState.setCta
    dsimp only
    rcases eq_or_ne seg' seg with rfl | hne
    · rw [Function.update_self]
      exact ⟨h1, h2, h3⟩
    · rw [Function.update_of_ne hne]
      exact ⟨rfl, rfl, rfl⟩
  cases hstep with
  | start hlive hask => exact (hwalk.start hL hinv hbh hlive hask).congr rfl (fun _ => rfl) (fun _ => rfl) fun _ => rfl
  | claim hcl => exact hquiet _ (hset _ _ rfl rfl rfl)
  | @visit seg warp ask v rest hask hcl htodo hwarp =>
    have hlive := ((hinv.head bh hbh).asked seg ask hask).1
    have hpc : (s.heads bh).pc = .walking := by
      by_contra hpc
      have hpart := (hinv.head bh hbh).part_of_full ((hinv.head bh hbh).pc.full hpc) (((hL bh hbh).live seg).1 hlive)
      have hph := ((hinv.head bh hbh).cta seg).working_of_todo htodo
      exact hpart (((hinv.head bh hbh).cta seg).part_of_working hwarp (by rw [hph]; decide))
    exact (hwalk.visit hap hinv hsh ⟨bh, seg, warp, hbh, hlive, hwarp⟩ hask hcl htodo hpc).congr rfl (fun _ => rfl)
      (fun _ => rfl) fun _ => rfl
  | deposit hask hcl htodo hwarp hph => exact hquiet _ (hset _ _ rfl rfl rfl)
  | arrive hwarp hph => exact hquiet _ (hset _ _ rfl rfl rfl)
  | store hask hpart hn hph => exact hquiet _ fun _ => ⟨rfl, rfl, rfl⟩
  | bump hph => exact hquiet _ fun _ => ⟨rfl, rfl, rfl⟩
  | alone hpart hn hph => exact hquiet _ fun _ => ⟨rfl, rfl, rfl⟩
  | readout hpc hask hpart => exact hquiet _ fun _ => by simp
  | publish hpc hask hpaged => exact hquiet _ fun _ => ⟨rfl, rfl, rfl⟩

/-! ### A whole launch -/

/-- The condensation is the candidates', once the first CTA has asked. -/
def Condensed (L : Launch R P O) (s : LaunchState R P O) : Prop :=
  ∀ bh < L.BH, (L.call bh).paged = true → ((s.heads bh).cta 0).ask ≠ none →
    (s.heads bh).atomBits = fun a => decide (a ∈ (L.call bh).cand)

structure Kept (L : Launch R P O) (s0 s : LaunchState R P O) : Prop where
  inv : L.Inv s0 s
  shadow : L.Shadowed s0 s
  row : ∀ bh < L.BH, HeadCall.RowInv (L.call bh) L.atoms (s0.heads bh) (s.heads bh)
  bits : L.Condensed s
  walk : L.WalkInv s0 s

theorem Kept.fresh (hL : L.Counted) (hf : L.Fresh s) (hclaims : ∀ bh < L.BH, ∀ seg, ((s.heads bh).cta seg).claims = []) :
    L.Kept s s where
  inv := .fresh hL hf
  shadow bh hbh := .fresh (hf.head bh hbh) (hclaims bh hbh)
  row bh hbh := ⟨fun _ => ⟨rfl, rfl⟩, fun hpub => by
    rw [(hf.head bh hbh).pc] at hpub
    cases hpub⟩
  bits bh hbh _ hask := absurd ((hf.head bh hbh).ask 0) hask
  walk := .fresh hf

end Walk

end Launch

theorem HeadCall.bits_step [Zero R] {C : HeadCall R P O} {h h' : HeadState R P O} {atoms : ℕ} {e : HeadEvent}
    {mem mem' : Storage R} (hpaged : C.paged = true)
    (hbits : (h.cta 0).ask ≠ none → h.atomBits = fun a => decide (a ∈ C.cand)) (hstep : C.Takes atoms h mem e h' mem')
    (hask : (h'.cta 0).ask ≠ none) : h'.atomBits = fun a => decide (a ∈ C.cand) := by
  have hset : ∀ (seg : ℕ) (k : Cta R P), ((h.setCta seg k).cta 0).ask ≠ none → k.ask = (h.cta seg).ask → (h.cta 0).ask ≠ none := by
    intro seg k hne hk
    rwa [setCta_ask hk] at hne
  cases hstep with
  | @start seg hlive hidle =>
    unfold HeadCall.start at hask ⊢
    dsimp only at hask ⊢
    by_cases hseg : seg = 0
    · simp [hpaged, hseg]
    · rw [if_neg (by simp [hseg])]
      refine hbits ?_
      rwa [show (h.setCta seg (C.asked h seg)).cta 0 = h.cta 0 from Function.update_of_ne (Ne.symm hseg) ..] at hask
  | claim hcl => exact hbits (hset _ _ hask rfl)
  | visit hidle hcl htodo hwarp => exact hbits (hset _ _ hask rfl)
  | deposit hidle hcl htodo hwarp hph => exact hbits (hset _ _ hask rfl)
  | arrive hwarp hph => exact hbits (hset _ _ hask rfl)
  | store hidle hpart hn hph => exact hbits hask
  | bump hph => exact hbits hask
  | alone hpart hn hph => exact hbits hask
  | readout hpc hidle hpart =>
    rw [readout_atomBits]
    exact hbits (by rwa [readout_cta] at hask)
  | publish hpc hidle hpaged => exact hbits hask

namespace Launch

variable {L : Launch R P O} {s s0 s' : LaunchState R P O} {ev : LaunchEvent} {bh : ℕ}

section Whole

variable [Zero R]

/-- What a launch keeps of the batch-heads' rows. -/
structure Rows (L : Launch R P O) (s0 s : LaunchState R P O) : Prop where
  inv : L.Inv s0 s
  shadow : L.Shadowed s0 s
  row : ∀ bh < L.BH, HeadCall.RowInv (L.call bh) L.atoms (s0.heads bh) (s.heads bh)

theorem Kept.rows (hkept : L.Kept s0 s) : L.Rows s0 s := ⟨hkept.inv, hkept.shadow, hkept.row⟩

theorem Rows.step (hL : L.Counted) (hnodup : ∀ bh < L.BH, (L.call bh).cand.Nodup) (hrows : L.Rows s0 s)
    (hstep : L.step s ev = some s') : L.Rows s0 s' := by
  have hinv := hrows.inv.step hL hstep
  cases ev with
  | head bh e =>
    obtain ⟨hbh, h', mem', htakes, rfl⟩ := head_of_step hstep
    refine ⟨hinv, fun bh' hbh' => ?_, fun bh' hbh' => ?_⟩
    · dsimp only
      rcases eq_or_ne bh' bh with rfl | hne
      · rw [Function.update_self]
        exact (hrows.shadow bh' hbh).step (hL bh' hbh) (hnodup bh' hbh) (hrows.inv.head bh' hbh) htakes
      · rw [Function.update_of_ne hne]
        exact hrows.shadow bh' hbh'
    · dsimp only
      rcases eq_or_ne bh' bh with rfl | hne
      · rw [Function.update_self]
        exact (hrows.row bh' hbh).step (hL bh' hbh) (hrows.inv.head bh' hbh) (hrows.shadow bh' hbh) htakes
      · rw [Function.update_of_ne hne]
        exact hrows.row bh' hbh'
  | report bh =>
    unfold Launch.step at hstep
    dsimp only at hstep
    split at hstep
    · cases hstep
      exact ⟨hinv, hrows.shadow, hrows.row⟩
    · cases hstep
  | finish =>
    unfold Launch.step at hstep
    dsimp only at hstep
    split at hstep
    · cases hstep
      exact ⟨hinv, fun bh hbh => (hrows.shadow bh hbh).congr rfl (fun _ => rfl) fun _ => rfl,
        fun bh hbh => ⟨(hrows.row bh hbh).before, (hrows.row bh hbh).after⟩⟩
    · cases hstep

theorem Rows.run (hL : L.Counted) (hnodup : ∀ bh < L.BH, (L.call bh).cand.Nodup) (hrows : L.Rows s0 s)
    {evs : List LaunchEvent} (hrun : Machine.run L.step s evs = some s') : L.Rows s0 s' := by
  induction evs generalizing s with
  | nil => exact Option.some.inj hrun ▸ hrows
  | cons ev evs ih =>
    obtain ⟨t, ht, hrest⟩ := Option.bind_eq_some_iff.1 hrun
    exact ih (hrows.step hL hnodup ht) hrest

theorem Kept.step (hL : L.Counted) (hap : L.Apart s0) (hnodup : ∀ bh < L.BH, (L.call bh).cand.Nodup) (hkept : L.Kept s0 s)
    (hstep : L.step s ev = some s') : L.Kept s0 s' := by
  obtain ⟨hinv, hshadow, hrow⟩ := hkept.rows.step hL hnodup hstep
  cases ev with
  | head bh e =>
    obtain ⟨hbh, h', mem', htakes, rfl⟩ := head_of_step hstep
    refine ⟨hinv, hshadow, hrow, fun bh' hbh' hpaged hask => ?_, hkept.walk.head hL hap hkept.inv hkept.shadow hbh htakes⟩
    dsimp only at hask ⊢
    rcases eq_or_ne bh' bh with rfl | hne
    · rw [Function.update_self] at hask ⊢
      exact HeadCall.bits_step hpaged (hkept.bits bh' hbh hpaged) htakes hask
    · rw [Function.update_of_ne hne] at hask ⊢
      exact hkept.bits bh' hbh' hpaged hask
  | report bh =>
    unfold Launch.step at hstep
    dsimp only at hstep
    split at hstep
    · cases hstep
      exact ⟨hinv, hshadow, hrow, hkept.bits, hkept.walk.congr rfl (fun _ => rfl) (fun _ => rfl) fun _ => rfl⟩
    · cases hstep
  | finish =>
    unfold Launch.step at hstep
    dsimp only at hstep
    split at hstep
    · cases hstep
      exact ⟨hinv, hshadow, hrow, hkept.bits, hkept.walk.congr rfl (fun _ => rfl) (fun _ => rfl) fun _ => rfl⟩
    · cases hstep

theorem Kept.run (hL : L.Counted) (hap : L.Apart s0) (hnodup : ∀ bh < L.BH, (L.call bh).cand.Nodup) (hkept : L.Kept s0 s)
    {evs : List LaunchEvent} (hrun : Machine.run L.step s evs = some s') : L.Kept s0 s' := by
  induction evs generalizing s with
  | nil => exact Option.some.inj hrun ▸ hkept
  | cons ev evs ih =>
    obtain ⟨t, ht, hrest⟩ := Option.bind_eq_some_iff.1 hrun
    exact ih (hkept.step hL hap hnodup ht) hrest

end Whole

end Launch

end Rola
