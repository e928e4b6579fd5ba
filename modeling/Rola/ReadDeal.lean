import Rola.ReadSafety

/-!
# Every live token is read once

A window's order is the stable sort of its tokens by bucket and its tiles' masks are their tokens' masks
or-ed; over every order of the warps' moves each tile of it is read by one warp once, and no warp waits
for ever.
-/

namespace Rola

open PhasedBarrier

/-- What a head leaves of a window: its tokens sorted by bucket, their masks beside them. -/
structure Ordered (P : ReadPlan) (W : ReadWords) (order masks : ℕ → BitVec 16) : Prop where
  perm : ((List.range window).map fun r => (order r).toNat).Perm (List.range window)
  sorted : ((List.range window).map fun r => (order r).toNat).Pairwise (CountingSort.Before (W.key P))
  live : ∀ r < window, r < W.live P ↔ W.Live P (order r).toNat
  masks : ∀ r < window, masks r = (W.mask P ((order r).toNat / 32) ((order r).toNat % 32)).setWidth 16

/-- A tile's mask, its tokens' or-ed. -/
def Tiled (P : ReadPlan) (W : ReadWords) (order tilemask : ℕ → BitVec 16) : Prop :=
  ∀ k < kTiles, ∀ b, (tilemask k).getLsbD b = true ↔
    ∃ i < kTile, (W.mask P ((order (k * kTile + i)).toNat / 32) ((order (k * kTile + i)).toNat % 32)).getLsbD b = true

/-- What the buckets are: a live token is in the window and a box, its bucket the first or the only. -/
structure Bucketed (P : ReadPlan) (W : ReadWords) : Prop where
  live : ∀ t, W.Live P t ↔ t < W.len ∧ ∃ b < P.boxes, (W.box b (t / 32)).getLsbD (t % 32) = true
  count : W.live P = Nat.count (W.Live P) window
  dead : ∀ t, ¬ W.Live P t → W.key P t = P.boxes
  first : ∀ t, W.Live P t → W.identity = false → W.key P t < P.boxes ∧
    (W.box (W.key P t) (t / 32)).getLsbD (t % 32) = true ∧
    ∀ b < W.key P t, (W.box b (t / 32)).getLsbD (t % 32) = false
  only : ∀ t, W.Live P t → W.identity = true → W.key P t = 0

namespace ReadWords

variable {P : ReadPlan} {W : ReadWords}

theorem bucketed (P : ReadPlan) (W : ReadWords) : Bucketed P W where
  live _ := live_iff
  count := live_eq
  dead t ht := by
    have hzero : W.mask P (t / 32) (t % 32) = 0#32 := not_not.1 ht
    simp [key, bucket, hzero]
  first t ht hid := by
    have hlane : t % 32 < 32 := Nat.mod_lt _ (by norm_num)
    have hkey : W.key P t = ffs (W.mask P (t / 32) (t % 32)) - 1 := by
      have hne : W.mask P (t / 32) (t % 32) ≠ 0#32 := ht
      simp [key, bucket, hne, hid]
    obtain ⟨hbit, hlow⟩ := ffs_spec ht
    rw [← hkey] at hbit hlow
    obtain ⟨hlt, hbox, hin⟩ := (mask_getLsbD P W _ hlane).1 hbit
    refine ⟨hlt, hbox, fun b hb => ?_⟩
    by_contra hset
    have hmask := (mask_getLsbD P W (t / 32) hlane).2 ⟨hb.trans hlt, by simpa using hset, hin⟩
    rw [hlow b hb] at hmask
    exact Bool.false_ne_true hmask
  only t ht hid := by
    have hne : W.mask P (t / 32) (t % 32) ≠ 0#32 := ht
    simp [key, bucket, hne, hid]

end ReadWords

namespace ReadRun

variable {R : ReadRun} {win : ℕ}

theorem ordered {order masks : ℕ → BitVec 16} (ho : ∀ r < window, order r = R.orderOf win r)
    (hm : ∀ r < window, masks r = R.masksOf win r) : Ordered R.plan (R.words win) order masks := by
  have hmap : (List.range window).map (fun r => (order r).toNat) =
      (List.range window).map fun r => (R.orderOf win r).toNat :=
    List.map_congr_left fun r hr => by rw [ho r (List.mem_range.1 hr)]
  refine ⟨?_, ?_, fun r hr => ?_, fun r hr => ?_⟩
  · rw [hmap]
    exact CountingSort.scattered_perm (R.scattered win)
  · rw [hmap]
    exact CountingSort.scattered_sorted (R.scattered win)
  · obtain ⟨t, ht, rfl⟩ := R.exists_rank win hr
    rw [ho _ hr, toNat_orderOf ht]
    exact ReadWords.rank_lt_live ht
  · obtain ⟨t, ht, rfl⟩ := R.exists_rank win hr
    rw [ho _ hr, hm _ hr, toNat_orderOf ht, masksOf_rank ht]

theorem tiled {order tilemask : ℕ → BitVec 16} (ho : ∀ r < window, order r = R.orderOf win r)
    (hm : ∀ k < kTiles, tilemask k = R.maskOf win k) : Tiled R.plan (R.words win) order tilemask := by
  intro k hk b
  rw [hm k hk, maskOf_getLsbD hk]
  rw [show kTiles = 32 from rfl] at hk
  constructor
  · rintro ⟨t, ht, hrank, hbit⟩
    refine ⟨(R.words win).rank R.plan t % kTile, Nat.mod_lt _ (by decide), ?_⟩
    rw [← hrank, Nat.div_add_mod', ho _ (ReadWords.rank_lt ht), toNat_orderOf ht]
    exact hbit
  · rintro ⟨i, hi, hbit⟩
    have hr : k * kTile + i < window := by
      unfold kTile window at *
      omega
    obtain ⟨t, ht, hrank⟩ := R.exists_rank win hr
    rw [ho _ hr, ← hrank, toNat_orderOf ht] at hbit
    refine ⟨t, ht, ?_, hbit⟩
    rw [hrank]
    unfold kTile at *
    omega

/-- The tiles' tokens in turn are the live ranks'. -/
theorem flatMap_tileTokens (R : ReadRun) (win : ℕ) (order : ℕ → BitVec 16) :
    (List.range (R.tiles win)).flatMap (R.tileTokens win order) =
      (List.range (R.live win)).map fun r => (order r).toNat := by
  have hflat : ∀ n, (List.range n).flatMap (R.tileTokens win order) =
      ((List.range (n * kTile)).filter fun r => r < R.live win).map fun r => (order r).toNat := by
    intro n
    induction n with
    | zero => simp
    | succ n ih =>
      rw [List.range_succ, List.flatMap_append, ih, Nat.add_mul, Nat.one_mul, List.range_add, List.filter_append,
        List.map_append, List.flatMap_singleton, tileTokens, List.filter_map, List.map_map]
      rfl
  have hle : R.live win ≤ R.tiles win * kTile := by
    unfold tiles kTile
    omega
  obtain ⟨d, hd⟩ := Nat.exists_eq_add_of_le hle
  rw [hflat, hd, List.range_add, List.filter_append, List.filter_eq_self.2, List.filter_eq_nil_iff.2,
    List.append_nil]
  · intro r hr
    obtain ⟨i, -, rfl⟩ := List.mem_map.1 hr
    simp
  · intro r hr
    simpa using hr

/-- The live tokens, by rank. -/
theorem live_perm (R : ReadRun) (win : ℕ) : ((List.range (R.live win)).map fun r => (R.orderOf win r).toNat).Perm
    ((List.range window).filter fun t => (R.words win).Live R.plan t) := by
  have hlive := R.live_le win
  refine (List.perm_ext_iff_of_nodup ?_ (List.nodup_range.filter _)).2 fun t => ?_
  · refine List.Nodup.map_on (fun r hr r' hr' heq => ?_) List.nodup_range
    obtain ⟨t, ht, rfl⟩ := R.exists_rank win ((List.mem_range.1 hr).trans_le hlive)
    obtain ⟨t', ht', rfl⟩ := R.exists_rank win ((List.mem_range.1 hr').trans_le hlive)
    rw [toNat_orderOf ht, toNat_orderOf ht'] at heq
    rw [heq]
  · simp only [List.mem_map, List.mem_range, List.mem_filter, decide_eq_true_eq]
    constructor
    · rintro ⟨r, hr, rfl⟩
      obtain ⟨t, ht, rfl⟩ := R.exists_rank win (hr.trans_le hlive)
      rw [toNat_orderOf ht]
      exact ⟨ht, (ReadWords.rank_lt_live ht).1 hr⟩
    · rintro ⟨ht, hl⟩
      exact ⟨_, (ReadWords.rank_lt_live ht).2 hl, toNat_orderOf ht⟩

end ReadRun

namespace Reader

variable {R : ReadRun} {x : Reader} {v : ReadSeen}

/-- In a window's readout. -/
def reading (x : Reader) : Bool :=
  match x.pc with
  | .begin | .loop | .step | .take | .wait => true
  | _ => false

theorem At.reading (hat : x.At R) (hx : x.reading = true) : x.window = x.win ∧ x.passed = 5 * x.win + 4 ∧ x.arrived = x.passed := by
  cases hpc : x.pc <;> simp [Reader.reading, At, InWindow, Dealt, hpc] at hat hx <;>
    refine ⟨by omega, by omega, by simp [arrived, waiting, hpc]⟩

theorem At.passed_of_win (hat : x.At R) {win : ℕ} (h : win < x.win) : 5 * win + 5 ≤ x.passed ∧ win < R.windows := by
  cases hpc : x.pc <;> simp [At, InHead, InWindow, Dealt, Past, hpc] at hat <;> omega

/-- A warp that has come to a window's end has no tile of it. -/
theorem At.past_of_arrived (hat : x.At R) {win : ℕ} (hwin : win < R.windows) (h : 5 * win + 5 ≤ x.arrived) :
    win < x.primed ∧ (win < x.window ∨ x.done = true) := by
  cases hpc : x.pc <;> cases hdone : x.done <;>
    simp [At, InHead, InWindow, Dealt, Past, arrived, waiting, primed, hpc, hdone] at hat h ⊢ <;> omega

/-- Where a warp waits: a rendezvous, or its ring. -/
theorem next_none (hn : x.next R v = none) : x.pc = .finished ∨ x.waiting = true ∧ v.met = false ∨
    x.pc = .wait ∧ x.fullNow v (x.n % 2) = false := by
  cases hpc : x.pc <;> simp only [next, hpc] at hn
  case finished => exact .inl rfl
  case wait =>
    split at hn
    · cases hn
    · exact .inr (.inr ⟨rfl, by simp_all⟩)
  case counts | scans | order | edge | endEdge =>
    split at hn
    · cases hn
    · exact .inr (.inl ⟨by simp [waiting, hpc], by simp_all⟩)
  all_goals
    first
    | cases hn
    | split at hn <;>
        first
        | cases hn
        | split at hn <;> cases hn

/-- A warp at a rendezvous is short of the last. -/
theorem At.passed_lt (hat : x.At R) (hx : x.waiting = true) : x.passed < max (5 * R.windows) 3 := by
  cases hpc : x.pc <;> simp [waiting, hpc] at hx <;>
    simp [At, InHead, InWindow, Dealt, hpc] at hat <;> omega

end Reader

namespace Readers

variable {R : ReadRun} {σ : Of R} {w : Fin R.plan.warps}

/-- The readout over one run: what a head leaves, what a window's readers read by, and their reads. -/
structure ReadsOnce (R : ReadRun) (σ : Of R) : Prop where
  bucketed : ∀ win, Bucketed R.plan (R.words win)
  /-- After the head's last edge. -/
  ordered : ∀ w, (σ.warp w).pc = .tiles →
    Ordered R.plan (R.words (σ.warp w).head) (σ.order ((σ.warp w).head % 2)) σ.masks
  /-- Through the readout, whatever the next head writes. -/
  kept : ∀ w, (σ.warp w).reading = true →
    (∃ masks, Ordered R.plan (R.words (σ.warp w).win) (σ.order ((σ.warp w).win % 2)) masks) ∧
      Tiled R.plan (R.words (σ.warp w).win) (σ.order ((σ.warp w).win % 2)) (σ.tilemask ((σ.warp w).win % 2))
  /-- No tile twice, and each off its own copies. -/
  once : ∀ win, ((σ.reads win).map TileRead.tile).Nodup ∧ ∀ e ∈ σ.reads win,
    e.tile < (R.live win + 15) / 16 ∧ ∀ lane, e.staged lane = some ⟨win, e.tokens⟩
  /-- A window behind any warp: every tile once, every live token once. -/
  all : ∀ win w, win < (σ.warp w).win →
    ((σ.reads win).map TileRead.tile).Perm (List.range ((R.live win + 15) / 16)) ∧
      ((σ.reads win).flatMap TileRead.tokens).Perm
        ((List.range window).filter fun t => (R.words win).Live R.plan t)
  progress : ∀ w, (σ.warp w).pc ≠ .finished → ∃ w' σ', Step σ w' σ'

namespace Inv

variable (h : σ.Inv)
include h

theorem deals_nodup (win : ℕ) : (σ.deals win).Nodup := by
  have hmap := h.dealt win
  refine List.Nodup.of_map Prod.snd ?_
  rw [hmap]
  exact List.nodup_range

/-- The reads of a window are among its deals. -/
theorem reads_subperm (win : ℕ) : ((σ.reads win).map fun e => (e.warp, e.tile)).Subperm (σ.deals win) := by
  rw [List.subperm_ext_iff]
  intro p hp
  obtain ⟨e, he, rfl⟩ := List.mem_map.1 hp
  rw [h.held win e.warp e.tile (h.reads win e he).tile]
  exact Nat.le_add_right _ _

theorem reads_nodup (win : ℕ) : ((σ.reads win).map TileRead.tile).Nodup := by
  obtain ⟨l, hperm, hsub⟩ := h.reads_subperm win
  have hnodup := (hsub.map Prod.snd).nodup (h.dealt win ▸ List.nodup_range)
  have heq := (hperm.map Prod.snd).nodup_iff.1 hnodup
  rwa [List.map_map] at heq

/-- Behind a window's end every tile dealt is read. -/
theorem reads_perm {win : ℕ} (hwin : win < (σ.warp w).win) :
    ((σ.reads win).map TileRead.tile).Perm (List.range (R.tiles win)) := by
  obtain ⟨hpassed, hlt⟩ := (h.warp w).at_.passed_of_win hwin
  have hpast : ∀ w', win < (σ.warp w').primed ∧ (win < (σ.warp w').window ∨ (σ.warp w').done = true) := fun w' =>
    (h.warp w').at_.past_of_arrived hlt (hpassed.trans (h.met w w'))
  have hnone : ∀ w', (σ.warp w').holding win = [] := by
    intro w'
    rcases (hpast w').2 with hlt | hdone
    · simp [Reader.holding, hlt.ne']
    · simp [Reader.holding, hdone]
  have hspent : R.tiles win < (σ.deals win).length := (h.warp w).spent win (hpast w).1 (hpast w).2
  refine (List.perm_ext_iff_of_nodup (h.reads_nodup win) List.nodup_range).2 fun t => ?_
  rw [List.mem_range]
  constructor
  · intro ht
    obtain ⟨e, he, rfl⟩ := List.mem_map.1 ht
    exact (h.reads win e he).tile
  · intro ht
    have hmem : t ∈ (σ.deals win).map Prod.snd := by
      rw [h.dealt, List.mem_range]
      omega
    obtain ⟨⟨w', t⟩, hdeal, rfl⟩ := List.mem_map.1 hmem
    have hcount := h.held win w' _ ht
    rw [hnone w', List.count_nil, Nat.add_zero] at hcount
    have hpos := List.count_pos_iff.2 hdeal
    rw [hcount, List.count_pos_iff] at hpos
    obtain ⟨e, he, heq⟩ := List.mem_map.1 hpos
    exact List.mem_map.2 ⟨e, he, congrArg Prod.snd heq⟩

theorem tokens_perm {win : ℕ} (hwin : win < (σ.warp w).win) :
    ((σ.reads win).flatMap TileRead.tokens).Perm
      ((List.range window).filter fun t => (R.words win).Live R.plan t) := by
  have htokens : (σ.reads win).flatMap TileRead.tokens =
      ((σ.reads win).map TileRead.tile).flatMap (R.tileTokens win (R.orderOf win)) := by
    rw [List.flatMap_map]
    exact List.flatMap_congr fun e he => (h.reads win e he).tokens
  rw [htokens]
  refine ((h.reads_perm hwin).flatMap_right _).trans ?_
  rw [R.flatMap_tileTokens]
  exact R.live_perm win

/-! ### Progress -/

/-- With every copy landed, a slot that holds a tile is full. -/
theorem full_of_landed {r k : ℕ} (hr : r < 2) (htile : (σ.warp w).slotTile R r = some k)
    (hland : ∀ lane, ¬ σ.InFlight w lane r) : (σ.warp w).fullNow (σ.seen w) r = true := by
  have hslot := (h.warp w).slot r hr
  rw [htile] at hslot
  have hlt : (σ.ring w r).released () < (σ.ring w r).full.phase := by
    refine Nat.lt_of_succ_le ((h.slot w r hr).full.le_phase fun x => ?_)
    have hlane := hland x.2
    unfold InFlight at hlane
    rw [hslot.1] at hlane
    exact Nat.not_lt.1 hlane
  have htest := ((h.slot w r hr).full_test ()).2 hlt
  rw [← (h.warp w).cursor r hr] at htest
  exact htest

theorem progress (hw : (σ.warp w).pc ≠ .finished) : ∃ w' σ', Step σ w' σ' := by
  by_contra hno
  push Not at hno
  have hnext : ∀ w', (σ.warp w').next R (σ.seen w') = none := by
    intro w'
    by_contra hne
    obtain ⟨⟨x, e⟩, hn⟩ := Option.ne_none_iff_exists'.1 hne
    exact hno w' _ (.act hn)
  have hstuck : ∀ w', (σ.warp w').pc = .finished ∨ (σ.warp w').waiting = true ∧ (σ.seen w').met = false := by
    intro w'
    rcases Reader.next_none (hnext w') with hfin | hwait | ⟨hpc, hfull⟩
    · exact .inl hfin
    · exact .inr hwait
    · have hr : (σ.warp w').n % 2 < 2 := Nat.mod_lt _ (by norm_num)
      have hat := (h.warp w').at_
      simp only [Reader.At, hpc] at hat
      have htile : (σ.warp w').slotTile R ((σ.warp w').n % 2) = some (σ.warp w').k := by
        simp [Reader.slotTile, hat.2.2]
      rw [h.full_of_landed hr htile fun lane hl => hno w' _ (.land hr hl)] at hfull
      exact absurd hfull (by simp)
  -- of the warps that wait, one has passed no more rendezvous than any
  obtain ⟨w₀, hw₀, hmin⟩ := Finset.exists_min_image
    (Finset.univ.filter fun w' => (σ.warp w').pc ≠ .finished) (fun w' => (σ.warp w').passed) ⟨w, by simpa using hw⟩
  rw [Finset.mem_filter] at hw₀
  obtain ⟨hwait, hmet⟩ := (hstuck w₀).resolve_left hw₀.2
  obtain ⟨w₁, hle⟩ : ∃ w₁, (σ.warp w₁).arrived ≤ (σ.warp w₀).passed := by
    simpa [seen] using hmet
  by_cases hfin : (σ.warp w₁).pc = .finished
  · have hat := (h.warp w₁).at_
    simp only [Reader.At, Reader.Past, hfin] at hat
    have hlt := (h.warp w₀).at_.passed_lt hwait
    unfold Reader.arrived at hle
    rw [hat.2.2.2.1, hat.2.1] at hle
    omega
  · have hge := hmin w₁ (by simpa using hfin)
    have hwait₁ := ((hstuck w₁).resolve_left hfin).1
    unfold Reader.arrived at hle
    rw [hwait₁, if_pos rfl] at hle
    omega

end Inv

theorem reads_once (R : ReadRun) (σ : Of R) (h : Reachable σ) : ReadsOnce R σ := by
  have hinv := h.inv
  refine ⟨fun win => ReadWords.bucketed R.plan (R.words win), fun w hpc => ?_, fun w hreading => ?_, fun win => ?_,
    fun win w hwin => ⟨hinv.reads_perm hwin, hinv.tokens_perm hwin⟩, fun w hw => hinv.progress hw⟩
  · have hat := (hinv.warp w).at_
    simp only [Reader.At, hpc] at hat
    have harr : (σ.warp w).arrived = (σ.warp w).passed := by simp [Reader.arrived, Reader.waiting, hpc]
    exact R.ordered (fun r hr => hinv.order_eq (w := w) (by omega) (by omega) hr) fun r hr => hinv.masks_eq hpc hr
  · obtain ⟨-, hpassed, harr⟩ := (hinv.warp w).at_.reading hreading
    have ho : ∀ r < window, σ.order ((σ.warp w).win % 2) r = R.orderOf (σ.warp w).win r := fun r hr =>
      hinv.order_eq (w := w) (by omega) (by omega) hr
    exact ⟨⟨_, R.ordered ho fun _ _ => rfl⟩,
      R.tiled ho fun k hk => hinv.tilemask_eq (w := w) (by omega) (by omega) hk⟩
  · refine ⟨hinv.reads_nodup win, fun e he => ?_⟩
    have hread := hinv.reads win e he
    exact ⟨hread.tile, hread.staged⟩

/-- `w`'s next action, where it has one. -/
def act (σ : Of R) (w : Fin R.plan.warps) : Of R :=
  match (σ.warp w).next R (σ.seen w) with
  | some (x, e) => σ.perform w x e
  | none => σ

theorem Reachable.acts (h : Reachable σ) (ws : List (Fin R.plan.warps)) : Reachable (ws.foldl act σ) := by
  induction ws generalizing σ with
  | nil => exact h
  | cons w ws ih =>
    refine ih ?_
    unfold act
    split
    · exact .step h (.act ‹_›)
    · exact h

/-- Two windows of one live box in two, the eight warps at the first head's first edge. -/
theorem reads_once_two : ∃ (R : ReadRun) (σ : Of R), (R.plan.warps = 8 ∧ σ.counter 0 = 0 ∧
    ∀ w, (σ.warp w).pc = .counts ∨ (σ.warp w).pc = .scans) ∧ ReadsOnce R σ := by
  let R : ReadRun :=
    { plan := ⟨8, 2, .inl rfl, two_pos, le_rfl⟩, windows := 2
      words := fun win => ⟨512, false, fun b _ => if b % 2 = win then 0xFFFF#32 else 0#32⟩ }
  exact ⟨R, [0, 1, 2, 3, 4, 5, 6, 7, 0, 3].foldl act (start (fun _ => 7) (fun _ _ => 0) (fun _ _ => 0) fun _ => 0),
    by decide +kernel, reads_once R _ ((Reachable.start _ _ _ _).acts _)⟩

end Readers

end Rola
