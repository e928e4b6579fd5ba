import Rola.ArenaContents
import Rola.LaunchBound
import Rola.LaunchEnd
import Rola.Readout
import Rola.Seams

/-!
# A gated decode step over an arena

`decode_step_gated` of `rola/engine/dags/decode_dag.py`: one launch over the arena and the step's scratch,
in any order of its CTAs. What it leaves depends on neither the order nor what the workspace held.
-/

namespace Rola

/-- A split the host derives: one wave of CTAs, and no device keeps `2 ^ 28` of them. -/
def WaveSplit (BH nSplit : ℕ) : Prop :=
  ∃ (dev : DecodeDevice) (widths : List ℕ) (k m : ℕ) (decay : Bool),
    dev.sms * dev.residency decay widths.length ≤ 2 ^ 28 ∧ deriveNSplit dev widths k m decay BH = .ok nSplit

theorem WaveSplit.bounds {BH nSplit : ℕ} (h : WaveSplit BH nSplit) : 1 ≤ nSplit ∧ nSplit ≤ 2 ^ 28 := by
  obtain ⟨dev, widths, k, m, decay, hdev, hok⟩ := h
  unfold deriveNSplit at hok
  split at hok
  · cases hok
  · cases hok
    refine ⟨le_min (le_max_left ..) (le_max_left ..), (min_le_right _ _).trans (max_le (by decide) ?_)⟩
    exact (Nat.div_le_self _ _).trans hdev

/-- One token's step over an arena: what each launch of it is handed. `visits` is what the walk enumerates. -/
structure StepWork (c : ArenaConfig) (R P O : Type) where
  nSplit : ℕ
  umax : ℕ → ℕ
  cand : ℕ → List ℕ
  visits : ℕ → ℕ → ℕ → List (LeafVisit R P)
  zero : P
  add : P → P → P
  out : P → O
  pos : 0 < c.BH
  split : WaveSplit c.BH nSplit
  umax_count : ∀ bh, UnitCount (umax bh)
  nodup : ∀ bh, (cand bh).Nodup
  lt : ∀ bh, ∀ a ∈ cand bh, a < c.atomsPerBh
  visit_lt : ∀ bh seg warp, ∀ v ∈ visits bh seg warp, v.leaf / 16 < c.atomsPerBh
  same : ∀ bh seg warp, (visits bh seg warp).Pairwise fun v v' => v.leaf ≠ v'.leaf
  cross : ∀ bh seg warp seg' warp', (seg, warp) ≠ (seg', warp') →
    ∀ v ∈ visits bh seg warp, ∀ v' ∈ visits bh seg' warp', v.leaf ≠ v'.leaf
  written : ∀ bh seg warp, ∀ v ∈ visits bh seg warp, v.inW = true → v.leaf / 16 ∈ cand bh

/-- A paged state between launches: its arena, and the step's scratch. -/
structure DecodeState (R P O : Type) where
  pages : PageArena (ℕ → R)
  ws : ℕ → ℕ → P
  ctr : ℕ → ℕ
  growth : ℕ → Bool
  growthCtr : ℕ
  growthAny : Bool
  done : ℕ → Bool
  atomBits : ℕ → ℕ → Bool
  y : ℕ → O

variable {c : ArenaConfig} {R P O : Type}

namespace StepWork

variable (W : StepWork c R P O)

/-- What a batch-head's CTAs are handed, but for the pool. -/
def baseCall (bh : ℕ) : HeadCall R P O where
  nSplit := W.nSplit
  umax := W.umax bh
  paged := true
  denseBase := 0
  poolCap := c.poolCapacity
  poolSlots := fun _ => 0
  cand := W.cand bh
  visits := W.visits bh
  zero := W.zero
  add := W.add
  out := W.out

def headCall (pages : PageArena (ℕ → R)) (bh : ℕ) : HeadCall R P O :=
  { W.baseCall bh with poolSlots := pages.poolSlots bh }

def launch (pages : PageArena (ℕ → R)) : Launch R P O := ⟨c.BH, c.atomsPerBh, W.headCall pages⟩

def idleCta : Cta R P := ⟨none, [], fun _ => [], fun _ => W.zero, ⟨fun _ => W.zero, 0, fun _ => .working⟩, none⟩

/-- The launch's view of the state. -/
def entry (s : DecodeState R P O) : LaunchState R P O where
  heads bh :=
    { table := fun a => s.pages.pageTable (c.atomId bh a)
      shadow := fun a => s.pages.poolMap (c.atomId bh a)
      cursor := s.pages.poolCursor bh
      done := s.done bh
      atomBits := s.atomBits bh
      ws := ⟨s.ws bh, s.ctr bh, fun _ => .working⟩
      y := s.y bh
      cta := fun _ => W.idleCta
      pc := .walking }
  mem := s.pages.valueBase
  growth := ⟨s.growth, s.growthCtr, fun _ => .working⟩
  growthAny := s.growthAny
  closing := .open

/-- The state a launch leaves. -/
def exit (c : ArenaConfig) (s : DecodeState R P O) (st : LaunchState R P O) : DecodeState R P O where
  pages := { s.pages with
    pageTable := fun id => (st.heads (id / c.atomsPerBh)).table (id % c.atomsPerBh)
    poolMap := fun id => (st.heads (id / c.atomsPerBh)).shadow (id % c.atomsPerBh)
    poolCursor := fun bh => (st.heads bh).cursor
    valueBase := st.mem }
  ws bh := (st.heads bh).ws.slot
  ctr bh := (st.heads bh).ws.count
  growth := st.growth.slot
  growthCtr := st.growth.count
  growthAny := st.growthAny
  done bh := (st.heads bh).done
  atomBits bh := (st.heads bh).atomBits
  y bh := (st.heads bh).y

/-- `decode_step_gated`: a launch that has run out of events, whatever their order. -/
def Gated [Zero R] (s s' : DecodeState R P O) : Prop :=
  ∃ evs st, Machine.run (W.launch s.pages).step (W.entry s) evs = some st ∧ (W.launch s.pages).Ended st ∧ s' = exit c s st

/-- The launch as the arena sees it. -/
def decodeCall [Zero R] (done : ℕ → Bool) : DecodeCall c (ℕ → R) where
  cand := W.cand
  nodup := W.nodup
  lt := W.lt
  done := done
  store := fun _ => 0

end StepWork

/-! ### The launch's claims are the arena's -/

namespace StepWork

open PageArena

variable [Zero R] {W : StepWork c R P O} {s s' : DecodeState R P O} {bh a : ℕ}

theorem askOf_entry : ((W.headCall s.pages bh).askOf ((W.entry s).heads bh)).done = s.done bh ∧
    ((W.headCall s.pages bh).askOf ((W.entry s).heads bh)).claimed = s.pages.claimed (W.decodeCall s.done) bh ∧
    ((W.headCall s.pages bh).askOf ((W.entry s).heads bh)).needy = s.pages.needy (W.decodeCall s.done) bh := by
  have hwanted : (W.headCall s.pages bh).wanted ((W.entry s).heads bh) = s.pages.wanted (W.decodeCall s.done) bh := rfl
  have hfits : (decide (0 < s.pages.demand (W.decodeCall s.done) bh) &&
        decide ((W.headCall s.pages bh).poolCursor ((W.entry s).heads bh) + s.pages.demand (W.decodeCall s.done) bh ≤ c.poolCapacity)) =
      (decide (0 < s.pages.demand (W.decodeCall s.done) bh) &&
        decide (s.pages.poolCursor bh + s.pages.demand (W.decodeCall s.done) bh ≤ c.poolCapacity)) := by
    unfold HeadCall.poolCursor
    rw [Bool.eq_iff_iff]
    simp only [Bool.and_eq_true, decide_eq_true_eq]
    refine and_congr_right fun hpos => ?_
    show ((if 0 < c.poolCapacity then s.pages.poolCursor bh else 0) + _ ≤ _) ↔ _
    split
    · exact Iff.rfl
    · omega
  have hclaimed : ((W.headCall s.pages bh).askOf ((W.entry s).heads bh)).claimed =
      s.pages.claimed (W.decodeCall s.done) bh := by
    unfold HeadCall.askOf claimed
    rw [hwanted]
    exact congrArg (!s.done bh && ·) hfits
  have hneedy : ((W.headCall s.pages bh).askOf ((W.entry s).heads bh)).needy =
      (!s.done bh && (decide (0 < s.pages.demand (W.decodeCall s.done) bh) &&
        !((W.headCall s.pages bh).askOf ((W.entry s).heads bh)).claimed)) := rfl
  refine ⟨rfl, hclaimed, ?_⟩
  rw [hneedy, hclaimed]
  rfl

theorem claimRow_entry : (W.headCall s.pages bh).claimRow ((W.entry s).heads bh) a =
    s.pages.claimRow (W.decodeCall s.done) bh a := by
  have hpool : s.pages.claimed (W.decodeCall s.done) bh = true →
      (W.headCall s.pages bh).poolCursor ((W.entry s).heads bh) = s.pages.poolCursor bh := by
    intro hcl
    have := claimed_fits hcl
    unfold HeadCall.poolCursor
    exact if_pos (show 0 < c.poolCapacity by omega)
  unfold HeadCall.claimRow PageArena.claimRow
  rw [askOf_entry.2.1]
  refine ite_congr rfl (fun hcl => ?_) fun _ => rfl
  unfold HeadCall.claimSlot
  rw [hpool hcl.1]
  rfl

theorem foldRow_entry : (W.headCall s.pages bh).foldRow ((W.entry s).heads bh) a =
    s.pages.foldRow (W.decodeCall s.done) bh a := by
  unfold HeadCall.foldRow PageArena.foldRow
  rw [askOf_entry.2.1, claimRow_entry]
  rfl

theorem foldCount_entry : (W.headCall s.pages bh).foldCount ((W.entry s).heads bh) c.atomsPerBh =
    s.pages.folded (W.decodeCall s.done) bh := by
  unfold HeadCall.foldCount PageArena.folded
  simp only [claimRow_entry]
  rfl

omit [Zero R] in
theorem counted (W : StepWork c R P O) (pages : PageArena (ℕ → R)) : (W.launch pages).Counted := fun bh _ =>
  HeadCall.counted_of_le W.split.bounds.1 W.split.bounds.2 (W.umax_count bh).le

/-- What a launch finds in the scratch: every counter at zero. -/
structure Quiet (c : ArenaConfig) (s : DecodeState R P O) : Prop where
  ctr : ∀ bh < c.BH, s.ctr bh = 0
  growthCtr : s.growthCtr = 0

omit [Zero R] in
theorem entry_fresh (hs : Quiet c s) : (W.launch s.pages).Fresh (W.entry s) where
  head bh hbh := ⟨fun _ => rfl, fun _ => rfl, fun _ => ⟨rfl, fun _ => rfl⟩, ⟨hs.ctr bh hbh, fun _ => rfl⟩, rfl⟩
  count := hs.growthCtr
  phase _ := rfl
  closing := rfl

/-! ### What a launch leaves -/

theorem addr_entry {v : LeafVisit R P} : (W.headCall s.pages bh).addr ((W.entry s).heads bh) v =
    (s.pages.foldRow (W.decodeCall s.done) bh (v.leaf / 16)).map fun slot => (slot, v.leaf % 16) := by
  unfold HeadCall.addr HeadCall.rowSlot
  rw [if_pos (show (W.headCall s.pages bh).paged = true from rfl), foldRow_entry]

/-- A row of the storage is one leaf's. -/
theorem leaf_eq_of_addr (hsound : Sound c s.pages) {bh' : ℕ} (hbh : bh < c.BH) (hbh' : bh' < c.BH) {v v' : LeafVisit R P}
    (hv : v.leaf / 16 < c.atomsPerBh) (hv' : v'.leaf / 16 < c.atomsPerBh) {x : ℕ × ℕ}
    (hx : (W.headCall s.pages bh).addr ((W.entry s).heads bh) v = some x)
    (hx' : (W.headCall s.pages bh').addr ((W.entry s).heads bh') v' = some x) : bh = bh' ∧ v.leaf = v'.leaf := by
  rw [addr_entry] at hx hx'
  obtain ⟨slot, hslot, rfl⟩ := Option.map_eq_some_iff.1 hx
  obtain ⟨slot', hslot', heq⟩ := Option.map_eq_some_iff.1 hx'
  obtain ⟨rfl, hmod⟩ := Prod.mk.inj heq
  have hinv := (hsound.decodeStep (W.decodeCall s.done)).1
  obtain ⟨hdiv1, hmod1⟩ := @PageArena.atomId_div _ bh _ hv
  obtain ⟨hdiv2, hmod2⟩ := @PageArena.atomId_div _ bh' _ hv'
  have hid := hinv.table_inj (c.atomId bh (v.leaf / 16)) (atomId_lt hbh hv) (c.atomId bh' (v'.leaf / 16))
    (atomId_lt hbh' hv') slot' (by
      show s.pages.foldRow _ (c.atomId bh _ / _) (c.atomId bh _ % _) = _
      rw [hdiv1, hmod1, hslot]) (by
      show s.pages.foldRow _ (c.atomId bh' _ / _) (c.atomId bh' _ % _) = _
      rw [hdiv2, hmod2, hslot'])
  have hbheq : bh = bh' := by
    rw [← hdiv1, ← hdiv2, hid]
  have hatom : v.leaf / 16 = v'.leaf / 16 := by
    rw [← hmod1, ← hmod2, hid]
  exact ⟨hbheq, by omega⟩

omit [Zero R] in
theorem mem_of_work {k : (W.launch s.pages).Key} {v : LeafVisit R P} (hv : v ∈ k.work (W.entry s)) :
    v ∈ W.visits k.bh k.seg k.warp := by
  unfold Launch.Key.work Launch.work at hv
  split at hv
  · cases hv
  · exact hv

theorem apart (hsound : Sound c s.pages) : (W.launch s.pages).Apart (W.entry s) where
  same k := by
    have hsame : (k.work (W.entry s)).Pairwise fun v v' => v.leaf ≠ v'.leaf := by
      unfold Launch.Key.work Launch.work
      split
      · exact .nil
      · exact W.same k.bh k.seg k.warp
    refine hsame.imp_of_mem fun {v v'} hv hv' hne x hx hx' => ?_
    exact hne (leaf_eq_of_addr hsound k.bh_lt k.bh_lt (W.visit_lt _ _ _ _ (mem_of_work hv))
      (W.visit_lt _ _ _ _ (mem_of_work hv')) hx hx').2
  cross k k' hne v hv v' hv' x hx hx' := by
    obtain ⟨hbh, hleaf⟩ := leaf_eq_of_addr hsound k.bh_lt k'.bh_lt (W.visit_lt _ _ _ _ (mem_of_work hv))
      (W.visit_lt _ _ _ _ (mem_of_work hv')) hx hx'
    have hv'' := mem_of_work hv'
    rw [← hbh] at hv''
    refine W.cross k.bh k.seg k.warp k'.seg k'.warp (fun hc => hne ?_) v (mem_of_work hv) v' hv'' hleaf
    obtain ⟨hseg, hwarp⟩ := Prod.mk.inj hc
    exact Launch.Key.eq_iff.2 ⟨hbh, hseg, hwarp⟩

theorem kept (hq : Quiet c s) : (W.launch s.pages).Kept (W.entry s) (W.entry s) :=
  .fresh (counted W s.pages) (entry_fresh hq) fun _ _ _ => rfl

/-- A gated step ends, and what it leaves is the launch's outcome. -/
theorem exists_gated (hq : Quiet c s) : ∃ s', W.Gated s s' := by
  obtain ⟨evs, st, hrun, hend⟩ := (kept (W := W) hq).inv.exists_ended (counted W s.pages) fun _ _ _ _ => rfl
  exact ⟨exit c s st, evs, st, hrun, hend, rfl⟩

theorem Gated.outcome (hsound : Sound c s.pages) (hq : Quiet c s) (hg : W.Gated s s') :
    ∃ st, (W.launch s.pages).Outcome (W.entry s) st ∧ s' = exit c s st := by
  obtain ⟨evs, st, hrun, hend, rfl⟩ := hg
  have hkept := (kept (W := W) hq).run (counted W s.pages) (apart hsound) (fun bh _ => W.nodup bh) hrun
  exact ⟨st, hkept.outcome (counted W s.pages) hend W.pos fun _ _ => rfl, rfl⟩

/-! ### Rows -/

/-- What a state holds at a leaf. -/
def row (c : ArenaConfig) (pages : PageArena (ℕ → R)) (bh leaf : ℕ) : R :=
  pages.gathered (c.atomId bh (leaf / 16)) (leaf % 16)

def needy (W : StepWork c R P O) (s : DecodeState R P O) (bh : ℕ) : Bool := s.pages.needy (W.decodeCall s.done) bh

theorem needy_entry : (W.launch s.pages).needy (W.entry s) bh = W.needy s bh := askOf_entry.2.2

def someNeedy (W : StepWork c R P O) (s : DecodeState R P O) : Bool := (List.range c.BH).any (W.needy s)

/-- A visit of a live warp. -/
def Visits (W : StepWork c R P O) (bh : ℕ) (v : LeafVisit R P) : Prop :=
  ∃ seg warp, (W.baseCall bh).Live seg ∧ warp < decodeWarps ∧ v ∈ W.visits bh seg warp

/-- The readout of a batch-head whose visits read `val`. -/
def readout (W : StepWork c R P O) (bh : ℕ) (val : LeafVisit R P → R) : O :=
  W.out ((W.baseCall bh).total fun seg warp => (W.visits bh seg warp).foldl (fun acc v => v.read acc (val v)) W.zero)

omit [Zero R] in
theorem live_headCall {pages : PageArena (ℕ → R)} {seg : ℕ} : (W.headCall pages bh).Live seg ↔ (W.baseCall bh).Live seg := by
  unfold HeadCall.Live HeadCall.retired
  rfl

omit [Zero R] in
theorem total_headCall {pages : PageArena (ℕ → R)} (acc : ℕ → ℕ → P) :
    (W.headCall pages bh).total acc = (W.baseCall bh).total acc := by
  have hlive : (W.headCall pages bh).nLive = (W.baseCall bh).nLive := by
    unfold HeadCall.nLive
    rfl
  unfold HeadCall.total HeadCall.segSum
  rw [hlive]
  rfl

/-- A leaf nobody visits, to ask where its row is. -/
def probe (leaf : ℕ) : LeafVisit R P := ⟨leaf, false, id, fun acc _ => acc⟩

/-- The launch finds a leaf's row where its fold maps it, or finds nothing. -/
theorem row_fold (hsound : Sound c s.pages) (hbh : bh < c.BH) {leaf : ℕ} (hleaf : leaf / 16 < c.atomsPerBh) :
    row c s.pages bh leaf = match s.pages.foldRow (W.decodeCall s.done) bh (leaf / 16) with
      | none => 0
      | some slot => s.pages.valueBase slot (leaf % 16) := by
  have hfold := @PageArena.gathered_fold _ _ _ _ _ (W.decodeCall s.done) hsound (atomId_lt hbh hleaf)
  unfold row
  rw [← hfold]
  unfold gathered
  obtain ⟨hdiv, hmod⟩ := @PageArena.atomId_div _ bh _ hleaf
  have htable : ({ s.pages.decodeStep (W.decodeCall s.done) with valueBase := s.pages.valueBase } :
      PageArena (ℕ → R)).pageTable (c.atomId bh (leaf / 16)) = s.pages.foldRow (W.decodeCall s.done) bh (leaf / 16) := by
    show s.pages.foldRow _ (c.atomId bh _ / _) (c.atomId bh _ % _) = _
    rw [hdiv, hmod]
  rw [htable]
  rcases s.pages.foldRow (W.decodeCall s.done) bh (leaf / 16) with _ | slot
  · rfl
  · rfl

/-- The value a visit reads. -/
theorem value_entry (hsound : Sound c s.pages) (hbh : bh < c.BH) {v : LeafVisit R P} (hv : v.leaf / 16 < c.atomsPerBh)
    (hmap : v.inW = true → s.done bh = false → s.pages.foldRow (W.decodeCall s.done) bh (v.leaf / 16) ≠ none) :
    (W.headCall s.pages bh).value ((W.entry s).heads bh) (W.entry s).mem v =
      if v.inW && !s.done bh then v.upd (row c s.pages bh v.leaf) else row c s.pages bh v.leaf := by
  rw [row_fold (W := W) hsound hbh hv]
  unfold HeadCall.value HeadCall.after
  rw [addr_entry, askOf_entry.1]
  rcases hfold : s.pages.foldRow (W.decodeCall s.done) bh (v.leaf / 16) with _ | slot
  · rw [if_neg]
    · rfl
    · rw [Bool.and_eq_true, Bool.not_eq_true']
      exact fun hc => hmap hc.1 hc.2 hfold
  · rfl

/-- What a gated step does to the state. -/
structure Ran (W : StepWork c R P O) (s s' : DecodeState R P O) : Prop where
  sound : Sound c s'.pages
  quiet : Quiet c s'
  table : ∀ bh < c.BH, W.needy s bh = true → ∀ a < c.atomsPerBh,
    s'.pages.pageTable (c.atomId bh a) = s.pages.pageTable (c.atomId bh a)
  cursor : ∀ bh < c.BH, W.needy s bh = true → s'.pages.poolCursor bh = s.pages.poolCursor bh
  mapped : ∀ bh < c.BH, W.needy s bh = false → s.done bh = false → ∀ a ∈ W.cand bh, s'.pages.pageTable (c.atomId bh a) ≠ none
  written : ∀ bh < c.BH, W.needy s bh = false → s.done bh = false → ∀ v, W.Visits bh v → v.inW = true →
    row c s'.pages bh v.leaf = v.upd (row c s.pages bh v.leaf)
  kept : ∀ bh < c.BH, ∀ leaf, leaf / 16 < c.atomsPerBh → (W.needy s bh = false → s.done bh = false →
    ∀ v, W.Visits bh v → v.inW = true → v.leaf ≠ leaf) → row c s'.pages bh leaf = row c s.pages bh leaf
  y : ∀ bh < c.BH, s'.y bh = if W.needy s bh then s.y bh else
    W.readout bh fun v => if v.inW && !s.done bh then v.upd (row c s.pages bh v.leaf) else row c s.pages bh v.leaf
  bits : ∀ bh < c.BH, s'.atomBits bh = fun a => decide (a ∈ W.cand bh)
  any : s'.growthAny = W.someNeedy s
  done : ∀ bh < c.BH, s'.done bh =
    if W.someNeedy s = false then false else if W.needy s bh = false then true else s.done bh

section Outcome

variable {st : LaunchState R P O} (hsound : Sound c s.pages) (hout : (W.launch s.pages).Outcome (W.entry s) st)
include hout

theorem exit_table {id : ℕ} (hid : id < c.logicalPages) :
    (exit c s st).pages.pageTable id = (s.pages.decodeStep (W.decodeCall s.done)).pageTable id := by
  obtain ⟨hbh, ha, -⟩ := split_id hid
  exact (hout.table _ hbh _ ha).trans foldRow_entry

theorem exit_map {id : ℕ} (hid : id < c.logicalPages) :
    (exit c s st).pages.poolMap id = (s.pages.decodeStep (W.decodeCall s.done)).poolMap id := by
  obtain ⟨hbh, ha, -⟩ := split_id hid
  exact (hout.shadow _ hbh _).trans claimRow_entry

theorem exit_cursor (hbh : bh < c.BH) :
    (exit c s st).pages.poolCursor bh = (s.pages.decodeStep (W.decodeCall s.done)).poolCursor bh := by
  refine (hout.cursor bh hbh).trans ?_
  show s.pages.poolCursor bh + (if ((W.headCall s.pages bh).askOf ((W.entry s).heads bh)).claimed = true then
    (W.headCall s.pages bh).foldCount ((W.entry s).heads bh) c.atomsPerBh else 0) = _
  rw [askOf_entry.2.1, foldCount_entry]
  rfl

/-- A slot no atom is mapped to is not written. -/
theorem exit_slot {slot : ℕ} (hslot : ∀ id < c.logicalPages,
    (s.pages.decodeStep (W.decodeCall s.done)).pageTable id ≠ some slot) : st.mem slot = s.pages.valueBase slot := by
  funext r
  refine hout.other (slot, r) fun k v hv hwrites haddr => ?_
  have hlt := W.visit_lt _ _ _ v (mem_of_work hv)
  have haddr' : (W.headCall s.pages k.bh).addr ((W.entry s).heads k.bh) v = some (slot, r) := haddr
  rw [addr_entry] at haddr'
  obtain ⟨slot', hfold, heq⟩ := Option.map_eq_some_iff.1 haddr'
  obtain ⟨hdiv, hmod⟩ := @PageArena.atomId_div _ k.bh _ hlt
  refine hslot (c.atomId k.bh (v.leaf / 16)) (atomId_lt k.bh_lt hlt) ?_
  show s.pages.foldRow _ (c.atomId k.bh _ / _) (c.atomId k.bh _ % _) = _
  rw [hdiv, hmod, hfold, (Prod.mk.inj heq).1]

include hsound

theorem exit_sound : Sound c (exit c s st).pages := by
  have hd := hsound.decodeStep (W.decodeCall s.done)
  have hunspent : ∀ bh i, Unspent c (exit c s st).pages bh i → Unspent c (s.pages.decodeStep (W.decodeCall s.done)) bh i := by
    intro bh i hu
    refine ⟨hu.1, ?_, hu.2.2⟩
    rw [← exit_cursor hout hu.1]
    exact hu.2.1
  refine ⟨?_, fun id hid hmap => ?_⟩
  · exact
      { table_inj := fun id hid id' hid' slot h1 h2 => by
          rw [exit_table hout hid] at h1
          rw [exit_table hout hid'] at h2
          exact hd.1.table_inj id hid id' hid' slot h1 h2
        table_lt := fun id hid slot h1 => by
          rw [exit_table hout hid] at h1
          exact hd.1.table_lt id hid slot h1
        next_le := hd.1.next_le
        cursor_le := fun bh hbh => by
          rw [exit_cursor hout hbh]
          exact hd.1.cursor_le bh hbh
        pool_lt := fun bh i hu => hd.1.pool_lt bh i (hunspent bh i hu)
        pool_inj := fun bh i bh' i' hu hu' heq => hd.1.pool_inj bh i bh' i' (hunspent bh i hu) (hunspent bh' i' hu') heq
        pool_fresh := fun bh i hu id hid h1 => by
          rw [exit_table hout hid] at h1
          exact hd.1.pool_fresh bh i (hunspent bh i hu) id hid h1
        pool_zero := fun bh i hu => by
          have hu' := hunspent bh i hu
          refine (exit_slot hout fun id hid => hd.1.pool_fresh bh i hu' id hid).trans ?_
          exact hsound.1.pool_zero bh i ⟨hu.1, (Nat.le_add_right _ _).trans hu'.2.1, hu.2.2⟩ }
  · rw [exit_table hout hid]
    rw [exit_map hout hid] at hmap
    exact hd.2 id hid hmap

omit hsound in
theorem row_exit (hbh : bh < c.BH) {leaf : ℕ} (hleaf : leaf / 16 < c.atomsPerBh) :
    row c (exit c s st).pages bh leaf = match s.pages.foldRow (W.decodeCall s.done) bh (leaf / 16) with
      | none => 0
      | some slot => st.mem slot (leaf % 16) := by
  obtain ⟨hdiv, hmod⟩ := @PageArena.atomId_div _ bh _ hleaf
  have htable : (exit c s st).pages.pageTable (c.atomId bh (leaf / 16)) =
      s.pages.foldRow (W.decodeCall s.done) bh (leaf / 16) := by
    rw [exit_table hout (atomId_lt hbh hleaf)]
    show s.pages.foldRow _ (c.atomId bh _ / _) (c.atomId bh _ % _) = _
    rw [hdiv, hmod]
  unfold row gathered
  rw [htable]
  rcases s.pages.foldRow (W.decodeCall s.done) bh (leaf / 16) with _ | slot
  · rfl
  · rfl

omit hsound hout in
/-- A written atom of a batch-head that deposits is mapped. -/
theorem foldRow_written (hneedy : W.needy s bh = false) (hdone : s.done bh = false) (ha : a ∈ W.cand bh) :
    s.pages.foldRow (W.decodeCall s.done) bh a ≠ none := by
  refine foldRow_of_deposits ?_ ha
  unfold deposits
  have hn : s.pages.needy (W.decodeCall s.done) bh = false := hneedy
  rw [hn, show (W.decodeCall s.done).done bh = false from hdone]
  rfl

theorem exit_written (hbh : bh < c.BH) (hneedy : W.needy s bh = false) (hdone : s.done bh = false) {v : LeafVisit R P}
    (hv : W.Visits bh v) (hw : v.inW = true) :
    row c (exit c s st).pages bh v.leaf = v.upd (row c s.pages bh v.leaf) := by
  obtain ⟨seg, warp, hlive, hwarp, hmem⟩ := hv
  have hlt := W.visit_lt bh seg warp v hmem
  rw [row_exit hout hbh hlt, row_fold (W := W) hsound hbh hlt]
  rcases hfold : s.pages.foldRow (W.decodeCall s.done) bh (v.leaf / 16) with _ | slot
  · exact absurd hfold (foldRow_written hneedy hdone (W.written bh seg warp v hmem hw))
  · let k : (W.launch s.pages).Key := ⟨bh, seg, warp, hbh, live_headCall.2 hlive, hwarp⟩
    have hwork : v ∈ k.work (W.entry s) := by
      unfold Launch.Key.work Launch.work
      rw [needy_entry, hneedy, if_neg Bool.false_ne_true]
      exact hmem
    have haddr : k.addr (W.entry s) v = some (slot, v.leaf % 16) := by
      refine addr_entry.trans ?_
      rw [hfold]
      rfl
    refine (hout.written k v hwork _ haddr).trans ?_
    show (if v.inW && !s.done bh then _ else _) = _
    rw [hw, hdone]
    rfl

theorem exit_kept (hbh : bh < c.BH) {leaf : ℕ} (hleaf : leaf / 16 < c.atomsPerBh)
    (hnone : W.needy s bh = false → s.done bh = false → ∀ v, W.Visits bh v → v.inW = true → v.leaf ≠ leaf) :
    row c (exit c s st).pages bh leaf = row c s.pages bh leaf := by
  rw [row_exit hout hbh hleaf, row_fold (W := W) hsound hbh hleaf]
  rcases hfold : s.pages.foldRow (W.decodeCall s.done) bh (leaf / 16) with _ | slot
  · rfl
  · refine hout.other (slot, leaf % 16) fun k v hv hwrites haddr => ?_
    have hmem := mem_of_work hv
    have hprobe : (W.headCall s.pages bh).addr ((W.entry s).heads bh) (probe leaf) = some (slot, leaf % 16) := by
      refine addr_entry.trans ?_
      show (s.pages.foldRow _ bh (leaf / 16)).map _ = _
      rw [hfold]
      rfl
    obtain ⟨rfl, hleaf'⟩ := leaf_eq_of_addr hsound k.bh_lt hbh (W.visit_lt _ _ _ _ hmem) hleaf haddr hprobe
    have hdone : v.inW = true ∧ s.done k.bh = false := by
      unfold Launch.Key.writes at hwrites
      rw [Bool.and_eq_true, Bool.not_eq_true'] at hwrites
      exact hwrites
    have hneedy : W.needy s k.bh = false := by
      by_contra hneedy
      unfold Launch.Key.work Launch.work at hv
      rw [needy_entry, if_pos (by simpa using hneedy)] at hv
      cases hv
    exact hnone hneedy hdone.2 v ⟨k.seg, k.warp, live_headCall.1 k.live, k.warp_lt, hmem⟩ hdone.1 hleaf'

theorem exit_y (hbh : bh < c.BH) : (exit c s st).y bh = if W.needy s bh then s.y bh else
    W.readout bh fun v => if v.inW && !s.done bh then v.upd (row c s.pages bh v.leaf) else row c s.pages bh v.leaf := by
  refine (hout.y bh hbh).trans ?_
  rw [needy_entry]
  refine ite_congr rfl (fun _ => rfl) fun hn => ?_
  have hcount := counted W s.pages bh hbh
  refine congrArg W.out ((HeadCall.total_ext hcount fun seg _ warp _ => ?_).trans (total_headCall _))
  unfold Launch.work
  rw [needy_entry, if_neg hn]
  refine List.foldl_ext _ _ _ fun acc v hv => congrArg (v.read acc) ?_
  exact value_entry hsound hbh (W.visit_lt bh seg warp v hv) fun hw hdone =>
    foldRow_written (by simpa using hn) hdone (W.written bh seg warp v hv hw)

end Outcome

theorem Gated.ran (hsound : Sound c s.pages) (hq : Quiet c s) (hg : W.Gated s s') : W.Ran s s' := by
  obtain ⟨st, hout, rfl⟩ := hg.outcome hsound hq
  have hsome : (W.launch s.pages).someNeedy (W.entry s) = W.someNeedy s := by
    unfold Launch.someNeedy someNeedy
    rw [show (W.launch s.pages).needy (W.entry s) = W.needy s from funext fun _ => needy_entry]
    rfl
  have hclaimed : ∀ bh, W.needy s bh = true → ¬s.pages.claimed (W.decodeCall s.done) bh = true := by
    intro bh hn hcl
    have hdep := deposits_of_claimed hcl
    unfold deposits at hdep
    rw [show s.pages.needy (W.decodeCall s.done) bh = true from hn, Bool.not_true, Bool.and_false] at hdep
    cases hdep
  exact
    { sound := exit_sound hsound hout
      quiet := ⟨fun bh hbh => hout.count bh hbh, hout.growthCount⟩
      table := fun bh hbh hn a ha => by
        rw [exit_table hout (atomId_lt hbh ha)]
        obtain ⟨hdiv, hmod⟩ := @PageArena.atomId_div _ bh _ ha
        show s.pages.foldRow _ (c.atomId bh a / _) (c.atomId bh a % _) = _
        rw [hdiv, hmod]
        unfold foldRow
        exact if_neg (hclaimed bh hn)
      cursor := fun bh hbh hn => by
        rw [exit_cursor hout hbh]
        show s.pages.poolCursor bh + _ = _
        rw [if_neg (hclaimed bh hn)]
        rfl
      mapped := fun bh hbh hn hd a ha => by
        have hlt := W.lt bh a ha
        rw [exit_table hout (atomId_lt hbh hlt)]
        obtain ⟨hdiv, hmod⟩ := @PageArena.atomId_div _ bh _ hlt
        show s.pages.foldRow _ (c.atomId bh a / _) (c.atomId bh a % _) ≠ none
        rw [hdiv, hmod]
        exact foldRow_written hn hd ha
      written := fun bh hbh hn hd v hv hw => exit_written hsound hout hbh hn hd hv hw
      kept := fun bh hbh leaf hleaf hnone => exit_kept hsound hout hbh hleaf hnone
      y := fun bh hbh => exit_y hsound hout hbh
      bits := fun bh hbh => hout.bits bh hbh
      any := hout.growthAny.trans hsome
      done := fun bh hbh => by
        refine (hout.done bh hbh).trans ?_
        rw [hsome, needy_entry]
        rfl }

end StepWork

end Rola
