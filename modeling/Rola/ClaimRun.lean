import Rola.GrowthReplay
import Rola.PoolClaim

/-!
# The pool claim over a launch

Every CTA that asks before the fold asks of one row, so each writes one claim; the fold maps what the
claim wrote and nothing else, once, and the cursor moves past the slots it names.
-/

namespace Rola

open PageArena

variable {c : ArenaConfig} {R P O : Type}

/-- What a batch-head's candidate loop runs over. -/
structure CandidateLoop where
  n : ℕ
  candidate : ℕ → Option ℕ

/-- `HeadCall.step`, its prologue and its fold thread by thread. -/
def HeadCall.threadStep [Zero R] (C : HeadCall R P O) (K : CandidateLoop) (atoms : ℕ) (h : HeadState R P O)
    (mem : Storage R) : HeadEvent → Option (HeadState R P O × Storage R)
  | .start seg =>
    if seg < C.nSplit ∧ C.retired seg = false ∧ (h.cta seg).ask = none then
      let r := C.admission K.n K.candidate h
      some ({ h.setCta seg { h.cta seg with
          ask := some r.1
          claims := r.2
          todo := if r.1.needy then fun _ => [] else C.visits seg
          acc := fun _ => C.zero } with
        atomBits := if C.paged && seg == 0 then fun a => (List.range K.n).any fun i => K.candidate i == some a
          else h.atomBits }, mem)
    else none
  | .publish =>
    match h.pc with
    | .read seg =>
      match (h.cta seg).ask with
      | some ask => if C.paged then some (h.publishWarp ask atoms, mem) else none
      | none => none
    | _ => none
  | e => C.step atoms h mem e

theorem HeadCall.threadStep_eq [Zero R] {C : HeadCall R P O} {K : CandidateLoop} {atoms : ℕ} {h : HeadState R P O}
    {mem : Storage R} {e : HeadEvent} (hcand : C.cand = (List.range K.n).filterMap K.candidate) :
    C.threadStep K atoms h mem e = C.step atoms h mem e := by
  cases e with
  | start seg =>
    have hbits : (fun a => (List.range K.n).any fun i => K.candidate i == some a) = fun a => decide (a ∈ C.cand) := by
      funext a
      rw [hcand, Bool.eq_iff_iff]
      simp
    unfold threadStep step
    dsimp only
    rw [admit_eq hcand, hbits] <;> rfl
  | publish =>
    unfold threadStep step
    rcases h.pc with _ | seg | seg | _
    · rfl
    · rfl
    · dsimp only
      rcases (h.cta seg).ask with _ | ask
      · rfl
      · simp only [HeadState.publishWarp_eq]
    · rfl
  | claim | visit | deposit | arrive | store | bump | alone | readout => rfl

/-- A launch whose batch-heads step thread by thread. -/
def Launch.threadStep [Zero R] (L : Launch R P O) (K : ℕ → CandidateLoop) (s : LaunchState R P O) :
    LaunchEvent → Option (LaunchState R P O)
  | .head bh e =>
    if bh < L.BH then
      ((L.call bh).threadStep (K bh) L.atoms (s.heads bh) s.mem e).map fun r =>
        { s with heads := Function.update s.heads bh r.1, mem := r.2, growth := growthAfter s bh e }
    else none
  | e => L.step s e

theorem Launch.threadStep_eq [Zero R] {L : Launch R P O} {K : ℕ → CandidateLoop}
    (hcand : ∀ bh < L.BH, (L.call bh).cand = (List.range (K bh).n).filterMap (K bh).candidate) :
    L.threadStep K = L.step := by
  funext s e
  cases e with
  | head bh e =>
    unfold threadStep step
    dsimp only
    split
    · rename_i hbh
      rw [HeadCall.threadStep_eq (hcand bh hbh)]
    · rfl
  | report bh => rfl
  | finish => rfl

namespace StepWork

variable [Zero R] {W : StepWork c R P O} {K : ℕ → CandidateLoop} {s : DecodeState R P O} {st : LaunchState R P O} {bh : ℕ}

/-- The written atoms the table does not map, in the candidates' order. -/
def absent (W : StepWork c R P O) (s : DecodeState R P O) (bh : ℕ) : List ℕ :=
  (W.cand bh).filter fun a => (s.pages.pageTable (c.atomId bh a)).isNone

/-- The pool slots a claim takes, in order. -/
def claimSlots (s : DecodeState R P O) (bh i : ℕ) : ℕ := s.pages.poolSlots bh (s.pages.poolCursor bh + i)

/-- The batch-head is yet to run, and its absent atoms fit what the pool has left. -/
def Fits (W : StepWork c R P O) (s : DecodeState R P O) (bh : ℕ) : Prop :=
  s.done bh = false ∧ (W.absent s bh).length ≤ c.poolCapacity - s.pages.poolCursor bh

/-- What a launch's claim is, at any state `st` a launch from `s` reaches. -/
structure ClaimExact (W : StepWork c R P O) (K : ℕ → CandidateLoop) (s : DecodeState R P O) (st : LaunchState R P O)
    (bh : ℕ) : Prop where
  distinct : W.Fits s bh → ∀ i < (W.absent s bh).length, ∀ j < (W.absent s bh).length,
    claimSlots s bh i = claimSlots s bh j → i = j
  starts : W.Fits s bh → ∀ seg st', (W.launch s.pages).threadStep K st (.head bh (.start seg)) = some st' →
    ((st'.heads bh).cta seg).claims = (W.absent s bh).zipIdx.map fun x => (x.1, claimSlots s bh x.2)
  row : W.Fits s bh → ∀ seg, ((st.heads bh).cta seg).ask ≠ none → ((st.heads bh).cta seg).claims = [] → ∀ a,
    (st.heads bh).shadow a = if a ∈ W.absent s bh then some (claimSlots s bh ((W.absent s bh).idxOf a))
      else s.pages.poolMap (c.atomId bh a)
  unfolded : (st.heads bh).pc ≠ .published → (∀ a, (st.heads bh).table a = s.pages.pageTable (c.atomId bh a)) ∧
    (st.heads bh).cursor = s.pages.poolCursor bh
  folded : W.Fits s bh → (st.heads bh).pc = .published → (∀ a < c.atomsPerBh, (st.heads bh).table a =
      if a ∈ W.absent s bh then some (claimSlots s bh ((W.absent s bh).idxOf a)) else s.pages.pageTable (c.atomId bh a)) ∧
    (st.heads bh).cursor = s.pages.poolCursor bh + (W.absent s bh).length
  refused : ¬W.Fits s bh → (∀ a, (st.heads bh).shadow a = s.pages.poolMap (c.atomId bh a)) ∧
    (∀ a < c.atomsPerBh, (st.heads bh).table a = s.pages.pageTable (c.atomId bh a)) ∧
    (st.heads bh).cursor = s.pages.poolCursor bh
  ended : (∀ e, (W.launch s.pages).threadStep K st e = none) → (st.heads bh).pc = .published

/-! ### The claim of a row -/

section Row

variable (hinv : Inv c s.pages) (hbh : bh < c.BH)
include hinv hbh

theorem claimed_iff : ((W.headCall s.pages bh).askOf ((W.entry s).heads bh)).claimed = true ↔
    W.Fits s bh ∧ 0 < (W.absent s bh).length := by
  have hcursor := hinv.cursor_le bh hbh
  have hdemand : s.pages.demand (W.decodeCall s.done) bh = (W.absent s bh).length := rfl
  rw [askOf_entry.2.1]
  unfold PageArena.claimed Fits
  rw [hdemand, show (W.decodeCall s.done).done bh = s.done bh from rfl]
  simp only [Bool.and_eq_true, Bool.not_eq_true', decide_eq_true_eq]
  constructor
  · rintro ⟨hdone, hpos, hle⟩
    exact ⟨⟨hdone, by omega⟩, hpos⟩
  · rintro ⟨⟨hdone, hle⟩, hpos⟩
    exact ⟨hdone, hpos, by omega⟩

theorem claimSlot_entry (hcl : ((W.headCall s.pages bh).askOf ((W.entry s).heads bh)).claimed = true) (i : ℕ) :
    (W.headCall s.pages bh).poolSlots ((W.headCall s.pages bh).poolCursor ((W.entry s).heads bh) + i) = claimSlots s bh i := by
  obtain ⟨⟨-, hfits⟩, hpos⟩ := (claimed_iff hinv hbh).1 hcl
  have hcap : 0 < c.poolCapacity := by omega
  unfold HeadCall.poolCursor
  rw [if_pos (show 0 < (W.headCall s.pages bh).poolCap from hcap)]
  rfl

theorem claimsOf_entry (hfits : W.Fits s bh) : (W.headCall s.pages bh).claimsOf ((W.entry s).heads bh) =
    (W.absent s bh).zipIdx.map fun x => (x.1, claimSlots s bh x.2) := by
  unfold HeadCall.claimsOf
  split
  · rename_i hcl
    refine List.map_congr_left fun x _ => ?_
    rw [claimSlot_entry hinv hbh hcl]
  · rename_i hcl
    have hnil : W.absent s bh = [] := by
      refine List.length_eq_zero_iff.1 (Nat.eq_zero_of_not_pos fun hpos => ?_)
      exact hcl ((claimed_iff hinv hbh).2 ⟨hfits, hpos⟩)
    rw [hnil]
    rfl

theorem claimRow_fits (hfits : W.Fits s bh) (a : ℕ) : (W.headCall s.pages bh).claimRow ((W.entry s).heads bh) a =
    if a ∈ W.absent s bh then some (claimSlots s bh ((W.absent s bh).idxOf a)) else s.pages.poolMap (c.atomId bh a) := by
  have hwanted : (W.headCall s.pages bh).wanted ((W.entry s).heads bh) = W.absent s bh := rfl
  unfold HeadCall.claimRow
  rw [hwanted]
  by_cases hmem : a ∈ W.absent s bh
  · have hcl := (claimed_iff hinv hbh).2 ⟨hfits, List.length_pos_of_mem hmem⟩
    rw [if_pos ⟨hcl, hmem⟩, if_pos hmem, ← claimSlot_entry hinv hbh hcl]
    rfl
  · rw [if_neg fun hc => hmem hc.2, if_neg hmem]
    rfl

/-- The fold of a row that maps no absent atom of its own. -/
theorem foldRow_fits (hshadow : ∀ a < c.atomsPerBh, s.pages.pageTable (c.atomId bh a) = none →
    s.pages.poolMap (c.atomId bh a) = none) (hfits : W.Fits s bh) {a : ℕ} (ha : a < c.atomsPerBh) :
    (W.headCall s.pages bh).foldRow ((W.entry s).heads bh) a =
      if a ∈ W.absent s bh then some (claimSlots s bh ((W.absent s bh).idxOf a)) else s.pages.pageTable (c.atomId bh a) := by
  have htable : ((W.entry s).heads bh).table a = s.pages.pageTable (c.atomId bh a) := rfl
  unfold HeadCall.foldRow
  rw [htable]
  by_cases hmem : a ∈ W.absent s bh
  · have hnone : s.pages.pageTable (c.atomId bh a) = none := by
      simpa using (List.mem_filter.1 hmem).2
    rw [if_pos ((claimed_iff hinv hbh).2 ⟨hfits, List.length_pos_of_mem hmem⟩), claimRow_fits hinv hbh hfits, hnone,
      Option.none_or, if_pos hmem, if_pos hmem]
  · rw [if_neg hmem]
    split
    · rw [claimRow_fits hinv hbh hfits, if_neg hmem]
      rcases htab : s.pages.pageTable (c.atomId bh a) with _ | slot
      · rw [hshadow a ha htab]
        rfl
      · rfl
    · rfl

end Row

theorem launch_rows (hq : Quiet c s) {evs : List LaunchEvent}
    (hrun : Machine.run (W.launch s.pages).step (W.entry s) evs = some st) : (W.launch s.pages).Rows (W.entry s) st :=
  (kept hq).rows.run (counted W s.pages) (fun bh _ => W.nodup bh) hrun

/-- In any launch from a sound arena whose batch-head's shadow row maps no absent atom, the claim is exact. -/
theorem pool_claim_exact (hcand : ∀ bh < c.BH, W.cand bh = (List.range (K bh).n).filterMap (K bh).candidate)
    (hinv : Inv c s.pages) (hq : Quiet c s) (hbh : bh < c.BH)
    (hshadow : ∀ a < c.atomsPerBh, s.pages.pageTable (c.atomId bh a) = none → s.pages.poolMap (c.atomId bh a) = none)
    {evs : List LaunchEvent} (hrun : Machine.run ((W.launch s.pages).threadStep K) (W.entry s) evs = some st) :
    W.ClaimExact K s st bh := by
  have hstep : (W.launch s.pages).threadStep K = (W.launch s.pages).step := Launch.threadStep_eq hcand
  rw [hstep] at hrun
  have hrows := launch_rows hq hrun
  have hC := counted W s.pages bh hbh
  have hhead := hrows.inv.head bh hbh
  have hsh := hrows.shadow bh hbh
  have hrow := hrows.row bh hbh
  refine ⟨fun hfits i hi j hj heq => ?_, fun hfits seg st' hst => ?_, fun hfits seg hask hcl a => ?_, fun hpc => ?_,
    fun hfits hpub => ?_, fun hnot => ?_, fun hend => ?_⟩
  · have hplace : ∀ i < (W.absent s bh).length, Unspent c s.pages bh (s.pages.poolCursor bh + i) := fun i hi =>
      ⟨hbh, Nat.le_add_right _ _, by have := hfits.2; omega⟩
    have := (hinv.pool_inj _ _ _ _ (hplace i hi) (hplace j hj) heq).2
    omega
  · rw [hstep] at hst
    obtain ⟨-, h', mem', htakes, rfl⟩ := Launch.head_of_step hst
    cases htakes with
    | start hlive hidle =>
      obtain ⟨hsame, hpc⟩ := hhead.askOf_eq hC hlive hidle
      obtain ⟨htable, hcursor, -⟩ := hhead.row hpc
      have hclaims : (W.headCall s.pages bh).claimsOf (st.heads bh) =
          (W.headCall s.pages bh).claimsOf ((W.entry s).heads bh) := by
        unfold HeadCall.claimsOf HeadCall.poolCursor HeadCall.wanted
        rw [show (W.headCall s.pages bh).askOf (st.heads bh) = _ from hsame, htable, hcursor]
        rfl
      have hcta : ((((W.headCall s.pages bh).start (st.heads bh) seg)).cta seg).claims =
          (W.headCall s.pages bh).claimsOf (st.heads bh) := by
        show (Function.update (st.heads bh).cta seg ((W.headCall s.pages bh).asked (st.heads bh) seg) seg).claims = _
        rw [Function.update_self]
        rfl
      dsimp only
      rw [Function.update_self, ← claimsOf_entry hinv hbh hfits, ← hclaims]
      exact hcta
  · rw [← claimRow_fits hinv hbh hfits]
    by_cases hclaimed : ((W.headCall s.pages bh).askOf ((W.entry s).heads bh)).claimed = true
    · exact hsh.row hclaimed hask hcl
    · unfold HeadCall.claimRow
      rw [if_neg fun hc => hclaimed hc.1]
      exact (hsh.keep a).resolve_right fun hc => hclaimed hc.1
  · obtain ⟨htable, hcursor⟩ := hrow.before hpc
    exact ⟨fun a => congrFun htable a, hcursor⟩
  · obtain ⟨htable, hcursor⟩ := hrow.after hpub
    refine ⟨fun a ha => (htable a ha).trans (foldRow_fits hinv hbh hshadow hfits ha), hcursor.trans ?_⟩
    refine congrArg _ ?_
    by_cases hclaimed : ((W.headCall s.pages bh).askOf ((W.entry s).heads bh)).claimed = true
    · refine (if_pos hclaimed).trans (foldCount_entry.trans ?_)
      refine folded_of_row (fun a ha hnone hmap => absurd (hshadow a ha hnone) hmap) ?_
      rw [← askOf_entry.2.1]
      exact hclaimed
    · refine (if_neg hclaimed).trans ?_
      by_contra hne
      exact hclaimed ((claimed_iff hinv hbh).2 ⟨hfits, by omega⟩)
  · have hclaimed : ¬((W.headCall s.pages bh).askOf ((W.entry s).heads bh)).claimed = true := fun hc =>
      hnot ((claimed_iff hinv hbh).1 hc).1
    refine ⟨fun a => (hsh.keep a).resolve_right fun hc => hclaimed hc.1, ?_⟩
    by_cases hpub : (st.heads bh).pc = .published
    · obtain ⟨htable, hcursor⟩ := hrow.after hpub
      exact ⟨fun a ha => (htable a ha).trans (if_neg hclaimed), hcursor.trans (congrArg _ (if_neg hclaimed))⟩
    · obtain ⟨htable, hcursor⟩ := hrow.before hpub
      exact ⟨fun a _ => congrFun htable a, hcursor⟩
  · rw [hstep] at hend
    exact (hrows.inv.head_ended (counted W s.pages) hend hbh).2 rfl

end StepWork

/-! ### One batch-head, two CTAs -/

section Two

open StepWork

def twoSlots : ArenaConfig := .ofNats 1 32 33 1 2 (Eq.refl true)

def twoSlotsStart (done : Bool) : DecodeState ℕ ℕ ℕ where
  pages := (allocate twoSlots Grow.bridge fun _ _ => 0).2
  ws := fun _ _ => 0
  ctr := fun _ => 0
  growth := fun _ => false
  growthCtr := 0
  growthAny := false
  done := fun _ => done
  atomBits := fun _ _ => false
  y := fun _ => 0

/-- A token whose one leaf is the first of atom 3: the second of two CTAs has no work. -/
def twoCtas : StepWork twoSlots ℕ ℕ ℕ where
  nSplit := 2
  umax := fun _ => 1
  cand := fun _ => [3]
  visits := fun _ seg warp => if seg = 0 ∧ warp = 0 then [⟨48, true, (· + 1), fun acc r => acc + r⟩] else []
  zero := 0
  add := (· + ·)
  out := id
  pos := by decide
  split := ⟨⟨[], 2, fun _ _ => 1, 0⟩, [32, 16], 16, 1, false, by decide, by decide⟩
  umax_count := unitCount_one
  nodup := fun _ => List.nodup_singleton _
  lt := fun bh a ha => by
    rw [List.mem_singleton.1 ha]
    decide
  visit_lt := fun bh seg warp v hv => by
    split at hv
    · rw [List.mem_singleton.1 hv]
      decide
    · cases hv
  same := fun bh seg warp => by
    split
    · exact List.pairwise_singleton ..
    · exact .nil
  cross := fun bh seg warp seg' warp' hne v hv v' hv' => by
    split at hv
    · rename_i h0
      split at hv'
      · rename_i h1
        rw [h0.1, h0.2, h1.1, h1.2] at hne
        exact absurd rfl hne
      · cases hv'
    · cases hv
  written := fun bh seg warp v hv _ => by
    split at hv
    · rw [List.mem_singleton.1 hv]
      decide
    · cases hv

/-- Four candidates, the last of them live. -/
def fourCandidates : CandidateLoop := ⟨4, fun i => if i = 3 then some 3 else none⟩

theorem twoCtas_cand : ∀ bh < twoSlots.BH, twoCtas.cand bh =
    (List.range fourCandidates.n).filterMap fourCandidates.candidate := fun _ _ => rfl

theorem twoSlotsStart_inv (done : Bool) : Inv twoSlots (twoSlotsStart done).pages := by
  have hempty : allocate twoSlots Grow.bridge (fun _ _ => 0) =
      (.ok (), (allocate twoSlots Grow.bridge fun _ _ => 0 : _ × PageArena (ℕ → ℕ)).2) := rfl
  exact (RoLAState.allocate_sound hempty).1.1

theorem twoSlotsStart_quiet (done : Bool) : Quiet twoSlots (twoSlotsStart done) := ⟨fun _ _ => rfl, rfl⟩

theorem pool_claim_exact_two : ∃ evs st, Machine.run ((twoCtas.launch (twoSlotsStart false).pages).threadStep fun _ => fourCandidates)
    (twoCtas.entry (twoSlotsStart false)) evs = some st ∧ (st.heads 0).pc = .published ∧
    twoCtas.Fits (twoSlotsStart false) 0 ∧ twoCtas.ClaimExact (fun _ => fourCandidates) (twoSlotsStart false) st 0 := by
  have hstep := Launch.threadStep_eq (L := twoCtas.launch (twoSlotsStart false).pages) (K := fun _ => fourCandidates) twoCtas_cand
  obtain ⟨-, evs, st, hrun, hend, -⟩ := exists_gated (W := twoCtas) (twoSlotsStart_quiet false)
  rw [← hstep] at hrun
  have hexact : twoCtas.ClaimExact (fun _ => fourCandidates) (twoSlotsStart false) st 0 :=
    pool_claim_exact twoCtas_cand (twoSlotsStart_inv false) (twoSlotsStart_quiet false) (by decide) (fun _ _ _ => rfl) hrun
  refine ⟨evs, st, hrun, hexact.ended ?_, ⟨rfl, by decide⟩, hexact⟩
  rw [hstep]
  exact hend

/-- The second CTA retires and never claims; and of a batch-head marked done the claim takes no slot, though both
times the pool holds the absent atom. -/
theorem not_every_cta_claims :
    (∃ evs st, Machine.run ((twoCtas.launch (twoSlotsStart false).pages).threadStep fun _ => fourCandidates)
      (twoCtas.entry (twoSlotsStart false)) evs = some st ∧ (st.heads 0).pc = .published ∧
      (twoCtas.absent (twoSlotsStart false) 0).length ≤ twoSlots.poolCapacity - (twoSlotsStart false).pages.poolCursor 0 ∧
      1 < twoCtas.nSplit ∧ ((st.heads 0).cta 1).ask = none) ∧
    ∃ evs st, Machine.run ((twoCtas.launch (twoSlotsStart true).pages).threadStep fun _ => fourCandidates)
      (twoCtas.entry (twoSlotsStart true)) evs = some st ∧ (st.heads 0).pc = .published ∧
      (twoCtas.absent (twoSlotsStart true) 0).length ≤ twoSlots.poolCapacity - (twoSlotsStart true).pages.poolCursor 0 ∧
      3 ∈ twoCtas.absent (twoSlotsStart true) 0 ∧ (st.heads 0).table 3 = none ∧ (st.heads 0).cursor = 0 := by
  constructor
  · have hstep := Launch.threadStep_eq (L := twoCtas.launch (twoSlotsStart false).pages) (K := fun _ => fourCandidates) twoCtas_cand
    obtain ⟨-, evs, st, hrun, hend, -⟩ := exists_gated (W := twoCtas) (twoSlotsStart_quiet false)
    have hrows := launch_rows (twoSlotsStart_quiet false) hrun
    refine ⟨evs, st, by rw [hstep]; exact hrun, (hrows.inv.head_ended (counted _ _) hend (by decide)).2 rfl, by decide, by decide, ?_⟩
    by_contra hask
    obtain ⟨ask, hask⟩ := Option.ne_none_iff_exists'.1 hask
    have hlive := ((hrows.inv.head 0 (by decide)).asked 1 ask hask).1.2
    rw [HeadCall.retired_eq (by decide)] at hlive
    exact absurd hlive (by decide)
  · have hstep := Launch.threadStep_eq (L := twoCtas.launch (twoSlotsStart true).pages) (K := fun _ => fourCandidates) twoCtas_cand
    obtain ⟨-, evs, st, hrun, hend, -⟩ := exists_gated (W := twoCtas) (twoSlotsStart_quiet true)
    have hrows := launch_rows (twoSlotsStart_quiet true) hrun
    have hpub := (hrows.inv.head_ended (counted _ _) hend (show 0 < twoSlots.BH by decide)).2 rfl
    obtain ⟨htable, hcursor⟩ := (hrows.row 0 (by decide)).after hpub
    refine ⟨evs, st, by rw [hstep]; exact hrun, hpub, by decide, by decide, (htable 3 (by decide)).trans (by decide), ?_⟩
    exact hcursor.trans (by decide)

end Two

end Rola
