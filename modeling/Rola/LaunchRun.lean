import Rola.LaunchInv

/-!
# A launch that has run

A batch-head with no event left has written its readout; the last batch-head to report reduces the
verdict. A launch that has ended has every counter at zero, and each readout is one function of the
warps' partials.
-/

namespace Rola

variable {R P O : Type} [Zero R]

namespace HeadCall

variable {C : HeadCall R P O} {h h0 h' : HeadState R P O} {seg atoms : ℕ} {mem mem' : Storage R} {e : HeadEvent}

/-- A live CTA that has not arrived can go on. -/
theorem HeadInv.exists_step (hC : C.Counted) (hinv : HeadInv C h0 h) (hseg : seg < C.nLive)
    (hph : h.ws.phase seg ≠ .arrived) : ∃ e, C.step atoms h mem e ≠ none := by
  have hlive := (hC.live seg).2 hseg
  rcases hask : (h.cta seg).ask with _ | ask
  · refine ⟨.start seg, ?_⟩
    unfold HeadCall.step
    dsimp only
    rw [if_pos ⟨hlive.1, hlive.2, hask⟩]
    exact Option.some_ne_none _
  rcases hcl : (h.cta seg).claims with _ | ⟨⟨a, slot⟩, rest⟩
  · rcases hpart : (h.cta seg).part with _ | p
    · -- some warp has not arrived
      have hfull : ¬(h.cta seg).fold.Full decodeWarps := fun hfull => (hinv.cta seg).part.2 hfull hpart
      unfold Board.Full at hfull
      push Not at hfull
      obtain ⟨warp, hwarp, hne⟩ := hfull
      rcases htodo : (h.cta seg).todo warp with _ | ⟨v, rest⟩
      · rcases hphase : (h.cta seg).fold.phase warp with _ | _ | _
        · refine ⟨.deposit seg warp, ?_⟩
          unfold HeadCall.step
          dsimp only
          rw [hask, hcl, htodo]
          dsimp only
          rw [if_pos ⟨hwarp, hphase⟩]
          exact Option.some_ne_none _
        · refine ⟨.arrive seg warp, ?_⟩
          unfold HeadCall.step
          dsimp only
          rw [if_pos ⟨hwarp, hphase⟩]
          exact Option.some_ne_none _
        · exact absurd hphase hne
      · refine ⟨.visit seg warp, ?_⟩
        unfold HeadCall.step
        dsimp only
        rw [hask, hcl, htodo]
        dsimp only
        rw [if_pos hwarp]
        exact Option.some_ne_none _
    · rcases hphase : h.ws.phase seg with _ | _ | _
      · by_cases hn : 1 < C.nLive
        · refine ⟨.store seg, ?_⟩
          unfold HeadCall.step
          dsimp only
          rw [hask, hpart]
          dsimp only
          rw [if_pos ⟨hn, hphase⟩]
          exact Option.some_ne_none _
        · refine ⟨.alone seg, ?_⟩
          unfold HeadCall.step
          dsimp only
          rw [hpart]
          dsimp only
          rw [if_pos ⟨hn, hphase⟩]
          exact Option.some_ne_none _
      · refine ⟨.bump seg, ?_⟩
        unfold HeadCall.step
        dsimp only
        rw [if_pos hphase]
        exact Option.some_ne_none _
      · exact absurd hphase hph
  · refine ⟨.claim seg, ?_⟩
    unfold HeadCall.step
    dsimp only
    rw [hcl]
    exact Option.some_ne_none _

/-- A batch-head that has nothing left to do has its readout, and its publication where it is paged. -/
theorem HeadInv.of_stuck (hC : C.Counted) (hinv : HeadInv C h0 h) (hstuck : ∀ e, C.step atoms h mem e = none) :
    hasRead h = true ∧ (C.paged = true → h.pc = .published) := by
  have hok := hinv.pc
  unfold PcOk at hok
  unfold hasRead
  rcases hpc : h.pc with _ | seg | seg | _
  · rw [hpc] at hok
    have hfull := hok.1
    unfold Board.Full at hfull
    push Not at hfull
    obtain ⟨seg, hseg, hph⟩ := hfull
    obtain ⟨e, he⟩ := @HeadCall.HeadInv.exists_step _ _ _ _ _ _ _ _ atoms mem hC hinv hseg hph
    exact absurd (hstuck e) he
  · rw [hpc] at hok
    obtain ⟨p, hpart⟩ := Option.ne_none_iff_exists'.1 (hinv.part_of_full hok.1 hok.2.1)
    obtain ⟨-, ask, hask⟩ := hinv.lt_of_part hC hpart
    have hnone := hstuck .readout
    unfold HeadCall.step at hnone
    dsimp only at hnone
    rw [hpc] at hnone
    dsimp only at hnone
    rw [hask, hpart] at hnone
    cases hnone
  · refine ⟨rfl, fun hpaged => ?_⟩
    rw [hpc] at hok
    obtain ⟨p, hpart⟩ := Option.ne_none_iff_exists'.1 (hinv.part_of_full hok.1 hok.2.1)
    obtain ⟨-, ask, hask⟩ := hinv.lt_of_part hC hpart
    have hnone := hstuck .publish
    unfold HeadCall.step at hnone
    dsimp only at hnone
    rw [hpc] at hnone
    dsimp only at hnone
    rw [hask] at hnone
    dsimp only at hnone
    rw [if_pos hpaged] at hnone
    cases hnone
  · exact ⟨rfl, fun _ => rfl⟩

omit [Zero R] in
theorem HeadInv.count_zero (hinv : HeadInv C h0 h) (hread : hasRead h = true) : h.ws.count = 0 := by
  have hok := hinv.pc
  unfold PcOk at hok
  unfold hasRead at hread
  split at hread
  · rename_i seg hpc
    rw [hpc] at hok
    exact hok.2.2
  · rename_i hpc
    rw [hpc] at hok
    exact hok.2
  · cases hread

/-- The readout event is what writes the readout, and nothing unwrites it. -/
theorem HeadInv.hasRead_step (hC : C.Counted) (hinv : HeadInv C h0 h) (hstep : C.Takes atoms h mem e h' mem') :
    hasRead h' = (hasRead h || e == .readout) ∧ (e = .readout → hasRead h = false) := by
  cases hstep with
  | @bump seg hph =>
    have hlt := @HeadCall.HeadInv.lt_of_phase _ _ _ _ _ _ seg hinv hC (by rw [hph]; decide)
    have hwalk := hinv.pc_of_phase hlt (by rw [hph]; decide)
    refine ⟨?_, fun hc => nomatch hc⟩
    unfold hasRead
    dsimp only
    rw [hwalk]
    by_cases hcount : h.ws.count = C.nLive - 1
    · rw [if_pos hcount]
      rfl
    · rw [if_neg hcount]
      rfl
  | alone hpart hn hph =>
    have hwalk := hinv.pc_of_phase (hinv.lt_of_part hC hpart).1 (by rw [hph]; decide)
    refine ⟨?_, fun hc => nomatch hc⟩
    unfold hasRead
    rw [hwalk]
    rfl
  | readout hpc hask hpart =>
    refine ⟨(Bool.or_true _).symm, fun _ => ?_⟩
    unfold hasRead
    rw [hpc]
  | publish hpc hask hpaged =>
    refine ⟨?_, fun hc => nomatch hc⟩
    unfold hasRead
    rw [hpc]
    rfl
  | _ => exact ⟨(Bool.or_false _).symm, fun hc => nomatch hc⟩

/-- Only a publication moves what prologues read. -/
theorem HeadInv.frame (hC : C.Counted) (hinv : HeadInv C h0 h) (hstep : C.Takes atoms h mem e h' mem') (he : e ≠ .publish) :
    h'.table = h.table ∧ h'.cursor = h.cursor ∧ h'.done = h.done ∧ (h'.pc = .published ↔ h.pc = .published) := by
  cases hstep with
  | @bump seg hph =>
    have hlt := @HeadCall.HeadInv.lt_of_phase _ _ _ _ _ _ seg hinv hC (by rw [hph]; decide)
    have hwalk := hinv.pc_of_phase hlt (by rw [hph]; decide)
    refine ⟨rfl, rfl, rfl, ?_⟩
    dsimp only
    rw [hwalk]
    by_cases hcount : h.ws.count = C.nLive - 1
    · rw [if_pos hcount]
      exact ⟨fun hc => (nomatch hc), fun hc => (nomatch hc)⟩
    · rw [if_neg hcount]
  | alone hpart hn hph =>
    have hwalk := hinv.pc_of_phase (hinv.lt_of_part hC hpart).1 (by rw [hph]; decide)
    refine ⟨rfl, rfl, rfl, ?_⟩
    rw [hwalk]
    simp
  | readout hpc hask hpart =>
    simp [hpc]
  | publish hpc hask hpaged => exact absurd rfl he
  | _ => exact ⟨rfl, rfl, rfl, Iff.rfl⟩

end HeadCall

namespace Launch

variable {L : Launch R P O} {s s0 s' : LaunchState R P O} {ev : LaunchEvent} {bh : ℕ}

/-- The verdict of a batch-head, as its prologues find it. -/
def needy (L : Launch R P O) (s0 : LaunchState R P O) (bh : ℕ) : Bool := ((L.call bh).askOf (s0.heads bh)).needy

def someNeedy (L : Launch R P O) (s0 : LaunchState R P O) : Bool := (List.range L.BH).any (L.needy s0)

/-- What a launch starts from. -/
structure Fresh (L : Launch R P O) (s : LaunchState R P O) : Prop where
  head : ∀ bh < L.BH, HeadCall.Fresh (s.heads bh)
  count : s.growth.count = 0
  phase : ∀ bh, s.growth.phase bh = .working
  closing : s.closing = .open

def ClosingOk (L : Launch R P O) (s0 s : LaunchState R P O) : Prop :=
  match s.closing with
  | .open => (0 < L.BH → ¬s.growth.Full L.BH) ∧ s.growth.Tally L.BH
  | .last => s.growth.Full L.BH
  | .closed => s.growth.Full L.BH ∧ s.growth.count = 0 ∧ s.growthAny = L.someNeedy s0

/-- Every batch-head's `n_live` is the count of its live CTAs. -/
def Counted (L : Launch R P O) : Prop := ∀ bh < L.BH, (L.call bh).Counted

/-- The done flag where the round and the batch-head stand. -/
def doneAt (L : Launch R P O) (s0 : LaunchState R P O) (bh : ℕ) (closing : Closing) (pc : HeadPc) : Bool :=
  if closing = .closed ∧ L.someNeedy s0 = false then false
  else if pc = .published ∧ L.needy s0 bh = false then true else (s0.heads bh).done

omit [Zero R] in
theorem doneAt_congr {closing : Closing} {pc pc' : HeadPc} (hpc : pc = .published ↔ pc' = .published) :
    L.doneAt s0 bh closing pc = L.doneAt s0 bh closing pc' := by
  unfold doneAt
  simp only [hpc]

structure Inv (L : Launch R P O) (s0 s : LaunchState R P O) : Prop where
  head : ∀ bh < L.BH, HeadCall.HeadInv (L.call bh) (s0.heads bh) (s.heads bh)
  phase : ∀ bh < L.BH, s.growth.phase bh ≠ .working ↔ (s.heads bh).pc = .published
  slot : ∀ bh < L.BH, (s.heads bh).pc = .published → s.growth.slot bh = L.needy s0 bh
  closing : ClosingOk L s0 s
  done : ∀ bh < L.BH, (s.heads bh).done = L.doneAt s0 bh s.closing (s.heads bh).pc

omit [Zero R] in
theorem Inv.fresh (hL : L.Counted) (hf : L.Fresh s) : L.Inv s s where
  head bh hbh := .fresh (hL bh hbh) (hf.head bh hbh)
  phase bh hbh := by
    rw [hf.phase bh, (hf.head bh hbh).pc]
    simp
  slot bh hbh hpc := by
    rw [(hf.head bh hbh).pc] at hpc
    cases hpc
  closing := by
    unfold ClosingOk
    rw [hf.closing]
    exact ⟨fun hBH => Board.not_full_of_working hBH hf.phase, Board.tally_of_working hf.count hf.phase⟩
  done bh hbh := by
    rw [hf.closing, (hf.head bh hbh).pc]
    unfold doneAt
    simp

omit [Zero R] in
/-- Before a batch-head has published, the round is open. -/
theorem Inv.open_of_pc (hinv : L.Inv s0 s) (hbh : bh < L.BH) (hpc : (s.heads bh).pc ≠ .published) :
    s.closing = .open ∧ s.growth.Tally L.BH := by
  have hph : s.growth.phase bh = .working := by
    by_contra hph
    exact hpc ((hinv.phase bh hbh).1 hph)
  have hfull : ¬s.growth.Full L.BH := fun hfull => by
    have := hfull bh hbh
    rw [hph] at this
    cases this
  have hok := hinv.closing
  unfold ClosingOk at hok
  rcases hcl : s.closing with _ | _ | _
  · rw [hcl] at hok
    exact ⟨rfl, hok.2⟩
  · rw [hcl] at hok
    exact absurd hok hfull
  · rw [hcl] at hok
    exact absurd hok.1 hfull

theorem head_of_step {e : HeadEvent} (hstep : L.step s (.head bh e) = some s') : bh < L.BH ∧ ∃ h' mem',
    (L.call bh).Takes L.atoms (s.heads bh) s.mem e h' mem' ∧
      s' = { s with heads := Function.update s.heads bh h', mem := mem', growth := growthAfter s bh e } := by
  unfold step at hstep
  dsimp only at hstep
  split at hstep
  · rename_i hbh
    obtain ⟨r, hr, rfl⟩ := Option.map_eq_some_iff.1 hstep
    exact ⟨hbh, r.1, r.2, HeadCall.takes_of_step hr, rfl⟩
  · cases hstep

/-- A batch-head's event other than its publication. -/
theorem Inv.headStep {e : HeadEvent} {h' : HeadState R P O} {mem' : Storage R} (hL : L.Counted) (hinv : L.Inv s0 s)
    (hbh : bh < L.BH) (htakes : (L.call bh).Takes L.atoms (s.heads bh) s.mem e h' mem') (he : e ≠ .publish) :
    L.Inv s0 { s with heads := Function.update s.heads bh h', mem := mem' } := by
  have hhead := (hinv.head bh hbh).step (hL bh hbh) htakes
  obtain ⟨-, -, hdone, hpc⟩ := (hinv.head bh hbh).frame (hL bh hbh) htakes he
  refine ⟨fun bh' hbh' => ?_, fun bh' hbh' => ?_, fun bh' hbh' => ?_, hinv.closing, fun bh' hbh' => ?_⟩
  · dsimp only
    rcases eq_or_ne bh' bh with rfl | hne
    · rwa [Function.update_self]
    · rw [Function.update_of_ne hne]
      exact hinv.head bh' hbh'
  · dsimp only
    rcases eq_or_ne bh' bh with rfl | hne
    · rw [Function.update_self, hpc]
      exact hinv.phase bh' hbh'
    · rw [Function.update_of_ne hne]
      exact hinv.phase bh' hbh'
  · dsimp only
    rcases eq_or_ne bh' bh with rfl | hne
    · rw [Function.update_self, hpc]
      exact hinv.slot bh' hbh'
    · rw [Function.update_of_ne hne]
      exact hinv.slot bh' hbh'
  · dsimp only
    rcases eq_or_ne bh' bh with rfl | hne
    · rw [Function.update_self, hdone, doneAt_congr hpc]
      exact hinv.done bh' hbh'
    · rw [Function.update_of_ne hne]
      exact hinv.done bh' hbh'

/-- A batch-head's publication. -/
theorem Inv.publish {h' : HeadState R P O} {mem' : Storage R} (hL : L.Counted) (hinv : L.Inv s0 s)
    (hbh : bh < L.BH) (htakes : (L.call bh).Takes L.atoms (s.heads bh) s.mem .publish h' mem') :
    L.Inv s0 { s with heads := Function.update s.heads bh h', mem := mem', growth := growthAfter s bh .publish } := by
  have hhead := (hinv.head bh hbh).step (hL bh hbh) htakes
  cases htakes with
  | @publish seg ask hpc hask hpaged =>
    have hneedy := ((hinv.head bh hbh).asked seg ask hask).2
    have hne : (s.heads bh).pc ≠ .published := by
      rw [hpc]
      exact fun hc => nomatch hc
    obtain ⟨hopen, htally⟩ := hinv.open_of_pc hbh hne
    have hph : s.growth.phase bh = .working := by
      by_contra hph
      exact hne ((hinv.phase bh hbh).1 hph)
    have hverdict : verdict (s.heads bh) = L.needy s0 bh := by
      unfold verdict needy
      rw [hpc]
      dsimp only
      rw [hask, ← hneedy]
      rfl
    refine ⟨fun bh' hbh' => ?_, fun bh' hbh' => ?_, fun bh' hbh' => ?_, ?_, fun bh' hbh' => ?_⟩
    · dsimp only
      rcases eq_or_ne bh' bh with rfl | hne'
      · rwa [Function.update_self]
      · rw [Function.update_of_ne hne']
        exact hinv.head bh' hbh'
    · unfold growthAfter
      dsimp only
      rcases eq_or_ne bh' bh with rfl | hne'
      · simp [HeadState.publish]
      · rw [Function.update_of_ne hne', Board.store_phase, if_neg hne']
        exact hinv.phase bh' hbh'
    · unfold growthAfter
      dsimp only
      rcases eq_or_ne bh' bh with rfl | hne'
      · simp [hverdict]
      · rw [Function.update_of_ne hne', Board.store_slot, if_neg hne']
        exact hinv.slot bh' hbh'
    · unfold ClosingOk growthAfter
      dsimp only
      rw [hopen]
      refine ⟨fun _ hfull => ?_, htally.store hph⟩
      have := hfull bh hbh
      simp at this
    · dsimp only
      rcases eq_or_ne bh' bh with rfl | hne'
      · have hold := hinv.done bh' hbh'
        rw [hopen, hpc] at hold
        rw [Function.update_self, hopen]
        unfold doneAt at hold ⊢
        unfold HeadState.publish
        dsimp only
        rw [show ask.needy = L.needy s0 bh' by rw [hneedy]; rfl]
        rcases L.needy s0 bh' with _ | _
        · simp
        · simpa using hold
      · rw [Function.update_of_ne hne']
        exact hinv.done bh' hbh'

omit [Zero R] in
/-- A report to the launch's counter. -/
theorem Inv.report (hinv : L.Inv s0 s) (hbh : bh < L.BH) (hph : s.growth.phase bh = .stored) :
    L.Inv s0 { s with
      growth := s.growth.arrive bh
      closing := if s.growth.count = L.BH - 1 then .last else s.closing } := by
  have hne : s.growth.phase bh ≠ .arrived := by
    rw [hph]
    decide
  have hfull : ¬s.growth.Full L.BH := fun hfull => hne (hfull bh hbh)
  have hok := hinv.closing
  unfold ClosingOk at hok
  have hopen : s.closing = .open ∧ s.growth.Tally L.BH := by
    rcases hcl : s.closing with _ | _ | _
    · rw [hcl] at hok
      exact ⟨rfl, hok.2⟩
    · rw [hcl] at hok
      exact absurd hok hfull
    · rw [hcl] at hok
      exact absurd hok.1 hfull
  have hlast := hopen.2.last hbh hne
  refine ⟨hinv.head, fun bh' hbh' => ?_, hinv.slot, ?_, fun bh' hbh' => ?_⟩
  · rw [← hinv.phase bh' hbh', Board.arrive_phase]
    rcases eq_or_ne bh' bh with rfl | hne'
    · rw [if_pos rfl, hph]
      decide
    · rw [if_neg hne']
  · unfold ClosingOk
    dsimp only
    by_cases hcount : s.growth.count = L.BH - 1
    · rw [if_pos hcount]
      exact hlast.1 hcount
    · rw [if_neg hcount, hopen.1]
      exact ⟨fun _ hfull' => hcount (hlast.2 hfull'), hopen.2.arrive hbh hne⟩
  · have hold := hinv.done bh' hbh'
    rw [hopen.1] at hold
    rw [hold]
    dsimp only
    by_cases hcount : s.growth.count = L.BH - 1
    · rw [if_pos hcount]
      unfold doneAt
      simp
    · rw [if_neg hcount, hopen.1]

omit [Zero R] in
theorem Inv.anyNeedy (hinv : L.Inv s0 s) (hpub : ∀ bh < L.BH, (s.heads bh).pc = .published) :
    L.anyNeedy s = L.someNeedy s0 := by
  unfold Launch.anyNeedy someNeedy
  rw [Bool.eq_iff_iff, List.any_eq_true, List.any_eq_true]
  refine exists_congr fun bh => and_congr_right fun hmem => ?_
  have hbh := List.mem_range.1 hmem
  rw [hinv.slot bh hbh (hpub bh hbh)]

omit [Zero R] in
/-- The reduction by the last batch-head. -/
theorem Inv.finish (hinv : L.Inv s0 s) (hlast : s.closing = .last) : L.Inv s0 { s with
    heads := fun bh => { s.heads bh with
      done := if bh < L.BH ∧ L.anyNeedy s = false then false else (s.heads bh).done }
    growth := { s.growth with count := 0 }
    growthAny := L.anyNeedy s
    closing := .closed } := by
  have hfull : s.growth.Full L.BH := by
    have hok := hinv.closing
    unfold ClosingOk at hok
    rwa [hlast] at hok
  have hpub : ∀ bh < L.BH, (s.heads bh).pc = .published := fun bh hbh => (hinv.phase bh hbh).1 (by
    rw [hfull bh hbh]
    decide)
  have hany := hinv.anyNeedy hpub
  refine ⟨fun bh hbh => ?_, hinv.phase, hinv.slot, ⟨hfull, rfl, hany⟩, fun bh hbh => ?_⟩
  · have hhead := hinv.head bh hbh
    exact
      { cta := hhead.cta
        asked := hhead.asked
        row := fun hpc => by
          have := hpub bh hbh
          rw [show (s.heads bh).pc = .walking from hpc] at this
          cases this
        parted := hhead.parted
        slots := hhead.slots
        multi := hhead.multi
        pc := hhead.pc
        y := hhead.y }
  · have hold := hinv.done bh hbh
    rw [hlast] at hold
    unfold doneAt at hold ⊢
    dsimp only
    rw [hany]
    rcases L.someNeedy s0 with _ | _
    · simp [hbh]
    · simpa [hbh] using hold

theorem Inv.step (hL : L.Counted) (hinv : L.Inv s0 s) (hstep : L.step s ev = some s') : L.Inv s0 s' := by
  cases ev with
  | head bh e =>
    obtain ⟨hbh, h', mem', htakes, rfl⟩ := head_of_step hstep
    by_cases he : e = .publish
    · subst he
      exact hinv.publish hL hbh htakes
    · have hgrowth : growthAfter s bh e = s.growth := by
        unfold growthAfter
        split
        · exact absurd rfl he
        · rfl
      rw [hgrowth]
      exact hinv.headStep hL hbh htakes he
  | report bh =>
    unfold Launch.step at hstep
    dsimp only at hstep
    split at hstep
    · rename_i hcan
      cases hstep
      exact hinv.report hcan.1 hcan.2
    · cases hstep
  | finish =>
    unfold Launch.step at hstep
    dsimp only at hstep
    split at hstep
    · rename_i hlast
      cases hstep
      exact hinv.finish hlast
    · cases hstep

theorem Inv.run (hL : L.Counted) {evs : List LaunchEvent} (hinv : L.Inv s0 s) (hrun : Machine.run L.step s evs = some s') :
    L.Inv s0 s' := by
  induction evs generalizing s with
  | nil => exact Option.some.inj hrun ▸ hinv
  | cons ev evs ih =>
    obtain ⟨t, ht, hrest⟩ := Option.bind_eq_some_iff.1 hrun
    exact ih (hinv.step hL ht) hrest

/-! ### The end of a launch -/

theorem stuck_of_ended (hend : L.Ended s) (hbh : bh < L.BH) (e : HeadEvent) :
    (L.call bh).step L.atoms (s.heads bh) s.mem e = none := by
  have hnone := hend (.head bh e)
  unfold Launch.step at hnone
  dsimp only at hnone
  rw [if_pos hbh] at hnone
  exact Option.map_eq_none_iff.1 hnone

theorem Inv.head_ended (hL : L.Counted) (hinv : L.Inv s0 s) (hend : L.Ended s) (hbh : bh < L.BH) :
    HeadCall.hasRead (s.heads bh) = true ∧ ((L.call bh).paged = true → (s.heads bh).pc = .published) :=
  (hinv.head bh hbh).of_stuck (hL bh hbh) (stuck_of_ended hend hbh)

/-- A paged launch that has ended has closed its round. -/
theorem Inv.closed_of_ended (hL : L.Counted) (hinv : L.Inv s0 s) (hend : L.Ended s) (hBH : 0 < L.BH)
    (hpaged : ∀ bh < L.BH, (L.call bh).paged = true) : s.closing = .closed ∧ s.growth.count = 0 ∧
      s.growthAny = L.someNeedy s0 := by
  have hfull : s.growth.Full L.BH := by
    intro bh hbh
    have hpub := (hinv.head_ended hL hend hbh).2 (hpaged bh hbh)
    have hne := (hinv.phase bh hbh).2 hpub
    rcases hph : s.growth.phase bh with _ | _ | _
    · exact absurd hph hne
    · have hnone := hend (.report bh)
      unfold Launch.step at hnone
      dsimp only at hnone
      rw [if_pos ⟨hbh, hph⟩] at hnone
      cases hnone
    · rfl
  have hok := hinv.closing
  unfold ClosingOk at hok
  rcases hcl : s.closing with _ | _ | _
  · rw [hcl] at hok
    exact absurd hfull (hok.1 hBH)
  · have hnone := hend .finish
    unfold Launch.step at hnone
    dsimp only at hnone
    rw [if_pos hcl] at hnone
    cases hnone
  · rw [hcl] at hok
    exact ⟨rfl, hok.2⟩

/-- The readouts a batch-head has written are those it stands at. -/
theorem Inv.count_readout (hL : L.Counted) {evs : List LaunchEvent} (hinv : L.Inv s0 s)
    (hrun : Machine.run L.step s evs = some s') (hbh : bh < L.BH) :
    evs.count (.head bh .readout) + (HeadCall.hasRead (s.heads bh)).toNat = (HeadCall.hasRead (s'.heads bh)).toNat := by
  induction evs generalizing s with
  | nil =>
    obtain rfl := Option.some.inj hrun
    simp
  | cons ev evs ih =>
    obtain ⟨t, ht, hrest⟩ := Option.bind_eq_some_iff.1 hrun
    rw [← ih (hinv.step hL ht) hrest, List.count_cons]
    have hone : (if ev == .head bh .readout then 1 else 0) + (HeadCall.hasRead (s.heads bh)).toNat =
        (HeadCall.hasRead (t.heads bh)).toNat := by
      cases ev with
      | head bh' e =>
        obtain ⟨hbh', h', mem', htakes, rfl⟩ := head_of_step ht
        rcases eq_or_ne bh' bh with rfl | hne
        · obtain ⟨hread, hpre⟩ := (hinv.head bh' hbh').hasRead_step (hL bh' hbh') htakes
          dsimp only
          rw [Function.update_self, hread]
          by_cases he : e = .readout
          · subst he
            simp [hpre rfl]
          · have hbeq : (e == HeadEvent.readout) = false := beq_eq_false_iff_ne.2 he
            simp [he, hbeq]
        · dsimp only
          rw [Function.update_of_ne hne.symm]
          simp [hne]
      | report bh' =>
        unfold Launch.step at ht
        dsimp only at ht
        split at ht
        · cases ht
          simp
        · cases ht
      | finish =>
        unfold Launch.step at ht
        dsimp only at ht
        split at ht
        · cases ht
          rw [if_neg (by simp), zero_add]
          exact congrArg Bool.toNat (HeadCall.hasRead_congr rfl)
        · cases ht
    omega

end Launch

end Rola
