import Rola.LaunchRun
import Mathlib.Algebra.Order.BigOperators.Group.Finset

/-!
# Every launch ends

Each event takes something off a finite count: of prologues to ask, claims to write, leaves to visit,
warps and CTAs to arrive and batch-heads to publish.
-/

namespace Rola

open Finset

variable {R P O : Type}

/-- What is left of a party's arrival. -/
def Phase.left : Phase → ℕ
  | .working => 2
  | .stored => 1
  | .arrived => 0

def HeadPc.left : HeadPc → ℕ
  | .walking => 3
  | .elected _ => 2
  | .read _ => 1
  | .published => 0

def Closing.left : Closing → ℕ
  | .open => 2
  | .last => 1
  | .closed => 0

namespace HeadCall

variable {C : HeadCall R P O} {h h0 h' : HeadState R P O} {seg atoms : ℕ} {e : HeadEvent}

/-- What a CTA has still to do before its warps arrive. -/
def ctaLeft (C : HeadCall R P O) (k : Cta R P) (seg : ℕ) : ℕ :=
  (match k.ask with
  | none => 1 + C.cand.length + ∑ warp ∈ range decodeWarps, (C.visits seg warp).length
  | some _ => k.claims.length + ∑ warp ∈ range decodeWarps, (k.todo warp).length) +
    ∑ warp ∈ range decodeWarps, (k.fold.phase warp).left

def headLeft (C : HeadCall R P O) (h : HeadState R P O) : ℕ :=
  ∑ seg ∈ range C.nSplit, (C.ctaLeft (h.cta seg) seg + (h.ws.phase seg).left) + h.pc.left

theorem claimsOf_length (h : HeadState R P O) : (C.claimsOf h).length ≤ C.cand.length := by
  unfold claimsOf
  split
  · rw [List.length_map, List.length_zipIdx]
    exact List.length_filter_le _ _
  · exact Nat.zero_le _

theorem ctaLeft_asked (h : HeadState R P O) (hask : (h.cta seg).ask = none) :
    C.ctaLeft (C.asked h seg) seg < C.ctaLeft (h.cta seg) seg := by
  have hclaims := C.claimsOf_length h
  have htodo : ∑ warp ∈ range decodeWarps, ((C.asked h seg).todo warp).length ≤
      ∑ warp ∈ range decodeWarps, (C.visits seg warp).length := by
    refine sum_le_sum fun warp _ => ?_
    unfold asked
    dsimp only
    split
    · exact Nat.zero_le _
    · exact le_rfl
  unfold ctaLeft
  rw [hask]
  have hfold : (C.asked h seg).fold = (h.cta seg).fold := rfl
  have hcl : (C.asked h seg).claims = C.claimsOf h := rfl
  have hsome : (C.asked h seg).ask = some (C.askOf h) := rfl
  rw [hsome, hfold, hcl]
  dsimp only
  omega

/-- One warp of a sum has less left. -/
theorem sum_lt_of_warp {f g : ℕ → ℕ} {n i : ℕ} (hi : i < n) (hlt : f i < g i) (hsame : ∀ j, j ≠ i → f j = g j) :
    ∑ j ∈ range n, f j < ∑ j ∈ range n, g j := by
  refine sum_lt_sum (fun j _ => ?_) ⟨i, mem_range.2 hi, hlt⟩
  rcases eq_or_ne j i with rfl | hne
  · exact hlt.le
  · exact (hsame j hne).le

/-- A CTA moves on its own. -/
theorem headLeft_setCta {k : Cta R P} (hseg : seg < C.nSplit) (hlt : C.ctaLeft k seg < C.ctaLeft (h.cta seg) seg)
    (hcta : h'.cta = Function.update h.cta seg k) (hws : h'.ws = h.ws) (hpc : h'.pc = h.pc) :
    C.headLeft h' < C.headLeft h := by
  unfold headLeft
  rw [hpc, hws]
  refine Nat.add_lt_add_right (sum_lt_of_warp hseg ?_ fun seg' hne => ?_) _
  · rw [hcta, Function.update_self]
    exact Nat.add_lt_add_right hlt _
  · rw [hcta, Function.update_of_ne hne]

/-- A CTA arrives, or leaves its part. -/
theorem headLeft_ws (hseg : seg < C.nSplit) (hlt : (h'.ws.phase seg).left < (h.ws.phase seg).left)
    (hsame : ∀ seg', seg' ≠ seg → h'.ws.phase seg' = h.ws.phase seg') (hcta : h'.cta = h.cta)
    (hpc : h'.pc.left ≤ h.pc.left) : C.headLeft h' < C.headLeft h := by
  unfold headLeft
  rw [hcta]
  refine Nat.add_lt_add_of_lt_of_le (sum_lt_of_warp hseg (Nat.add_lt_add_left hlt _) fun seg' hne => ?_) hpc
  rw [hsame seg' hne]

/-- A CTA that is yet to ask has no claims. -/
def Idle (h : HeadState R P O) : Prop := ∀ seg, (h.cta seg).ask = none → (h.cta seg).claims = []

theorem Idle.setCta {k : Cta R P} (hidle : Idle h) (hk : k.ask = none → k.claims = []) : Idle (h.setCta seg k) := by
  intro seg' hask
  unfold HeadState.setCta at hask ⊢
  dsimp only at hask ⊢
  rcases eq_or_ne seg' seg with rfl | hne
  · rw [Function.update_self] at hask ⊢
    exact hk hask
  · rw [Function.update_of_ne hne] at hask ⊢
    exact hidle seg' hask

variable [Zero R] {mem mem' : Storage R}

theorem Idle.step (hidle : Idle h) (hstep : C.Takes atoms h mem e h' mem') : Idle h' := by
  cases hstep with
  | start hlive hask => exact hidle.setCta fun hnone => nomatch hnone
  | claim hcl =>
    refine hidle.setCta fun hnone => ?_
    have hnil := hidle _ hnone
    rw [hcl] at hnil
    cases hnil
  | visit hask hcl htodo hwarp => exact hidle.setCta (hidle _)
  | deposit hask hcl htodo hwarp hph => exact hidle.setCta (hidle _)
  | arrive hwarp hph => exact hidle.setCta (hidle _)
  | store hask hpart hn hph => exact hidle
  | bump hph => exact hidle
  | alone hpart hn hph => exact hidle
  | readout hpc hask hpart =>
    intro seg' hnone
    rw [readout_cta] at hnone ⊢
    exact hidle seg' hnone
  | publish hpc hask hpaged => exact hidle

/-- Every event of a batch-head leaves less to do. -/
theorem HeadInv.left_lt (hC : C.Counted) (hinv : HeadInv C h0 h) (hidle : Idle h) (hstep : C.Takes atoms h mem e h' mem') :
    C.headLeft h' < C.headLeft h := by
  have hasked : ∀ seg, (h.cta seg).ask ≠ none → seg < C.nSplit := fun seg hne => by
    obtain ⟨ask, hask⟩ := Option.ne_none_iff_exists'.1 hne
    exact (hinv.asked seg ask hask).1.1
  have hworking : ∀ seg warp, (h.cta seg).fold.phase warp ≠ .working → (h.cta seg).ask ≠ none := fun seg warp hph hask =>
    hph ((hinv.cta seg).idle hask warp)
  have hparted : ∀ seg, h.ws.phase seg ≠ .working → seg < C.nSplit := fun seg hph =>
    hasked seg ((hinv.cta seg).asked_of_part (hinv.parted seg hph))
  cases hstep with
  | @start seg hlive hask => exact headLeft_setCta hlive.1 (ctaLeft_asked h hask) rfl rfl rfl
  | @claim seg a slot rest hcl =>
    have hne : (h.cta seg).ask ≠ none := fun hask => by
      have hnil := hidle seg hask
      rw [hcl] at hnil
      cases hnil
    obtain ⟨ask, hask⟩ := Option.ne_none_iff_exists'.1 hne
    refine headLeft_setCta (hasked seg hne) ?_ rfl rfl rfl
    unfold ctaLeft
    dsimp only
    rw [hask, hcl]
    dsimp only
    rw [List.length_cons]
    omega
  | @visit seg warp ask v rest hask hcl htodo hwarp =>
    refine headLeft_setCta (hasked seg (by rw [hask]; exact Option.some_ne_none _)) ?_ rfl rfl rfl
    unfold ctaLeft
    dsimp only
    rw [hask]
    dsimp only
    refine Nat.add_lt_add_right (Nat.add_lt_add_left (sum_lt_of_warp hwarp ?_ fun warp' hne => ?_) _) _
    · rw [Function.update_self, htodo]
      exact Nat.lt_succ_self _
    · rw [Function.update_of_ne hne]
  | @deposit seg warp ask hask hcl htodo hwarp hph =>
    refine headLeft_setCta (hasked seg (by rw [hask]; exact Option.some_ne_none _)) ?_ rfl rfl rfl
    unfold ctaLeft
    dsimp only
    refine Nat.add_lt_add_left (sum_lt_of_warp hwarp ?_ fun warp' hne => ?_) _
    · rw [Board.store_phase, if_pos rfl, hph]
      decide
    · rw [Board.store_phase, if_neg hne]
  | @arrive seg warp hwarp hph =>
    refine headLeft_setCta (hasked seg (hworking seg warp (by rw [hph]; decide))) ?_ rfl rfl rfl
    unfold ctaLeft
    dsimp only
    refine Nat.add_lt_add_left (sum_lt_of_warp hwarp ?_ fun warp' hne => ?_) _
    · rw [Board.arrive_phase, if_pos rfl, hph]
      decide
    · rw [Board.arrive_phase, if_neg hne]
  | @store seg ask p hask hpart hn hph =>
    refine headLeft_ws (hasked seg (by rw [hask]; exact Option.some_ne_none _)) ?_ (fun seg' hne => ?_) rfl le_rfl
    · dsimp only
      rw [hph]
      split
      · rw [Board.skip_phase, if_pos rfl]
        decide
      · rw [Board.store_phase, if_pos rfl]
        decide
    · dsimp only
      split
      · rw [Board.skip_phase, if_neg hne]
      · rw [Board.store_phase, if_neg hne]
  | @bump seg hph =>
    have hlt := @HeadCall.HeadInv.lt_of_phase _ _ _ _ _ _ seg hinv hC (by rw [hph]; decide)
    have hpc := hinv.pc_of_phase hlt (by rw [hph]; decide)
    refine headLeft_ws (hparted seg (by rw [hph]; decide)) ?_ (fun seg' hne => ?_) rfl ?_
    · dsimp only
      rw [Board.arrive_phase, if_pos rfl, hph]
      decide
    · dsimp only
      rw [Board.arrive_phase, if_neg hne]
    · dsimp only
      rw [hpc]
      split
      · exact Nat.le_succ 2
      · exact le_rfl
  | @alone seg p hpart hn hph =>
    obtain ⟨hlt, ask, hask⟩ := hinv.lt_of_part hC hpart
    have hpc := hinv.pc_of_phase hlt (by rw [hph]; decide)
    refine headLeft_ws (hasked seg (by rw [hask]; exact Option.some_ne_none _)) ?_ (fun seg' hne => ?_) rfl ?_
    · dsimp only
      rw [Board.leave_phase, if_pos rfl, hph]
      decide
    · dsimp only
      rw [Board.leave_phase, if_neg hne]
    · dsimp only
      rw [hpc]
      exact Nat.le_succ 2
  | @readout seg ask p hpc hask hpart =>
    have hphase : ∀ seg', (C.readout h seg ask p).ws.phase seg' = h.ws.phase seg' := fun _ => rfl
    unfold headLeft
    rw [readout_cta, readout_pc, hpc]
    simp only [hphase]
    exact Nat.add_lt_add_left (Nat.lt_succ_self 1) _
  | @publish seg ask hpc hask hpaged =>
    show ∑ seg ∈ range C.nSplit, _ + HeadPc.left .published < C.headLeft h
    unfold headLeft
    rw [hpc]
    exact Nat.add_lt_add_left Nat.zero_lt_one _

end HeadCall

namespace Launch

variable [Zero R] {L : Launch R P O} {s s0 s' : LaunchState R P O} {ev : LaunchEvent}

/-- What a launch has still to do. -/
def workLeft (L : Launch R P O) (s : LaunchState R P O) : ℕ :=
  ∑ bh ∈ range L.BH, ((L.call bh).headLeft (s.heads bh) + (s.growth.phase bh).left) + s.closing.left

def Idle (L : Launch R P O) (s : LaunchState R P O) : Prop := ∀ bh < L.BH, HeadCall.Idle (s.heads bh)

theorem Idle.step (hidle : L.Idle s) (hstep : L.step s ev = some s') : L.Idle s' := by
  cases ev with
  | head bh e =>
    obtain ⟨hbh, h', mem', htakes, rfl⟩ := head_of_step hstep
    intro bh' hbh'
    dsimp only
    rcases eq_or_ne bh' bh with rfl | hne
    · rw [Function.update_self]
      exact (hidle bh' hbh).step htakes
    · rw [Function.update_of_ne hne]
      exact hidle bh' hbh'
  | report bh =>
    unfold Launch.step at hstep
    dsimp only at hstep
    split at hstep
    · cases hstep
      exact hidle
    · cases hstep
  | finish =>
    unfold Launch.step at hstep
    dsimp only at hstep
    split at hstep
    · cases hstep
      exact hidle
    · cases hstep

/-- Every event leaves less to do. -/
theorem Inv.left_lt (hL : L.Counted) (hinv : L.Inv s0 s) (hidle : L.Idle s) (hstep : L.step s ev = some s') :
    L.workLeft s' < L.workLeft s := by
  cases ev with
  | head bh e =>
    obtain ⟨hbh, h', mem', htakes, rfl⟩ := head_of_step hstep
    have hlt := (hinv.head bh hbh).left_lt (hL bh hbh) (hidle bh hbh) htakes
    have hgrowth : ∀ bh', ((growthAfter s bh e).phase bh').left ≤ (s.growth.phase bh').left := by
      intro bh'
      unfold growthAfter
      split
      · rw [Board.store_phase]
        split
        · rename_i heq
          cases htakes with
          | @publish seg ask hpc hask hpaged =>
            have hph : s.growth.phase bh = .working := by
              by_contra hph
              have hpub := (hinv.phase bh hbh).1 hph
              rw [hpc] at hpub
              cases hpub
            rw [heq, hph]
            exact Nat.le_succ 1
        · exact le_rfl
      · exact le_rfl
    unfold workLeft
    dsimp only
    refine Nat.add_lt_add_right (sum_lt_sum (fun bh' _ => ?_) ⟨bh, mem_range.2 hbh, ?_⟩) _
    · rcases eq_or_ne bh' bh with rfl | hne
      · rw [Function.update_self]
        exact Nat.add_le_add hlt.le (hgrowth _)
      · rw [Function.update_of_ne hne]
        exact Nat.add_le_add_left (hgrowth _) _
    · rw [Function.update_self]
      exact Nat.add_lt_add_of_lt_of_le hlt (hgrowth _)
  | report bh =>
    unfold Launch.step at hstep
    dsimp only at hstep
    split at hstep
    · rename_i hcan
      cases hstep
      have hopen : s.closing = .open := by
        have hok := hinv.closing
        have hne : ¬s.growth.Full L.BH := fun hfull => by
          have := hfull bh hcan.1
          rw [hcan.2] at this
          cases this
        unfold ClosingOk at hok
        rcases hcl : s.closing with _ | _ | _
        · rfl
        · rw [hcl] at hok
          exact absurd hok hne
        · rw [hcl] at hok
          exact absurd hok.1 hne
      unfold workLeft
      dsimp only
      rw [hopen]
      refine Nat.add_lt_add_of_lt_of_le (HeadCall.sum_lt_of_warp hcan.1 ?_ fun bh' hne => ?_) ?_
      · rw [Board.arrive_phase, if_pos rfl, hcan.2]
        exact Nat.add_lt_add_left Nat.zero_lt_one _
      · rw [Board.arrive_phase, if_neg hne]
      · split
        · exact Nat.le_succ 1
        · exact le_rfl
    · cases hstep
  | finish =>
    unfold Launch.step at hstep
    dsimp only at hstep
    split at hstep
    · rename_i hlast
      cases hstep
      unfold workLeft
      dsimp only
      rw [hlast]
      exact Nat.add_lt_add_left Nat.zero_lt_one _
    · cases hstep

/-- A launch that is not stuck goes on, and it cannot go on for ever. -/
theorem Inv.exists_ended (hL : L.Counted) (hinv : L.Inv s0 s) (hidle : L.Idle s) :
    ∃ evs t, Machine.run L.step s evs = some t ∧ L.Ended t := by
  induction hn : L.workLeft s using Nat.strong_induction_on generalizing s with
  | _ n ih =>
    by_cases hend : L.Ended s
    · exact ⟨[], s, rfl, hend⟩
    · unfold Ended at hend
      push Not at hend
      obtain ⟨ev, hne⟩ := hend
      obtain ⟨s', hstep⟩ := Option.ne_none_iff_exists'.1 hne
      have hlt := hinv.left_lt hL hidle hstep
      obtain ⟨evs, t, hrun, ht⟩ := ih _ (hn ▸ hlt) (hinv.step hL hstep) (hidle.step hstep) rfl
      exact ⟨ev :: evs, t, Option.bind_eq_some_iff.2 ⟨s', hstep, hrun⟩, ht⟩

end Launch

end Rola
