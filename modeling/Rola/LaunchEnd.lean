import Rola.LaunchMemory

/-!
# What a launch that has ended leaves

The readout, the rows and the counters of a paged launch, each one function of what the launch found,
whatever the order its CTAs arrived in.
-/

namespace Rola

variable {R P O : Type} [Zero R]

omit [Zero R] in
theorem HeadCall.total_ext {C : HeadCall R P O} (hC : C.Counted) {f g : ℕ → ℕ → P}
    (hfg : ∀ seg < C.nLive, ∀ warp < decodeWarps, f seg warp = g seg warp) : C.total f = C.total g := by
  unfold total
  split
  · exact segSum_congr fun seg hseg => warpSum_congr fun warp hwarp => hfg seg hseg warp hwarp
  · exact warpSum_congr fun warp hwarp => hfg 0 hC.pos warp hwarp

namespace Launch

variable {L : Launch R P O} {s s0 : LaunchState R P O} {bh : ℕ}

/-- What a batch-head's warps sum. -/
def headTotal (L : Launch R P O) (s0 : LaunchState R P O) (bh : ℕ) : P :=
  (L.call bh).total fun seg warp =>
    (L.work s0 bh seg warp).foldl (fun acc v => v.read acc ((L.call bh).value (s0.heads bh) s0.mem v)) (L.call bh).zero

structure Outcome (L : Launch R P O) (s0 s : LaunchState R P O) : Prop where
  y : ∀ bh < L.BH, (s.heads bh).y = if L.needy s0 bh then (s0.heads bh).y else (L.call bh).out (L.headTotal s0 bh)
  table : ∀ bh < L.BH, ∀ a < L.atoms, (s.heads bh).table a = (L.call bh).foldRow (s0.heads bh) a
  shadow : ∀ bh < L.BH, ∀ a, (s.heads bh).shadow a = (L.call bh).claimRow (s0.heads bh) a
  cursor : ∀ bh < L.BH, (s.heads bh).cursor = (s0.heads bh).cursor +
    if ((L.call bh).askOf (s0.heads bh)).claimed = true then (L.call bh).foldCount (s0.heads bh) L.atoms else 0
  bits : ∀ bh < L.BH, (s.heads bh).atomBits = fun a => decide (a ∈ (L.call bh).cand)
  count : ∀ bh < L.BH, (s.heads bh).ws.count = 0
  growthCount : s.growth.count = 0
  growthAny : s.growthAny = L.someNeedy s0
  done : ∀ bh < L.BH, (s.heads bh).done =
    if L.someNeedy s0 = false then false else if L.needy s0 bh = false then true else (s0.heads bh).done
  written : ∀ k : L.Key, ∀ v ∈ k.work s0, ∀ a, k.addr s0 v = some a → s.mem a.1 a.2 = k.after s0 v (s0.mem a.1 a.2)
  other : ∀ a, (∀ k : L.Key, ∀ v ∈ k.work s0, k.writes s0 v = true → k.addr s0 v ≠ some a) → s.mem a.1 a.2 = s0.mem a.1 a.2

/-- A live warp of a launch that has ended has nothing left to visit. -/
theorem Kept.walked (hL : L.Counted) (hkept : L.Kept s0 s) (hend : L.Ended s) (k : L.Key) : (k.cta s).ask ≠ none ∧
    (k.cta s).claims = [] ∧ (k.cta s).todo k.warp = [] := by
  have hhead := hkept.inv.head k.bh k.bh_lt
  have hread := (hkept.inv.head_ended hL hend k.bh_lt).1
  have hfull := hhead.pc.full (HeadCall.ne_walking_of_hasRead hread)
  have hpart := hhead.part_of_full hfull (((hL k.bh k.bh_lt).live k.seg).1 k.live)
  have hcta := hhead.cta k.seg
  obtain ⟨hcl, htodo, -⟩ := hcta.gone k.warp (by rw [hcta.part.1 hpart k.warp k.warp_lt]; decide)
  exact ⟨hcta.asked_of_part hpart, hcl, htodo⟩

theorem Kept.outcome (hL : L.Counted) (hkept : L.Kept s0 s) (hend : L.Ended s) (hBH : 0 < L.BH)
    (hpaged : ∀ bh < L.BH, (L.call bh).paged = true) : L.Outcome s0 s := by
  obtain ⟨hclosed, hcount, hany⟩ := hkept.inv.closed_of_ended hL hend hBH hpaged
  have hpub : ∀ bh < L.BH, (s.heads bh).pc = .published := fun bh hbh =>
    (hkept.inv.head_ended hL hend hbh).2 (hpaged bh hbh)
  have hfirst : ∀ bh < L.BH, ((s.heads bh).cta 0).ask ≠ none ∧ ((s.heads bh).cta 0).claims = [] := fun bh hbh => by
    have hwalked := hkept.walked hL hend ⟨bh, 0, 0, hbh, ((hL bh hbh).live 0).2 (hL bh hbh).pos, by decide⟩
    exact ⟨hwalked.1, hwalked.2.1⟩
  have hpast : ∀ k : L.Key, (k.cta s).acc k.warp =
      (k.work s0).foldl (fun acc v => v.read acc (k.value s0 v)) (L.call k.bh).zero ∧
      ∀ v ∈ k.work s0, ∀ a, k.addr s0 v = some a → s.mem a.1 a.2 = k.after s0 v (s0.mem a.1 a.2) := fun k => by
    obtain ⟨hask, -, htodo⟩ := hkept.walked hL hend k
    obtain ⟨pre, hwork, hacc, hpre⟩ := hkept.walk.past k hask
    rw [htodo, List.append_nil] at hwork
    rw [hwork]
    exact ⟨hacc, hpre⟩
  exact
    { y := fun bh hbh => by
        have hread := (hkept.inv.head_ended hL hend hbh).1
        rw [(hkept.inv.head bh hbh).y]
        show (if _ ∧ L.needy s0 bh = false then _ else _) = _
        by_cases hneedy : L.needy s0 bh = true
        · rw [if_pos hneedy]
          refine if_neg fun hc => ?_
          rw [hneedy] at hc
          cases hc.2
        · rw [if_neg hneedy]
          refine (if_pos ⟨hread, by simpa using hneedy⟩).trans ?_
          refine congrArg _ (HeadCall.total_ext (hL bh hbh) fun seg hseg warp hwarp => ?_)
          exact (hpast ⟨bh, seg, warp, hbh, ((hL bh hbh).live seg).2 hseg, hwarp⟩).1
      table := fun bh hbh => ((hkept.row bh hbh).after (hpub bh hbh)).1
      shadow := fun bh hbh a => by
        have hsh := hkept.shadow bh hbh
        by_cases hclaimed : ((L.call bh).askOf (s0.heads bh)).claimed = true
        · exact hsh.row hclaimed (hfirst bh hbh).1 (hfirst bh hbh).2
        · unfold HeadCall.claimRow
          rw [if_neg fun hc => hclaimed hc.1]
          exact (hsh.keep a).resolve_right fun hc => hclaimed hc.1
      cursor := fun bh hbh => ((hkept.row bh hbh).after (hpub bh hbh)).2
      bits := fun bh hbh => hkept.bits bh hbh (hpaged bh hbh) (hfirst bh hbh).1
      count := fun bh hbh => (hkept.inv.head bh hbh).count_zero (hkept.inv.head_ended hL hend hbh).1
      growthCount := hcount
      growthAny := hany
      done := fun bh hbh => by
        rw [hkept.inv.done bh hbh, hclosed, hpub bh hbh]
        unfold doneAt
        simp
      written := fun k v hv a ha => (hpast k).2 v hv a ha
      other := hkept.walk.other }

end Launch

end Rola
