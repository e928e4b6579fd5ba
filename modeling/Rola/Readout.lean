import Rola.LaunchRun

/-!
# The readout does not depend on the order of arrival

Retirement and `n_live` are two formulas of the same bound. They agree as long as a segment's first unit
is an `int`; past `2 ^ 28` CTAs a batch-head the product wraps and CTAs past the live ones run on.
-/

namespace Rola

/-- What `term_layout` counts, and so the largest of it: nothing, or a power of two. -/
def UnitCount (units : ℕ) : Prop := units = 0 ∨ ∃ bits < 31, units = 2 ^ bits

theorem UnitCount.le {units : ℕ} (h : UnitCount units) : units ≤ 2 ^ 30 := by
  rcases h with rfl | ⟨bits, hbits, rfl⟩
  · exact Nat.zero_le _
  · exact Nat.pow_le_pow_right (by decide) (by omega)

theorem UnitCount.max {a b : ℕ} (ha : UnitCount a) (hb : UnitCount b) : UnitCount (a ⊔ b) := by
  rcases max_choice a b with h | h
  · rwa [h]
  · rwa [h]

theorem DecodeParams.umax_unitCount {p : DecodeParams} {m : Masks} (hpub : p.Published m) : UnitCount (p.umax m) := by
  refine Finset.sup_induction (.inl rfl) (fun a ha b hb => ha.max hb) fun term hterm => ?_
  have hsome := hpub term (by have := Finset.mem_range.1 hterm; omega)
  unfold DecodeParams.units
  unfold DecodeParams.termUnits at hsome ⊢
  split
  · exact .inl rfl
  · rename_i hne
    rw [if_neg hne] at hsome
    split
    · rename_i hbits
      exact .inr ⟨_, hbits, by rw [Option.getD_some, Nat.one_shiftLeft]⟩
    · rename_i hbits
      rw [if_neg hbits] at hsome
      cases hsome

variable {R P O : Type}

namespace HeadCall

variable {C : HeadCall R P O}

theorem nLive_eq (hu : C.umax ≤ 2 ^ 30) : C.nLive =
    if (C.umax + 7) / 8 < 1 then 1 else if C.nSplit < (C.umax + 7) / 8 then C.nSplit else (C.umax + 7) / 8 := by
  have hwant : ceilDivInt C.umax unitBlockWarps = ((C.umax + 7) / 8 : ℕ) := by
    unfold ceilDivInt unitBlockWarps
    rw [int32_of_lt (by omega)]
    exact Int.ofNat_tdiv _ _
  unfold nLive
  dsimp only
  rw [hwant, Int.toNat_natCast]
  generalize (C.umax + 7) / 8 = want
  refine ite_congr (propext (by omega)) (fun _ => rfl) fun _ => ite_congr (propext (by omega)) (fun _ => rfl) fun _ => rfl

theorem retired_eq {seg : ℕ} (hseg : seg < 2 ^ 28) : C.retired seg = decide (0 < seg ∧ C.umax ≤ seg * 8) := by
  unfold retired unitBlockWarps
  rw [int32_of_lt (by omega)]
  norm_cast

/-- Below the ceiling the live CTAs are the first `n_live`. -/
theorem counted_of_le (h1 : 1 ≤ C.nSplit) (hn : C.nSplit ≤ 2 ^ 28) (hu : C.umax ≤ 2 ^ 30) : C.Counted where
  pos := by
    rw [nLive_eq hu]
    split
    · exact le_rfl
    · split <;> omega
  live seg := by
    have hbound : C.nLive ≤ C.nSplit := by
      rw [nLive_eq hu]
      split
      · exact h1
      · split <;> omega
    constructor
    · rintro ⟨hseg, hret⟩
      rw [retired_eq (by omega), decide_eq_false_iff_not] at hret
      rw [nLive_eq hu]
      split
      · omega
      · split <;> omega
    · intro hseg
      refine ⟨by omega, ?_⟩
      rw [retired_eq (by omega), decide_eq_false_iff_not]
      rw [nLive_eq hu] at hseg
      split at hseg
      · omega
      · split at hseg <;> omega

theorem countP_lt {n m : ℕ} {live : ℕ → Bool} (hm : m ≤ n) (h : ∀ i < n, live i = true ↔ i < m) :
    (List.range n).countP live = m := by
  have hcount : ∀ k ≤ n, (List.range k).countP live = min k m := by
    intro k hk
    induction k with
    | zero => simp
    | succ k ih =>
      have hiff := h k (by omega)
      rw [List.range_succ, List.countP_append, ih (by omega), List.countP_singleton]
      split
      · have := hiff.1 ‹_›
        omega
      · have : ¬k < m := fun hlt => ‹¬_› (hiff.2 hlt)
        omega
  rw [hcount n le_rfl, min_eq_right hm]

theorem Counted.countP (hC : C.Counted) : ((List.range C.nSplit).countP fun seg => !C.retired seg) = C.nLive := by
  have hle : C.nLive ≤ C.nSplit := by
    by_contra hgt
    have := ((hC.live C.nSplit).2 (by omega)).1
    omega
  refine countP_lt hle fun seg hseg => ?_
  rw [← hC.live seg, Bool.not_eq_true']
  exact ⟨fun hret => ⟨hseg, hret⟩, fun hlive => hlive.2⟩

/-- A batch-head with one unit. -/
def oneUnit (nSplit : ℕ) : HeadCall Unit Unit Unit where
  nSplit := nSplit
  umax := 1
  paged := false
  denseBase := 0
  poolCap := 0
  poolSlots := fun _ => 0
  cand := []
  visits := fun _ _ => []
  zero := ()
  add := fun _ _ => ()
  out := fun _ => ()

/-- Past the ceiling a CTA whose first unit wraps does not retire. -/
theorem not_countP {nSplit : ℕ} (hn : 2 ^ 28 < nSplit) :
    ((List.range nSplit).countP fun seg => !(oneUnit nSplit).retired seg) ≠ (oneUnit nSplit).nLive := by
  have humax : (oneUnit nSplit).umax = 1 := rfl
  have hlive : (oneUnit nSplit).nLive = 1 := by
    rw [nLive_eq (by rw [humax]; decide)]
    simp only [humax, show (oneUnit nSplit).nSplit = nSplit from rfl]
    rw [if_neg (by decide), if_neg (by omega)]
  have hzero : (oneUnit nSplit).retired 0 = false := by
    unfold retired
    exact decide_eq_false fun hc => absurd hc.1 (lt_irrefl 0)
  have hwrap : (oneUnit nSplit).retired (2 ^ 28) = false := by
    unfold retired
    rw [humax]
    exact decide_eq_false fun hc => absurd hc.2 (by decide)
  have htwo : 2 ≤ (List.range (2 ^ 28 + 1)).countP fun seg => !(oneUnit nSplit).retired seg := by
    have hone : 0 < (List.range (2 ^ 28)).countP fun seg => !(oneUnit nSplit).retired seg :=
      List.countP_pos_iff.2 ⟨0, List.mem_range.2 (by decide), by rw [hzero]; rfl⟩
    rw [List.range_succ, List.countP_append, List.countP_singleton, hwrap]
    simp only [Bool.not_false, if_true]
    omega
  have hmono := htwo.trans (List.range_sublist.2 (Nat.succ_le_of_lt hn)).countP_le
  rw [hlive]
  omega

end HeadCall

/-- Of a split: the live CTAs number `n_live`; and however a launch's warps and CTAs arrive, once it has ended each
batch-head's counter is zero and its readout has been written once, as the one sum of its warps' partials. A needy
batch-head writes none. -/
def OrderFree (nSplit : ℕ) : Prop :=
  (∀ (R P O : Type) (C : HeadCall R P O), C.nSplit = nSplit → UnitCount C.umax →
    ((List.range nSplit).countP fun seg => !C.retired seg) = C.nLive) ∧
  ∀ (R P O : Type) [Zero R] (L : Launch R P O) (s0 s : LaunchState R P O) (evs : List LaunchEvent),
    (∀ bh < L.BH, (L.call bh).nSplit = nSplit ∧ UnitCount (L.call bh).umax) → L.Fresh s0 →
    Machine.run L.step s0 evs = some s → L.Ended s → ∀ bh < L.BH, (s.heads bh).ws.count = 0 ∧
      if L.needy s0 bh then (s.heads bh).y = (s0.heads bh).y
      else evs.count (.head bh .readout) = 1 ∧
        (s.heads bh).y = (L.call bh).out ((L.call bh).total fun seg => ((s.heads bh).cta seg).acc)

end Rola
