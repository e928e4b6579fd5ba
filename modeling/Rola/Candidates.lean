import Rola.WalkTerms

/-!
# The candidate atoms of a step

`candidate_atom` of `decode_step_kernel`: the atoms the write side reaches, enumerated from the owners'
candidate slot of the term table. Each comes up at one index, and none is missed.
-/

namespace Rola

open MixedRadix

/-- `CandidateUnit`. -/
structure CandidateUnit where
  base : ℕ
  valid : Bool
  liveW : Bool
  cw : ℕ → Bool

namespace DecodeParams

variable (p : DecodeParams) (m : Masks)

/-- `resolve_candidate_unit`. -/
def resolveCandidateUnit (unit : ℕ) : CandidateUnit :=
  let outer := unit &&& ((1 <<< p.latOuterBits) - 1)
  let rank := unit >>> p.latOuterBits
  let owner := p.fieldEntry m (p.D + 1) rank
  let digit := fun l => owner l * p.latS l + ((outer >>> p.latOshift l) &&& (p.latS l - 1))
  let last := p.D - 1
  { base := ((∑ l ∈ Finset.range p.D, owner l * p.latGsuf l) <<< p.latLocalBits) + (outer <<< p.latInnerBits)
    valid := p.fieldsValid m (p.D + 1) rank
    liveW := decide (∀ l < last, m.w l (digit l) = true)
    cw := fun t => m.w last (owner last * p.latS last + t) }

/-- The bits of an atom one unit holds. -/
def winBits : ℕ := if p.latInnerBits < atomShift then p.latInnerBits else atomShift

/-- The units of one candidate, in turn: the first names the atom, and any of them may be live. -/
def candidateScan (a : ℕ) : Option ℕ → List ℕ → Option ℕ
  | _, [] => none
  | atom, unit :: units =>
    let u := p.resolveCandidateUnit m unit
    if !u.valid then none
    else
      let here := atom.getD ((u.base + (a <<< atomShift)) >>> atomShift)
      if u.liveW && (List.range (1 <<< p.winBits)).any fun t =>
          u.cw (((a <<< atomShift) &&& ((1 <<< p.latInnerBits) - 1)) + t) then some here
      else candidateScan a (some here) units

def candidateAtom (i : ℕ) : Option ℕ :=
  let a := i &&& ((1 <<< p.atomsPerUnitShift) - 1)
  let unit0 := (i >>> p.atomsPerUnitShift) <<< p.latUnitsPerAtomShift
  p.candidateScan m a none ((List.range (1 <<< p.latUnitsPerAtomShift)).map (unit0 + ·))

/-- `n_candidates`. -/
def nCandidates : ℕ := (p.units m (p.D + 1) >>> p.latUnitsPerAtomShift) <<< p.atomsPerUnitShift

/-- The candidate atoms, in the order the launch ranks them. -/
def candidates : List ℕ := (List.range (p.nCandidates m)).filterMap (p.candidateAtom m)

variable {p m} {unit t f i x a : ℕ}

/-! ### A unit of the candidate slot -/

theorem candidate_base : (p.resolveCandidateUnit m unit).base = (p.walkUnit m (p.D + 1) unit).base := by
  rw [walkUnit_ne (Nat.succ_ne_zero _)]
  rfl

theorem candidate_valid : (p.resolveCandidateUnit m unit).valid =
    p.fieldsValid m (p.D + 1) (p.rankOf m (p.D + 1) unit) := by
  rw [rankOf_ne (Nat.succ_ne_zero _)]
  rfl

theorem termKind_candidate {l : ℕ} : termKind p.D (p.D + 1) l = .kindW := if_pos (.inr (Nat.lt_succ_self _))

theorem live_candidate {d : ℕ → ℕ} : p.Live m (p.D + 1) d ↔ p.inProduct m.w d = true := by
  rw [inProduct_iff]
  refine forall₂_congr fun l _ => ?_
  rw [termKind_candidate]
  rfl

/-- A run's place, live on the write side. -/
theorem candidate_live (hD : 0 < p.D) : ((p.resolveCandidateUnit m unit).liveW && (p.resolveCandidateUnit m unit).cw t) =
    p.inProduct m.w (p.digitsAt m (p.D + 1) unit t) := by
  have hlast : p.digitsAt m (p.D + 1) unit t (p.D - 1) =
      p.fieldEntry m (p.D + 1) (unit >>> p.latOuterBits) (p.D - 1) * p.latS (p.D - 1) + t := by
    rw [digitsAt_last, rankOf_ne (Nat.succ_ne_zero _)]
  have hhead : ∀ l < p.D - 1, p.digitsAt m (p.D + 1) unit t l = (p.resolveUnit m (p.D + 1) unit).digit l := by
    intro l hl
    rw [digitsAt_eq, if_pos hl, walkUnit_ne (Nat.succ_ne_zero _)]
  rw [Bool.eq_iff_iff, inProduct_iff, Bool.and_eq_true]
  constructor
  · rintro ⟨hl, ht⟩ l hlD
    rcases Nat.lt_or_ge l (p.D - 1) with hlt | hge
    · rw [hhead l hlt]
      exact of_decide_eq_true hl l hlt
    · obtain rfl : l = p.D - 1 := by omega
      rw [hlast]
      exact ht
  · intro hall
    refine ⟨decide_eq_true fun l hl => ?_, ?_⟩
    · have := hall l (by omega)
      rwa [hhead l hl] at this
    · have := hall (p.D - 1) (by omega)
      rwa [hlast] at this

/-! ### One candidate's units -/

/-- A unit of the candidate, live in the window of place `a`. -/
def candidateHit (p : DecodeParams) (m : Masks) (a unit : ℕ) : Bool :=
  (p.resolveCandidateUnit m unit).liveW && (List.range (1 <<< p.winBits)).any fun t =>
    (p.resolveCandidateUnit m unit).cw (((a <<< atomShift) &&& ((1 <<< p.latInnerBits) - 1)) + t)

theorem candidateScan_cons {atom : Option ℕ} {units : List ℕ} (hv : (p.resolveCandidateUnit m unit).valid = true) :
    p.candidateScan m a atom (unit :: units) =
      if p.candidateHit m a unit = true then
        some (atom.getD (((p.resolveCandidateUnit m unit).base + (a <<< atomShift)) >>> atomShift))
      else p.candidateScan m a
        (some (atom.getD (((p.resolveCandidateUnit m unit).base + (a <<< atomShift)) >>> atomShift))) units := by
  conv_lhs => unfold candidateScan
  dsimp only
  rw [hv]
  rfl

theorem candidateScan_some {units : List ℕ} (hv : ∀ u ∈ units, (p.resolveCandidateUnit m u).valid = true) :
    p.candidateScan m a (some x) units = if units.any (p.candidateHit m a) then some x else none := by
  induction units with
  | nil => rfl
  | cons unit units ih =>
    have htail := ih fun u hu => hv u (List.mem_cons_of_mem _ hu)
    rw [candidateScan_cons (hv unit List.mem_cons_self), List.any_cons, Option.getD_some, htail]
    by_cases hhit : p.candidateHit m a unit = true
    · simp [hhit]
    · simp [hhit]

theorem candidateScan_none {units : List ℕ} : p.candidateScan m a none (unit :: units) =
    if (p.resolveCandidateUnit m unit).valid then
      p.candidateScan m a (some (((p.resolveCandidateUnit m unit).base + (a <<< atomShift)) >>> atomShift)) (unit :: units)
    else none := by
  rcases hv : (p.resolveCandidateUnit m unit).valid with _ | _
  · simp [candidateScan, hv]
  · simp [candidateScan, hv]

/-! ### The places of the write owners, one after the other -/

/-- What the launch keeps of the innermost span's atoms. -/
structure AtomShifts (p : DecodeParams) : Prop where
  unit : p.atomsPerUnitShift = p.latInnerBits - atomShift
  atom : p.latUnitsPerAtomShift = atomShift - p.latInnerBits
  box : atomShift ≤ p.latLocalBits

/-- The leaf at a place of the write owners' boxes. -/
def flatLeaf (p : DecodeParams) (m : Masks) (f : ℕ) : ℕ :=
  (∑ l ∈ Finset.range p.D, p.fieldEntry m (p.D + 1) (f / 2 ^ p.latLocalBits) l * p.latGsuf l) * 2 ^ p.latLocalBits +
    f % 2 ^ p.latLocalBits

/-- The digits there. -/
def flatDigits (p : DecodeParams) (m : Masks) (f : ℕ) : ℕ → ℕ :=
  p.digitsAt m (p.D + 1) (f / 2 ^ p.latInnerBits) (f % 2 ^ p.latInnerBits)

/-- A place the candidate enumeration counts. -/
def flatLive (p : DecodeParams) (m : Masks) (f : ℕ) : Bool :=
  p.fieldsValid m (p.D + 1) (f / 2 ^ p.latLocalBits) && p.inProduct m.w (p.flatDigits m f)

theorem AtomShifts.dvd (hs : p.AtomShifts) : 16 ∣ 2 ^ p.latLocalBits := pow_dvd_pow 2 hs.box

/-- Sixteen places in a row are one atom. -/
theorem AtomShifts.flat_eq (hs : p.AtomShifts) {j : ℕ} (hj : j < 16) :
    (16 * i + j) / 2 ^ p.latLocalBits = 16 * i / 2 ^ p.latLocalBits ∧
      p.flatLeaf m (16 * i + j) / 16 = p.flatLeaf m (16 * i) / 16 := by
  obtain ⟨c, hc⟩ := hs.dvd
  have hdiv : ∀ j < 16, (16 * i + j) / (16 * c) = i / c := by
    intro j hj
    rw [← Nat.div_div_eq_div_mul]
    congr 1
    omega
  have hleaf : ∀ j < 16, p.flatLeaf m (16 * i + j) / 16 =
      (∑ l ∈ Finset.range p.D, p.fieldEntry m (p.D + 1) (i / c) l * p.latGsuf l) * c + i % c := by
    intro j hj
    have hmod : (16 * i + j) % (16 * c) / 16 = i % c := by
      rw [Nat.mod_mul_right_div_self]
      congr 1
      omega
    unfold flatLeaf
    rw [hc, hdiv j hj, Nat.mul_left_comm, Nat.mul_add_div (by decide), hmod]
  rw [hc]
  exact ⟨(hdiv j hj).trans (hdiv 0 (by decide)).symm, (hleaf j hj).trans (hleaf 0 (by decide)).symm⟩

namespace Wf

variable (h : p.Wf) (hs : p.AtomShifts)
include h

theorem localBits_split : p.latLocalBits = p.latInnerBits + p.latOuterBits := by
  obtain ⟨n, hn⟩ : ∃ n, p.D = n + 1 := ⟨p.D - 1, by have := h.D_pos; omega⟩
  rw [h.localBits_eq, h.innerBits_eq, h.outerBits_eq, hn, Finset.sum_range_succ, Nat.add_sub_cancel]
  omega

theorem S_last : p.latS (p.D - 1) = 2 ^ p.latInnerBits := by rw [h.S_eq, h.innerBits_eq]

/-- A unit's place is a leaf of its owner's box. -/
theorem candidate_leaf (ht : t < 2 ^ p.latInnerBits) :
    (p.resolveCandidateUnit m unit).base + t = p.flatLeaf m (unit * 2 ^ p.latInnerBits + t) ∧
      p.rankOf m (p.D + 1) unit = (unit * 2 ^ p.latInnerBits + t) / 2 ^ p.latLocalBits := by
  have hrank : (unit * 2 ^ p.latInnerBits + t) / 2 ^ p.latLocalBits = unit >>> p.latOuterBits := by
    rw [h.localBits_split, pow_add, ← Nat.div_div_eq_div_mul, Nat.shiftRight_eq_div_pow, Nat.add_comm, Nat.mul_comm,
      BitFields.high_eq ht]
  have hlow : (unit * 2 ^ p.latInnerBits + t) % 2 ^ p.latLocalBits =
      (unit % 2 ^ p.latOuterBits) * 2 ^ p.latInnerBits + t := by
    rw [h.localBits_split, pow_add, Nat.mod_mul, Nat.add_comm (unit * _), Nat.mul_comm unit, BitFields.high_eq ht,
      BitFields.low_eq ht, Nat.mul_comm, Nat.add_comm]
  refine ⟨?_, (rankOf_ne (Nat.succ_ne_zero _)).trans hrank.symm⟩
  unfold flatLeaf
  rw [hrank, hlow, ← Nat.add_assoc]
  dsimp only [resolveCandidateUnit]
  rw [Nat.one_shiftLeft, Nat.and_two_pow_sub_one_eq_mod, Nat.shiftLeft_eq, Nat.shiftLeft_eq]

/-- The window of a unit, as places. -/
theorem candidateHit_iff {a : ℕ} (hv : p.fieldsValid m (p.D + 1) (p.rankOf m (p.D + 1) unit) = true)
    (hwin : (a * 16) % 2 ^ p.latInnerBits + 2 ^ p.winBits ≤ 2 ^ p.latInnerBits) : p.candidateHit m a unit = true ↔
    ∃ t < 2 ^ p.winBits, p.flatLive m (unit * 2 ^ p.latInnerBits + ((a * 16) % 2 ^ p.latInnerBits + t)) = true := by
  have hplace : ∀ t < 2 ^ p.winBits,
      p.flatLive m (unit * 2 ^ p.latInnerBits + ((a * 16) % 2 ^ p.latInnerBits + t)) =
        ((p.resolveCandidateUnit m unit).liveW &&
          (p.resolveCandidateUnit m unit).cw ((a * 16) % 2 ^ p.latInnerBits + t)) := by
    intro t ht
    have hlt : (a * 16) % 2 ^ p.latInnerBits + t < 2 ^ p.latInnerBits := by omega
    have hdiv : (unit * 2 ^ p.latInnerBits + ((a * 16) % 2 ^ p.latInnerBits + t)) / 2 ^ p.latInnerBits = unit := by
      rw [Nat.add_comm, Nat.mul_comm unit, BitFields.high_eq hlt]
    have hmod : (unit * 2 ^ p.latInnerBits + ((a * 16) % 2 ^ p.latInnerBits + t)) % 2 ^ p.latInnerBits =
        (a * 16) % 2 ^ p.latInnerBits + t := by
      rw [Nat.add_comm, Nat.mul_comm unit, BitFields.low_eq hlt]
    rw [candidate_live h.D_pos]
    unfold flatLive flatDigits
    rw [← (h.candidate_leaf hlt).2, hv, Bool.true_and, hdiv, hmod]
  unfold candidateHit
  rw [Nat.one_shiftLeft, Nat.one_shiftLeft, Nat.and_two_pow_sub_one_eq_mod, Nat.shiftLeft_eq,
    show (2 : ℕ) ^ atomShift = 16 from rfl, Bool.and_eq_true, List.any_eq_true]
  constructor
  · rintro ⟨hl, t, ht, hcw⟩
    refine ⟨t, List.mem_range.1 ht, ?_⟩
    rw [hplace t (List.mem_range.1 ht), hl, hcw]
    rfl
  · rintro ⟨t, ht, hlive⟩
    rw [hplace t ht, Bool.and_eq_true] at hlive
    exact ⟨hlive.1, t, List.mem_range.2 ht, hlive.2⟩

omit h in
/-- How a candidate's units cut its sixteen places. -/
theorem AtomShifts.window (hs : p.AtomShifts) (i : ℕ) :
    2 ^ p.latUnitsPerAtomShift * 2 ^ p.winBits = 16 ∧
    (i % 2 ^ p.atomsPerUnitShift * 16) % 2 ^ p.latInnerBits = i % 2 ^ p.atomsPerUnitShift * 16 ∧
    i % 2 ^ p.atomsPerUnitShift * 16 + 2 ^ p.winBits ≤ 2 ^ p.latInnerBits ∧
    ∀ q, q < 2 ^ p.latUnitsPerAtomShift → (i / 2 ^ p.atomsPerUnitShift * 2 ^ p.latUnitsPerAtomShift + q) * 2 ^ p.latInnerBits +
      i % 2 ^ p.atomsPerUnitShift * 16 = 16 * i + q * 2 ^ p.winBits := by
  rw [hs.unit, hs.atom]
  unfold winBits
  rcases Nat.lt_or_ge p.latInnerBits atomShift with hlt | hge
  · have hpow : 2 ^ (atomShift - p.latInnerBits) * 2 ^ p.latInnerBits = 16 := by
      rw [← pow_add, Nat.sub_add_cancel hlt.le]
      rfl
    have hpos : 0 < 2 ^ p.latInnerBits := by positivity
    rw [if_pos hlt, Nat.sub_eq_zero_of_le hlt.le, pow_zero, Nat.mod_one, Nat.zero_mul, Nat.zero_mod, Nat.zero_add,
      Nat.div_one]
    refine ⟨hpow, rfl, le_rfl, fun q _ => ?_⟩
    calc (i * 2 ^ (atomShift - p.latInnerBits) + q) * 2 ^ p.latInnerBits + 0 =
        2 ^ (atomShift - p.latInnerBits) * 2 ^ p.latInnerBits * i + q * 2 ^ p.latInnerBits := by ring
      _ = _ := by rw [hpow]
  · have hpow : 2 ^ p.latInnerBits = 16 * 2 ^ (p.latInnerBits - atomShift) := by
      rw [show (16 : ℕ) = 2 ^ atomShift from rfl, ← pow_add, Nat.add_sub_cancel' hge]
    have hlt : i % 2 ^ (p.latInnerBits - atomShift) < 2 ^ (p.latInnerBits - atomShift) :=
      Nat.mod_lt _ (by positivity)
    rw [if_neg hge.not_gt, Nat.sub_eq_zero_of_le hge, hpow, show (2 : ℕ) ^ atomShift = 16 from rfl]
    refine ⟨rfl, Nat.mod_eq_of_lt (by omega), by omega, fun q hq => ?_⟩
    have hdiv := Nat.div_add_mod i (2 ^ (p.latInnerBits - atomShift))
    obtain rfl : q = 0 := by omega
    calc (i / 2 ^ (p.latInnerBits - atomShift) * 2 ^ 0 + 0) * (16 * 2 ^ (p.latInnerBits - atomShift)) +
          i % 2 ^ (p.latInnerBits - atomShift) * 16 =
        16 * (2 ^ (p.latInnerBits - atomShift) * (i / 2 ^ (p.latInnerBits - atomShift)) +
          i % 2 ^ (p.latInnerBits - atomShift)) := by ring
      _ = 16 * i + 0 * 16 := by rw [hdiv, Nat.zero_mul, Nat.add_zero]

include hs

/-- A candidate is the atom of its sixteen places, where one is live. -/
theorem candidateAtom_eq_some : p.candidateAtom m i = some x ↔
    (∃ j < 16, p.flatLive m (16 * i + j) = true) ∧ x = p.flatLeaf m (16 * i) / 16 := by
  obtain ⟨hcount, hoff, hwin, hplace⟩ := AtomShifts.window hs i
  have hoff_lt : i % 2 ^ p.atomsPerUnitShift * 16 < 2 ^ p.latInnerBits := by
    have : 0 < 2 ^ p.winBits := by positivity
    omega
  have hspan : ∀ q < 2 ^ p.latUnitsPerAtomShift, ∀ t < 2 ^ p.winBits, q * 2 ^ p.winBits + t < 16 := by
    intro q hq t ht
    calc q * 2 ^ p.winBits + t < q * 2 ^ p.winBits + 2 ^ p.winBits := by omega
      _ = (q + 1) * 2 ^ p.winBits := by ring
      _ ≤ 2 ^ p.latUnitsPerAtomShift * 2 ^ p.winBits := Nat.mul_le_mul_right _ hq
      _ = 16 := hcount
  have hrank : ∀ q < 2 ^ p.latUnitsPerAtomShift, p.rankOf m (p.D + 1)
      (i / 2 ^ p.atomsPerUnitShift * 2 ^ p.latUnitsPerAtomShift + q) = 16 * i / 2 ^ p.latLocalBits := by
    intro q hq
    rw [(h.candidate_leaf hoff_lt).2, hplace q hq]
    exact (hs.flat_eq (m := m) (hspan q hq 0 (by positivity))).1
  have hfirst : ((p.resolveCandidateUnit m (i / 2 ^ p.atomsPerUnitShift * 2 ^ p.latUnitsPerAtomShift + 0)).base +
      i % 2 ^ p.atomsPerUnitShift * 16) / 16 = p.flatLeaf m (16 * i) / 16 := by
    have hpos : 0 < 2 ^ p.latUnitsPerAtomShift := by positivity
    rw [(h.candidate_leaf (m := m) hoff_lt).1, hplace 0 hpos, Nat.zero_mul, Nat.add_zero]
  obtain ⟨n, hn⟩ : ∃ n, 2 ^ p.latUnitsPerAtomShift = n + 1 := ⟨2 ^ p.latUnitsPerAtomShift - 1, by
    have : 0 < 2 ^ p.latUnitsPerAtomShift := by positivity
    omega⟩
  have hlive : ∀ j < 16, p.flatLive m (16 * i + j) = true →
      p.fieldsValid m (p.D + 1) (16 * i / 2 ^ p.latLocalBits) = true := by
    intro j hj hl
    unfold flatLive at hl
    rw [(hs.flat_eq (m := m) hj).1, Bool.and_eq_true] at hl
    exact hl.1
  unfold candidateAtom
  dsimp only
  rw [Nat.one_shiftLeft, Nat.one_shiftLeft, Nat.and_two_pow_sub_one_eq_mod, Nat.shiftRight_eq_div_pow, Nat.shiftLeft_eq]
  by_cases hv : p.fieldsValid m (p.D + 1) (16 * i / 2 ^ p.latLocalBits) = true
  · have hvalid : ∀ unit ∈ (List.range (2 ^ p.latUnitsPerAtomShift)).map
        (i / 2 ^ p.atomsPerUnitShift * 2 ^ p.latUnitsPerAtomShift + ·), (p.resolveCandidateUnit m unit).valid = true := by
      intro unit hunit
      obtain ⟨q, hq, rfl⟩ := List.mem_map.1 hunit
      rw [candidate_valid, hrank q (List.mem_range.1 hq)]
      exact hv
    have hscan : p.candidateScan m (i % 2 ^ p.atomsPerUnitShift) none
        ((List.range (2 ^ p.latUnitsPerAtomShift)).map (i / 2 ^ p.atomsPerUnitShift * 2 ^ p.latUnitsPerAtomShift + ·)) =
        if ((List.range (2 ^ p.latUnitsPerAtomShift)).map
          (i / 2 ^ p.atomsPerUnitShift * 2 ^ p.latUnitsPerAtomShift + ·)).any
            (p.candidateHit m (i % 2 ^ p.atomsPerUnitShift)) then some (p.flatLeaf m (16 * i) / 16) else none := by
      rw [← candidateScan_some hvalid]
      rw [hn, List.range_succ_eq_map, List.map_cons] at hvalid ⊢
      rw [candidateScan_none, if_pos (hvalid _ List.mem_cons_self), Nat.shiftLeft_eq, Nat.shiftRight_eq_div_pow,
        show (2 : ℕ) ^ atomShift = 16 from rfl, ← hn, hfirst]
    rw [hscan, Option.ite_none_right_eq_some, Option.some.injEq, List.any_map, List.any_eq_true]
    refine and_congr ?_ ⟨Eq.symm, Eq.symm⟩
    constructor
    · rintro ⟨q, hq, hhit⟩
      rw [List.mem_range] at hq
      rw [Function.comp_apply, h.candidateHit_iff (by rw [hrank q hq]; exact hv) (by rw [hoff]; exact hwin), hoff] at hhit
      obtain ⟨t, ht, hl⟩ := hhit
      rw [← Nat.add_assoc, hplace q hq, Nat.add_assoc] at hl
      exact ⟨_, hspan q hq t ht, hl⟩
    · rintro ⟨j, hj, hl⟩
      have hpos : 0 < 2 ^ p.winBits := by positivity
      have hq : j / 2 ^ p.winBits < 2 ^ p.latUnitsPerAtomShift := by
        rw [Nat.div_lt_iff_lt_mul hpos, hcount]
        exact hj
      refine ⟨j / 2 ^ p.winBits, List.mem_range.2 hq, ?_⟩
      rw [Function.comp_apply, h.candidateHit_iff (by rw [hrank _ hq]; exact hv) (by rw [hoff]; exact hwin), hoff]
      refine ⟨j % 2 ^ p.winBits, Nat.mod_lt _ hpos, ?_⟩
      rw [← Nat.add_assoc, hplace _ hq, Nat.add_assoc, Nat.div_add_mod']
      exact hl
  · refine iff_of_false ?_ fun ⟨⟨j, hj, hl⟩, _⟩ => hv (hlive j hj hl)
    have hinvalid : (p.resolveCandidateUnit m
        (i / 2 ^ p.atomsPerUnitShift * 2 ^ p.latUnitsPerAtomShift + 0)).valid = false := by
      have hpos : 0 < 2 ^ p.latUnitsPerAtomShift := by positivity
      rw [candidate_valid, hrank 0 hpos]
      exact Bool.eq_false_iff.2 hv
    rw [hn, List.range_succ_eq_map, List.map_cons, ← hn, candidateScan_none, hinvalid, if_neg Bool.false_ne_true]
    rintro ⟨⟩

/-! ### Places and written leaves -/

omit hs in
/-- A live place is the written leaf it addresses. -/
theorem flat_written (hlive : p.flatLive m f = true) :
    p.latIndex (p.flatDigits m f) = p.flatLeaf m f ∧ p.flatLeaf m f ∈ p.written m := by
  have hpos : 0 < 2 ^ p.latInnerBits := by positivity
  have hlt : f % 2 ^ p.latInnerBits < 2 ^ p.latInnerBits := Nat.mod_lt _ hpos
  have hlt' : f % 2 ^ p.latInnerBits < p.latS (p.D - 1) := by rwa [h.S_last]
  unfold flatLive at hlive
  rw [Bool.and_eq_true] at hlive
  have hplace : f / 2 ^ p.latInnerBits * 2 ^ p.latInnerBits + f % 2 ^ p.latInnerBits = f := Nat.div_add_mod' _ _
  obtain ⟨hleaf, hrank⟩ := @DecodeParams.Wf.candidate_leaf _ m (f / 2 ^ p.latInnerBits) _ h hlt
  rw [hplace] at hleaf hrank
  have hindex : p.latIndex (p.flatDigits m f) = p.flatLeaf m f := by
    rw [← hleaf, candidate_base]
    exact (h.leaf_visitAt hlt').symm
  have hb : Bounded p.levelWidth (p.flatDigits m f) p.D :=
    h.digitsAt_bounded hlt' (h.nonempty_of_valid hlive.1)
  refine ⟨hindex, List.mem_filter.2 ⟨List.mem_range.2 (hindex ▸ h.latIndex_lt hb), ?_⟩⟩
  rw [← hindex, inProduct_congr fun l hl => h.latDigits_latIndex hb hl]
  exact hlive.2

omit hs in
/-- A live place is its leaf's owner rank and its place in the box. -/
theorem flat_eq_rank (hf : f < 2 ^ p.termBits m (p.D + 1) * 2 ^ p.latInnerBits) (hlive : p.flatLive m f = true) :
    f = p.rankAt m (p.D + 1) (p.latDigits (p.flatLeaf m f)) * 2 ^ p.latLocalBits + p.flatLeaf m f % 2 ^ p.latLocalBits := by
  obtain ⟨hindex, hmem⟩ := h.flat_written hlive
  have hvalid := hlive
  unfold flatLive at hvalid
  rw [Bool.and_eq_true] at hvalid
  have hpos : 0 < 2 ^ p.latInnerBits := by positivity
  have hlt : f % 2 ^ p.latInnerBits < p.latS (p.D - 1) := by
    rw [h.S_last]
    exact Nat.mod_lt _ hpos
  have hb : Bounded p.levelWidth (p.flatDigits m f) p.D := h.digitsAt_bounded hlt (h.nonempty_of_valid hvalid.1)
  have hrank : p.rankAt m (p.D + 1) (p.latDigits (p.flatLeaf m f)) = f / 2 ^ p.latLocalBits := by
    have hunit : f / 2 ^ p.latInnerBits < 2 ^ p.termBits m (p.D + 1) := (Nat.div_lt_iff_lt_mul hpos).2 hf
    have hvalid' : p.fieldsValid m (p.D + 1) (p.rankOf m (p.D + 1) (f / 2 ^ p.latInnerBits)) = true := by
      have := (@DecodeParams.Wf.candidate_leaf _ m (f / 2 ^ p.latInnerBits) _ h (Nat.mod_lt f hpos)).2
      rw [Nat.div_add_mod'] at this
      rw [this]
      exact hvalid.1
    have hcongr : p.rankAt m (p.D + 1) (p.latDigits (p.flatLeaf m f)) = p.rankAt m (p.D + 1) (p.flatDigits m f) := by
      rw [← hindex]
      exact rankAt_congr fun l hl => h.latDigits_latIndex hb hl
    rw [hcongr, ← h.rankOf_unitOf]
    have := h.unitOf_digitsAt hunit hlt hvalid'
    unfold flatDigits
    rw [this, (h.candidate_leaf (m := m) (Nat.mod_lt f hpos)).2, Nat.div_add_mod']
  have hmod : p.flatLeaf m f % 2 ^ p.latLocalBits = f % 2 ^ p.latLocalBits := by
    unfold flatLeaf
    rw [Nat.add_comm, Nat.add_mul_mod_self_right, Nat.mod_mod]
  rw [hrank, hmod, Nat.div_add_mod']

/-- The candidates count the places of whole owners. -/
theorem nCandidates_eq (hpub : p.Published m) (hne : ∀ l < p.D, p.termList m (p.D + 1) l ≠ []) :
    p.nCandidates m * 16 = 2 ^ p.termBits m (p.D + 1) * 2 ^ p.latInnerBits := by
  have hunits : p.units m (p.D + 1) = 2 ^ p.termBits m (p.D + 1) := by
    rw [units_eq hpub (by omega), if_neg]
    rintro ⟨l, hl, hzero⟩
    exact hne l hl (List.length_eq_zero_iff.1 hzero)
  have hle : p.latUnitsPerAtomShift ≤ p.termBits m (p.D + 1) := by
    have hlocal := h.localBits_split
    have hbox := hs.box
    unfold termBits
    rw [if_neg (Nat.succ_ne_zero _), hs.atom]
    omega
  have hexp : p.termBits m (p.D + 1) - p.latUnitsPerAtomShift + p.atomsPerUnitShift + atomShift =
      p.termBits m (p.D + 1) + p.latInnerBits := by
    have hu := hs.unit
    have ha := hs.atom
    omega
  unfold nCandidates
  rw [hunits, Nat.shiftRight_eq_div_pow, Nat.shiftLeft_eq, Nat.pow_div hle (by decide),
    show (16 : ℕ) = 2 ^ atomShift from rfl, ← pow_add, ← pow_add, ← pow_add, hexp]

/-- The place of a written leaf. -/
theorem exists_flat {leaf : ℕ} (hpub : p.Published m) (hmem : leaf ∈ p.written m) :
    ∃ f, f / 16 < p.nCandidates m ∧ p.flatLive m f = true ∧ p.flatLeaf m f = leaf := by
  obtain ⟨hlt, hw⟩ := List.mem_filter.1 hmem
  have hlive : p.Live m (p.D + 1) (p.latDigits leaf) := live_candidate.2 hw
  have hb := @DecodeParams.Wf.latDigits_bounded _ leaf h
  have ht : p.latDigits leaf (p.D - 1) % p.latS (p.D - 1) < 2 ^ p.latInnerBits := by
    rw [← h.S_last]
    exact Nat.mod_lt _ (h.S_pos _)
  have hdig := fun l (hl : l < p.D) => h.digitsAt_unitOf (m := m) hb hlive hl
  obtain ⟨-, hrank⟩ := @DecodeParams.Wf.candidate_leaf _ m (p.unitOf m (p.D + 1) (p.latDigits leaf)) _ h ht
  have hdiv : (p.unitOf m (p.D + 1) (p.latDigits leaf) * 2 ^ p.latInnerBits +
      p.latDigits leaf (p.D - 1) % p.latS (p.D - 1)) / 2 ^ p.latInnerBits = p.unitOf m (p.D + 1) (p.latDigits leaf) := by
    rw [Nat.add_comm, Nat.mul_comm (p.unitOf m _ _), BitFields.high_eq ht]
  have hmod : (p.unitOf m (p.D + 1) (p.latDigits leaf) * 2 ^ p.latInnerBits +
      p.latDigits leaf (p.D - 1) % p.latS (p.D - 1)) % 2 ^ p.latInnerBits = p.latDigits leaf (p.D - 1) % p.latS (p.D - 1) := by
    rw [Nat.add_comm, Nat.mul_comm (p.unitOf m _ _), BitFields.low_eq ht]
  have hflat : p.flatLive m (p.unitOf m (p.D + 1) (p.latDigits leaf) * 2 ^ p.latInnerBits +
      p.latDigits leaf (p.D - 1) % p.latS (p.D - 1)) = true := by
    unfold flatLive flatDigits
    rw [← hrank, h.fieldsValid_unitOf hb hlive, hdiv, hmod, Bool.true_and, inProduct_congr hdig]
    exact hw
  refine ⟨_, ?_, hflat, ?_⟩
  · rw [Nat.div_lt_iff_lt_mul (by decide), h.nCandidates_eq hs hpub fun l hl =>
      List.ne_nil_of_mem (h.entryOf_mem hb hlive hl)]
    have hunit := h.unitOf_lt hb hlive
    calc _ < p.unitOf m (p.D + 1) (p.latDigits leaf) * 2 ^ p.latInnerBits + 2 ^ p.latInnerBits := by omega
      _ = (p.unitOf m (p.D + 1) (p.latDigits leaf) + 1) * 2 ^ p.latInnerBits := by ring
      _ ≤ _ := Nat.mul_le_mul_right _ hunit
  · rw [← (h.flat_written hflat).1]
    unfold flatDigits
    rw [hdiv, hmod, h.latIndex_congr hdig, h.latIndex_latDigits (List.mem_range.1 hlt)]

/-- A live place a candidate counts is one of its owners'. -/
theorem flat_lt (hpub : p.Published m) (hf : f / 16 < p.nCandidates m) (hlive : p.flatLive m f = true) :
    f < 2 ^ p.termBits m (p.D + 1) * 2 ^ p.latInnerBits := by
  unfold flatLive at hlive
  rw [Bool.and_eq_true] at hlive
  rwa [Nat.div_lt_iff_lt_mul (by decide), h.nCandidates_eq hs hpub (h.nonempty_of_valid hlive.1)] at hf

/-- Places of one atom are one candidate's. -/
theorem flat_inj {f' : ℕ} (hpub : p.Published m) (hf : f / 16 < p.nCandidates m) (hf' : f' / 16 < p.nCandidates m)
    (hlive : p.flatLive m f = true) (hlive' : p.flatLive m f' = true)
    (heq : p.flatLeaf m f / 16 = p.flatLeaf m f' / 16) : f / 16 = f' / 16 := by
  obtain ⟨c, hc⟩ := hs.dvd
  have hbox : ∀ leaf leaf' : ℕ, leaf / 16 = leaf' / 16 → leaf / 2 ^ p.latLocalBits = leaf' / 2 ^ p.latLocalBits := by
    intro leaf leaf' h16
    rw [hc, ← Nat.div_div_eq_div_mul, ← Nat.div_div_eq_div_mul, h16]
  have hrank : p.rankAt m (p.D + 1) (p.latDigits (p.flatLeaf m f)) =
      p.rankAt m (p.D + 1) (p.latDigits (p.flatLeaf m f')) := by
    refine encode_congr (fun _ _ => rfl) fun l hl => ?_
    unfold entryOf
    rw [if_neg (fun hc => Nat.succ_ne_zero _ hc.1), if_neg (fun hc => Nat.succ_ne_zero _ hc.1), h.latDigits_div hl,
      h.latDigits_div hl, hbox _ _ heq]
  have hplace := h.flat_eq_rank (h.flat_lt hs hpub hf hlive) hlive
  have hplace' := h.flat_eq_rank (h.flat_lt hs hpub hf' hlive') hlive'
  have hdiv : ∀ r leaf : ℕ, (r * (16 * c) + leaf % (16 * c)) / 16 = r * c + leaf / 16 % c := by
    intro r leaf
    rw [Nat.mul_left_comm, Nat.mul_add_div (by decide), Nat.mod_mul_right_div_self]
  rw [hplace, hplace', hc, hdiv, hdiv, hrank, heq]

/-- A candidate's live place. -/
theorem exists_place (hx : p.candidateAtom m i = some x) :
    ∃ f, f / 16 = i ∧ p.flatLive m f = true ∧ x = p.flatLeaf m f / 16 := by
  obtain ⟨⟨j, hj, hl⟩, rfl⟩ := (h.candidateAtom_eq_some hs).1 hx
  exact ⟨16 * i + j, by omega, hl, (hs.flat_eq hj).2.symm⟩

/-- The candidates are the write product's atoms, each once. -/
theorem candidates_spec (hpub : p.Published m) : (p.candidates m).Nodup ∧
    ∀ atom, atom ∈ p.candidates m ↔ ∃ leaf ∈ p.written m, leaf / 16 = atom := by
  refine ⟨List.pairwise_filterMap.2 ?_, fun atom => ⟨fun hmem => ?_, ?_⟩⟩
  · refine List.nodup_range.pairwise_of_forall_ne fun i hi i' hi' hne x hx x' hx' heq => hne ?_
    obtain ⟨f, rfl, hl, rfl⟩ := h.exists_place hs hx
    obtain ⟨f', rfl, hl', rfl⟩ := h.exists_place hs hx'
    exact h.flat_inj hs hpub (List.mem_range.1 hi) (List.mem_range.1 hi') hl hl' heq
  · obtain ⟨i, -, hx⟩ := List.mem_filterMap.1 hmem
    obtain ⟨f, -, hl, rfl⟩ := h.exists_place hs hx
    exact ⟨_, (h.flat_written hl).2, rfl⟩
  · rintro ⟨leaf, hleaf, rfl⟩
    obtain ⟨f, hf, hl, rfl⟩ := h.exists_flat hs hpub hleaf
    refine List.mem_filterMap.2 ⟨f / 16, List.mem_range.2 hf, (h.candidateAtom_eq_some hs).2 ⟨⟨f % 16, ?_, ?_⟩, ?_⟩⟩
    · exact Nat.mod_lt _ (by decide)
    · rwa [Nat.div_add_mod]
    · have := (hs.flat_eq (m := m) (i := f / 16) (j := f % 16) (Nat.mod_lt _ (by decide))).2
      rw [Nat.div_add_mod] at this
      exact this

end Wf

end DecodeParams

/-- The shifts of an accepted block a paged step may walk. -/
theorem fillLattice_shifts {D k m N rows : ℕ} {w : ℕ → ℕ} {p : DecodeParams} (h : fillLattice D w rows k m N = .ok p) :
    p.atomsPerUnitShift = p.latInnerBits - atomShift ∧ p.latUnitsPerAtomShift = atomShift - p.latInnerBits := by
  unfold fillLattice at h
  split at h
  · cases h
  · cases h
  split at h
  · cases h
  dsimp only at h
  split at h
  · cases h
  split at h
  · cases h
  split at h
  · cases h
  cases h
  exact ⟨rfl, rfl⟩

end Rola
