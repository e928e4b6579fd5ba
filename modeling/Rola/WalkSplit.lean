import Rola.WalkTerms
import Mathlib.Data.Nat.Prime.Basic
import Mathlib.Algebra.Order.BigOperators.Group.Finset

/-!
# The walk split over CTAs, warps and repeats

The threads that start below the period share out each term's units, a retired segment having none.
The `int`s hold all of it exactly when the leaves, and the units a period past the last, stay below
`2 ^ 31`.
-/

namespace Rola

open MixedRadix

namespace DecodeParams

variable {p : DecodeParams} {m : Masks} {nSplit seg warp term unit x l : ℕ}

/-- The units of the widest term there can be: one for each run of the lattice. -/
def unitCap (p : DecodeParams) : ℕ := p.N / p.latS (p.D - 1)

/-- What the `int`s hold. -/
def Fits (p : DecodeParams) (nSplit : ℕ) : Prop := p.N ≤ intCeiling ∧ p.unitCap + 32 * nSplit ≤ intCeiling

/-! ### The threads -/

theorem firstUnit_eq : firstUnit nSplit seg warp = seg * 8 + warp % 8 + warp / 8 * (nSplit * 8) := by
  unfold firstUnit unitBlockWarps unitBlockWarpsBits
  rw [show 8 - 1 = 2 ^ 3 - 1 from rfl, Nat.and_two_pow_sub_one_eq_mod, Nat.shiftRight_eq_div_pow]

theorem firstUnit_lt (hseg : seg < nSplit) (hwarp : warp < decodeWarps) :
    firstUnit nSplit seg warp < 32 * nSplit := by
  unfold decodeWarps at hwarp
  rw [firstUnit_eq]
  have h1 : warp / 8 * (nSplit * 8) ≤ 3 * (nSplit * 8) := Nat.mul_le_mul_right _ (by omega)
  omega

/-- The segment and the warp whose first unit is `x`. -/
theorem exists_firstUnit (hx : x < 32 * nSplit) : ∃ seg < nSplit, ∃ warp < decodeWarps, firstUnit nSplit seg warp = x := by
  have hpos : 0 < nSplit * 8 := by omega
  have hq : x / (nSplit * 8) < 4 := (Nat.div_lt_iff_lt_mul hpos).2 (by omega)
  have hr : x % (nSplit * 8) < nSplit * 8 := Nat.mod_lt _ hpos
  have hdvd : x % (nSplit * 8) % 8 = x % 8 := Nat.mod_mod_of_dvd _ ⟨nSplit, Nat.mul_comm _ _⟩
  refine ⟨x % (nSplit * 8) / 8, by omega, x / (nSplit * 8) * 8 + x % 8, ?_, ?_⟩
  · unfold decodeWarps
    omega
  · have h1 : (x / (nSplit * 8) * 8 + x % 8) % 8 = x % 8 := by omega
    have h2 : (x / (nSplit * 8) * 8 + x % 8) / 8 = x / (nSplit * 8) := by omega
    have h3 := Nat.div_add_mod' x (nSplit * 8)
    rw [firstUnit_eq, h1, h2]
    omega

theorem firstUnit_inj {seg' warp' : ℕ} (hseg : seg < nSplit) (hseg' : seg' < nSplit)
    (heq : firstUnit nSplit seg warp = firstUnit nSplit seg' warp') : seg = seg' ∧ warp = warp' := by
  rw [firstUnit_eq, firstUnit_eq, Nat.add_comm, Nat.add_comm _ (warp' / 8 * _)] at heq
  obtain ⟨h1, h2⟩ := mul_add_inj (by omega) (by omega) heq
  omega

/-- Every thread, once. -/
theorem firstUnits_perm (nSplit : ℕ) : ((List.range nSplit).flatMap fun seg =>
    (List.range decodeWarps).map (firstUnit nSplit seg)).Perm (List.range (32 * nSplit)) := by
  have hnodup : ((List.range nSplit).flatMap fun seg => (List.range decodeWarps).map (firstUnit nSplit seg)).Nodup :=
    Strided.nodup_flatMap_map List.nodup_range (fun _ _ => List.nodup_range) fun seg hseg warp _ seg' hseg' warp' _ heq =>
      firstUnit_inj (List.mem_range.1 hseg) (List.mem_range.1 hseg') heq
  refine (List.perm_ext_iff_of_nodup hnodup List.nodup_range).2 fun x => ?_
  simp only [List.mem_flatMap, List.mem_map, List.mem_range]
  constructor
  · rintro ⟨seg, hseg, warp, hwarp, rfl⟩
    exact firstUnit_lt hseg hwarp
  · intro hx
    exact exists_firstUnit hx

theorem unitLoop_eq (hcap : 32 * nSplit ≤ intCeiling) (hseg : seg < nSplit) (hwarp : warp < decodeWarps) :
    p.unitLoop m nSplit seg warp term =
      Strided.loop intCeiling (32 * nSplit) (p.units m term) (firstUnit nSplit seg warp) := by
  have hlt := firstUnit_lt hseg hwarp
  have hstep : nSplit * unitBlockWarps * unitRepeats = 32 * nSplit := by
    unfold unitBlockWarps unitRepeats
    omega
  unfold unitLoop
  rw [if_pos (by omega), hstep]

/-- The units of the thread that starts at `x`. -/
def threadUnits (p : DecodeParams) (m : Masks) (nSplit term x : ℕ) : List ℕ :=
  (Strided.loop intCeiling (32 * nSplit) (p.units m term) x).getD []

/-- Its visits, term by term. -/
def threadVisits (p : DecodeParams) (m : Masks) (nSplit x : ℕ) : List Visit :=
  (List.range (p.D + 1)).flatMap fun term => (p.threadUnits m nSplit term x).flatMap fun unit =>
    (p.unitRun term (p.walkUnit m term unit)).map (p.visitAt term (p.walkUnit m term unit))

/-- A batch-head's visits, thread by thread. -/
def headVisits (p : DecodeParams) (m : Masks) (nSplit : ℕ) : List Visit :=
  (List.range nSplit).flatMap fun seg => (List.range decodeWarps).flatMap fun warp =>
    p.threadVisits m nSplit (firstUnit nSplit seg warp)

/-! ### What is in range -/

theorem latG_pow {e : ℕ} (h : p.Wf) (hl : l < p.D) (he : p.levelWidth l = 2 ^ e) : ∃ i, p.latG l = 2 ^ i := by
  have hdvd : p.latG l ∣ 2 ^ e := ⟨p.latS l, by rw [h.width_eq l hl, he]⟩
  obtain ⟨i, -, hi⟩ := (Nat.dvd_prime_pow Nat.prime_two).1 hdvd
  exact ⟨i, hi⟩

theorem pow_termWidth_le {b e : ℕ} (hb : b = 2 ^ e) (hle : (p.termList m term l).length ≤ b) :
    2 ^ p.termWidth m term l ≤ b := by
  rw [hb] at hle ⊢
  exact Nat.pow_le_pow_right (by decide) (Nat.clog_le_of_le_pow hle)

namespace Wf

variable (h : p.Wf)
include h

theorem unitCap_eq : p.unitCap = size p.levelWidth (p.D - 1) * p.latG (p.D - 1) := by
  obtain ⟨n, hn⟩ : ∃ n, p.D = n + 1 := ⟨p.D - 1, by have := h.D_pos; omega⟩
  have hlast := h.width_eq _ h.last_lt
  unfold unitCap
  rw [← h.N_eq]
  refine Nat.div_eq_of_eq_mul_left (h.S_pos _) ?_
  rw [mul_assoc, hlast, hn]
  exact size_succ

theorem unitCap_outer : p.unitCap = size p.latG p.D * 2 ^ p.latOuterBits := by
  obtain ⟨n, hn⟩ : ∃ n, p.D = n + 1 := ⟨p.D - 1, by have := h.D_pos; omega⟩
  unfold unitCap
  rw [← h.size_eq, ← h.size_outer]
  refine Nat.div_eq_of_eq_mul_left (h.S_pos _) ?_
  rw [mul_assoc, hn]
  congr 1
  exact size_succ

/-- No term has more units than the lattice has runs. -/
theorem pow_termBits_le (hw : ∀ l < p.D, ∃ e, p.levelWidth l = 2 ^ e) (term : ℕ) : 2 ^ p.termBits m term ≤ p.unitCap := by
  have howners : ∀ l < p.D, ¬(term = 0 ∧ l < p.D - 1) → 2 ^ p.termWidth m term l ≤ p.latG l := by
    intro l hl hc
    obtain ⟨e, he⟩ := hw l hl
    obtain ⟨i, hi⟩ := latG_pow h hl he
    refine pow_termWidth_le hi ?_
    unfold termList
    rw [if_neg hc]
    exact (List.length_filter_le _ _).trans_eq List.length_range
  unfold termBits
  rw [pow_add, ← Finset.prod_pow_eq_pow_sum]
  rcases eq_or_ne term 0 with rfl | hterm
  · have hdigits : ∀ l < p.D - 1, 2 ^ p.termWidth m 0 l ≤ p.levelWidth l := by
      intro l hl
      obtain ⟨e, he⟩ := hw l (by omega)
      refine pow_termWidth_le he ?_
      unfold termList
      rw [if_pos ⟨rfl, hl⟩]
      exact (List.length_filter_le _ _).trans_eq List.length_range
    obtain ⟨n, hn⟩ : ∃ n, p.D = n + 1 := ⟨p.D - 1, by have := h.D_pos; omega⟩
    have hlast := howners (p.D - 1) h.last_lt fun hc => lt_irrefl _ hc.2
    rw [if_pos rfl, pow_zero, mul_one, h.unitCap_eq, hn, Finset.prod_range_succ]
    rw [hn] at hdigits hlast
    exact Nat.mul_le_mul (Finset.prod_le_prod' fun l hl => hdigits l (Finset.mem_range.1 hl)) hlast
  · rw [if_neg hterm, h.unitCap_outer]
    refine Nat.mul_le_mul_right _ (Finset.prod_le_prod' fun l hl => ?_)
    exact howners l (Finset.mem_range.1 hl) fun hc => hterm hc.1

section Fits

variable (hw : ∀ l < p.D, ∃ e, p.levelWidth l = 2 ^ e) (hn : 1 ≤ nSplit) (hfits : p.Fits nSplit)
include hw hn hfits

theorem published (m : Masks) : p.Published m := by
  intro term _
  have hle := h.pow_termBits_le (m := m) hw term
  have hlt : p.termBits m term < 31 := by
    by_contra hge
    have h31 : (2 : ℕ) ^ 31 ≤ 2 ^ p.termBits m term := Nat.pow_le_pow_right (by decide) (by omega)
    have hcap := hfits.2
    unfold intCeiling at hcap
    omega
  unfold termUnits
  split
  · rfl
  · rfl

/-- A thread's loop over a term, and what it runs through. -/
theorem threadUnits_spec (m : Masks) (hD : term ≤ p.D) (x : ℕ) :
    Strided.loop intCeiling (32 * nSplit) (p.units m term) x = some (p.threadUnits m nSplit term x) ∧
      Strided.Runs (32 * nSplit) (p.units m term) x (p.threadUnits m nSplit term x) := by
  have hle := (units_le (h.published hw hn hfits m) (by omega)).trans (h.pow_termBits_le hw term)
  have hcap := hfits.2
  obtain ⟨l, hl, hruns⟩ := @Strided.loop_runs intCeiling (32 * nSplit) (p.units m term) x (by omega) (by omega)
  unfold threadUnits
  rw [hl]
  exact ⟨rfl, hruns⟩

/-- A unit below its term's count visits its run. -/
theorem unitVisits_eq (m : Masks) (hD : term ≤ p.D) (hunit : unit < p.units m term) :
    p.unitVisits m term unit =
      some ((p.unitRun term (p.walkUnit m term unit)).map (p.visitAt term (p.walkUnit m term unit))) := by
  have hne : ∀ l < p.D, p.termList m term l ≠ [] := by
    intro l hl hnil
    rw [units_eq (h.published hw hn hfits m) (by omega), if_pos ⟨l, hl, by rw [hnil]; rfl⟩] at hunit
    omega
  have hleaf : ∀ t < p.latS (p.D - 1), (p.walkUnit m term unit).base + t < intCeiling := by
    intro t ht
    have heq : (p.walkUnit m term unit).base + t = p.latIndex (p.digitsAt m term unit t) := h.leaf_visitAt ht
    rw [heq]
    exact (h.latIndex_lt (h.digitsAt_bounded ht hne)).trans_le hfits.1
  have hbase : (p.walkUnit m term unit).base < intCeiling := hleaf 0 (h.S_pos _)
  have hrun : ∀ t ∈ p.unitRun term (p.walkUnit m term unit),
      (if (p.walkUnit m term unit).base + t < intCeiling then some [p.visitAt term (p.walkUnit m term unit) t] else none) =
        some [p.visitAt term (p.walkUnit m term unit) t] := fun t ht => if_pos (hleaf t (h.mem_unitRun.1 ht).1)
  unfold unitVisits
  dsimp only
  rw [if_pos hbase, Strided.collect_eq_some (g := fun t => [p.visitAt term (p.walkUnit m term unit) t]) hrun,
    List.map_eq_flatMap]

/-- One warp's visits. -/
theorem warpVisits_eq (m : Masks) (hseg : seg < nSplit) (hwarp : warp < decodeWarps) :
    p.warpVisits m nSplit seg warp = some (p.threadVisits m nSplit (firstUnit nSplit seg warp)) := by
  refine Strided.collect_eq_some fun term hterm => ?_
  have hD := Nat.le_of_lt_succ (List.mem_range.1 hterm)
  obtain ⟨hloop, hruns⟩ := h.threadUnits_spec hw hn hfits m hD (firstUnit nSplit seg warp)
  have hcap : 32 * nSplit ≤ intCeiling := by
    have := hfits.2
    omega
  rw [unitLoop_eq hcap hseg hwarp, hloop, Option.bind_some]
  refine Strided.collect_eq_some fun unit hunit => ?_
  exact h.unitVisits_eq hw hn hfits m hD ((hruns.mem unit).1 hunit).2.1

/-- A retired segment has no units. -/
theorem threadVisits_retired (m : Masks) (hret : p.retired m seg = true) :
    p.threadVisits m nSplit (firstUnit nSplit seg warp) = [] := by
  have hmax : p.umax m ≤ seg * 8 := (decide_eq_true_iff.1 hret).2
  refine List.flatMap_eq_nil_iff.2 fun term hterm => ?_
  have hD := Nat.le_of_lt_succ (List.mem_range.1 hterm)
  obtain ⟨-, hruns⟩ := h.threadUnits_spec hw hn hfits m hD (firstUnit nSplit seg warp)
  have hle : p.units m term ≤ p.umax m := Finset.le_sup (Finset.mem_range.2 (List.mem_range.1 hterm))
  have hnil : p.threadUnits m nSplit term (firstUnit nSplit seg warp) = [] := by
    refine List.eq_nil_iff_forall_not_mem.2 fun unit hunit => ?_
    obtain ⟨h1, h2, -⟩ := (hruns.mem unit).1 hunit
    rw [firstUnit_eq] at h1
    omega
  rw [hnil]
  rfl

theorem ctaVisits_eq (m : Masks) (hseg : seg < nSplit) : p.ctaVisits m nSplit seg =
    some ((List.range decodeWarps).flatMap fun warp => p.threadVisits m nSplit (firstUnit nSplit seg warp)) := by
  have hcap := hfits.2
  unfold ctaVisits
  rw [if_neg (by unfold unitBlockWarps; omega)]
  split
  · rename_i hret
    congr 1
    exact (List.flatMap_eq_nil_iff.2 fun warp _ => h.threadVisits_retired hw hn hfits m hret).symm
  · exact Strided.collect_eq_some fun warp hwarp => h.warpVisits_eq hw hn hfits m hseg (List.mem_range.1 hwarp)

theorem walk_eq (m : Masks) : p.walk m nSplit = some (p.headVisits m nSplit) := by
  unfold walk
  rw [if_pos (h.published hw hn hfits m)]
  exact Strided.collect_eq_some fun seg hseg => h.ctaVisits_eq hw hn hfits m (List.mem_range.1 hseg)

/-- The launch visits what the terms do, whatever the split. -/
theorem headVisits_perm (m : Masks) :
    (p.headVisits m nSplit).Perm ((List.range (p.D + 1)).flatMap (p.termVisits m)) := by
  have hthreads : (p.headVisits m nSplit).Perm ((List.range (32 * nSplit)).flatMap (p.threadVisits m nSplit)) := by
    have hperm := (firstUnits_perm nSplit).flatMap_right (p.threadVisits m nSplit)
    unfold headVisits
    simpa only [List.flatMap_assoc, List.flatMap_map] using hperm
  refine hthreads.trans ((Strided.flatMap_comm _ _ _).trans (List.Perm.flatMap_left _ fun term hterm => ?_))
  have hD := Nat.le_of_lt_succ (List.mem_range.1 hterm)
  have hshare := Strided.perm_range (L := p.threadUnits m nSplit term)
    (fun x _ => (h.threadUnits_spec hw hn hfits m hD x).2) (by omega)
  rw [← List.flatMap_assoc]
  exact hshare.flatMap_right _

/-- Each touched leaf once, on its sides; the write term the write product. -/
theorem walk_exact (m : Masks) : ∃ vs, p.walk m nSplit = some vs ∧ (vs.map Visit.mark).Perm (p.touched m) ∧
    ((vs.filter fun v => v.term = 0).map Visit.leaf).Perm (p.written m) := by
  have hpub := h.published hw hn hfits m
  have hperm := h.headVisits_perm hw hn hfits m
  refine ⟨_, h.walk_eq hw hn hfits m, (hperm.map _).trans (h.visits_perm hpub), ?_⟩
  have hwrite : ((List.range (p.D + 1)).flatMap (p.termVisits m)).filter (fun v => v.term = 0) = p.termVisits m 0 := by
    have hzero : (p.termVisits m 0).filter (fun v => v.term = 0) = p.termVisits m 0 :=
      List.filter_eq_self.2 fun v hv => decide_eq_true (h.of_mem_termVisits (Nat.zero_le _) hv).1
    rw [List.filter_flatMap, List.range_succ_eq_map, List.flatMap_cons, hzero, List.flatMap_map]
    refine (congrArg _ (List.flatMap_eq_nil_iff.2 fun term hterm => ?_)).trans (List.append_nil _)
    refine List.filter_eq_nil_iff.2 fun v hv hz => ?_
    have hterm' := (h.of_mem_termVisits (List.mem_range.1 hterm) hv).1
    have hz' : v.term = 0 := of_decide_eq_true hz
    omega
  exact ((hperm.filter _).map _).trans (hwrite ▸ h.written_perm hpub)

end Fits

end Wf

/-! ### Past the ceiling -/

/-- Every digit on both sides. -/
def fullMasks : Masks := ⟨fun _ _ => true, fun _ _ => true⟩

/-- A unit whose thread runs over, or whose visit does, leaves the launch undefined. -/
theorem walk_eq_none (hD : term ≤ p.D) (hunit : unit < p.units m term) (hn : 1 ≤ nSplit)
    (hbad : intCeiling ≤ unit + 32 * nSplit ∨ p.unitVisits m term unit = none) : p.walk m nSplit = none := by
  unfold walk
  split
  · obtain ⟨seg, hseg, warp, hwarp, hx⟩ := exists_firstUnit (Nat.mod_lt unit (show 0 < 32 * nSplit by omega))
    have hle : unit % (32 * nSplit) ≤ unit := Nat.mod_le _ _
    have hmod : (unit - unit % (32 * nSplit)) % (32 * nSplit) = 0 :=
      Nat.sub_mod_eq_zero_of_mod_eq (Nat.mod_mod _ _).symm
    have hstep : nSplit * unitBlockWarps * unitRepeats = 32 * nSplit := by
      unfold unitBlockWarps unitRepeats
      omega
    refine Strided.collect_eq_none (List.mem_range.2 hseg) ?_
    unfold ctaVisits
    split
    · rfl
    · have hlive : p.retired m seg = false := by
        refine decide_eq_false fun ⟨_, hmax⟩ => ?_
        have hsup : p.units m term ≤ p.umax m := Finset.le_sup (Finset.mem_range.2 (Nat.lt_succ_of_le hD))
        rw [firstUnit_eq] at hx
        unfold unitBlockWarps at hmax
        omega
      rw [hlive, if_neg Bool.false_ne_true]
      refine Strided.collect_eq_none (List.mem_range.2 hwarp) ?_
      refine Strided.collect_eq_none (List.mem_range.2 (Nat.lt_succ_of_le hD)) ?_
      unfold unitLoop
      rw [hx, hstep]
      split
      · rcases hloop : Strided.loop intCeiling (32 * nSplit) (p.units m term) (unit % (32 * nSplit)) with _ | l
        · rfl
        · rcases hbad with hover | hnone
          · rw [Strided.loop_eq_none hle hunit hmod hover] at hloop
            cases hloop
          · exact Strided.collect_eq_none (Strided.mem_of_loop hloop hle hunit hmod) hnone
      · rfl
  · rfl

namespace Wf

variable (h : p.Wf)
include h

omit h in
theorem live_full (d : ℕ → ℕ) : p.Live fullMasks 0 d := live_write.2 (inProduct_iff.2 fun _ _ => rfl)

/-- With every digit live the write term has a unit for each run. -/
theorem units_full (hw : ∀ l < p.D, ∃ e, p.levelWidth l = 2 ^ e) (hpub : p.Published fullMasks) :
    p.units fullMasks 0 = p.unitCap := by
  obtain ⟨n, hn⟩ : ∃ n, p.D = n + 1 := ⟨p.D - 1, by have := h.D_pos; omega⟩
  have hd : ∀ l < p.D - 1, p.termList fullMasks 0 l = List.range (p.levelWidth l) := by
    intro l hl
    unfold termList dlist
    rw [if_pos ⟨rfl, hl⟩]
    exact List.filter_eq_self.2 fun _ _ => rfl
  have ho : p.termList fullMasks 0 (p.D - 1) = List.range (p.latG (p.D - 1)) := by
    unfold termList olist
    rw [if_neg fun hc => lt_irrefl _ hc.2]
    exact List.filter_eq_self.2 fun o _ => ownerLive_iff.2 ⟨0, h.S_pos _, rfl⟩
  have hpow : ∀ {b e : ℕ}, b = 2 ^ e → 2 ^ Nat.clog 2 (List.range b).length = b := by
    rintro b e rfl
    rw [List.length_range, Nat.clog_pow 2 e (by decide)]
  have hprod : 2 ^ p.termBits fullMasks 0 = p.unitCap := by
    unfold termBits
    rw [if_pos rfl, Nat.add_zero, ← Finset.prod_pow_eq_pow_sum, h.unitCap_eq, hn, Finset.prod_range_succ]
    rw [hn] at hd ho
    congr 1
    · refine Finset.prod_congr rfl fun l hl => ?_
      have hl' := Finset.mem_range.1 hl
      obtain ⟨e, he⟩ := hw l (by omega)
      unfold termWidth
      rw [hd l hl']
      exact hpow he
    · obtain ⟨e, he⟩ := hw n (by omega)
      obtain ⟨i, hi⟩ := latG_pow h (by omega) he
      unfold termWidth
      have ho' : p.termList fullMasks 0 n = List.range (p.latG n) := ho
      rw [ho']
      exact hpow hi
  rw [units_eq hpub (by omega), if_neg, hprod]
  rintro ⟨l, hl, hzero⟩
  rcases Nat.lt_or_ge l (p.D - 1) with hlt | hge
  · rw [hd l hlt, List.length_range] at hzero
    have := h.width_pos l hl
    omega
  · obtain rfl : l = p.D - 1 := by omega
    rw [ho, List.length_range] at hzero
    have := h.G_pos _ hl
    omega

theorem unitCap_pos : 0 < p.unitCap := by
  rw [h.unitCap_outer]
  exact Nat.mul_pos (size_pos h.G_pos) (by positivity)

/-- Past the ceiling the full masks have no walk. -/
theorem walk_full_eq_none (hw : ∀ l < p.D, ∃ e, p.levelWidth l = 2 ^ e) (hn : 1 ≤ nSplit) (hover : ¬p.Fits nSplit) :
    p.walk fullMasks nSplit = none := by
  by_cases hpub : p.Published fullMasks
  · have hunits := h.units_full hw hpub
    have hpos := h.unitCap_pos
    by_cases hcap : p.unitCap + 32 * nSplit ≤ intCeiling
    · -- the last leaf has no `int`
      have hN : intCeiling < p.N := by
        by_contra hle
        exact hover ⟨not_lt.1 hle, hcap⟩
      have hleaf : p.N - 1 < p.N := by omega
      have hb := @DecodeParams.Wf.latDigits_bounded _ (p.N - 1) h
      have hlive := live_full (p := p) (p.latDigits (p.N - 1))
      have ht : p.latDigits (p.N - 1) (p.D - 1) % p.latS (p.D - 1) < p.latS (p.D - 1) := Nat.mod_lt _ (h.S_pos _)
      have hdig := fun l (hl : l < p.D) => h.digitsAt_unitOf (m := fullMasks) hb hlive hl
      have hlt := h.unitOf_lt hb hlive
      have hmem := h.mem_unitRun.2 ⟨ht, h.fieldsValid_unitOf hb hlive, (live_congr hdig).2 hlive⟩
      have hidx : (p.walkUnit fullMasks 0 (p.unitOf fullMasks 0 (p.latDigits (p.N - 1)))).base +
          p.latDigits (p.N - 1) (p.D - 1) % p.latS (p.D - 1) = p.N - 1 := by
        have heq := @DecodeParams.Wf.leaf_visitAt _ fullMasks 0 (p.unitOf fullMasks 0 (p.latDigits (p.N - 1))) _ h ht
        exact heq.trans ((h.latIndex_congr hdig).trans (h.latIndex_latDigits hleaf))
      refine @DecodeParams.walk_eq_none _ _ _ _ (p.unitOf fullMasks 0 (p.latDigits (p.N - 1))) (Nat.zero_le _) ?_ hn (.inr ?_)
      · rw [units_eq hpub (by omega)] at hunits ⊢
        split
        · rename_i hempty
          rw [if_pos hempty] at hunits
          omega
        · exact hlt
      · unfold unitVisits
        dsimp only
        split
        · refine Strided.collect_eq_none hmem (if_neg ?_)
          rw [hidx]
          omega
        · rfl
    · exact @DecodeParams.walk_eq_none _ _ _ _ (p.unitCap - 1) (Nat.zero_le _) (by omega) hn (.inl (by omega))
  · exact if_neg hpub

end Wf

end DecodeParams

/-- Of an accepted lattice, and a split: the walk visits each touched leaf exactly once, on its sides, for
every masks, exactly when its `int`s hold the leaves and the units a period past the last. -/
theorem walk_visits_once {D k m N nSplit : ℕ} {w : ℕ → ℕ} {p : DecodeParams} (hp : decodeParams D w k m N = .ok p)
    (hw : ∀ l < D, ∃ e, w l = 2 ^ e) (hn : 1 ≤ nSplit) :
    (∀ masks : Masks, ∃ vs, p.walk masks nSplit = some vs ∧ (vs.map Visit.mark).Perm (p.touched masks) ∧
      ((vs.filter fun v => v.term = 0).map Visit.leaf).Perm (p.written masks)) ↔
    p.N ≤ 2 ^ 31 ∧ p.N / p.latS (p.D - 1) + 32 * nSplit ≤ 2 ^ 31 := by
  have h := decodeParams_wf hp
  obtain ⟨-, -, rows, -, hfill⟩ := decodeParams_ok hp
  obtain ⟨-, -, -, -, rfl, -, rfl, -⟩ := fillLattice_ok hfill
  constructor
  · intro hall
    by_contra hover
    obtain ⟨vs, hvs, -⟩ := hall DecodeParams.fullMasks
    rw [h.walk_full_eq_none hw hn hover] at hvs
    cases hvs
  · intro hfits masks
    exact h.walk_exact hw hn hfits masks

/-- Two levels of sixteen, split in three. -/
theorem walk_visits_once_square : ∃ p, decodeParams 2 (fun _ => 16) 16 1 256 = .ok p ∧ ∀ masks : Masks,
    ∃ vs, p.walk masks 3 = some vs ∧ (vs.map Visit.mark).Perm (p.touched masks) ∧
      ((vs.filter fun v => v.term = 0).map Visit.leaf).Perm (p.written masks) := by
  rcases hp : decodeParams 2 (fun _ => 16) 16 1 256 with err | p
  · have hok : (decodeParams 2 (fun _ => 16) 16 1 256).isOk = true := by decide +kernel
    rw [hp] at hok
    cases hok
  · obtain ⟨-, -, rows, -, hfill⟩ := decodeParams_ok hp
    obtain ⟨-, -, -, -, -, hN, -⟩ := fillLattice_ok hfill
    refine ⟨p, rfl, (walk_visits_once hp (fun _ _ => ⟨4, rfl⟩) (by decide)).2 ?_⟩
    have hdiv : p.N / p.latS (p.D - 1) ≤ p.N := Nat.div_le_self _ _
    omega

/-- Four levels of 256: the entry takes the lattice and the last leaf has no `int`. -/
theorem leaf_past_int : ∃ p, decodeParams 4 (fun _ => 256) 2 8 (2 ^ 32) = .ok p ∧ ¬∀ masks : Masks,
    ∃ vs, p.walk masks 1 = some vs ∧ (vs.map Visit.mark).Perm (p.touched masks) ∧
      ((vs.filter fun v => v.term = 0).map Visit.leaf).Perm (p.written masks) := by
  rcases hp : decodeParams 4 (fun _ => 256) 2 8 (2 ^ 32) with err | p
  · have hok : (decodeParams 4 (fun _ => 256) 2 8 (2 ^ 32)).isOk = true := by decide +kernel
    rw [hp] at hok
    cases hok
  · obtain ⟨-, -, rows, -, hfill⟩ := decodeParams_ok hp
    obtain ⟨-, -, -, -, hD, hN, hwidth, -⟩ := fillLattice_ok hfill
    refine ⟨p, rfl, fun hall => ?_⟩
    obtain ⟨vs, hvs, -⟩ := hall DecodeParams.fullMasks
    rw [(decodeParams_wf hp).walk_full_eq_none (fun l _ => ⟨8, by rw [hwidth]; rfl⟩) le_rfl] at hvs
    · cases hvs
    · rintro ⟨hle, -⟩
      rw [hN] at hle
      exact absurd hle (by decide)

end Rola
