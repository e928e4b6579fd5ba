import Rola.Lattice

/-!
# The lattice the decode step runs on

`csrc/rola/src/decode/decode.cu`: `fill_levels` and `fill_lattice` fill the launch's parameter block
from `(k, m)` and refuse what the device cannot walk. A digit splits into its owner and its run
offset, and the leaf the step addresses is `(owner << local_bits) + runs` in a 32-bit `int`.
-/

namespace Rola

/-- `kMaxLevels`. -/
def maxLevels : ℕ := 4

/-- `kDecodeMaxLevelWidth`. -/
def decodeMaxLevelWidth : ℕ := 256

/-- `kDecodeThreads`. -/
def decodeThreads : ℕ := 1024

/-- `kAtomShift`. -/
def atomShift : ℕ := 4

/-- The fields of `DecodeParams` the lattice walk reads. -/
structure DecodeParams where
  D : ℕ
  N : ℕ
  levelWidth : ℕ → ℕ
  totalRows : ℕ
  latK : ℕ
  latS : ℕ → ℕ
  latG : ℕ → ℕ
  latGsuf : ℕ → ℕ
  latSbits : ℕ → ℕ
  latRunShift : ℕ → ℕ
  latOshift : ℕ → ℕ
  latLocalBits : ℕ
  latInnerBits : ℕ
  latOuterBits : ℕ
  atomsPerUnitShift : ℕ
  latUnitsPerAtomShift : ℕ

/-! ### The host entry -/

/-- `fill_levels`: `total_rows`, or the refusal of a width or of the leaf count. -/
def fillLevels (D : ℕ) (levelWidth : ℕ → ℕ) (N : ℕ) : Except String ℕ :=
  match (List.range D).find? fun l => ¬ (1 ≤ levelWidth l ∧ levelWidth l ≤ decodeMaxLevelWidth) with
  | some l => .error (s!"level {l} width {levelWidth l} exceeds the decode path's capacity " ++
      s!"{decodeMaxLevelWidth} (see kProducerMaxBranchWidth)")
  | none =>
    if MixedRadix.size levelWidth D ≠ N then
      .error (s!"prod(level_widths) = {MixedRadix.size levelWidth D} disagrees with the state's " ++
        s!"leaf axis {N}")
    else .ok (∑ l ∈ Finset.range D, levelWidth l)

/-- The two checks `fill_lattice` makes of one level's owner span, in their order. -/
def spanRefusal (levelWidth s : ℕ → ℕ) (l : ℕ) : Option String :=
  if maxSpan < s l then
    some (s!"level {l}" ++ "'s owner span k*m_l" ++ s!" = {s l} exceeds the decode path's {maxSpan}")
  else if levelWidth l % s l ≠ 0 then
    some (s!"level {l} of width {levelWidth l} is not a whole number of owner spans " ++
      s!"k*m_l = {s l} (an owner sits inside a level)")
  else none

def fillLattice (D : ℕ) (levelWidth : ℕ → ℕ) (totalRows k m N : ℕ) : Except String DecodeParams :=
  match ilog2Exact k, ilog2Exact m with
  | none, _ => .error s!"the lattice span k must be a power of two, got {k}"
  | some _, none => .error s!"the lattice capacity m must be a power of two, got {m}"
  | some kappa, some j =>
    if maxSpan < k then
      .error s!"the lattice span k = {k} exceeds the decode path's {maxSpan}"
    else
      let a := boxBits D levelWidth k kappa j
      let s := fun l => k * 2 ^ a l
      let g := fun l => levelWidth l / s l
      let sbits := fun l => Nat.log2 (s l)
      let runShift := fun l => ∑ i ∈ Finset.Ico (l + 1) D, sbits i
      let localBits := ∑ l ∈ Finset.range D, (kappa + a l)
      match (List.range D).findSome? (spanRefusal levelWidth s) with
      | some err => .error err
      | none =>
        if MixedRadix.size g D * MixedRadix.size s D ≠ N then
          .error (s!"the lattice partitions {MixedRadix.size g D * MixedRadix.size s D} leaves " ++
            s!"against {N}")
        else match (List.range D).find? fun l => decodeThreads < g l with
          | some l => .error (s!"level {l}" ++ "'s owner grid is " ++ s!"{g l} wide against the " ++
              s!"{decodeThreads} threads that ballot its liveness in one block pass")
          | none => .ok
              { D := D
                N := N
                levelWidth := levelWidth
                totalRows := totalRows
                latK := k
                latS := s
                latG := g
                latGsuf := MixedRadix.weight g D
                latSbits := sbits
                latRunShift := runShift
                latOshift := fun l => if l < D - 1 then runShift l - sbits (D - 1) else 0
                latLocalBits := localBits
                latInnerBits := sbits (D - 1)
                latOuterBits := localBits - sbits (D - 1)
                atomsPerUnitShift := sbits (D - 1) - atomShift
                latUnitsPerAtomShift := atomShift - sbits (D - 1) }

/-- The lattice half of `rola_decode_forward`: depth, levels, box. -/
def decodeParams (D : ℕ) (levelWidth : ℕ → ℕ) (k m N : ℕ) : Except String DecodeParams :=
  if ¬ (1 ≤ D ∧ D ≤ maxLevels) then .error s!"D must be in [1, 4], got {D}"
  else match fillLevels D levelWidth N with
    | .error err => .error err
    | .ok totalRows => fillLattice D levelWidth totalRows k m N

/-! ### What an accepted lattice satisfies -/

structure DecodeParams.Wf (p : DecodeParams) : Prop where
  D_pos : 0 < p.D
  D_le : p.D ≤ maxLevels
  width_le : ∀ l < p.D, p.levelWidth l ≤ decodeMaxLevelWidth
  G_pos : ∀ l < p.D, 0 < p.latG l
  S_eq : ∀ l, p.latS l = 2 ^ p.latSbits l
  S_le : ∀ l < p.D, p.latS l ≤ maxSpan
  width_eq : ∀ l < p.D, p.latG l * p.latS l = p.levelWidth l
  N_eq : MixedRadix.size p.levelWidth p.D = p.N
  gsuf_eq : ∀ l, p.latGsuf l = MixedRadix.weight p.latG p.D l
  runShift_eq : ∀ l, p.latRunShift l = ∑ i ∈ Finset.Ico (l + 1) p.D, p.latSbits i
  localBits_eq : p.latLocalBits = ∑ l ∈ Finset.range p.D, p.latSbits l
  innerBits_eq : p.latInnerBits = p.latSbits (p.D - 1)
  outerBits_eq : p.latOuterBits = ∑ l ∈ Finset.range (p.D - 1), p.latSbits l
  oshift_eq : ∀ l < p.D - 1, p.latOshift l = ∑ i ∈ Finset.Ico (l + 1) (p.D - 1), p.latSbits i

variable {D k m N rows : ℕ} {w : ℕ → ℕ} {p : DecodeParams}

theorem fillLevels_ok (h : fillLevels D w N = .ok rows) :
    (∀ l < D, 1 ≤ w l ∧ w l ≤ decodeMaxLevelWidth) ∧ MixedRadix.size w D = N := by
  unfold fillLevels at h
  split at h
  · cases h
  · rename_i hnone
    split at h
    · cases h
    · rename_i hN
      refine ⟨fun l hl => ?_, not_not.1 hN⟩
      have := List.find?_eq_none.1 hnone l (List.mem_range.2 hl)
      simp only [decide_eq_true_eq, not_not] at this
      exact this

/-- What `fill_lattice` accepts, and the block it then fills. -/
theorem fillLattice_ok (h : fillLattice D w rows k m N = .ok p) :
    ∃ j kappa, m = 2 ^ j ∧ k = 2 ^ kappa ∧ p.D = D ∧ p.N = N ∧ p.levelWidth = w ∧
      p.latS = (fun l => k * 2 ^ boxBits D w k kappa j l) ∧ p.latG = (fun l => w l / p.latS l) ∧
      (∀ l < D, p.latS l ≤ maxSpan) ∧ (∀ l < D, p.latS l ∣ w l) ∧
      p.latSbits = (fun l => kappa + boxBits D w k kappa j l) ∧
      p.latGsuf = MixedRadix.weight p.latG D ∧
      p.latRunShift = (fun l => ∑ i ∈ Finset.Ico (l + 1) D, p.latSbits i) ∧
      p.latLocalBits = (∑ l ∈ Finset.range D, p.latSbits l) ∧
      p.latInnerBits = p.latSbits (D - 1) ∧ p.latOuterBits = p.latLocalBits - p.latSbits (D - 1) ∧
      p.latOshift = fun l => if l < D - 1 then p.latRunShift l - p.latSbits (D - 1) else 0 := by
  unfold fillLattice at h
  split at h
  · cases h
  · cases h
  · rename_i kappa j hk hm
    rw [ilog2Exact_eq_some] at hk hm
    split at h
    · cases h
    · dsimp only at h
      split at h
      · cases h
      · rename_i hspan
        split at h
        · cases h
        · split at h
          · cases h
          · cases h
            have hspan' : ∀ l < D, spanRefusal w (fun l => k * 2 ^ boxBits D w k kappa j l) l = none :=
              fun l hl => List.findSome?_eq_none_iff.1 hspan l (List.mem_range.2 hl)
            have hbits : (fun l => Nat.log2 (k * 2 ^ boxBits D w k kappa j l)) =
                fun l => kappa + boxBits D w k kappa j l := by
              funext l
              rw [hk, ← pow_add, Nat.log2_two_pow]
            refine ⟨j, kappa, hm, hk, rfl, rfl, rfl, rfl, rfl, fun l hl => ?_, fun l hl => ?_, hbits,
              rfl, rfl, ?_, rfl, rfl, rfl⟩
            · have := hspan' l hl
              unfold spanRefusal at this
              split at this
              · cases this
              · rename_i hle
                exact not_lt.1 hle
            · have := hspan' l hl
              unfold spanRefusal at this
              split at this
              · cases this
              · split at this
                · cases this
                · rename_i hmod
                  exact Nat.dvd_of_mod_eq_zero (not_not.1 hmod)
            · simp only [hbits]

/-- The rows of a block are those its levels were counted to. -/
theorem fillLattice_rows (h : fillLattice D w rows k m N = .ok p) : p.totalRows = rows := by
  unfold fillLattice at h
  split at h
  · cases h
  · cases h
  split at h
  · cases h
  dsimp only at h
  split at h
  · cases h
  split at h
  · cases h
  split at h
  · cases h
  cases h
  rfl

theorem fillLevels_rows (h : fillLevels D w N = .ok rows) : rows = ∑ l ∈ Finset.range D, w l := by
  unfold fillLevels at h
  split at h
  · cases h
  split at h
  · cases h
  exact (Except.ok.inj h).symm

theorem decodeParams_ok (h : decodeParams D w k m N = .ok p) :
    1 ≤ D ∧ D ≤ maxLevels ∧ ∃ rows, fillLevels D w N = .ok rows ∧
      fillLattice D w rows k m N = .ok p := by
  unfold decodeParams at h
  split at h
  · cases h
  · rename_i hD
    split at h
    · cases h
    · rename_i rows hrows
      have hD' := not_not.1 hD
      exact ⟨hD'.1, hD'.2, rows, hrows, h⟩

theorem decodeParams_wf (h : decodeParams D w k m N = .ok p) : p.Wf := by
  obtain ⟨hD, hD4, rows, hrows, hfill⟩ := decodeParams_ok h
  obtain ⟨hwidth, hN⟩ := fillLevels_ok hrows
  obtain ⟨j, kappa, -, hk, rfl, rfl, rfl, hs, hg, hspan, hdvd, hsb, hgs, hrun, hloc, hin, hout, hosh⟩ :=
    fillLattice_ok hfill
  have hlast : p.D = p.D - 1 + 1 := by omega
  have hsplit : ∑ l ∈ Finset.range p.D, p.latSbits l =
      ∑ l ∈ Finset.range (p.D - 1), p.latSbits l + p.latSbits (p.D - 1) := by
    conv_lhs => rw [hlast, Finset.sum_range_succ]
  refine
    { D_pos := hD
      D_le := hD4
      width_le := fun l hl => (hwidth l hl).2
      G_pos := fun l hl => ?_
      S_eq := fun l => by rw [hs, hsb, hk, pow_add]
      S_le := hspan
      width_eq := fun l hl => by rw [hg]; exact Nat.div_mul_cancel (hdvd l hl)
      N_eq := hN
      gsuf_eq := fun l => congrFun hgs l
      runShift_eq := fun l => congrFun hrun l
      localBits_eq := hloc
      innerBits_eq := hin
      outerBits_eq := by rw [hout, hloc, hsplit, Nat.add_sub_cancel]
      oshift_eq := fun l hl => ?_ }
  · rw [hg]
    exact Nat.div_pos (Nat.le_of_dvd (hwidth l hl).1 (hdvd l hl)) (by rw [hs, hk]; positivity)
  · have hsum : ∑ i ∈ Finset.Ico (l + 1) p.D, p.latSbits i =
        ∑ i ∈ Finset.Ico (l + 1) (p.D - 1), p.latSbits i + p.latSbits (p.D - 1) := by
      conv_lhs => rw [hlast, Finset.sum_Ico_succ_top (by omega)]
    rw [hosh]
    simp only [if_pos hl, hrun, hsum, Nat.add_sub_cancel]

/-! ### The leaf a digit tuple names -/

/-- A 32-bit `int`'s reading of an exact value. -/
def int32 (x : ℕ) : ℤ := Int.bmod x (2 ^ 32)

theorem int32_of_lt {x : ℕ} (h : x < 2 ^ 31) : int32 x = x := by
  unfold int32
  exact Int.bmod_eq_of_le (by omega) (by omega)

namespace DecodeParams

/-- `owner`: the mixed-radix index of the digits' owners. -/
def latOwner (p : DecodeParams) (d : ℕ → ℕ) : ℕ :=
  ∑ l ∈ Finset.range p.D, (d l >>> p.latSbits l) * p.latGsuf l

/-- `runs`: the run offsets of every level but the innermost. -/
def latRuns (p : DecodeParams) (d : ℕ → ℕ) : ℕ :=
  ∑ l ∈ Finset.range (p.D - 1), (d l &&& (p.latS l - 1)) <<< p.latRunShift l

/-- `u.base + t`, before the `int` reads it. -/
def latIndex (p : DecodeParams) (d : ℕ → ℕ) : ℕ :=
  (p.latOwner d <<< p.latLocalBits) + p.latRuns d + (d (p.D - 1) &&& (p.latS (p.D - 1) - 1))

/-- `leaf`. -/
def leafOf (p : DecodeParams) (d : ℕ → ℕ) : ℤ := int32 (p.latIndex d)

/-- `leaf >> kAtomShift` and `leaf & kAtomMask`: the page-table column and the row in the page. -/
def decodePlace (p : DecodeParams) (d : ℕ → ℕ) : ℤ × ℤ :=
  (p.leafOf d / mmaKQuantum, p.leafOf d % mmaKQuantum)

end DecodeParams

namespace DecodeParams.Wf

variable (h : p.Wf) {d : ℕ → ℕ}
include h

theorem S_pos (l : ℕ) : 0 < p.latS l := by
  rw [h.S_eq]
  positivity

theorem weight_S (l : ℕ) : MixedRadix.weight p.latS p.D l = 2 ^ p.latRunShift l := by
  unfold MixedRadix.weight
  rw [h.runShift_eq, ← Finset.prod_pow_eq_pow_sum]
  exact Finset.prod_congr rfl fun i _ => h.S_eq i

theorem size_S : MixedRadix.size p.latS p.D = 2 ^ p.latLocalBits := by
  unfold MixedRadix.size
  rw [h.localBits_eq, ← Finset.prod_pow_eq_pow_sum]
  exact Finset.prod_congr rfl fun i _ => h.S_eq i

theorem width_pos : ∀ l < p.D, 0 < p.levelWidth l := fun l hl => by
  rw [← h.width_eq l hl]
  exact Nat.mul_pos (h.G_pos l hl) (h.S_pos l)

/-- The owners partition the leaves into whole boxes. -/
theorem size_eq : MixedRadix.size p.latG p.D * MixedRadix.size p.latS p.D = p.N := by
  rw [← h.N_eq, ← MixedRadix.size_mul]
  exact Finset.prod_congr rfl fun l hl => h.width_eq l (Finset.mem_range.1 hl)

/-- A digit's owner and its run offset. -/
theorem split_digit (l : ℕ) : d l >>> p.latSbits l = d l / p.latS l ∧
    d l &&& (p.latS l - 1) = d l % p.latS l := by
  rw [h.S_eq, Nat.shiftRight_eq_div_pow, Nat.and_two_pow_sub_one_eq_mod]
  exact ⟨rfl, rfl⟩

theorem latOwner_eq : p.latOwner d = MixedRadix.encode p.latG (fun l => d l / p.latS l) p.D := by
  unfold latOwner MixedRadix.encode
  refine Finset.sum_congr rfl fun l _ => ?_
  rw [(h.split_digit l).1, h.gsuf_eq]

/-- `lambda = O * BC + sum_l r_l * prod_{l' > l} s_l'`. -/
theorem latIndex_eq : p.latIndex d =
    MixedRadix.encode p.latG (fun l => d l / p.latS l) p.D * MixedRadix.size p.latS p.D +
      MixedRadix.encode p.latS (fun l => d l % p.latS l) p.D := by
  obtain ⟨n, hn⟩ : ∃ n, p.D = n + 1 := ⟨p.D - 1, by have := h.D_pos; omega⟩
  unfold latIndex latRuns
  rw [h.latOwner_eq, Nat.shiftLeft_eq, ← h.size_S, (h.split_digit (p.D - 1)).2, Nat.add_assoc]
  congr 1
  unfold MixedRadix.encode
  conv_rhs => rw [hn, Finset.sum_range_succ]
  rw [hn, Nat.add_sub_cancel, MixedRadix.weight_last, mul_one]
  congr 1
  refine Finset.sum_congr rfl fun l _ => ?_
  rw [(h.split_digit l).2, Nat.shiftLeft_eq, ← hn, h.weight_S]

theorem owner_bounded (hd : MixedRadix.Bounded p.levelWidth d p.D) :
    MixedRadix.Bounded p.latG (fun l => d l / p.latS l) p.D := fun l hl => by
  rw [Nat.div_lt_iff_lt_mul (h.S_pos l), h.width_eq l hl]
  exact hd l hl

theorem run_bounded (d : ℕ → ℕ) : MixedRadix.Bounded p.latS (fun l => d l % p.latS l) p.D :=
  fun l _ => Nat.mod_lt _ (h.S_pos l)

theorem latIndex_lt (hd : MixedRadix.Bounded p.levelWidth d p.D) : p.latIndex d < p.N := by
  have howner := MixedRadix.encode_lt (h.owner_bounded hd)
  have hrun := MixedRadix.encode_lt (h.run_bounded d)
  rw [h.latIndex_eq, ← h.size_eq]
  calc _ < MixedRadix.encode p.latG (fun l => d l / p.latS l) p.D * MixedRadix.size p.latS p.D +
        MixedRadix.size p.latS p.D := by omega
    _ = (MixedRadix.encode p.latG (fun l => d l / p.latS l) p.D + 1) * MixedRadix.size p.latS p.D := by
        ring
    _ ≤ _ := Nat.mul_le_mul_right _ howner

/-- Distinct digit tuples are distinct leaves: the order is a permutation. -/
theorem latIndex_inj {d' : ℕ → ℕ} (hd : MixedRadix.Bounded p.levelWidth d p.D)
    (hd' : MixedRadix.Bounded p.levelWidth d' p.D) (heq : p.latIndex d = p.latIndex d') :
    ∀ l < p.D, d l = d' l := by
  rw [h.latIndex_eq, h.latIndex_eq] at heq
  obtain ⟨hown, hrun⟩ := MixedRadix.mul_add_inj (MixedRadix.encode_lt (h.run_bounded d))
    (MixedRadix.encode_lt (h.run_bounded d')) heq
  intro l hl
  have hdiv : d l / p.latS l = d' l / p.latS l :=
    MixedRadix.encode_inj (h.owner_bounded hd) (h.owner_bounded hd') hown l hl
  have hmod : d l % p.latS l = d' l % p.latS l :=
    MixedRadix.encode_inj (h.run_bounded d) (h.run_bounded d') hrun l hl
  rw [← Nat.div_add_mod (d l) (p.latS l), hdiv, hmod, Nat.div_add_mod]

end DecodeParams.Wf

end Rola
