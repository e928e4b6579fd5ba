import Rola.Candidates
import Rola.LatticeOrder
import Rola.StepOracle

/-!
# The candidates in order, and the host's bitmap

The candidates come up in the order of their atoms, and they are the atoms `_write_atom_bitmap` of
`rola/ops/decode.py` marks, which shares no step of the enumeration. A candidate's base is an `int`: it
is defined while its owner's box lies below `2 ^ 31`.
-/

namespace Rola

open MixedRadix

namespace DecodeParams

variable (p : DecodeParams) (m : Masks)

/-- The units a candidate goes through. -/
def candidateUnits (i : ℕ) : List ℕ :=
  (List.range (1 <<< p.latUnitsPerAtomShift)).map (((i >>> p.atomsPerUnitShift) <<< p.latUnitsPerAtomShift) + ·)

/-- The place of a candidate in its units. -/
def candidatePlace (i : ℕ) : ℕ := i &&& ((1 <<< p.atomsPerUnitShift) - 1)

/-- `candidateScan` in `int`s: nothing where a base or an atom's first leaf runs over. -/
def candidateScanInt (a : ℕ) : Option ℕ → List ℕ → Option (Option ℕ)
  | _, [] => some none
  | atom, unit :: units =>
    let u := p.resolveCandidateUnit m unit
    if intCeiling ≤ u.base then none
    else if !u.valid then some none
    else if atom.isNone ∧ intCeiling ≤ u.base + (a <<< atomShift) then none
    else
      let here := atom.getD ((u.base + (a <<< atomShift)) >>> atomShift)
      if u.liveW && (List.range (1 <<< p.winBits)).any fun t =>
          u.cw (((a <<< atomShift) &&& ((1 <<< p.latInnerBits) - 1)) + t) then some (some here)
      else candidateScanInt a (some here) units

/-- The non-negative values of `candidate_atom`, in order. -/
def candidateAtoms : Option (List ℕ) :=
  if p.Published m then
    Strided.collect (fun i => (p.candidateScanInt m (p.candidatePlace i) none (p.candidateUnits i)).map Option.toList)
      (List.range (p.nCandidates m))
  else none

variable {p m} {a f f' i unit : ℕ}

theorem candidateAtom_eq : p.candidateAtom m i = p.candidateScan m (p.candidatePlace i) none (p.candidateUnits i) := rfl

/-- Below the ceiling the scan is what its exact values say. -/
theorem candidateScanInt_eq {atom : Option ℕ} {units : List ℕ}
    (hfits : ∀ unit ∈ units, (p.resolveCandidateUnit m unit).base + (a <<< atomShift) < intCeiling) :
    p.candidateScanInt m a atom units = some (p.candidateScan m a atom units) := by
  induction units generalizing atom with
  | nil => rfl
  | cons unit units ih =>
    have hunit := hfits unit List.mem_cons_self
    have htail := fun atom => @ih atom fun u hu => hfits u (List.mem_cons_of_mem _ hu)
    unfold candidateScanInt candidateScan
    dsimp only
    rw [if_neg (not_le.2 (lt_of_le_of_lt (Nat.le_add_right _ _) hunit)),
      if_neg fun hc : _ ∧ _ => absurd hc.2 (not_le.2 hunit)]
    simp only [htail]
    split_ifs <;> rfl

/-- A candidate whose first base runs over is not defined. -/
theorem candidateScanInt_eq_none {atom : Option ℕ} {units : List ℕ}
    (hover : intCeiling ≤ (p.resolveCandidateUnit m unit).base) :
    p.candidateScanInt m a atom (unit :: units) = none := by
  unfold candidateScanInt
  exact if_pos hover

/-! ### Owners and their boxes -/

theorem flatLeaf_div : p.flatLeaf m f / 2 ^ p.latLocalBits =
    ∑ l ∈ Finset.range p.D, p.fieldEntry m (p.D + 1) (f / 2 ^ p.latLocalBits) l * p.latGsuf l := by
  have hpos : 0 < 2 ^ p.latLocalBits := by positivity
  unfold flatLeaf
  rw [Nat.mul_comm, Nat.mul_add_div hpos, Nat.div_eq_of_lt (Nat.mod_lt _ hpos), Nat.add_zero]

theorem flatLeaf_mod : p.flatLeaf m f % 2 ^ p.latLocalBits = f % 2 ^ p.latLocalBits := by
  unfold flatLeaf
  rw [Nat.add_comm, Nat.add_mul_mod_self_right, Nat.mod_mod]

theorem termList_candidate (l : ℕ) : p.termList m (p.D + 1) l = p.olist m .kindW l := by
  unfold termList
  rw [if_neg fun hc => Nat.succ_ne_zero _ hc.1, termKind_candidate]

theorem termList_sorted (term l : ℕ) : (p.termList m term l).Pairwise (· < ·) := by
  unfold termList
  split
  · exact List.pairwise_lt_range.filter _
  · exact List.pairwise_lt_range.filter _

namespace Wf

variable (h : p.Wf)
include h

/-- The owner a rank names. -/
theorem sum_gsuf (e : ℕ → ℕ) : ∑ l ∈ Finset.range p.D, e l * p.latGsuf l = encode p.latG e p.D :=
  Finset.sum_congr rfl fun l _ => by rw [h.gsuf_eq]

theorem localBits_le : p.latLocalBits ≤ 20 := by
  have hspan : ∀ l ∈ Finset.range p.D, p.latSbits l ≤ 5 := fun l hl => by
    have hle := h.S_le l (Finset.mem_range.1 hl)
    rw [h.S_eq] at hle
    exact (Nat.pow_le_pow_iff_right (by decide)).1 (hle.trans_eq (show maxSpan = 2 ^ 5 from rfl))
  have hsum : ∑ l ∈ Finset.range p.D, p.latSbits l ≤ _ := Finset.sum_le_card_nsmul _ _ _ hspan
  rw [Finset.card_range, nsmul_eq_mul, Nat.cast_id] at hsum
  have hD := h.D_le
  unfold maxLevels at hD
  rw [h.localBits_eq]
  omega

/-- The ceiling is a boundary of boxes. -/
theorem lt_intCeiling_congr {x y : ℕ} (heq : x / 2 ^ p.latLocalBits = y / 2 ^ p.latLocalBits) :
    x < intCeiling ↔ y < intCeiling := by
  have hceil : intCeiling = 2 ^ (31 - p.latLocalBits) * 2 ^ p.latLocalBits := by
    have := h.localBits_le
    rw [← pow_add, Nat.sub_add_cancel (by omega)]
    rfl
  have hpos : 0 < 2 ^ p.latLocalBits := by positivity
  rw [hceil, ← Nat.div_lt_iff_lt_mul hpos, ← Nat.div_lt_iff_lt_mul hpos, heq]

omit h in
theorem flatLeaf_div_congr (heq : f / 2 ^ p.latLocalBits = f' / 2 ^ p.latLocalBits) :
    p.flatLeaf m f / 2 ^ p.latLocalBits = p.flatLeaf m f' / 2 ^ p.latLocalBits := by
  rw [flatLeaf_div, flatLeaf_div, heq]

/-- Owners live at every level hold a written leaf. -/
theorem exists_written {o : ℕ → ℕ} (ho : ∀ l < p.D, o l ∈ p.olist m .kindW l) :
    ∃ leaf ∈ p.written m, leaf / 2 ^ p.latLocalBits = encode p.latG o p.D := by
  have hlive : ∀ l, ∃ t, l < p.D → t < p.latS l ∧ m.w l (o l * p.latS l + t) = true := by
    intro l
    by_cases hl : l < p.D
    · obtain ⟨t, ht, hw⟩ := ownerLive_iff.1 (List.mem_filter.1 (ho l hl)).2
      exact ⟨t, fun _ => ⟨ht, hw⟩⟩
    · exact ⟨0, fun hlt => absurd hlt hl⟩
  choose t ht using hlive
  have hb : Bounded p.levelWidth (fun l => o l * p.latS l + t l) p.D := by
    intro l hl
    have howner := List.mem_range.1 (List.mem_filter.1 (ho l hl)).1
    rw [← h.width_eq l hl]
    calc o l * p.latS l + t l < o l * p.latS l + p.latS l := by have := (ht l hl).1; omega
      _ = (o l + 1) * p.latS l := by ring
      _ ≤ _ := Nat.mul_le_mul_right _ howner
  refine ⟨p.latIndex fun l => o l * p.latS l + t l, List.mem_filter.2 ⟨List.mem_range.2 (h.latIndex_lt hb), ?_⟩, ?_⟩
  · rw [inProduct_congr fun l hl => h.latDigits_latIndex hb hl, inProduct_iff]
    exact fun l hl => (ht l hl).2
  · have hpos : 0 < 2 ^ p.latLocalBits := by positivity
    have hrun := encode_lt (h.run_bounded fun l => o l * p.latS l + t l)
    rw [h.size_S] at hrun
    rw [h.latIndex_eq, h.size_S, Nat.mul_comm, Nat.mul_add_div hpos, Nat.div_eq_of_lt hrun, Nat.add_zero]
    refine encode_congr (fun _ _ => rfl) fun l hl => ?_
    rw [Nat.add_comm, Nat.add_mul_div_right _ _ (h.S_pos l), Nat.div_eq_of_lt (ht l hl).1, Nat.zero_add]

/-- The box of any place the candidates count holds a written leaf. -/
theorem exists_written_flat (hne : ∀ l < p.D, p.termList m (p.D + 1) l ≠ []) (f : ℕ) :
    ∃ leaf ∈ p.written m, leaf / 2 ^ p.latLocalBits = p.flatLeaf m f / 2 ^ p.latLocalBits := by
  rw [flatLeaf_div, h.sum_gsuf]
  refine h.exists_written fun l hl => ?_
  rw [← termList_candidate]
  exact h.fieldEntry_mem _ hl (hne l hl)

/-! ### The order of the places -/

/-- Later places are later leaves. -/
theorem flatLeaf_lt (hv : p.fieldsValid m (p.D + 1) (f / 2 ^ p.latLocalBits) = true)
    (hv' : p.fieldsValid m (p.D + 1) (f' / 2 ^ p.latLocalBits) = true)
    (hf' : f' / 2 ^ p.latLocalBits < 2 ^ ∑ l ∈ Finset.range p.D, p.termWidth m (p.D + 1) l) (hlt : f < f') :
    p.flatLeaf m f < p.flatLeaf m f' := by
  have hpos : 0 < 2 ^ p.latLocalBits := by positivity
  rcases (Nat.div_le_div_right hlt.le : f / 2 ^ p.latLocalBits ≤ f' / 2 ^ p.latLocalBits).lt_or_eq with hrank | hrank
  · have howner : p.flatLeaf m f / 2 ^ p.latLocalBits < p.flatLeaf m f' / 2 ^ p.latLocalBits := by
      rw [flatLeaf_div, flatLeaf_div, h.sum_gsuf, h.sum_gsuf]
      have hradix : ∀ i < p.D, 0 < p.radix m (p.D + 1) i := fun i _ => by unfold radix; positivity
      refine encode_lt_encode (digit_bounded (x := f / 2 ^ p.latLocalBits) hradix)
        (digit_bounded (x := f' / 2 ^ p.latLocalBits) hradix) ?_ ?_ ?_ ?_
      · intro l hl
        have hmem := h.fieldEntry_mem (f / 2 ^ p.latLocalBits) hl (h.nonempty_of_valid hv l hl)
        exact ((mem_olist fun hc => Nat.succ_ne_zero _ hc.1).1 hmem).1
      · intro l hl hd
        obtain ⟨h1, h2⟩ := h.fieldEntry_eq hv hl
        obtain ⟨h1', h2'⟩ := h.fieldEntry_eq hv' hl
        rw [h2, h2']
        exact List.pairwise_iff_getElem.1 (termList_sorted _ l) _ _ h1 h1' hd
      · intro l hl hd
        obtain ⟨h1, h2⟩ := h.fieldEntry_eq hv hl
        obtain ⟨h1', h2'⟩ := h.fieldEntry_eq hv' hl
        rw [h2, h2']
        simp only [hd]
      · rw [encode_digit (by rw [size_radix]; exact hrank.trans hf'), encode_digit (by rwa [size_radix])]
        exact hrank
    exact lt_of_not_ge fun hge => absurd (Nat.div_le_div_right hge) (not_le.2 howner)
  · have hmod := Nat.div_add_mod f (2 ^ p.latLocalBits)
    have hmod' := Nat.div_add_mod f' (2 ^ p.latLocalBits)
    unfold flatLeaf
    rw [hrank] at hmod ⊢
    omega

variable (hs : p.AtomShifts)
include hs

/-- Where a unit's first leaf is, among the places. -/
theorem candidateUnits_base (hunit : unit ∈ p.candidateUnits i) :
    (p.resolveCandidateUnit m unit).base + (p.candidatePlace i <<< atomShift) =
      p.flatLeaf m (unit * 2 ^ p.latInnerBits + p.candidatePlace i * 16) ∧
    (p.resolveCandidateUnit m unit).base / 2 ^ p.latLocalBits = p.flatLeaf m (16 * i) / 2 ^ p.latLocalBits := by
  obtain ⟨hcount, -, hwin, hplace⟩ := AtomShifts.window hs i
  have hpos : 0 < 2 ^ p.winBits := by positivity
  unfold candidateUnits candidatePlace at *
  rw [Nat.one_shiftLeft, Nat.shiftRight_eq_div_pow, Nat.shiftLeft_eq, List.mem_map] at hunit
  obtain ⟨q, hq, rfl⟩ := hunit
  rw [List.mem_range] at hq
  rw [Nat.one_shiftLeft, Nat.and_two_pow_sub_one_eq_mod, Nat.shiftLeft_eq, show (2 : ℕ) ^ atomShift = 16 from rfl]
  have hoff : i % 2 ^ p.atomsPerUnitShift * 16 < 2 ^ p.latInnerBits := by omega
  obtain ⟨hleaf, hrank⟩ := h.candidate_leaf (m := m) hoff
  obtain ⟨hleaf0, hrank0⟩ := h.candidate_leaf (m := m) (t := 0) (by positivity)
  refine ⟨hleaf, ?_⟩
  have hspan : q * 2 ^ p.winBits < 16 := by
    rw [← hcount]
    exact Nat.mul_lt_mul_of_pos_right hq hpos
  rw [Nat.add_zero] at hleaf0
  rw [hleaf0]
  refine flatLeaf_div_congr ?_
  rw [← hrank0, hrank, hplace q hq]
  exact (hs.flat_eq (m := m) hspan).1

/-- Every written leaf an `int`: the enumeration is defined, and its values are the exact ones. -/
theorem candidateAtoms_eq (hpub : p.Published m) (hint : ∀ leaf ∈ p.written m, leaf < intCeiling) :
    p.candidateAtoms m = some (p.candidates m) := by
  have hscan : ∀ i ∈ List.range (p.nCandidates m),
      (p.candidateScanInt m (p.candidatePlace i) none (p.candidateUnits i)).map Option.toList =
        some (p.candidateAtom m i).toList := by
    intro i hi
    have hne : ∀ l < p.D, p.termList m (p.D + 1) l ≠ [] := by
      intro l hl hnil
      have hzero : p.units m (p.D + 1) = 0 := by
        rw [units_eq hpub (by omega), if_pos ⟨l, hl, by rw [hnil]; rfl⟩]
      rw [List.mem_range, nCandidates, hzero] at hi
      simp at hi
    rw [candidateScanInt_eq fun unit hunit => ?_]
    · rfl
    · rw [(h.candidateUnits_base hs hunit).1]
      obtain ⟨leaf, hleaf, hbox⟩ := h.exists_written_flat hne (unit * 2 ^ p.latInnerBits + p.candidatePlace i * 16)
      exact (h.lt_intCeiling_congr hbox).1 (hint leaf hleaf)
  unfold candidateAtoms
  rw [if_pos hpub, Strided.collect_eq_some hscan]
  unfold candidates
  rw [List.filterMap_eq_flatMap_toList]

/-- A written leaf past the `int`: nothing is defined. -/
theorem candidateAtoms_eq_none {leaf : ℕ} (hpub : p.Published m) (hleaf : leaf ∈ p.written m) (hover : intCeiling ≤ leaf) :
    p.candidateAtoms m = none := by
  obtain ⟨f, hf, -, rfl⟩ := h.exists_flat hs hpub hleaf
  unfold candidateAtoms
  rw [if_pos hpub]
  refine Strided.collect_eq_none (List.mem_range.2 hf) (Option.map_eq_none_iff.2 ?_)
  obtain ⟨unit, rest, hunits⟩ : ∃ unit rest, p.candidateUnits (f / 16) = unit :: rest := by
    refine List.exists_cons_of_ne_nil fun hnil => ?_
    unfold candidateUnits at hnil
    rw [List.map_eq_nil_iff, List.range_eq_nil, Nat.one_shiftLeft] at hnil
    exact absurd hnil (by positivity)
  rw [hunits]
  refine candidateScanInt_eq_none (not_lt.1 fun hlt => absurd hover (not_le.2 ?_))
  obtain ⟨-, hbox⟩ := h.candidateUnits_base (m := m) hs (hunits ▸ List.mem_cons_self : unit ∈ p.candidateUnits (f / 16))
  refine (h.lt_intCeiling_congr ?_).1 hlt
  rw [hbox]
  refine flatLeaf_div_congr ?_
  have := (hs.flat_eq (m := m) (i := f / 16) (j := f % 16) (Nat.mod_lt _ (by decide))).1
  rw [Nat.div_add_mod] at this
  exact this.symm

variable (hpub : p.Published m)
include hpub

/-- The candidates are in the order of their atoms. -/
theorem candidates_sorted : (p.candidates m).Pairwise (· < ·) := by
  have hrank : ∀ f, f / 16 < p.nCandidates m → p.flatLive m f = true →
      p.fieldsValid m (p.D + 1) (f / 2 ^ p.latLocalBits) = true ∧
        f / 2 ^ p.latLocalBits < 2 ^ ∑ l ∈ Finset.range p.D, p.termWidth m (p.D + 1) l := by
    intro f hf hlive
    have hlt := h.flat_lt hs hpub hf hlive
    unfold flatLive at hlive
    rw [Bool.and_eq_true] at hlive
    refine ⟨hlive.1, ?_⟩
    unfold termBits at hlt
    rw [if_neg (Nat.succ_ne_zero _), pow_add, Nat.mul_assoc, ← pow_add, Nat.add_comm p.latOuterBits,
      ← h.localBits_split] at hlt
    exact (Nat.div_lt_iff_lt_mul (by positivity)).2 hlt
  refine List.pairwise_filterMap.2 (List.pairwise_lt_range.imp_of_mem ?_)
  intro i i' hi hi' hlt x hx x' hx'
  obtain ⟨f, rfl, hl, rfl⟩ := h.exists_place hs hx
  obtain ⟨f', rfl, hl', rfl⟩ := h.exists_place hs hx'
  rw [List.mem_range] at hi hi'
  obtain ⟨hv, -⟩ := hrank f hi hl
  obtain ⟨hv', hf'⟩ := hrank f' hi' hl'
  have hleaf := h.flatLeaf_lt hv hv' hf' (by omega)
  have hne : p.flatLeaf m f / 16 ≠ p.flatLeaf m f' / 16 := fun heq =>
    hlt.ne (h.flat_inj hs hpub hi hi' hl hl' heq)
  omega

end Wf

end DecodeParams

/-! ### The host's reference -/

/-- `_write_atom_bitmap`, of one batch-head; `out` is what `torch.empty_like` holds. -/
def writeAtomBitmap (D : ℕ) (w : ℕ → ℕ) (k m N : ℕ) (levels : ℕ → ℕ → Bool) (out : ℕ → Bool) : Except String (ℕ → Bool) :=
  match boxShape D w k m with
  | .error err => .error err
  | .ok b =>
    let live := fun index => decide (∀ l < D, levels l (digit w D index l) = true)
    let latticeLive := toLattice (b.permutation D w) N out live
    .ok fun atom => (List.range mmaKQuantum).any fun j => latticeLive (atom * mmaKQuantum + j)

/-- The bitmap marks the atoms of the written leaves. -/
theorem writeAtomBitmap_spec {D k n N rows : ℕ} {w : ℕ → ℕ} {p : DecodeParams} {b : Box} {m : Masks} (h : p.Wf)
    (hfill : fillLattice D w rows k n N = .ok p) (hb : boxShape D w k n = .ok b) (out : ℕ → Bool) :
    ∃ bits, writeAtomBitmap D w k n N m.w out = .ok bits ∧
      ∀ atom < N / mmaKQuantum, bits atom = true ↔ ∃ leaf ∈ p.written m, leaf / 16 = atom := by
  obtain ⟨hs, hg, hbc⟩ := box_eq hfill hb
  obtain ⟨-, -, -, -, rfl, rfl, rfl, -⟩ := fillLattice_ok hfill
  have htiles := boxShape_tiles h.width_pos hb
  have hN := h.N_eq
  have hlive : ∀ leaf < p.N, toLattice (b.permutation p.D p.levelWidth) p.N out
      (fun index => decide (∀ l < p.D, m.w l (digit p.levelWidth p.D index l) = true)) leaf =
        p.inProduct m.w (p.latDigits leaf) := by
    intro leaf hleaf
    obtain ⟨x, hx, rfl⟩ := htiles.permutation_bijOn.surjOn (show leaf ∈ {x | x < size p.levelWidth p.D} by rwa [hN])
    rw [toLattice_apply (hN ▸ htiles.permutation_injOn) _ _ (hN ▸ hx)]
    exact (DecodeParams.inProduct_congr fun l hl => h.latDigits_permutation hs hg hbc hl).symm
  refine ⟨_, by unfold writeAtomBitmap; rw [hb], fun atom hatom => ?_⟩
  rw [show mmaKQuantum = 16 from rfl] at *
  rw [List.any_eq_true]
  constructor
  · rintro ⟨j, hj, hl⟩
    rw [List.mem_range] at hj
    rw [hlive _ (by omega)] at hl
    exact ⟨_, List.mem_filter.2 ⟨List.mem_range.2 (by omega), hl⟩, by omega⟩
  · rintro ⟨leaf, hleaf, rfl⟩
    obtain ⟨hlt, hw⟩ := List.mem_filter.1 hleaf
    refine ⟨leaf % 16, List.mem_range.2 (Nat.mod_lt _ (by decide)), ?_⟩
    rw [Nat.div_add_mod', hlive leaf (List.mem_range.1 hlt)]
    exact hw

/-! ### Exactness -/

/-- The candidates of a launch are defined, come up in increasing order, and are the written atoms and the
atoms the host marks. -/
def CandidatesExact (p : DecodeParams) (m : Masks) (k n : ℕ) : Prop :=
  ∃ atoms, p.candidateAtoms m = some atoms ∧ atoms.Pairwise (· < ·) ∧
    (∀ atom, atom ∈ atoms ↔ ∃ leaf ∈ p.written m, leaf / 16 = atom) ∧
    ∀ out, ∃ bits, writeAtomBitmap p.D p.levelWidth k n p.N m.w out = .ok bits ∧
      ∀ atom < p.N / mmaKQuantum, bits atom = true ↔ atom ∈ atoms

theorem CandidatesExact.int {p : DecodeParams} {m : Masks} {k n : ℕ} (h : p.Wf) (hs : p.AtomShifts)
    (hexact : CandidatesExact p m k n) : p.Published m ∧ ∀ leaf ∈ p.written m, leaf < intCeiling := by
  obtain ⟨atoms, hatoms, -⟩ := hexact
  have hpub : p.Published m := by
    by_contra hnot
    unfold DecodeParams.candidateAtoms at hatoms
    rw [if_neg hnot] at hatoms
    cases hatoms
  refine ⟨hpub, fun leaf hleaf => ?_⟩
  by_contra hover
  rw [h.candidateAtoms_eq_none hs hpub hleaf (not_lt.1 hover)] at hatoms
  cases hatoms

/-- Of a lattice both sides accept, whose owners hold an atom: the candidates are exactly the written atoms, in
order, exactly when the terms' units and the written leaves are `int`s. -/
theorem candidates_exact {D k n N : ℕ} {w : ℕ → ℕ} {p : DecodeParams} {b : Box} (hp : decodeParams D w k n N = .ok p)
    (hb : boxShape D w k n = .ok b) (hbox : atomShift ≤ p.latLocalBits) (m : Masks) :
    CandidatesExact p m k n ↔ p.Published m ∧ ∀ leaf ∈ p.written m, leaf < 2 ^ 31 := by
  have h := decodeParams_wf hp
  obtain ⟨-, -, rows, -, hfill⟩ := decodeParams_ok hp
  have hs : p.AtomShifts := ⟨(fillLattice_shifts hfill).1, (fillLattice_shifts hfill).2, hbox⟩
  refine ⟨CandidatesExact.int h hs, fun ⟨hpub, hint⟩ => ?_⟩
  have hspec := (h.candidates_spec hs hpub).2
  have hbits := fun out => writeAtomBitmap_spec (m := m) h hfill hb out
  obtain ⟨-, -, -, -, rfl, rfl, rfl, -⟩ := fillLattice_ok hfill
  refine ⟨_, h.candidateAtoms_eq hs hpub hint, h.candidates_sorted hs hpub, hspec, fun out => ?_⟩
  obtain ⟨bits, hok, hmark⟩ := hbits out
  exact ⟨bits, hok, fun atom hatom => (hmark atom hatom).trans (hspec atom).symm⟩

/-- Two levels of sixteen. -/
theorem candidates_exact_square : ∃ p, decodeParams 2 (fun _ => 16) 4 8 256 = .ok p ∧
    ∀ m : Masks, CandidatesExact p m 4 8 := by
  rcases hp : decodeParams 2 (fun _ => 16) 4 8 256 with err | p
  · have hok : (decodeParams 2 (fun _ => 16) 4 8 256).isOk = true := by decide +kernel
    rw [hp] at hok
    cases hok
  rcases hb : boxShape 2 (fun _ => 16) 4 8 with err | b
  · have hok : (boxShape 2 (fun _ => 16) 4 8).isOk = true := by decide +kernel
    rw [hb] at hok
    cases hok
  have h := decodeParams_wf hp
  obtain ⟨-, -, rows, -, hfill⟩ := decodeParams_ok hp
  obtain ⟨j, kappa, -, hk, -, hN, hw, -, -, -, -, hsb, -, -, hlocal, -⟩ := fillLattice_ok hfill
  have hkappa : kappa = 2 := Nat.pow_right_injective le_rfl hk.symm
  have hbox : atomShift ≤ p.latLocalBits := by
    rw [hlocal, hsb, Finset.sum_range_succ, Finset.sum_range_one, hkappa]
    unfold atomShift
    omega
  refine ⟨p, rfl, fun m => (candidates_exact hp hb hbox m).2 ⟨?_, fun leaf hleaf => ?_⟩⟩
  · have hdiv : p.N / p.latS (p.D - 1) ≤ p.N := Nat.div_le_self _ _
    refine h.published (fun l _ => ⟨4, by rw [hw]; rfl⟩) (le_refl 1) ⟨?_, ?_⟩ m
    · rw [hN]
      decide
    · have hceil : intCeiling = 2 ^ 31 := rfl
      unfold DecodeParams.unitCap
      omega
  · have hlt := List.mem_range.1 (List.mem_filter.1 hleaf).1
    omega

/-- Four levels of 256, every digit written: the last box has no `int`. -/
theorem candidates_past_int : ∃ p b, decodeParams 4 (fun _ => 256) 2 8 (2 ^ 32) = .ok p ∧
    boxShape 4 (fun _ => 256) 2 8 = .ok b ∧ atomShift ≤ p.latLocalBits ∧ ¬CandidatesExact p DecodeParams.fullMasks 2 8 := by
  rcases hp : decodeParams 4 (fun _ => 256) 2 8 (2 ^ 32) with err | p
  · have hok : (decodeParams 4 (fun _ => 256) 2 8 (2 ^ 32)).isOk = true := by decide +kernel
    rw [hp] at hok
    cases hok
  rcases hb : boxShape 4 (fun _ => 256) 2 8 with err | b
  · have hok : (boxShape 4 (fun _ => 256) 2 8).isOk = true := by decide +kernel
    rw [hb] at hok
    cases hok
  have h := decodeParams_wf hp
  obtain ⟨-, -, rows, -, hfill⟩ := decodeParams_ok hp
  obtain ⟨j, kappa, -, hk, hD, hN, -, -, -, -, -, hsb, -, -, hlocal, -⟩ := fillLattice_ok hfill
  have hkappa : kappa = 1 := Nat.pow_right_injective le_rfl hk.symm
  have hbox : atomShift ≤ p.latLocalBits := by
    rw [hlocal, hsb]
    simp only [Finset.sum_range_succ, Finset.sum_range_zero, hkappa]
    unfold atomShift
    omega
  refine ⟨p, b, rfl, rfl, hbox, fun hexact => ?_⟩
  have hs : p.AtomShifts := ⟨(fillLattice_shifts hfill).1, (fillLattice_shifts hfill).2, hbox⟩
  have hint := (hexact.int h hs).2 (2 ^ 31)
  refine absurd (hint (List.mem_filter.2 ⟨List.mem_range.2 ?_, ?_⟩)) (by decide)
  · rw [hN]
    decide
  · exact DecodeParams.live_write.1 (DecodeParams.Wf.live_full _)

end Rola
