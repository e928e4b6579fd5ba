import Rola.BitFields
import Rola.DecodeWalk

/-!
# What one unit of the walk visits

A unit is a rank: its fields index the live owners and digits of each level. The digits a unit visits
determine it, and every digit tuple of a term's kinds is visited by the unit `unitOf` names.
-/

namespace Rola

open MixedRadix

/-! ### The packed field -/

theorem fieldPack_eq {shift width count : ℕ} (hs : shift < 32) (hw : width < 32) :
    fieldPack shift width count = shift + 32 * (width + 32 * count) :=
  BitFields.or_eq_add (a := 5) (b := 5) hs hw

section Field

variable {shift width count : ℕ} (hs : shift < 32) (hw : width < 32)
include hs hw

theorem fieldShift_pack : fieldShift (fieldPack shift width count) = shift := by
  unfold fieldShift
  rw [fieldPack_eq hs hw, show (31 : ℕ) = 2 ^ 5 - 1 from rfl, Nat.and_two_pow_sub_one_eq_mod]
  omega

theorem fieldWidth_pack : fieldWidth (fieldPack shift width count) = width := by
  unfold fieldWidth
  rw [fieldPack_eq hs hw, show (31 : ℕ) = 2 ^ 5 - 1 from rfl, Nat.and_two_pow_sub_one_eq_mod,
    Nat.shiftRight_eq_div_pow]
  omega

theorem fieldCount_pack : fieldCount (fieldPack shift width count) = count := by
  unfold fieldCount
  rw [fieldPack_eq hs hw, Nat.shiftRight_eq_div_pow]
  omega

end Field

namespace DecodeParams

variable (p : DecodeParams) (m : Masks)

/-- The padded radix of a level's field. -/
def radix (term l : ℕ) : ℕ := 2 ^ p.termWidth m term l

/-- The fields a unit is read through: the write term's rotated, every other's past the outer run. -/
def rankOf (term unit : ℕ) : ℕ := if term = 0 then p.rotate m unit else unit >>> p.latOuterBits

/-- The digits of the leaf at place `t` of a unit's run. -/
def digitsAt (term unit t : ℕ) : ℕ → ℕ := (p.visitAt term (p.walkUnit m term unit) t).digit

/-- The digit tuples of a term. -/
def Live (term : ℕ) (d : ℕ → ℕ) : Prop := ∀ l < p.D, m.kind (termKind p.D term l) l (d l) = true

/-- What a term's list holds of a digit. -/
def entryOf (term : ℕ) (d : ℕ → ℕ) (l : ℕ) : ℕ := if term = 0 ∧ l < p.D - 1 then d l else d l / p.latS l

/-- The rank of a digit tuple. -/
def rankAt (term : ℕ) (d : ℕ → ℕ) : ℕ :=
  encode (p.radix m term) (fun l => (p.termList m term l).idxOf (p.entryOf term d l)) p.D

/-- The bits the rotation takes from the bottom of a unit. -/
def rotLow : ℕ := if 1 < p.D then min (p.termWidth m 0 (p.D - 2)) unitBlockWarpsBits else 0

/-- The bits the rotation moves below them. -/
def rotHigh : ℕ := if 1 < p.D then p.termShift m 0 (p.D - 2) else 0

/-- The unit that visits a digit tuple. -/
def unitOf (term : ℕ) (d : ℕ → ℕ) : ℕ :=
  if term = 0 then BitFields.swap (p.rotHigh m) (p.rotLow m) (p.rankAt m 0 d)
  else p.rankAt m term d * 2 ^ p.latOuterBits + encode p.latS (fun l => d l % p.latS l) (p.D - 1)

variable {p m} {term unit t l o : ℕ} {d : ℕ → ℕ}

@[simp] theorem walkUnit_write : p.walkUnit m 0 unit = p.resolveWriteUnit m unit := rfl

theorem walkUnit_ne (hterm : term ≠ 0) : p.walkUnit m term unit = p.resolveUnit m term unit := if_neg hterm

theorem rankOf_ne (hterm : term ≠ 0) : p.rankOf m term unit = unit >>> p.latOuterBits := if_neg hterm

theorem digitsAt_eq : p.digitsAt m term unit t l =
    if l < p.D - 1 then (p.walkUnit m term unit).digit l else (p.walkUnit m term unit).dlast + t := rfl

theorem digitsAt_last : p.digitsAt m term unit t (p.D - 1) =
    p.fieldEntry m term (p.rankOf m term unit) (p.D - 1) * p.latS (p.D - 1) + t := by
  rw [digitsAt_eq, if_neg (lt_irrefl _)]
  rcases eq_or_ne term 0 with rfl | hterm
  · rfl
  · rw [walkUnit_ne hterm, rankOf_ne hterm]
    rfl

theorem digitsAt_write (hl : l < p.D - 1) : p.digitsAt m 0 unit t l =
    p.fieldEntry m 0 (p.rankOf m 0 unit) l := by
  rw [digitsAt_eq, if_pos hl]
  rfl

theorem digitsAt_mod_last (ht : t < p.latS (p.D - 1)) :
    p.digitsAt m term unit t (p.D - 1) % p.latS (p.D - 1) = t := by
  rw [digitsAt_last, Nat.add_comm, Nat.add_mul_mod_self_right, Nat.mod_eq_of_lt ht]

/-! ### The lists -/

theorem ownerLive_iff {k : Kind} : p.ownerLive m k l o = true ↔ ∃ t < p.latS l, m.kind k l (o * p.latS l + t) = true := by
  simp [ownerLive]

theorem mem_dlist (hterm : term = 0) (hl : l < p.D - 1) : o ∈ p.termList m term l ↔
    o < p.levelWidth l ∧ m.w l o = true := by
  unfold termList dlist
  rw [if_pos ⟨hterm, hl⟩, List.mem_filter, List.mem_range]

theorem mem_olist (hl : ¬(term = 0 ∧ l < p.D - 1)) : o ∈ p.termList m term l ↔
    o < p.latG l ∧ ∃ t < p.latS l, m.kind (termKind p.D term l) l (o * p.latS l + t) = true := by
  unfold termList olist
  rw [if_neg hl, List.mem_filter, List.mem_range, ownerLive_iff]

theorem termKind_write : termKind p.D 0 l = .kindW := if_pos (.inl rfl)

theorem termList_nodup (term l : ℕ) : (p.termList m term l).Nodup := by
  unfold termList
  split
  · exact List.nodup_range.filter _
  · exact List.nodup_range.filter _

theorem length_le_radix (term l : ℕ) : (p.termList m term l).length ≤ p.radix m term l :=
  Nat.le_pow_clog (by decide) _

theorem weight_radix (term l : ℕ) : weight (p.radix m term) p.D l = 2 ^ p.termShift m term l := by
  unfold weight radix termShift
  exact Finset.prod_pow_eq_pow_sum _ _ _

theorem size_radix (term : ℕ) :
    size (p.radix m term) p.D = 2 ^ ∑ l ∈ Finset.range p.D, p.termWidth m term l :=
  Finset.prod_pow_eq_pow_sum _ _ _

namespace Wf

variable (h : p.Wf)
include h

theorem size_outer : size p.latS (p.D - 1) = 2 ^ p.latOuterBits := by
  unfold size
  rw [h.outerBits_eq, ← Finset.prod_pow_eq_pow_sum]
  exact Finset.prod_congr rfl fun i _ => h.S_eq i

theorem last_lt : p.D - 1 < p.D := by
  have := h.D_pos
  omega

theorem latG_le (hl : l < p.D) : p.latG l ≤ p.levelWidth l := by
  rw [← h.width_eq l hl]
  exact Nat.le_mul_of_pos_right _ (h.S_pos l)

theorem termList_length_le (hl : l < p.D) : (p.termList m term l).length ≤ decodeMaxLevelWidth := by
  refine le_trans ?_ (h.width_le l hl)
  unfold termList
  split
  · exact (List.length_filter_le _ _).trans_eq List.length_range
  · exact ((List.length_filter_le _ _).trans_eq List.length_range).trans (h.latG_le hl)

theorem termWidth_le (hl : l < p.D) : p.termWidth m term l ≤ 8 :=
  (Nat.clog_mono_right 2 (h.termList_length_le hl)).trans_eq (Nat.clog_pow 2 8 (by decide))

theorem termShift_lt (hl : l < p.D) : p.termShift m term l < 32 := by
  have hle : p.termShift m term l ≤ (Finset.Ico (l + 1) p.D).card • 8 :=
    Finset.sum_le_card_nsmul _ _ _ fun i hi => h.termWidth_le (Finset.mem_Ico.1 hi).2
  rw [Nat.card_Ico, nsmul_eq_mul, Nat.cast_id] at hle
  have := h.D_le
  unfold maxLevels at this
  omega

theorem fieldCount_field (hl : l < p.D) : fieldCount (p.field m term l) = (p.termList m term l).length :=
  fieldCount_pack (h.termShift_lt hl) ((h.termWidth_le hl).trans_lt (by decide))

/-- A level's index is a digit of the rank. -/
theorem fieldIndex_field (hl : l < p.D) (rank : ℕ) :
    fieldIndex (p.field m term l) rank = digit (p.radix m term) p.D rank l := by
  have hw : p.termWidth m term l < 32 := (h.termWidth_le hl).trans_lt (by decide)
  unfold fieldIndex field digit
  rw [fieldShift_pack (h.termShift_lt hl) hw, fieldWidth_pack (h.termShift_lt hl) hw, weight_radix, Nat.one_shiftLeft,
    Nat.and_two_pow_sub_one_eq_mod, Nat.shiftRight_eq_div_pow]
  rfl

theorem fieldsValid_iff (rank : ℕ) : p.fieldsValid m term rank = true ↔
    Bounded (fun l => (p.termList m term l).length) (digit (p.radix m term) p.D rank) p.D := by
  unfold fieldsValid Bounded
  rw [decide_eq_true_iff]
  refine forall₂_congr fun l hl => ?_
  rw [h.fieldIndex_field hl, h.fieldCount_field hl]

/-- Where the rank is in range, a level's entry is the one its digit indexes. -/
theorem fieldEntry_eq {rank : ℕ} (hv : p.fieldsValid m term rank = true) (hl : l < p.D) :
    ∃ hlt : digit (p.radix m term) p.D rank l < (p.termList m term l).length,
      p.fieldEntry m term rank l = (p.termList m term l)[digit (p.radix m term) p.D rank l] := by
  have hlt := (h.fieldsValid_iff rank).1 hv l hl
  refine ⟨hlt, ?_⟩
  unfold fieldEntry
  rw [h.fieldCount_field hl, h.fieldIndex_field hl, if_pos hlt, List.getD_eq_getElem _ _ hlt]

theorem nonempty_of_valid {rank : ℕ} (hv : p.fieldsValid m term rank = true) :
    ∀ l < p.D, p.termList m term l ≠ [] := fun l hl =>
  List.ne_nil_of_length_pos (Nat.zero_lt_of_lt ((h.fieldsValid_iff rank).1 hv l hl))

/-- Past a level's count the entry is the list's first. -/
theorem fieldEntry_mem (rank : ℕ) (hl : l < p.D) (hne : p.termList m term l ≠ []) :
    p.fieldEntry m term rank l ∈ p.termList m term l := by
  have hpos := List.length_pos_of_ne_nil hne
  unfold fieldEntry
  rw [h.fieldCount_field hl]
  split
  · rename_i hlt
    rw [List.getD_eq_getElem _ _ hlt]
    exact List.getElem_mem hlt
  · rw [List.getD_eq_getElem _ _ hpos]
    exact List.getElem_mem hpos

theorem idxOf_fieldEntry {rank : ℕ} (hv : p.fieldsValid m term rank = true) (hl : l < p.D) :
    (p.termList m term l).idxOf (p.fieldEntry m term rank l) = digit (p.radix m term) p.D rank l := by
  obtain ⟨hlt, heq⟩ := h.fieldEntry_eq hv hl
  rw [heq]
  exact (termList_nodup term l).idxOf_getElem _ hlt

/-- A rank made of the places of entries reads them back. -/
theorem fieldEntry_encode {e : ℕ → ℕ} (he : ∀ l < p.D, e l ∈ p.termList m term l) :
    p.fieldsValid m term (encode (p.radix m term) (fun l => (p.termList m term l).idxOf (e l)) p.D) = true ∧
    ∀ l < p.D, p.fieldEntry m term (encode (p.radix m term) (fun l => (p.termList m term l).idxOf (e l)) p.D) l = e l := by
  have hidx : ∀ l < p.D, (p.termList m term l).idxOf (e l) < (p.termList m term l).length := fun l hl =>
    List.idxOf_lt_length_of_mem (he l hl)
  have hb : Bounded (p.radix m term) (fun l => (p.termList m term l).idxOf (e l)) p.D := fun l hl =>
    (hidx l hl).trans_le (length_le_radix term l)
  have hdig := fun l (hl : l < p.D) => digit_encode hb hl
  have hv := (h.fieldsValid_iff _).2 fun l hl => (hdig l hl).trans_lt (hidx l hl)
  refine ⟨hv, fun l hl => ?_⟩
  obtain ⟨hlt, heq⟩ := h.fieldEntry_eq hv hl
  rw [heq]
  simp only [hdig l hl]
  exact List.getElem_idxOf _

theorem rotate_eq : p.rotate m unit = BitFields.swap (p.rotLow m) (p.rotHigh m) unit := by
  unfold rotate rotLow rotHigh
  split
  · rename_i hD
    have hl : p.D - 2 < p.D := by omega
    have hw : p.termWidth m 0 (p.D - 2) < 32 := (h.termWidth_le hl).trans_lt (by decide)
    have hmin : (if p.termWidth m 0 (p.D - 2) < unitBlockWarpsBits then p.termWidth m 0 (p.D - 2)
        else unitBlockWarpsBits) = min (p.termWidth m 0 (p.D - 2)) unitBlockWarpsBits := by
      unfold unitBlockWarpsBits
      split <;> omega
    dsimp only [field]
    rw [fieldWidth_pack (h.termShift_lt hl) hw, fieldShift_pack (h.termShift_lt hl) hw, hmin]
    generalize min (p.termWidth m 0 (p.D - 2)) unitBlockWarpsBits = a
    generalize p.termShift m 0 (p.D - 2) = b
    rw [Nat.one_shiftLeft, Nat.one_shiftLeft, Nat.and_two_pow_sub_one_eq_mod, Nat.and_two_pow_sub_one_eq_mod,
      Nat.shiftRight_eq_div_pow, Nat.shiftRight_eq_div_pow,
      BitFields.or_eq_add (Nat.mod_lt _ (by positivity)) (Nat.mod_lt _ (by positivity))]
    rfl
  · simp [BitFields.swap, Nat.mod_one]

omit h in
theorem rot_le : p.rotLow m + p.rotHigh m ≤ ∑ l ∈ Finset.range p.D, p.termWidth m 0 l := by
  unfold rotLow rotHigh termShift
  split
  · rename_i hD
    obtain ⟨n, hn⟩ : ∃ n, p.D = n + 2 := ⟨p.D - 2, by omega⟩
    rw [hn, Finset.sum_range_succ, Finset.sum_range_succ]
    have hico : Finset.Ico (n + 2 - 2 + 1) (n + 2) = {n + 1} := by
      ext i
      simp only [Finset.mem_Ico, Finset.mem_singleton]
      omega
    rw [hico, Finset.sum_singleton]
    have := Nat.min_le_left (p.termWidth m 0 n) unitBlockWarpsBits
    simp only [Nat.add_sub_cancel]
    omega
  · simp

/-! ### A visit's digits -/

theorem digitsAt_outer (hterm : term ≠ 0) (hl : l < p.D - 1) : p.digitsAt m term unit t l =
    p.fieldEntry m term (p.rankOf m term unit) l * p.latS l +
      digit p.latS (p.D - 1) (unit % 2 ^ p.latOuterBits) l := by
  have hw : weight p.latS (p.D - 1) l = 2 ^ p.latOshift l := by
    unfold weight
    rw [h.oshift_eq l hl, ← Finset.prod_pow_eq_pow_sum]
    exact Finset.prod_congr rfl fun i _ => h.S_eq i
  rw [digitsAt_eq, if_pos hl, walkUnit_ne hterm, rankOf_ne hterm]
  unfold digit
  rw [hw]
  dsimp only [resolveUnit]
  rw [(h.split_digit l (d := fun _ => _)).2, Nat.one_shiftLeft, Nat.and_two_pow_sub_one_eq_mod,
    Nat.shiftRight_eq_div_pow _ (p.latOshift l)]

/-- What each list held of a visited leaf's digits. -/
theorem entryOf_digitsAt (ht : t < p.latS (p.D - 1)) (hl : l < p.D) :
    p.entryOf term (p.digitsAt m term unit t) l = p.fieldEntry m term (p.rankOf m term unit) l := by
  have hdiv : ∀ e r, r < p.latS l → (e * p.latS l + r) / p.latS l = e := by
    intro e r hr
    rw [Nat.add_comm, Nat.add_mul_div_right _ _ (h.S_pos l), Nat.div_eq_of_lt hr, Nat.zero_add]
  unfold entryOf
  rcases Nat.lt_or_ge l (p.D - 1) with hlast | hlast
  · rcases eq_or_ne term 0 with rfl | hterm
    · rw [if_pos ⟨rfl, hlast⟩, digitsAt_write hlast]
    · rw [if_neg fun hc => hterm hc.1, h.digitsAt_outer hterm hlast]
      exact hdiv _ _ (digit_lt (fun i _ => h.S_pos i) hlast)
  · obtain rfl : l = p.D - 1 := by omega
    rw [if_neg fun hc => lt_irrefl _ hc.2, digitsAt_last]
    exact hdiv _ _ ht

/-- The leaf of a visit is its digits'. -/
theorem leaf_visitAt (ht : t < p.latS (p.D - 1)) :
    (p.visitAt term (p.walkUnit m term unit) t).leaf = p.latIndex (p.digitsAt m term unit t) := by
  obtain ⟨n, hn⟩ : ∃ n, p.D = n + 1 := ⟨p.D - 1, by have := h.D_pos; omega⟩
  have howner : p.latOwner (p.digitsAt m term unit t) =
      ∑ l ∈ Finset.range p.D, (p.digitsAt m term unit t l / p.latS l) * p.latGsuf l := by
    refine Finset.sum_congr rfl fun l _ => ?_
    rw [(h.split_digit l).1]
  have hentry : ∀ l < p.D, ¬(term = 0 ∧ l < p.D - 1) → p.digitsAt m term unit t l / p.latS l =
      p.fieldEntry m term (p.rankOf m term unit) l := by
    intro l hl hc
    have := @DecodeParams.Wf.entryOf_digitsAt _ m term unit _ _ h ht hl
    rwa [entryOf, if_neg hc] at this
  unfold latIndex
  rw [(h.split_digit (p.D - 1)).2, digitsAt_mod_last ht, howner]
  rcases eq_or_ne term 0 with rfl | hterm
  · have hlast := hentry (p.D - 1) h.last_lt fun hc => lt_irrefl _ hc.2
    have hhead : ∀ l ∈ Finset.range (p.D - 1), p.digitsAt m 0 unit t l / p.latS l * p.latGsuf l =
        (p.fieldEntry m 0 (p.rotate m unit) l >>> p.latSbits l) * p.latGsuf l := by
      intro l hl
      rw [digitsAt_write (Finset.mem_range.1 hl), (h.split_digit l (d := fun _ => _)).1]
      rfl
    have hruns : p.latRuns (p.digitsAt m 0 unit t) = ∑ l ∈ Finset.range (p.D - 1),
        (p.fieldEntry m 0 (p.rotate m unit) l &&& (p.latS l - 1)) <<< p.latRunShift l := by
      refine Finset.sum_congr rfl fun l hl => ?_
      rw [digitsAt_write (Finset.mem_range.1 hl)]
      rfl
    have hsplit : ∑ l ∈ Finset.range p.D, p.digitsAt m 0 unit t l / p.latS l * p.latGsuf l =
        ∑ l ∈ Finset.range (p.D - 1), p.digitsAt m 0 unit t l / p.latS l * p.latGsuf l +
          p.digitsAt m 0 unit t (p.D - 1) / p.latS (p.D - 1) * p.latGsuf (p.D - 1) := by
      conv_lhs => rw [hn, Finset.sum_range_succ]
      rw [hn]
      rfl
    rw [hruns, hsplit, Finset.sum_congr rfl hhead, hlast]
    rfl
  · have hsum : ∑ l ∈ Finset.range p.D, p.digitsAt m term unit t l / p.latS l * p.latGsuf l =
        ∑ l ∈ Finset.range p.D, p.fieldEntry m term (unit >>> p.latOuterBits) l * p.latGsuf l := by
      refine Finset.sum_congr rfl fun l hl => ?_
      rw [hentry l (Finset.mem_range.1 hl) fun hc => hterm hc.1, rankOf, if_neg hterm]
    have hruns : p.latRuns (p.digitsAt m term unit t) = (unit % 2 ^ p.latOuterBits) <<< p.latInnerBits := by
      have hterms : ∀ l ∈ Finset.range (p.D - 1),
          (p.digitsAt m term unit t l &&& (p.latS l - 1)) <<< p.latRunShift l =
          digit p.latS (p.D - 1) (unit % 2 ^ p.latOuterBits) l * weight p.latS (p.D - 1) l *
            p.latS (p.D - 1) := by
        intro l hl
        rw [Finset.mem_range] at hl
        rw [(h.split_digit l).2, h.digitsAt_outer hterm hl, Nat.add_comm, Nat.add_mul_mod_self_right,
          Nat.mod_eq_of_lt (digit_lt (fun i _ => h.S_pos i) hl), Nat.shiftLeft_eq, ← h.weight_S, mul_assoc]
        congr 1
        rw [hn] at hl ⊢
        exact weight_succ hl
      unfold latRuns
      rw [Finset.sum_congr rfl hterms, ← Finset.sum_mul, Nat.shiftLeft_eq, h.innerBits_eq, ← h.S_eq]
      congr 1
      exact encode_digit (by rw [h.size_outer]; exact Nat.mod_lt _ (by positivity))
    rw [hruns, hsum]
    unfold visitAt
    rw [walkUnit_ne hterm]
    dsimp only [resolveUnit]
    rw [Nat.one_shiftLeft, Nat.and_two_pow_sub_one_eq_mod]

/-! ### What a run enumerates -/

/-- A run holds the places whose digits are of the term. -/
theorem mem_unitRun : t ∈ p.unitRun term (p.walkUnit m term unit) ↔
    t < p.latS (p.D - 1) ∧ p.fieldsValid m term (p.rankOf m term unit) = true ∧
      p.Live m term (p.digitsAt m term unit t) := by
  have hsplit : p.Live m term (p.digitsAt m term unit t) ↔
      (∀ l < p.D - 1, m.kind (termKind p.D term l) l (p.digitsAt m term unit t l) = true) ∧
      m.kind (termKind p.D term (p.D - 1)) (p.D - 1) (p.digitsAt m term unit t (p.D - 1)) = true := by
    refine ⟨fun hlive => ⟨fun l hl => hlive l (by omega), hlive _ h.last_lt⟩, fun hlive l hl => ?_⟩
    rcases Nat.lt_or_ge l (p.D - 1) with hlt | hge
    · exact hlive.1 l hlt
    · obtain rfl : l = p.D - 1 := by omega
      exact hlive.2
  unfold unitRun
  rw [List.mem_filter, List.mem_range, hsplit]
  refine and_congr_right fun ht => ?_
  rcases eq_or_ne term 0 with rfl | hterm
  · have hdigits : p.fieldsValid m 0 (p.rankOf m 0 unit) = true →
        ∀ l < p.D - 1, m.kind (termKind p.D 0 l) l (p.digitsAt m 0 unit t l) = true := by
      intro hv l hl
      rw [digitsAt_write hl, termKind_write]
      exact ((mem_dlist rfl hl).1 (h.fieldEntry_mem _ (by omega) (h.nonempty_of_valid hv l (by omega)))).2
    rw [digitsAt_last, termKind_write]
    simp only [if_true, walkUnit_write, resolveWriteUnit, Bool.true_and, Bool.and_eq_true]
    exact ⟨fun ⟨hv, hw⟩ => ⟨hv, hdigits hv, hw⟩, fun ⟨hv, _, hw⟩ => ⟨hv, hw⟩⟩
  · rw [if_neg hterm, walkUnit_ne hterm, digitsAt_last, rankOf_ne hterm]
    have hdigits : (∀ l < p.D - 1, m.kind (termKind p.D term l) l (p.digitsAt m term unit t l) = true) ↔
        ∀ l < p.D - 1, m.kind (termKind p.D term l) l ((p.resolveUnit m term unit).digit l) = true := by
      refine forall₂_congr fun l hl => ?_
      rw [digitsAt_eq, if_pos hl, walkUnit_ne hterm]
    rw [hdigits]
    simp only [resolveUnit, Bool.true_and, Bool.and_eq_true, decide_eq_true_eq, and_assoc]

/-! ### The unit of a digit tuple -/

theorem entryOf_mem (hd : Bounded p.levelWidth d p.D) (hlive : p.Live m term d) (hl : l < p.D) :
    p.entryOf term d l ∈ p.termList m term l := by
  unfold entryOf
  split
  · rename_i hc
    have hk := hlive l hl
    rw [hc.1, termKind_write] at hk
    exact (mem_dlist hc.1 hc.2).2 ⟨hd l hl, hk⟩
  · rename_i hc
    refine (mem_olist hc).2 ⟨h.owner_bounded hd l hl, d l % p.latS l, Nat.mod_lt _ (h.S_pos l), ?_⟩
    rw [Nat.mul_comm, Nat.div_add_mod]
    exact hlive l hl

theorem rankAt_lt (hd : Bounded p.levelWidth d p.D) (hlive : p.Live m term d) :
    p.rankAt m term d < 2 ^ ∑ l ∈ Finset.range p.D, p.termWidth m term l := by
  rw [← size_radix]
  refine encode_lt fun l hl => ?_
  exact (List.idxOf_lt_length_of_mem (h.entryOf_mem hd hlive hl)).trans_le (length_le_radix term l)

theorem outer_lt (d : ℕ → ℕ) : encode p.latS (fun l => d l % p.latS l) (p.D - 1) < 2 ^ p.latOuterBits := by
  rw [← h.size_outer]
  exact encode_lt fun l _ => Nat.mod_lt _ (h.S_pos l)

theorem rankOf_unitOf (d : ℕ → ℕ) : p.rankOf m term (p.unitOf m term d) = p.rankAt m term d := by
  unfold unitOf
  rcases eq_or_ne term 0 with rfl | hterm
  · rw [if_pos rfl]
    unfold rankOf
    rw [if_pos rfl, h.rotate_eq, BitFields.swap_swap]
  · rw [if_neg hterm, rankOf_ne hterm, Nat.shiftRight_eq_div_pow, Nat.add_comm, Nat.mul_comm]
    exact BitFields.high_eq (h.outer_lt d)

/-- The unit of a tuple, and the place of its innermost digit, visit the tuple. -/
theorem digitsAt_unitOf (hd : Bounded p.levelWidth d p.D) (hlive : p.Live m term d) (hl : l < p.D) :
    p.digitsAt m term (p.unitOf m term d) (d (p.D - 1) % p.latS (p.D - 1)) l = d l := by
  have hentry := (h.fieldEntry_encode fun l hl => h.entryOf_mem hd hlive hl).2
  rw [← rankAt] at hentry
  rcases Nat.lt_or_ge l (p.D - 1) with hlast | hlast
  · rcases eq_or_ne term 0 with rfl | hterm
    · rw [digitsAt_write hlast, h.rankOf_unitOf, hentry l hl, entryOf, if_pos ⟨rfl, hlast⟩]
    · have hlow : p.unitOf m term d % 2 ^ p.latOuterBits = encode p.latS (fun l => d l % p.latS l) (p.D - 1) := by
        unfold unitOf
        rw [if_neg hterm, Nat.add_comm, Nat.mul_comm]
        exact BitFields.low_eq (h.outer_lt d)
      rw [h.digitsAt_outer hterm hlast, h.rankOf_unitOf, hentry l hl, entryOf, if_neg fun hc => hterm hc.1, hlow,
        digit_encode (fun l _ => Nat.mod_lt _ (h.S_pos l)) hlast, Nat.mul_comm, Nat.div_add_mod]
  · obtain rfl : l = p.D - 1 := by omega
    rw [digitsAt_last, h.rankOf_unitOf, hentry _ hl, entryOf, if_neg fun hc => lt_irrefl _ hc.2, Nat.mul_comm,
      Nat.div_add_mod]

theorem fieldsValid_unitOf (hd : Bounded p.levelWidth d p.D) (hlive : p.Live m term d) :
    p.fieldsValid m term (p.rankOf m term (p.unitOf m term d)) = true := by
  rw [h.rankOf_unitOf]
  exact (h.fieldEntry_encode fun l hl => h.entryOf_mem hd hlive hl).1

theorem unitOf_lt (hd : Bounded p.levelWidth d p.D) (hlive : p.Live m term d) :
    p.unitOf m term d < 2 ^ p.termBits m term := by
  have hrank := h.rankAt_lt hd hlive
  unfold unitOf termBits
  rcases eq_or_ne term 0 with rfl | hterm
  · rw [if_pos rfl, if_pos rfl, Nat.add_zero]
    exact BitFields.swap_lt (by rw [Nat.add_comm]; exact rot_le) hrank
  · rw [if_neg hterm, if_neg hterm, pow_add]
    calc _ < p.rankAt m term d * 2 ^ p.latOuterBits + 2 ^ p.latOuterBits := by
          have := h.outer_lt d
          omega
      _ = (p.rankAt m term d + 1) * 2 ^ p.latOuterBits := by ring
      _ ≤ _ := Nat.mul_le_mul_right _ hrank

/-- The digits a unit visits name it. -/
theorem unitOf_digitsAt (hunit : unit < 2 ^ p.termBits m term) (ht : t < p.latS (p.D - 1))
    (hv : p.fieldsValid m term (p.rankOf m term unit) = true) :
    p.unitOf m term (p.digitsAt m term unit t) = unit := by
  have hrank : p.rankAt m term (p.digitsAt m term unit t) =
      p.rankOf m term unit % 2 ^ ∑ l ∈ Finset.range p.D, p.termWidth m term l := by
    unfold rankAt
    rw [← size_radix, ← encode_digit_mod]
    refine encode_congr (fun _ _ => rfl) fun l hl => ?_
    rw [h.entryOf_digitsAt ht hl, h.idxOf_fieldEntry hv hl]
  unfold termBits at hunit
  rcases eq_or_ne term 0 with rfl | hterm
  · rw [if_pos rfl, Nat.add_zero] at hunit
    have hrot : p.rankOf m 0 unit = BitFields.swap (p.rotLow m) (p.rotHigh m) unit := h.rotate_eq
    have hlt := BitFields.swap_lt (rot_le (p := p) (m := m)) hunit
    unfold unitOf
    rw [if_pos rfl, hrank, hrot, Nat.mod_eq_of_lt hlt, BitFields.swap_swap]
  · rw [if_neg hterm, pow_add] at hunit
    have houter : encode p.latS (fun l => p.digitsAt m term unit t l % p.latS l) (p.D - 1) =
        unit % 2 ^ p.latOuterBits := by
      have hlt : unit % 2 ^ p.latOuterBits < size p.latS (p.D - 1) := by
        rw [h.size_outer]
        exact Nat.mod_lt _ (by positivity)
      conv_rhs => rw [← encode_digit hlt]
      refine encode_congr (fun _ _ => rfl) fun l hl => ?_
      rw [h.digitsAt_outer hterm hl, Nat.add_comm, Nat.add_mul_mod_self_right,
        Nat.mod_eq_of_lt (digit_lt (fun i _ => h.S_pos i) hl)]
    unfold unitOf
    rw [if_neg hterm, hrank, houter, rankOf_ne hterm, Nat.shiftRight_eq_div_pow,
      Nat.mod_eq_of_lt ((Nat.div_lt_iff_lt_mul (by positivity)).2 hunit), Nat.mul_comm, Nat.div_add_mod]

end Wf

end DecodeParams

end Rola
