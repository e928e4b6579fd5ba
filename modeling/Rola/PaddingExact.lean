import Mathlib.Algebra.Field.Rat
import Mathlib.Data.List.GetD
import Rola.Padding
import Rola.RadixEmbedding

/-!
# Padding is invisible

A padded level is zero past its own digits, so no product reaches a leaf with a padded digit and every
other leaf is the unpadded one's under the wider radices. Over a run the padded state keeps the unpadded
one there, and zeros elsewhere.
-/

namespace Rola.Padding
open Finset MixedRadix

/-! ### The widths -/

/-- The width a level is served at. -/
def servedWidth (width : ℕ) : ℕ := 2 ^ (max width 16 - 1).size

theorem paddedLevelWidth_ok {width : ℕ} (hw : 1 ≤ width) : paddedLevelWidth width PADDED_LEVEL_FLOOR = .ok (servedWidth width) := by
  rw [paddedLevelWidth, if_neg (by omega), Nat.one_shiftLeft]
  rfl

theorem servedWidth_least (width : ℕ) : IsLeast {B | (∃ k, B = 2 ^ k) ∧ max width 16 ≤ B} (servedWidth width) := by
  have hsize := Nat.lt_size_self (max width 16 - 1)
  refine ⟨⟨⟨_, rfl⟩, by unfold servedWidth; omega⟩, ?_⟩
  rintro B ⟨⟨k, rfl⟩, hle⟩
  exact Nat.pow_le_pow_right (by omega) (Nat.size_le.2 (by omega))

theorem paddedValueWidth_ok {dV : ℕ} {shipped : List ℕ} (h : ∃ DV ∈ shipped, dV ≤ DV) :
    ∃ DV ∈ shipped, paddedValueWidth dV shipped = .ok DV ∧ dV ≤ DV := by
  obtain ⟨DV, hmem, hle⟩ := h
  have hsome : (shipped.find? fun width => decide (dV ≤ width)).isSome := List.find?_isSome.2 ⟨DV, hmem, decide_eq_true hle⟩
  obtain ⟨width, hfind⟩ := Option.isSome_iff_exists.1 hsome
  have hp := List.find?_some hfind
  refine ⟨width, List.mem_of_find?_eq_some hfind, ?_, of_decide_eq_true hp⟩
  rw [paddedValueWidth, hfind]

theorem mapM_ok {α β : Type} {f : α → Except String β} {g : α → β} {l : List α} (h : ∀ x ∈ l, f x = .ok (g x)) :
    l.mapM f = .ok (l.map g) := by
  induction l with
  | nil => rfl
  | cons x l ih =>
    rw [List.mapM_cons, h x List.mem_cons_self, ih fun y hy => h y (List.mem_cons_of_mem _ hy)]
    rfl

theorem shape_of {widths : List ℕ} (hw : ∀ width ∈ widths, 1 ≤ width) {dV : ℕ} {shipped : List ℕ}
    (hshipped : ∃ DV ∈ shipped, dV ≤ DV) : ∃ DV ∈ shipped, dV ≤ DV ∧
      PaddedShape.of widths dV shipped = .ok ⟨widths, widths.map servedWidth, dV, DV⟩ := by
  obtain ⟨DV, hmem, hok, hle⟩ := paddedValueWidth_ok hshipped
  refine ⟨DV, hmem, hle, ?_⟩
  have hwidths : widths.mapM (paddedLevelWidth · PADDED_LEVEL_FLOOR) = .ok (widths.map servedWidth) :=
    mapM_ok fun width hwidth => paddedLevelWidth_ok (hw width hwidth)
  rw [PaddedShape.of, hwidths, hok]
  rfl

/-! ### The address map -/

/-- A list of widths as radices. -/
def radix (widths : List ℕ) (l : ℕ) : ℕ := widths.getD l 0

theorem leafCapacity_eq (widths : List ℕ) : leafCapacity widths = size (radix widths) widths.length := by
  have hlist : widths = (List.range widths.length).map (radix widths) := by
    refine List.ext_getElem (by simp) fun i hi _ => ?_
    rw [List.getElem_map, List.getElem_range, radix, List.getD_eq_getElem _ _ hi]
  rw [leafCapacity, ← List.prod_eq_foldl, size]
  conv_lhs => rw [hlist]
  rfl

theorem radixStrides_getD {widths : List ℕ} {l : ℕ} (hl : l < widths.length) :
    (radixStrides widths).getD l 0 = weight (radix widths) widths.length l := by
  have htail : widths.drop (l + 1) = (List.range' (l + 1) (widths.length - (l + 1))).map (radix widths) := by
    refine List.ext_getElem (by simp) fun i hi _ => ?_
    rw [List.length_drop] at hi
    rw [List.getElem_map, List.getElem_range', List.getElem_drop, radix, List.getD_eq_getElem _ _ (by omega)]
    congr 1
    omega
  rw [radixStrides, List.getD_eq_getElem _ _ (by simpa using hl), List.getElem_map, List.getElem_range, ← List.prod_eq_foldl, htail]
  rfl

variable {K : Type} [Field K]

/-- A level's amplitude at a digit. -/
def amplitudeAt (levels : List (List K)) (l d : ℕ) : K := (levels.getD l []).getD d 0

theorem leafProduct_eq {levels : List (List K)} {widths : List ℕ} (h : levels.map List.length = widths) (leaf : ℕ) :
    leafProduct levels (radixStrides widths) leaf =
      ∏ l ∈ range widths.length, amplitudeAt levels l (digit (radix widths) widths.length leaf l) := by
  have hlength : levels.length = widths.length := by rw [← h, List.length_map]
  have hlist : (levels.zip (radixStrides widths)).map
      (fun x : List K × ℕ => x.1.getD (leaf / x.2 % x.1.length) 0) =
      (List.range widths.length).map fun l => amplitudeAt levels l (digit (radix widths) widths.length leaf l) := by
    refine List.ext_getElem (by simp [radixStrides, hlength]) fun i hi hi' => ?_
    rw [List.length_map, List.length_range] at hi'
    have hlevel : i < levels.length := by omega
    have hwidth : (levels[i]).length = radix widths i := by
      rw [radix, List.getD_eq_getElem _ _ hi']
      simp only [← h, List.getElem_map]
    have hstride : getElem (radixStrides widths) i (by simpa [radixStrides] using hi') = weight (radix widths) widths.length i := by
      rw [← radixStrides_getD hi', List.getD_eq_getElem]
    rw [List.getElem_map, List.getElem_map, List.getElem_range, List.getElem_zip]
    dsimp only
    rw [hwidth, hstride, amplitudeAt, List.getD_eq_getElem levels _ hlevel]
    rfl
  rw [leafProduct]
  exact congrArg List.prod hlist

/-! ### The padded operands -/

/-- What `_pad_last_dim` returns. -/
def padded (t : List K) (width : ℕ) : List K := t ++ List.replicate (width - t.length) 0

theorem padLastDim_ok {t : List K} {width : ℕ} (h : t.length ≤ width) : padLastDim t width = .ok (padded t width) := by
  unfold padLastDim padded
  split
  · rename_i heq
    rw [heq, Nat.sub_self, List.replicate_zero, List.append_nil]
  · rw [if_neg (by omega)]

theorem padded_getD {t : List K} {width d : ℕ} : (padded t width).getD d 0 = if d < t.length then t.getD d 0 else 0 := by
  rw [padded]
  split
  · rename_i hd
    rw [List.getD_append _ _ _ _ hd]
  · rename_i hd
    rw [List.getD_append_right _ _ _ _ (by omega), List.getD_eq_getElem?_getD, List.getElem?_replicate]
    split <;> rfl

theorem padded_length {t : List K} {width : ℕ} (h : t.length ≤ width) : (padded t width).length = width := by
  rw [padded, List.length_append, List.length_replicate]
  omega

/-- The levels a padded call is handed. -/
def paddedLevels (levels : List (List K)) (widths' : List ℕ) : List (List K) := List.zipWith padded levels widths'

/-- A level row a width. -/
def Shaped (widths : List ℕ) (levels : List (List K)) : Prop := levels.map List.length = widths

section Levels

variable {widths widths' : List ℕ} {levels : List (List K)}

omit [Field K] in
theorem Shaped.length (h : Shaped widths levels) : levels.length = widths.length := by rw [← h, List.length_map]

omit [Field K] in
theorem Shaped.level (h : Shaped widths levels) {l : ℕ} (hl : l < widths.length) :
    (levels.getD l []).length = radix widths l := by
  have hlevel : l < levels.length := by rw [h.length]; exact hl
  have hwidths : levels.map List.length = widths := h
  rw [radix, List.getD_eq_getElem _ _ hl, List.getD_eq_getElem _ _ hlevel]
  simp only [← hwidths, List.getElem_map]

theorem radix_le (hle : List.Forall₂ (· ≤ ·) widths widths') {l : ℕ} (hl : l < widths.length) : radix widths l ≤ radix widths' l := by
  have hl' : l < widths'.length := by rw [← hle.length_eq]; exact hl
  rw [radix, radix, List.getD_eq_getElem _ _ hl, List.getD_eq_getElem _ _ hl']
  exact (List.forall₂_iff_get.1 hle).2 l hl hl'

theorem paddedLevels_getD (h : Shaped widths levels) (hle : List.Forall₂ (· ≤ ·) widths widths') {l : ℕ} (hl : l < widths.length) :
    (paddedLevels levels widths').getD l [] = padded (levels.getD l []) (radix widths' l) := by
  have hlevel : l < levels.length := by rw [h.length]; exact hl
  have hl' : l < widths'.length := by rw [← hle.length_eq]; exact hl
  rw [paddedLevels, List.getD_eq_getElem _ _ (by rw [List.length_zipWith]; omega), List.getElem_zipWith, radix,
    List.getD_eq_getElem _ _ hlevel, List.getD_eq_getElem _ _ hl']

theorem shaped_paddedLevels (h : Shaped widths levels) (hle : List.Forall₂ (· ≤ ·) widths widths') :
    Shaped widths' (paddedLevels levels widths') := by
  refine List.ext_getElem ?_ fun l hl hl' => ?_
  · rw [List.length_map, paddedLevels, List.length_zipWith, h.length, hle.length_eq, Nat.min_self]
  · have hlw : l < widths.length := by rw [hle.length_eq]; exact hl'
    have hget := paddedLevels_getD h hle hlw
    rw [List.getD_eq_getElem _ _ (by simpa using hl)] at hget
    rw [List.getElem_map, hget, padded_length (by rw [h.level hlw]; exact radix_le hle hlw), radix, List.getD_eq_getElem]

theorem padRoutes_ok (h : Shaped widths levels) (hle : List.Forall₂ (· ≤ ·) widths widths') :
    padRoutes levels widths' = .ok (paddedLevels levels widths') := by
  have hlength : levels.length = widths'.length := h.length.trans hle.length_eq
  rw [padRoutes, if_neg (not_not.2 hlength), paddedLevels, ← List.map_uncurry_zip_eq_zipWith]
  refine mapM_ok fun x hx => ?_
  obtain ⟨l, hl, rfl⟩ := List.mem_iff_getElem.1 hx
  rw [List.length_zip] at hl
  have hlw : l < widths.length := by rw [← h.length]; omega
  have hlen := h.level hlw
  have hwle := radix_le hle hlw
  rw [radix, radix, List.getD_eq_getElem _ _ hlw, List.getD_eq_getElem widths' _ (by omega)] at hwle
  rw [radix, List.getD_eq_getElem _ _ hlw, List.getD_eq_getElem _ _ (by omega)] at hlen
  rw [List.getElem_zip]
  exact padLastDim_ok (by omega)

/-- A padded level's amplitude: its own below its width, zero past it. -/
theorem amplitudeAt_padded (h : Shaped widths levels) (hle : List.Forall₂ (· ≤ ·) widths widths') {l d : ℕ} (hl : l < widths.length) :
    amplitudeAt (paddedLevels levels widths') l d = if d < radix widths l then amplitudeAt levels l d else 0 := by
  rw [amplitudeAt, paddedLevels_getD h hle hl, padded_getD, h.level hl, amplitudeAt]

/-- A leaf's product under padded levels: the unpadded leaf's where every digit is a level's own, else zero. -/
theorem leafProduct_outer (h : Shaped widths levels) (hle : List.Forall₂ (· ≤ ·) widths widths') {leaf : ℕ}
    (hout : ¬MixedRadix.Inner (radix widths) (radix widths') widths.length leaf) :
    leafProduct (paddedLevels levels widths') (radixStrides widths') leaf = 0 := by
  rw [MixedRadix.Inner] at hout
  push Not at hout
  obtain ⟨l, hl, hdigit⟩ := hout
  rw [leafProduct_eq (shaped_paddedLevels h hle), ← hle.length_eq]
  refine prod_eq_zero (mem_range.2 hl) ?_
  rw [amplitudeAt_padded h hle hl, if_neg (by omega)]

theorem leafProduct_rebase (h : Shaped widths levels) (hle : List.Forall₂ (· ≤ ·) widths widths')
    (hpos : ∀ l < widths.length, 0 < radix widths l) (leaf : ℕ) :
    leafProduct (paddedLevels levels widths') (radixStrides widths')
        (rebase (radix widths) (radix widths') widths.length leaf) = leafProduct levels (radixStrides widths) leaf := by
  rw [leafProduct_eq (shaped_paddedLevels h hle), leafProduct_eq h, ← hle.length_eq]
  refine prod_congr rfl fun l hl => ?_
  rw [mem_range] at hl
  rw [digit_rebase hpos (fun i hi => radix_le hle hi) hl, amplitudeAt_padded h hle hl, if_pos (digit_lt hpos hl)]

end Levels

/-! ### The run -/

/-- A token's operands of the given widths. -/
structure Operands.Fits (widths : List ℕ) (dV : ℕ) (tok : Operands K) : Prop where
  read : Shaped widths tok.read
  write : Shaped widths tok.write
  value : tok.value.length = dV

def Operands.padded (widths' : List ℕ) (DV : ℕ) (tok : Operands K) : Operands K :=
  ⟨paddedLevels tok.read widths', paddedLevels tok.write widths', tok.gain, Padding.padded tok.value DV⟩

/-- Dials of the wider radices that are the narrower ones' on their digits. -/
def DialsExtend (widths widths' : List ℕ) : Option (List (List K)) → Option (List (List K)) → Prop
  | none, none => True
  | some dials, some dials' => Shaped widths dials ∧ Shaped widths' dials' ∧
      ∀ l < widths.length, ∀ d < radix widths l, amplitudeAt dials' l d = amplitudeAt dials l d
  | _, _ => False

/-- The unpadded state under the wider radices, and zeros elsewhere. -/
structure Embedded (widths widths' : List ℕ) (dV DV : ℕ) (state state' : State K) : Prop where
  value : ∀ leaf, ∀ col < dV, state' (rebase (radix widths) (radix widths') widths.length leaf) col = state leaf col
  mass : ∀ leaf, state' (rebase (radix widths) (radix widths') widths.length leaf) DV = state leaf dV
  outer : ∀ leaf', ¬MixedRadix.Inner (radix widths) (radix widths') widths.length leaf' → ∀ col, state' leaf' col = 0
  tail : ∀ leaf' col, dV ≤ col → col < DV → state' leaf' col = 0

/-- What a padding widens. -/
structure Widens (widths widths' : List ℕ) (dV DV : ℕ) : Prop where
  pos : ∀ width ∈ widths, 1 ≤ width
  widths : List.Forall₂ (· ≤ ·) widths widths'
  value : dV ≤ DV

section Run

variable {widths widths' : List ℕ} {dV DV : ℕ} (hw : Widens widths widths' dV DV)

include hw

theorem Widens.radix_pos : ∀ l < widths.length, 0 < radix widths l := by
  intro l hl
  rw [radix, List.getD_eq_getElem _ _ hl]
  exact hw.pos _ (List.getElem_mem hl)

theorem Widens.radix_le : ∀ l < widths.length, radix widths l ≤ radix widths' l := fun _ hl => Padding.radix_le hw.widths hl

theorem Operands.pad_ok {tok : Operands K} (h : tok.Fits widths dV) : tok.pad widths' DV = .ok (tok.padded widths' DV) := by
  have hvalue : tok.value.length ≤ DV := by rw [h.value]; exact hw.value
  rw [Operands.pad, padRoutes_ok h.read hw.widths, padRoutes_ok h.write hw.widths, padV, padLastDim_ok hvalue]
  rfl

theorem deposit_padded {tok : Operands K} (h : tok.Fits widths dV) (col : ℕ) :
    ((tok.padded widths' DV).value ++ [1]).getD col 0 =
      if col < dV then (tok.value ++ [1]).getD col 0 else if col = DV then 1 else 0 := by
  have hvalue : tok.value.length ≤ DV := by rw [h.value]; exact hw.value
  have hlength := padded_length hvalue
  rw [Operands.padded]
  dsimp only
  rcases Nat.lt_trichotomy col DV with hlt | rfl | hgt
  · rw [List.getD_append _ _ _ _ (by rw [hlength]; exact hlt), padded_getD, h.value, if_neg (by omega : ¬col = DV)]
    split
    · rename_i hcol
      rw [List.getD_append _ _ _ _ (by rw [h.value]; exact hcol)]
    · rfl
  · rw [List.getD_append_right _ _ _ _ (by rw [hlength]), hlength, Nat.sub_self, if_neg (by have := hw.value; omega), if_pos rfl]
    rfl
  · rw [List.getD_eq_default _ _ (by rw [List.length_append, hlength, List.length_singleton]; omega),
      if_neg (by have := hw.value; omega), if_neg (by omega)]

theorem keep_rebase {pow : K → K → K} {dials dials' : Option (List (List K))} (hdials : DialsExtend widths widths' dials dials')
    {levels : List (List K)} (h : Shaped widths levels) (leaf : ℕ) :
    keep pow dials' (radixStrides widths') (paddedLevels levels widths')
        (rebase (radix widths) (radix widths') widths.length leaf) =
      keep pow dials (radixStrides widths) levels leaf := by
  match dials, dials', hdials with
  | none, none, _ => rfl
  | some dials, some dials', ⟨hshape, hshape', hagree⟩ =>
    have hrate : leafProduct dials' (radixStrides widths') (rebase (radix widths) (radix widths') widths.length leaf) =
        leafProduct dials (radixStrides widths) leaf := by
      rw [leafProduct_eq hshape', leafProduct_eq hshape, ← hw.widths.length_eq]
      refine prod_congr rfl fun l hl => ?_
      rw [mem_range] at hl
      rw [digit_rebase hw.radix_pos hw.radix_le hl]
      exact hagree l hl _ (digit_lt hw.radix_pos hl)
    rw [keep, keep, hrate, leafProduct_rebase h hw.widths hw.radix_pos]

theorem Embedded.update {pow : K → K → K} {dials dials' : Option (List (List K))} (hdials : DialsExtend widths widths' dials dials')
    {tok : Operands K} (h : tok.Fits widths dV) {state state' : State K} (he : Embedded widths widths' dV DV state state') :
    Embedded widths widths' dV DV (update pow dials widths tok state)
      (Padding.update pow dials' widths' (tok.padded widths' DV) state') := by
  have hproduct := leafProduct_rebase h.write hw.widths hw.radix_pos
  have hkeep := @keep_rebase K _ widths widths' dV DV hw pow dials dials' hdials tok.write h.write
  refine ⟨fun leaf col hcol => ?_, fun leaf => ?_, fun leaf' hout col => ?_, fun leaf' col hlo hhi => ?_⟩
  · rw [Padding.update, Padding.update, deposit_padded hw h, if_pos hcol, he.value leaf col hcol]
    exact congrArg₂ (· + ·) (congrArg (· * _) (hkeep leaf)) (congrArg (_ * · * _) (hproduct leaf))
  · have hmass : (tok.value ++ [1]).getD dV 0 = 1 := by
      rw [← h.value, List.getD_append_right _ _ _ _ le_rfl, Nat.sub_self]
      rfl
    rw [Padding.update, Padding.update, deposit_padded hw h, if_neg (by have := hw.value; omega), if_pos rfl, he.mass leaf, hmass]
    exact congrArg₂ (· + ·) (congrArg (· * _) (hkeep leaf)) (congrArg (_ * · * _) (hproduct leaf))
  · have hzero : leafProduct (tok.padded widths' DV).write (radixStrides widths') leaf' = 0 := leafProduct_outer h.write hw.widths hout
    rw [Padding.update, he.outer leaf' hout, hzero, mul_zero, mul_zero, zero_mul, add_zero]
  · rw [Padding.update, he.tail leaf' col hlo hhi, deposit_padded hw h, if_neg (by omega), if_neg (by omega), mul_zero, mul_zero, add_zero]

/-- A column's readout is the unpadded one's. -/
theorem readout_padded {tok : Operands K} (h : tok.Fits widths dV) {state state' : State K} {col col' : ℕ}
    (hcol : ∀ leaf, state' (rebase (radix widths) (radix widths') widths.length leaf) col' = state leaf col) :
    readout widths' (tok.padded widths' DV) state' col' = readout widths tok state col := by
  rw [readout, readout, leafCapacity_eq, leafCapacity_eq, ← hw.widths.length_eq, sum_rebase hw.radix_pos hw.radix_le]
  · refine sum_congr rfl fun leaf _ => ?_
    rw [hcol]
    exact congrArg (· * _) (leafProduct_rebase h.read hw.widths hw.radix_pos leaf)
  · intro leaf' _ hout
    have hzero : leafProduct (tok.padded widths' DV).read (radixStrides widths') leaf' = 0 := leafProduct_outer h.read hw.widths hout
    rw [hzero, zero_mul]

omit hw in
theorem naiveRola_snoc (pow : K → K → K) (dials : Option (List (List K))) (eps : K) (widths : List ℕ) (dV : ℕ)
    (toks : List (Operands K)) (tok : Operands K) :
    naiveRola pow dials eps widths dV (toks ++ [tok]) =
      ((naiveRola pow dials eps widths dV toks).1 ++ [((List.range dV).map fun col =>
          readout widths tok (update pow dials widths tok (naiveRola pow dials eps widths dV toks).2) col /
            (readout widths tok (update pow dials widths tok (naiveRola pow dials eps widths dV toks).2) dV + eps),
          readout widths tok (update pow dials widths tok (naiveRola pow dials eps widths dV toks).2) dV + eps)],
        update pow dials widths tok (naiveRola pow dials eps widths dV toks).2) := by
  rw [naiveRola, List.foldl_append]
  rfl

/-- A padded run's rows, sliced, and its denominators are the unpadded run's, and it leaves the unpadded state. -/
theorem run_padded {pow : K → K → K} {dials dials' : Option (List (List K))} (hdials : DialsExtend widths widths' dials dials')
    (eps : K) {toks : List (Operands K)} (htoks : ∀ tok ∈ toks, tok.Fits widths dV) :
    ((naiveRola pow dials' eps widths' DV (toks.map (Operands.padded widths' DV))).1.map fun out => (sliceY out.1 dV, out.2)) =
        (naiveRola pow dials eps widths dV toks).1 ∧
      Embedded widths widths' dV DV (naiveRola pow dials eps widths dV toks).2
        (naiveRola pow dials' eps widths' DV (toks.map (Operands.padded widths' DV))).2 := by
  induction toks using List.reverseRecOn with
  | nil => exact ⟨rfl, fun _ _ _ => rfl, fun _ => rfl, fun _ _ _ => rfl, fun _ _ _ _ => rfl⟩
  | append_singleton toks tok ih =>
    obtain ⟨hout, he⟩ := ih fun tok' htok' => htoks tok' (List.mem_append_left _ htok')
    have h : tok.Fits widths dV := htoks tok (by simp)
    have hnext := @Embedded.update K _ widths widths' dV DV hw pow dials dials' hdials tok h _ _ he
    rw [List.map_append, List.map_singleton, naiveRola_snoc, naiveRola_snoc, List.map_append, hout]
    refine ⟨congrArg (_ ++ ·) (congrArg (fun row => [row]) (Prod.ext ?_ ?_)), hnext⟩
    · dsimp only [sliceY]
      rw [← List.map_take, List.take_range, min_eq_left hw.value]
      refine List.map_congr_left fun col hcol => ?_
      have hvalue := readout_padded hw h fun leaf => hnext.value leaf col (List.mem_range.1 hcol)
      have hmass := readout_padded hw h hnext.mass
      exact congrArg₂ (fun out den => out / (den + eps)) hvalue hmass
    · exact congrArg (· + eps) (readout_padded hw h hnext.mass)

end Run

/-- A padded call is served at the least widths, and its run is the unpadded one. -/
theorem padding_invisible {widths : List ℕ} (hpos : ∀ width ∈ widths, 1 ≤ width) {dV : ℕ} {shipped : List ℕ}
    (hshipped : ∃ DV ∈ shipped, dV ≤ DV) {toks : List (Operands K)} (htoks : ∀ tok ∈ toks, tok.Fits widths dV) (eps : K) :
    (∃ shape, PaddedShape.of widths dV shipped = .ok shape ∧ shape.DV ∈ shipped ∧
      List.Forall₂ (fun width B => IsLeast {B | (∃ k, B = 2 ^ k) ∧ max width 16 ≤ B} B) widths shape.paddedWidths ∧
      Widens widths shape.paddedWidths dV shape.DV) ∧
    ∀ widths' DV, Widens widths widths' dV DV → ∃ toks', toks.mapM (Operands.pad widths' DV) = .ok toks' ∧
      ∀ (pow : K → K → K) (dials dials' : Option (List (List K))), DialsExtend widths widths' dials dials' →
        ((naiveRola pow dials' eps widths' DV toks').1.map fun out => (sliceY out.1 dV, out.2)) =
          (naiveRola pow dials eps widths dV toks).1 ∧
        ∀ n, Embedded widths widths' dV DV (naiveRola pow dials eps widths dV (toks.take n)).2
          (naiveRola pow dials' eps widths' DV (toks'.take n)).2 := by
  refine ⟨?_, fun widths' DV hw => ⟨toks.map (Operands.padded widths' DV), ?_, fun pow dials dials' hdials => ?_⟩⟩
  · obtain ⟨DV, hmem, hle, hshape⟩ := shape_of hpos hshipped
    refine ⟨_, hshape, hmem, ?_, hpos, ?_, hle⟩
    · exact List.forall₂_map_right_iff.2 (List.forall₂_same.2 fun width _ => servedWidth_least width)
    · refine List.forall₂_map_right_iff.2 (List.forall₂_same.2 fun width _ => ?_)
      exact (le_max_left width 16).trans (servedWidth_least width).1.2
  · exact mapM_ok fun tok htok => Operands.pad_ok hw (htoks tok htok)
  · refine ⟨(run_padded hw hdials eps htoks).1, fun n => ?_⟩
    rw [← List.map_take]
    exact (run_padded hw hdials eps fun tok htok => htoks tok (List.mem_of_mem_take htok)).2

def threeByTwo : Operands ℚ := ⟨[[1, 0, 2], [1, 1]], [[0, 1, 1], [3, 0]], 2, [5]⟩

theorem padding_invisible_threeByTwo : ∃ toks', [threeByTwo].mapM (Operands.pad [16, 16] 32) = .ok toks' ∧
    ((naiveRola (fun a _ => a) none 1 [16, 16] 32 toks').1.map fun out => (sliceY out.1 1, out.2)) =
      (naiveRola (fun a _ => a) none 1 [3, 2] 1 [threeByTwo]).1 := by
  have hwidens : Widens [3, 2] [16, 16] 1 32 := ⟨by decide, by decide, by decide⟩
  have hfits : ∀ tok ∈ [threeByTwo], tok.Fits [3, 2] 1 := by
    intro tok htok
    rw [List.mem_singleton.1 htok]
    exact ⟨rfl, rfl, rfl⟩
  obtain ⟨toks', hpad, hrun⟩ := (padding_invisible (by decide) ⟨32, by decide, by decide⟩ hfits 1 :
    (∃ shape, PaddedShape.of [3, 2] 1 [32, 64, 128] = .ok shape ∧ _) ∧ _).2 [16, 16] 32 hwidens
  exact ⟨toks', hpad, (hrun (fun a _ => a) none none trivial).1⟩

end Rola.Padding
