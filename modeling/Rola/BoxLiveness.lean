import Rola.BoxWords

/-!
# A box word is its box's liveness

`box_words` of `csrc/rola/src/carry/carry_kernel.cuh` against the leaves `SideLayout::local` gives a box.
The words are exact where no level straddles from bit zero: such a level has sixteen digits a class and the
straddling loop walks eight. No box plan admits one.
-/

namespace Rola

open RankedRadix

variable {D bc T : ℕ} {srank rrank wrank : ℕ → ℕ} {words : ℕ → BitVec 32} {t l : ℕ}

/-! ### A level's rows -/

theorem spanBase_add_le {i : ℕ} (h : i < l) : spanBase D bc i + ownerSpan D bc i ≤ spanBase D bc l := by
  unfold spanBase
  rw [← Finset.sum_range_succ]
  exact Finset.sum_le_sum_of_subset (Finset.range_mono h)

/-- A staged digit row is its level's. -/
theorem stagedRow_eq (abase : ℕ → ℕ) (hl : l < D) {d : ℕ} (hd : d < ownerSpan D bc l) :
    stagedRow D bc abase (spanBase D bc l + d) = abase l + d := by
  have key : ∀ n, (List.range n).foldl (fun row i => if spanBase D bc i ≤ spanBase D bc l + d ∧
      spanBase D bc l + d < spanBase D bc i + ownerSpan D bc i then abase i + (spanBase D bc l + d) - spanBase D bc i
      else row) 0 = if l < n then abase l + d else 0 := by
    intro n
    induction n with
    | zero => rfl
    | succ n ih =>
      rw [List.range_succ, List.foldl_append, List.foldl_cons, List.foldl_nil, ih]
      rcases Nat.lt_trichotomy l n with hlt | rfl | hgt
      · have := @spanBase_add_le D bc n l hlt
        rw [if_neg (by omega), if_pos hlt, if_pos (by omega)]
      · rw [if_pos ⟨by omega, by omega⟩, if_pos (Nat.lt_succ_self l)]
        omega
      · have := @spanBase_add_le D bc l n hgt
        rw [if_neg (by omega), if_neg (by omega), if_neg (by omega)]
  exact (key D).trans (if_pos hl)

/-! ### A leaf's digits -/

/-- The digit of an owner-local canonical index. -/
def localDigit (D bc loc l : ℕ) : ℕ := (loc >>> ownerRunShift D bc l) &&& (ownerSpan D bc l - 1)

/-- A level's field in a side's order. -/
abbrev sideField (D bc : ℕ) (srank : ℕ → ℕ) (v l : ℕ) : ℕ := field (Finset.range D) (ownerSpanBits D bc) srank v l

/-- Where it begins. -/
abbrev sideShift (D bc : ℕ) (srank : ℕ → ℕ) (l : ℕ) : ℕ := offset (Finset.range D) (ownerSpanBits D bc) srank l

theorem sideShift_add_le {m : ℕ} (hm : m < D) (hlt : srank m < srank l) :
    sideShift D bc srank m + ownerSpanBits D bc m ≤ sideShift D bc srank l := offset_add_le (Finset.mem_range.2 hm) hlt

theorem ownerSpan_eq : ownerSpan D bc l = 2 ^ ownerSpanBits D bc l := by
  rw [ownerSpan, Nat.shiftLeft_eq, Nat.one_mul]

theorem localDigit_local (v : ℕ) (hl : l < D) :
    localDigit D bc ((makeBoxLayout D bc srank rrank).local D v) l = sideField D bc srank v l := by
  have hmem := Finset.mem_range.2 hl
  have hplace : place (Finset.range D) (ownerRadix D bc) (canonRank D) l = 2 ^ ownerRunShift D bc l := by
    unfold ownerRadix
    rw [place_two_pow, filter_canonRank hl, ownerRunShift]
  have hlocal : (makeBoxLayout D bc srank rrank).local D v = reorder D bc srank (canonRank D) v := layout_local_eq _ _ _
  unfold localDigit
  rw [hlocal, ownerSpan_eq]
  refine (digit_eq_shiftRight hplace rfl).symm.trans ?_
  exact digit_encode (canonRank_injOn D) (digit_bounded ownerRadix_pos v) l hmem

/-! ### The classes of levels -/

section Layout

theorem isInner_iff : (makeSideLayout D bc srank rrank).isInner l = true ↔
    sideShift D bc srank l + ownerSpanBits D bc l ≤ 4 := decide_eq_true_iff

theorem isOuter_iff : (makeSideLayout D bc srank rrank).isOuter l = true ↔
    ¬ sideShift D bc srank l + ownerSpanBits D bc l ≤ 4 ∧ 4 ≤ sideShift D bc srank l := by
  unfold SideLayout.isOuter
  rw [Bool.and_eq_true, Bool.not_eq_true', ← Bool.not_eq_true, isInner_iff, decide_eq_true_iff]
  rfl

/-- Neither inner nor outer. -/
def Straddles (D bc : ℕ) (srank : ℕ → ℕ) (l : ℕ) : Prop :=
  sideShift D bc srank l < 4 ∧ 4 < sideShift D bc srank l + ownerSpanBits D bc l

theorem neither_iff : (!(makeSideLayout D bc srank rrank).isInner l && !(makeSideLayout D bc srank rrank).isOuter l) = true ↔
    Straddles D bc srank l := by
  rw [Bool.and_eq_true, Bool.not_eq_true', Bool.not_eq_true', ← Bool.not_eq_true, ← Bool.not_eq_true, isInner_iff, isOuter_iff]
  unfold Straddles
  omega

theorem of_straddle (h : (makeBoxLayout D bc srank rrank).straddle = some l) : l < D ∧ Straddles D bc srank l := by
  have hmem := List.mem_filter.1 (List.mem_of_getLast? h)
  exact ⟨List.mem_range.1 hmem.1, neither_iff.1 hmem.2⟩

/-- At most one level straddles. -/
theorem straddle_eq (hrank : Set.InjOn srank (Finset.range D)) (hl : l < D) (h : Straddles D bc srank l) :
    (makeBoxLayout D bc srank rrank).straddle = some l := by
  rcases hs : (makeBoxLayout D bc srank rrank).straddle with _ | m
  · have hnil := List.getLast?_eq_none_iff.1 hs
    rw [List.filter_eq_nil_iff] at hnil
    exact absurd (neither_iff.2 h) (hnil l (List.mem_range.2 hl))
  · obtain ⟨hm, hs⟩ := of_straddle hs
    unfold Straddles at h hs
    rcases Nat.lt_trichotomy (srank m) (srank l) with hlt | heq | hgt
    · have := @sideShift_add_le D bc srank l m hm hlt
      omega
    · rw [hrank (Finset.mem_range.2 hm) (Finset.mem_range.2 hl) heq]
    · have := @sideShift_add_le D bc srank m l hl hgt
      omega

/-- A plain layout: one inner level of sixteen digits under one outer level. -/
theorem plain_levels (hrank : Set.InjOn srank (Finset.range D))
    (hv : (makeBoxLayout D bc srank rrank).variant = ⟨false, false⟩) : ∃ i < D, ∃ o < D,
      (∀ l < D, l = i ∨ l = o) ∧ sideShift D bc srank i = 0 ∧ ownerSpanBits D bc i = 4 ∧ sideShift D bc srank o = 4 ∧
      0 < ownerSpanBits D bc o ∧
      (makeBoxLayout D bc srank rrank).innerRow = spanBase D bc i ∧
      (makeBoxLayout D bc srank rrank).outerRow = spanBase D bc o := by
  have hsingle := congrArg Variant.composed hv
  have hnone := congrArg Variant.straddle hv
  simp only [BoxLayout.variant, Bool.or_eq_false_iff, Option.isNone_eq_false_iff, Option.isSome_eq_false_iff,
    Option.isNone_iff_eq_none] at hsingle hnone
  obtain ⟨hin, hout⟩ := hsingle
  have honly : ∀ {set : List ℕ} {l : ℕ}, onlyLevel set = some l → set = [l] := by
    intro set l h
    rcases set with _ | ⟨a, _ | ⟨b, set⟩⟩
    · cases h
    · cases h
      rfl
    · cases h
  obtain ⟨i, hi⟩ := Option.isSome_iff_exists.1 hin
  obtain ⟨o, ho⟩ := Option.isSome_iff_exists.1 hout
  have hinner : (List.range D).filter (makeSideLayout D bc srank rrank).isInner = [i] := honly hi
  have houter : (List.range D).filter (makeSideLayout D bc srank rrank).isOuter = [o] := by
    have ho' : (if (makeBoxLayout D bc srank rrank).straddle = none then
        onlyLevel ((List.range D).filter (makeSideLayout D bc srank rrank).isOuter) else none) = some o := ho
    rw [if_pos hnone] at ho'
    exact honly ho'
  have hmemi : ∀ l, l < D ∧ sideShift D bc srank l + ownerSpanBits D bc l ≤ 4 ↔ l = i := by
    intro l
    rw [← @isInner_iff D bc srank rrank, ← List.mem_range, ← List.mem_filter, hinner, List.mem_singleton]
  have hmemo : ∀ l, l < D ∧ ¬ sideShift D bc srank l + ownerSpanBits D bc l ≤ 4 ∧ 4 ≤ sideShift D bc srank l ↔ l = o := by
    intro l
    rw [← @isOuter_iff D bc srank rrank, ← List.mem_range, ← List.mem_filter, houter, List.mem_singleton]
  obtain ⟨hiD, hile⟩ := (hmemi i).2 rfl
  obtain ⟨hoD, hogt, hoge⟩ := (hmemo o).2 rfl
  have hlevels : ∀ l < D, l = i ∨ l = o := by
    intro l hl
    rw [← hmemi, ← hmemo]
    by_contra hneither
    have hstraddle := @straddle_eq D bc srank rrank l hrank hl (by unfold Straddles; omega)
    rw [hnone] at hstraddle
    cases hstraddle
  -- only the inner level can be ranked under the outer
  have hunder : sideShift D bc srank o ≤ ownerSpanBits D bc i := by
    have hsub : (Finset.range D).filter (fun m => srank m < srank o) ⊆ {i} := by
      intro m hm
      obtain ⟨hm, hlt⟩ := Finset.mem_filter.1 hm
      rcases hlevels m (Finset.mem_range.1 hm) with rfl | rfl
      · exact Finset.mem_singleton_self _
      · exact absurd hlt (lt_irrefl _)
    have := Finset.sum_le_sum_of_subset (f := ownerSpanBits D bc) hsub
    rwa [Finset.sum_singleton] at this
  refine ⟨i, hiD, o, hoD, hlevels, by omega, by omega, by omega, by omega, ?_, ?_⟩
  · show (makeBoxLayout D bc srank rrank).singleInner.elim 0 (spanBase D bc) = _
    rw [hi]
    rfl
  · show (makeBoxLayout D bc srank rrank).singleOuter.elim 0 (spanBase D bc) = _
    rw [ho]
    rfl

end Layout

/-! ### The words against the leaves -/

/-- A box's word bit is some leaf of it live at every level. -/
def BoxWordsExact (D bc : ℕ) (L : BoxLayout) (v : Variant) : Prop :=
  ∀ (table : ℕ → BitVec 32) (abase : ℕ → ℕ) (w : ℕ → BitVec 32), ∀ b < bc / 16, ∀ t < 32,
    (boxWords bc v (fun r => table (stagedRow D bc abase r)) L w b).getLsbD t = true ↔
      ∃ pos < 16, ∀ l < D, (table (abase l + localDigit D bc (L.local D (16 * b + pos)) l)).getLsbD t = true

section Exact
variable (hrank : Set.InjOn srank (Finset.range D)) (hsum : ∑ l ∈ Finset.range D, ownerSpanBits D (2 ^ T) l = T) (hT : 4 ≤ T)
include hrank hsum hT

/-- The leaves of a box, level by level. -/
theorem exists_leaf_iff {table : ℕ → BitVec 32} {abase : ℕ → ℕ} {b : ℕ} (hb : b < 2 ^ T / 16) :
    (∃ pos < 16, ∀ l < D, (table (abase l + localDigit D (2 ^ T)
      ((makeBoxLayout D (2 ^ T) srank rrank).local D (16 * b + pos)) l)).getLsbD t = true) ↔
    ∀ l ∈ Finset.range D, ∃ d < 2 ^ ownerSpanBits D (2 ^ T) l,
      d / 2 ^ (4 - sideShift D (2 ^ T) srank l) =
        sideField D (2 ^ T) srank (b * 2 ^ 4) l / 2 ^ (4 - sideShift D (2 ^ T) srank l) ∧
      (table (stagedRow D (2 ^ T) abase (spanBase D (2 ^ T) l + d))).getLsbD t = true := by
  have hb' : b < 2 ^ (∑ l ∈ Finset.range D, ownerSpanBits D (2 ^ T) l - 4) := by
    rw [hsum]
    rwa [show (16 : ℕ) = 2 ^ 4 from rfl, Nat.pow_div hT two_pos] at hb
  rw [← exists_low_iff hrank (hT.trans_eq hsum.symm) hb'
    fun l d => (table (stagedRow D (2 ^ T) abase (spanBase D (2 ^ T) l + d))).getLsbD t = true]
  refine exists_congr fun pos => and_congr_right fun _ => ?_
  simp only [Finset.mem_range]
  refine forall₂_congr fun l hl => ?_
  rw [localDigit_local _ hl, mul_comm 16 b, stagedRow_eq abase hl (by rw [ownerSpan_eq]; exact field_lt)]
  rfl

end Exact

/-! ### The lists, level by level -/

section Lists
variable {P : ℕ → Prop} {b : ℕ}

theorem forall_inners : (∀ run ∈ (makeBoxLayout D bc srank rrank).inners, ∃ d < 16, d < run.span ∧ P (run.row + d)) ↔
    ∀ l < D, sideShift D bc srank l + ownerSpanBits D bc l ≤ 4 → ∃ d < 2 ^ ownerSpanBits D bc l, P (spanBase D bc l + d) := by
  show (∀ run ∈ ((List.range D).filter (makeSideLayout D bc srank rrank).isInner).map _, _) ↔ _
  simp only [List.forall_mem_map, List.mem_filter, List.mem_range, isInner_iff, and_imp]
  refine forall₃_congr fun l _ hle => exists_congr fun d => ?_
  have hspan : 2 ^ ownerSpanBits D bc l ≤ 2 ^ 4 := Nat.pow_le_pow_right two_pos (by omega)
  show d < 16 ∧ d < 1 <<< ownerSpanBits D bc l ∧ P (spanBase D bc l + d) ↔ _
  rw [Nat.one_shiftLeft]
  exact and_iff_right_of_imp fun hd => hd.1.trans_le hspan

theorem forall_outers : (∀ run ∈ (makeBoxLayout D bc srank rrank).outers, P (run.row + ((b >>> run.bshift) &&& run.mask))) ↔
    ∀ l < D, ¬ sideShift D bc srank l + ownerSpanBits D bc l ≤ 4 → 4 ≤ sideShift D bc srank l →
      P (spanBase D bc l + b / 2 ^ (sideShift D bc srank l - 4) % 2 ^ ownerSpanBits D bc l) := by
  show (∀ run ∈ ((List.range D).filter (makeSideLayout D bc srank rrank).isOuter).map _, _) ↔ _
  simp only [List.forall_mem_map, List.mem_filter, List.mem_range, isOuter_iff, and_imp]
  refine forall₄_congr fun l _ _ _ => ?_
  rw [← Nat.shiftRight_eq_div_pow, ← Nat.and_two_pow_sub_one_eq_mod, ← Nat.one_shiftLeft]
  rfl

/-- The straddling level's class, walked to its eighth digit. -/
def StraddleLive (L : BoxLayout) (P : ℕ → Prop) (b : ℕ) : Prop :=
  ∃ d < 8, d < 1 <<< (atomLeavesBits - L.sshift) ∧
    P (L.srow + ((b &&& ((1 <<< L.cbits) - 1)) <<< (atomLeavesBits - L.sshift)) + d)

theorem straddleLive_iff (h : (makeBoxLayout D bc srank rrank).straddle = some l) (habove : 0 < sideShift D bc srank l) :
    StraddleLive (makeBoxLayout D bc srank rrank) P b ↔ ∃ d < 2 ^ (4 - sideShift D bc srank l),
      P (spanBase D bc l + (b % 2 ^ (sideShift D bc srank l + ownerSpanBits D bc l - 4) *
        2 ^ (4 - sideShift D bc srank l) + d)) := by
  have hshift : (makeBoxLayout D bc srank rrank).sshift = sideShift D bc srank l := by
    show (makeBoxLayout D bc srank rrank).straddle.elim 0 (makeSideLayout D bc srank rrank).shift = _
    rw [h]
    rfl
  have hcbits : (makeBoxLayout D bc srank rrank).cbits = sideShift D bc srank l + ownerSpanBits D bc l - 4 := by
    show (makeBoxLayout D bc srank rrank).straddle.elim 0 (fun l => (makeSideLayout D bc srank rrank).shift l +
      (makeSideLayout D bc srank rrank).bits l - atomLeavesBits) = _
    rw [h]
    rfl
  have hrow : (makeBoxLayout D bc srank rrank).srow = spanBase D bc l := by
    show (makeBoxLayout D bc srank rrank).straddle.elim 0 (spanBase D bc) = _
    rw [h]
    rfl
  unfold StraddleLive atomLeavesBits
  rw [hshift, hcbits, hrow, Nat.one_shiftLeft, Nat.one_shiftLeft, Nat.and_two_pow_sub_one_eq_mod, Nat.shiftLeft_eq]
  have hclass : 2 ^ (4 - sideShift D bc srank l) ≤ 2 ^ 3 := Nat.pow_le_pow_right two_pos (by omega)
  refine exists_congr fun d => ?_
  rw [Nat.add_assoc]
  exact and_iff_right_of_imp fun hd => hd.1.trans_le hclass

end Lists

section Exact
variable (hrank : Set.InjOn srank (Finset.range D))
include hrank

/-- A level's factor is its class's. -/
theorem listed_iff {P : ℕ → Prop} {b : ℕ} (habove : ∀ l < D, Straddles D bc srank l → 0 < sideShift D bc srank l) :
    (∀ run ∈ (makeBoxLayout D bc srank rrank).inners, ∃ d < 16, d < run.span ∧ P (run.row + d)) ∧
    (∀ run ∈ (makeBoxLayout D bc srank rrank).outers, P (run.row + ((b >>> run.bshift) &&& run.mask))) ∧
    ((makeBoxLayout D bc srank rrank).straddle.isSome = true → StraddleLive (makeBoxLayout D bc srank rrank) P b) ↔
    ∀ l ∈ Finset.range D, ∃ d < 2 ^ ownerSpanBits D bc l, d / 2 ^ (4 - sideShift D bc srank l) =
      sideField D bc srank (b * 2 ^ 4) l / 2 ^ (4 - sideShift D bc srank l) ∧ P (spanBase D bc l + d) := by
  rw [forall_inners, forall_outers]
  constructor
  · rintro ⟨hin, hout, hstr⟩ l hl
    rw [Finset.mem_range] at hl
    rcases Nat.lt_or_ge 4 (sideShift D bc srank l + ownerSpanBits D bc l) with hgt | hle
    · rcases Nat.lt_or_ge (sideShift D bc srank l) 4 with hlt | hge
      · have hsome := @straddle_eq D bc srank rrank l hrank hl ⟨hlt, hgt⟩
        exact (exists_across_iff hlt.le hgt.le).2
          ((straddleLive_iff hsome (habove l hl ⟨hlt, hgt⟩)).1 (hstr (Option.isSome_iff_exists.2 ⟨l, hsome⟩)))
      · exact (exists_over_iff (Q := fun d => P (spanBase D bc l + d)) hge).2 (hout l hl (by omega) hge)
    · exact (exists_under_iff hle).2 (hin l hl hle)
  · intro h
    refine ⟨fun l hl hle => ?_, fun l hl _ hge => ?_, fun hsome => ?_⟩
    · exact (exists_under_iff hle).1 (h l (Finset.mem_range.2 hl))
    · exact (exists_over_iff (Q := fun d => P (spanBase D bc l + d)) hge).1 (h l (Finset.mem_range.2 hl))
    · obtain ⟨l, hs⟩ := Option.isSome_iff_exists.1 hsome
      obtain ⟨hl, hstr⟩ := of_straddle hs
      refine (straddleLive_iff hs (habove l hl hstr)).2 ?_
      exact (exists_across_iff (Q := fun d => P (spanBase D bc l + d)) hstr.1.le hstr.2.le).1 (h l (Finset.mem_range.2 hl))

/-- A listed stream's words are exact where no level straddles from bit zero. -/
theorem boxWords_exact_listed {v : Variant} (hsum : ∑ l ∈ Finset.range D, ownerSpanBits D (2 ^ T) l = T) (hT : 4 ≤ T)
    (hv : v ≠ ⟨false, false⟩) (hstr : v.straddle = (makeBoxLayout D (2 ^ T) srank rrank).straddle.isSome)
    (habove : ∀ l < D, Straddles D (2 ^ T) srank l → 0 < sideShift D (2 ^ T) srank l) :
    BoxWordsExact D (2 ^ T) (makeBoxLayout D (2 ^ T) srank rrank) v := by
  intro table abase w b hb t ht
  rw [boxWords_listed hv ht, exists_leaf_iff hrank hsum hT hb, hstr]
  exact @listed_iff D _ srank rrank hrank (fun r => (table (stagedRow D (2 ^ T) abase r)).getLsbD t = true) b habove

/-- A plain stream's words are exact where they are written. -/
theorem boxWords_exact_plain (hsum : ∑ l ∈ Finset.range D, ownerSpanBits D (2 ^ T) l = T) (hT : 6 ≤ T)
    (hplain : (makeBoxLayout D (2 ^ T) srank rrank).variant = ⟨false, false⟩) :
    BoxWordsExact D (2 ^ T) (makeBoxLayout D (2 ^ T) srank rrank) ⟨false, false⟩ := by
  intro table abase w b hb t ht
  obtain ⟨i, hi, o, ho, hlevels, hshifti, hbitsi, hshifto, hbitso, hrowi, hrowo⟩ := plain_levels hrank hplain
  have hne : i ≠ o := by
    rintro rfl
    omega
  have hboxes : 2 ^ T / 16 = 2 ^ (T - 4) := by
    rw [show (16 : ℕ) = 2 ^ 4 from rfl, Nat.pow_div (by omega) two_pos]
  have hT' : T = 4 + ownerSpanBits D (2 ^ T) o := by
    have hset : Finset.range D = {i, o} := by
      ext l
      rw [Finset.mem_range, Finset.mem_insert, Finset.mem_singleton]
      refine ⟨hlevels l, ?_⟩
      rintro (rfl | rfl) <;> assumption
    rw [hset, Finset.sum_pair hne, hbitsi] at hsum
    exact hsum.symm
  have hwritten : b / 4 < 2 ^ T / mmaKQuantum / 4 := by
    show b / 4 < 2 ^ T / 16 / 4
    have hfour : 2 ^ T / 16 = 4 * 2 ^ (T - 6) := by
      rw [hboxes, show (4 : ℕ) = 2 ^ 2 from rfl, ← pow_add]
      congr 1
      omega
    omega
  rw [boxWords_plain rfl hwritten, exists_leaf_iff hrank hsum (by omega) hb, hrowi, hrowo]
  have hover : b / 2 ^ (sideShift D (2 ^ T) srank o - 4) % 2 ^ ownerSpanBits D (2 ^ T) o = b := by
    rw [hshifto, Nat.sub_self, pow_zero, Nat.div_one]
    refine Nat.mod_eq_of_lt ?_
    rw [hboxes] at hb
    rwa [show ownerSpanBits D (2 ^ T) o = T - 4 by omega]
  have hunder : sideShift D (2 ^ T) srank i + ownerSpanBits D (2 ^ T) i ≤ 4 := by omega
  constructor
  · rintro ⟨⟨d, hd, hin⟩, hout⟩ l hl
    rcases hlevels l (Finset.mem_range.1 hl) with rfl | rfl
    · exact (exists_under_iff hunder).2 ⟨d, by rwa [hbitsi], hin⟩
    · rw [← hover] at hout
      exact (exists_over_iff (Q := fun d => (table (stagedRow D (2 ^ T) abase (spanBase D (2 ^ T) l + d))).getLsbD t = true)
        hshifto.ge).2 hout
  · intro h
    obtain ⟨d, hd, hin⟩ := (exists_under_iff hunder).1 (h i (Finset.mem_range.2 hi))
    have hout := (exists_over_iff (Q := fun d => (table (stagedRow D (2 ^ T) abase (spanBase D (2 ^ T) o + d))).getLsbD t = true)
      hshifto.ge).1 (h o (Finset.mem_range.2 ho))
    rw [hover] at hout
    rw [hbitsi] at hd
    exact ⟨⟨d, hd, hin⟩, hout⟩

end Exact

/-! ### The arms -/

theorem BoxPlan.arms (h : BoxPlan D bc) :
    (D, bc) ∈ [(2, 64), (2, 128), (2, 256), (3, 64), (3, 256), (4, 32), (4, 256)] := by
  have key : ∀ D ∈ [2, 3, 4], ∀ k ∈ List.range' 1 16, 4 ∣ spanTotal D (16 * k) →
      (D, 16 * k) ∈ [(2, 64), (2, 128), (2, 256), (3, 64), (3, 256), (4, 32), (4, 256)] := by decide +kernel
  obtain ⟨hD2, hD4⟩ := h.depth
  obtain ⟨k, rfl⟩ := h.pages
  obtain ⟨hk1, hk16⟩ := h.boxes
  rw [show mmaKQuantum = 16 from rfl, Nat.mul_div_cancel_left _ (by decide)] at hk1 hk16
  unfold geomMaxLevels at hD4
  refine key D ?_ k ?_ h.rows
  · simp only [List.mem_cons, List.not_mem_nil, or_false]
    omega
  · rw [List.mem_range'_1]
    omega

/-- A plan's box is a power of two, its levels at most sixteen digits. -/
theorem BoxPlan.facts (h : BoxPlan D bc) : bc = 2 ^ ilog2 bc ∧ 4 ≤ ilog2 bc ∧ (D = 2 → 6 ≤ ilog2 bc) ∧
    (∀ l < D, ownerSpanBits D bc l ≤ 4) ∧ (mayCompose D bc = false → D = 2 ∧ bc = 256) ∧
    (mayStraddle D bc = false → mayCompose D bc = false) := by
  have key : ∀ p ∈ [(2, 64), (2, 128), (2, 256), (3, 64), (3, 256), (4, 32), (4, 256)],
      p.2 = 2 ^ ilog2 p.2 ∧ 4 ≤ ilog2 p.2 ∧ (p.1 = 2 → 6 ≤ ilog2 p.2) ∧ (∀ l < p.1, ownerSpanBits p.1 p.2 l ≤ 4) ∧
      (mayCompose p.1 p.2 = false → p.1 = 2 ∧ p.2 = 256) ∧ (mayStraddle p.1 p.2 = false → mayCompose p.1 p.2 = false) := by
    decide +kernel
  exact key (D, bc) h.arms

section Arm
variable {L : BoxLayout} {v : Variant}

theorem straddle_composes (h : (makeBoxLayout D bc srank rrank).straddle.isSome = true) :
    (makeBoxLayout D bc srank rrank).variant.composed = true := by
  have houter : (makeBoxLayout D bc srank rrank).singleOuter = none := by
    show (if (makeBoxLayout D bc srank rrank).straddle = none then _ else none) = none
    rw [if_neg fun hnone => by rw [hnone] at h; cases h]
  unfold BoxLayout.variant
  dsimp only
  rw [houter, Option.isNone_none, Bool.or_true]

/-- Over 256 leaves at depth two either order is plain. -/
theorem variant_plain (hrank : Set.InjOn srank (Finset.range 2)) :
    (makeBoxLayout 2 256 srank rrank).variant = ⟨false, false⟩ := by
  have hne : srank 0 ≠ srank 1 := fun h => absurd (hrank (by simp) (by simp) h) (by decide)
  have hbits : ∀ l < 2, ownerSpanBits 2 256 l = 4 := by decide +kernel
  have hshift : ∀ l, sideShift 2 256 srank l = (if srank 0 < srank l then 4 else 0) + if srank 1 < srank l then 4 else 0 := by
    intro l
    unfold sideShift offset
    rw [Finset.sum_filter, Finset.sum_range_succ, Finset.sum_range_one, hbits 0 (by decide), hbits 1 (by decide)]
  have hinner : ∀ l < 2, (makeSideLayout 2 256 srank rrank).isInner l = decide (sideShift 2 256 srank l = 0) := by
    intro l hl
    rw [Bool.eq_iff_iff, isInner_iff, hbits l hl, decide_eq_true_iff]
    omega
  have houter : ∀ l < 2, (makeSideLayout 2 256 srank rrank).isOuter l = decide (4 ≤ sideShift 2 256 srank l) := by
    intro l hl
    rw [Bool.eq_iff_iff, isOuter_iff, hbits l hl, decide_eq_true_iff]
    omega
  have h01 := hshift 0
  have h11 := hshift 1
  have hrange : List.range 2 = [0, 1] := rfl
  rcases Nat.lt_or_gt_of_ne hne with hlt | hgt
  · rw [if_neg (lt_irrefl _), if_neg (by omega)] at h01
    rw [if_pos hlt, if_neg (lt_irrefl _)] at h11
    simp [BoxLayout.variant, makeBoxLayout, hrange, hinner, houter, h01, h11, onlyLevel]
  · rw [if_neg (lt_irrefl _), if_pos hgt] at h01
    rw [if_neg (by omega), if_neg (lt_irrefl _)] at h11
    simp [BoxLayout.variant, makeBoxLayout, hrange, hinner, houter, h01, h11, onlyLevel]

/-- Any stream whose variant serves the layout is exact on an admitted box. -/
theorem BoxPlan.exact (h : BoxPlan D bc) (hrank : Set.InjOn srank (Finset.range D))
    (hstr : v.straddle = (makeBoxLayout D bc srank rrank).straddle.isSome)
    (hcomp : v.composed = false → (makeBoxLayout D bc srank rrank).variant = ⟨false, false⟩) :
    BoxWordsExact D bc (makeBoxLayout D bc srank rrank) v := by
  obtain ⟨hpow, hfour, hsix, hbits, -, -⟩ := h.facts
  generalize ilog2 bc = T at hpow hfour hsix
  subst hpow
  have hsum := sum_ownerSpanBits (show 1 ≤ D by have := h.depth.1; omega) hfour
  rcases hc : v.composed with _ | _
  · have hplain := hcomp hc
    have hv : v = ⟨false, false⟩ := by
      obtain ⟨composed, straddle⟩ := v
      have hnone : (makeBoxLayout D (2 ^ T) srank rrank).straddle.isSome = false := congrArg Variant.straddle hplain
      dsimp only at hc hstr
      rw [hc, hstr, hnone]
    obtain ⟨i, hi, o, ho, hlevels, -⟩ := plain_levels hrank hplain
    have hD : D = 2 := by
      have h0 := hlevels 0 (by omega)
      have := h.depth
      have h1 := hlevels 1 (by omega)
      by_contra hne
      have h2 := hlevels 2 (by omega)
      omega
    rw [hv]
    exact boxWords_exact_plain hrank hsum (hsix hD) hplain
  · refine boxWords_exact_listed hrank hsum hfour (by rintro rfl; cases hc) hstr fun l hl hs => ?_
    have := hbits l hl
    unfold Straddles at hs
    omega

end Arm

/-- A stream's variant serves its layout. -/
def Variant.Serves (v : Variant) (L : BoxLayout) : Prop :=
  v.straddle = L.straddle.isSome ∧ (v.composed = false → L.variant = ⟨false, false⟩)

/-- The kernel's choice serves both layouts. -/
theorem streamVariants_serve (h : BoxPlan D bc) (hr : Set.InjOn rrank (Finset.range D)) (hw : Set.InjOn wrank (Finset.range D)) :
    (streamVariants D bc (makeBoxLayout D bc rrank rrank) (makeBoxLayout D bc wrank rrank)).1.Serves (makeBoxLayout D bc rrank rrank) ∧
    (streamVariants D bc (makeBoxLayout D bc rrank rrank) (makeBoxLayout D bc wrank rrank)).2.Serves (makeBoxLayout D bc wrank rrank) := by
  obtain ⟨-, -, -, -, hcompose, hstraddle⟩ := h.facts
  have hplain : ∀ L : BoxLayout, L.variant = ⟨false, false⟩ → Variant.Serves ⟨false, false⟩ L := fun L hL =>
    ⟨(congrArg Variant.straddle hL).symm, fun _ => hL⟩
  rcases hmay : mayCompose D bc with _ | _
  · obtain ⟨rfl, rfl⟩ := hcompose hmay
    unfold streamVariants
    rw [hmay, if_pos (by decide)]
    exact ⟨hplain _ (variant_plain hr), hplain _ (variant_plain hw)⟩
  have hmay' : mayStraddle D bc = true := by
    rcases hs : mayStraddle D bc with _ | _
    · rw [hstraddle hs] at hmay
      cases hmay
    · rfl
  have hrs := @straddle_composes D bc rrank rrank
  have hws := @straddle_composes D bc wrank rrank
  unfold streamVariants
  generalize makeBoxLayout D bc rrank rrank = lr at *
  generalize makeBoxLayout D bc wrank rrank = lw at *
  simp only [hmay, hmay', Variant.Serves, BoxLayout.variant] at *
  generalize (lr.singleInner.isNone || lr.singleOuter.isNone) = rc at *
  generalize (lw.singleInner.isNone || lw.singleOuter.isNone) = wc at *
  generalize lr.straddle.isSome = rs at *
  generalize lw.straddle.isSome = ws at *
  revert hrs hws
  clear hr hw hplain hmay hmay' hcompose hstraddle h
  revert rc wc rs ws
  decide

/-! ### The words of a launch -/

/-- An innermost level of thirty-two digits straddles from bit zero: digit eight of its class is not read. -/
theorem boxWords_past_class : ¬ BoxWordsExact 2 512 (makeBoxLayout 2 512 (fun l => 1 - l) id)
    (makeBoxLayout 2 512 (fun l => 1 - l) id).variant := by
  intro h
  have hlive := (h (fun r => if r = 0 ∨ r = 24 then 1 else 0) (fun l => 16 * l) (fun _ => 0) 0 (by decide) 0 (by decide)).2
    ⟨8, by decide, by decide +kernel⟩
  exact absurd hlive (by decide +kernel)

/-- A layout's own variant is exact unless a level straddles from bit zero or a plain box has under four words to
write; the streams of an admitted box are exact under either side's order. -/
theorem boxWords_exact {rrank wrank : ℕ → ℕ} (hD : 1 ≤ D) (hT : atomLeavesBits ≤ T)
    (hr : Set.InjOn rrank (Finset.range D)) (hw : Set.InjOn wrank (Finset.range D)) :
    (∀ srank ∈ [rrank, wrank], let L := makeBoxLayout D (2 ^ T) srank rrank
      (L.straddle.isSome = true → 0 < L.sshift) → (L.variant = ⟨false, false⟩ → 4 ≤ 2 ^ T / mmaKQuantum) →
        BoxWordsExact D (2 ^ T) L L.variant) ∧
    (BoxPlan D (2 ^ T) → let lr := makeBoxLayout D (2 ^ T) rrank rrank; let lw := makeBoxLayout D (2 ^ T) wrank rrank
      BoxWordsExact D (2 ^ T) lr (streamVariants D (2 ^ T) lr lw).1 ∧
        BoxWordsExact D (2 ^ T) lw (streamVariants D (2 ^ T) lr lw).2) := by
  refine ⟨fun srank hmem => ?_, fun h => ?_⟩
  · have hrank : Set.InjOn srank (Finset.range D) := by
      rcases List.mem_pair.1 hmem with rfl | rfl <;> assumption
    intro L habove hfour
    have hsum := sum_ownerSpanBits hD hT
    rcases eq_or_ne L.variant ⟨false, false⟩ with hplain | hlisted
    · have hsix : 6 ≤ T := by
        have hquarter : 2 ^ 6 ≤ 2 ^ T := by
          have := hfour hplain
          rw [show mmaKQuantum = 16 from rfl] at this
          omega
        exact (Nat.pow_le_pow_iff_right (by decide)).1 hquarter
      rw [hplain]
      exact boxWords_exact_plain hrank hsum hsix hplain
    · refine boxWords_exact_listed hrank hsum hT hlisted rfl fun l hl hs => ?_
      have hsome := @straddle_eq D (2 ^ T) srank rrank l hrank hl hs
      have hshift : L.sshift = sideShift D (2 ^ T) srank l := by
        show L.straddle.elim 0 (makeSideLayout D (2 ^ T) srank rrank).shift = _
        rw [hsome]
        rfl
      rw [← hshift]
      exact habove (Option.isSome_iff_exists.2 ⟨l, hsome⟩)
  · obtain ⟨hread, hwrite⟩ := @streamVariants_serve D (2 ^ T) rrank wrank h hr hw
    exact ⟨h.exact hr hread.1 hread.2, h.exact hw hwrite.1 hwrite.2⟩

/-- The shipped box, the write side in the other order. -/
theorem boxWords_exact_256 : BoxPlan 2 (2 ^ 8) ∧
    BoxWordsExact 2 (2 ^ 8) (makeBoxLayout 2 (2 ^ 8) (fun l => 1 - l) id)
      (streamVariants 2 (2 ^ 8) (makeBoxLayout 2 (2 ^ 8) id id) (makeBoxLayout 2 (2 ^ 8) (fun l => 1 - l) id)).2 := by
  have hplan : BoxPlan 2 (2 ^ 8) := ⟨by decide, by decide, by decide, by decide +kernel, by decide +kernel⟩
  have hw : Set.InjOn (fun l => 1 - l) (Finset.range 2) := by
    intro x hx y hy h
    simp only [Finset.coe_range, Set.mem_Iio] at hx hy h
    omega
  exact ⟨hplan, ((boxWords_exact (by decide) (by decide) (Set.injOn_id _) hw).2 hplan).2⟩

end Rola
