import Rola.RankedRadix
import Mathlib.Data.Nat.Bitwise

/-!
# A ranked number cut at a bit

Under bases that are powers of two a place is a field of bits. Cut at a bit, a number's low part
ranges freely: the numbers over one high part are a product, each place's low bits chosen alone.
-/

namespace RankedRadix

open Finset

variable {ι : Type*} {S : Finset ι} {e rank d : ι → ℕ} {l : ι} {x y b c i : ℕ}

/-- The bits below a place. -/
def offset (S : Finset ι) (e rank : ι → ℕ) (l : ι) : ℕ := ∑ m ∈ S with rank m < rank l, e m

/-- A place's digit under bases `2 ^ e`. -/
def field (S : Finset ι) (e rank : ι → ℕ) (x : ℕ) (l : ι) : ℕ := digit S (fun m => 2 ^ e m) rank x l

theorem field_eq : field S e rank x l = x / 2 ^ offset S e rank l % 2 ^ e l := by
  rw [field, digit, place_two_pow, offset]

theorem field_lt : field S e rank x l < 2 ^ e l := by
  rw [field_eq]
  exact Nat.mod_lt _ (Nat.two_pow_pos _)

theorem testBit_field (hi : i < e l) : (field S e rank x l).testBit i = x.testBit (offset S e rank l + i) := by
  rw [field_eq, Nat.testBit_mod_two_pow, Nat.testBit_div_two_pow, decide_eq_true hi, Bool.true_and, Nat.add_comm]

/-- A place ranked below another ends before it. -/
theorem offset_add_le {m : ι} (hm : m ∈ S) (hlt : rank m < rank l) :
    offset S e rank m + e m ≤ offset S e rank l := by
  classical
  have hnot : m ∉ S.filter fun k => rank k < rank m := fun h => (lt_irrefl _) (mem_filter.1 h).2
  unfold offset
  rw [add_comm, ← sum_insert hnot]
  refine sum_le_sum_of_subset fun k hk => ?_
  rcases mem_insert.1 hk with rfl | hk
  · exact mem_filter.2 ⟨hm, hlt⟩
  · exact mem_filter.2 ⟨(mem_filter.1 hk).1, (mem_filter.1 hk).2.trans hlt⟩

section Ranked
variable [DecidableEq ι] (hrank : Set.InjOn rank S)
include hrank

/-- Every bit is in some place's field. -/
theorem exists_place_of_bit (hi : i < ∑ l ∈ S, e l) : ∃ l ∈ S, offset S e rank l ≤ i ∧ i < offset S e rank l + e l := by
  refine induction_by_rank hrank (p := fun T => ∀ i < ∑ l ∈ T, e l, ∃ l ∈ T,
    offset T e rank l ≤ i ∧ i < offset T e rank l + e l) (by simp) (fun a T _ ha hmax ih i hi => ?_) i hi
  rw [sum_insert ha] at hi
  rcases Nat.lt_or_ge i (∑ l ∈ T, e l) with hlt | hge
  · obtain ⟨l, hl, hplace⟩ := ih i hlt
    have hoff : offset (insert a T) e rank l = offset T e rank l := by
      unfold offset
      rw [filter_insert, if_neg (not_lt.2 (hmax l hl).le)]
    refine ⟨l, mem_insert_of_mem hl, ?_⟩
    rwa [hoff]
  · have hoff : offset (insert a T) e rank a = ∑ l ∈ T, e l := by
      unfold offset
      rw [filter_insert, if_neg (lt_irrefl _), filter_true_of_mem hmax]
    refine ⟨a, mem_insert_self a T, ?_⟩
    rw [hoff]
    omega

/-- Numbers whose fields agree from a bit on agree from it on. -/
theorem div_eq_of_fields (hx : x < 2 ^ ∑ l ∈ S, e l) (hy : y < 2 ^ ∑ l ∈ S, e l)
    (h : ∀ l ∈ S, field S e rank x l / 2 ^ (c - offset S e rank l) =
      field S e rank y l / 2 ^ (c - offset S e rank l)) : x / 2 ^ c = y / 2 ^ c := by
  refine Nat.eq_of_testBit_eq fun i => ?_
  rw [Nat.testBit_div_two_pow, Nat.testBit_div_two_pow]
  rcases Nat.lt_or_ge (i + c) (∑ l ∈ S, e l) with hlt | hge
  · obtain ⟨l, hl, hlo, hhi⟩ := exists_place_of_bit hrank hlt
    have hbit := congrArg (fun n => n.testBit (i + c - offset S e rank l - (c - offset S e rank l))) (h l hl)
    simp only [Nat.testBit_div_two_pow] at hbit
    rw [testBit_field (by omega), testBit_field (by omega)] at hbit
    rwa [show offset S e rank l + (i + c - offset S e rank l - (c - offset S e rank l) +
      (c - offset S e rank l)) = i + c by omega] at hbit
  · rw [Nat.testBit_lt_two_pow (hx.trans_le (Nat.pow_le_pow_right two_pos hge)),
      Nat.testBit_lt_two_pow (hy.trans_le (Nat.pow_le_pow_right two_pos hge))]

/-- Over one high part each place's low bits are chosen alone. -/
theorem exists_low_iff (hc : c ≤ ∑ l ∈ S, e l) (hb : b < 2 ^ (∑ l ∈ S, e l - c)) (P : ι → ℕ → Prop) :
    (∃ p < 2 ^ c, ∀ l ∈ S, P l (field S e rank (b * 2 ^ c + p) l)) ↔
      ∀ l ∈ S, ∃ d < 2 ^ e l, d / 2 ^ (c - offset S e rank l) =
        field S e rank (b * 2 ^ c) l / 2 ^ (c - offset S e rank l) ∧ P l d := by
  have htop : b * 2 ^ c + 2 ^ c ≤ 2 ^ ∑ l ∈ S, e l := by
    have hle : (b + 1) * 2 ^ c ≤ 2 ^ (∑ l ∈ S, e l - c) * 2 ^ c := Nat.mul_le_mul_right _ hb
    rwa [← pow_add, Nat.sub_add_cancel hc, Nat.add_one_mul] at hle
  constructor
  · rintro ⟨p, hp, hP⟩ l hl
    refine ⟨_, field_lt, ?_, hP l hl⟩
    -- the place's bits from the cut on are the high part's
    refine Nat.eq_of_testBit_eq fun i => ?_
    rw [Nat.testBit_div_two_pow, Nat.testBit_div_two_pow]
    rcases Nat.lt_or_ge (i + (c - offset S e rank l)) (e l) with hlt | hge
    · rw [testBit_field hlt, testBit_field hlt]
      have hdiv : (b * 2 ^ c + p) / 2 ^ c = b * 2 ^ c / 2 ^ c := by
        rw [mul_comm, Nat.mul_add_div (Nat.two_pow_pos c), Nat.div_eq_of_lt hp, Nat.add_zero,
          Nat.mul_div_cancel_left _ (Nat.two_pow_pos c)]
      have hbit := congrArg (fun n => n.testBit (offset S e rank l + (i + (c - offset S e rank l)) - c)) hdiv
      simp only [Nat.testBit_div_two_pow] at hbit
      rwa [Nat.sub_add_cancel (by omega)] at hbit
    · rw [Nat.testBit_lt_two_pow (field_lt.trans_le (Nat.pow_le_pow_right two_pos hge)),
        Nat.testBit_lt_two_pow (field_lt.trans_le (Nat.pow_le_pow_right two_pos hge))]
  · intro h
    choose! d hd hhigh hP using h
    have hbounded : Bounded S (fun m => 2 ^ e m) d := hd
    have hfield : ∀ l ∈ S, field S e rank (encode S (fun m => 2 ^ e m) rank d) l = d l :=
      digit_encode hrank hbounded
    have hlt := encode_lt hrank hbounded
    rw [prod_pow_eq_pow_sum] at hlt
    have hbase : b * 2 ^ c < 2 ^ ∑ l ∈ S, e l := (Nat.lt_add_of_pos_right (Nat.two_pow_pos c)).trans_le htop
    have hdiv : encode S (fun m => 2 ^ e m) rank d / 2 ^ c = b := by
      refine (div_eq_of_fields hrank (y := b * 2 ^ c) hlt hbase fun l hl => ?_).trans
        (Nat.mul_div_cancel _ (Nat.two_pow_pos c))
      rw [hfield l hl, hhigh l hl]
    refine ⟨encode S (fun m => 2 ^ e m) rank d % 2 ^ c, Nat.mod_lt _ (Nat.two_pow_pos c), fun l hl => ?_⟩
    rw [← hdiv, Nat.div_add_mod', hfield l hl]
    exact hP l hl

end Ranked

/-! ### A place against the cut -/

section Cut
variable {Q : ℕ → Prop}

/-- A place under the cut is free. -/
theorem exists_under_iff (h : offset S e rank l + e l ≤ c) :
    (∃ d < 2 ^ e l, d / 2 ^ (c - offset S e rank l) = field S e rank (b * 2 ^ c) l / 2 ^ (c - offset S e rank l) ∧ Q d) ↔
      ∃ d < 2 ^ e l, Q d := by
  have hzero : ∀ d < 2 ^ e l, d / 2 ^ (c - offset S e rank l) = 0 := fun d hd =>
    Nat.div_eq_of_lt (hd.trans_le (Nat.pow_le_pow_right two_pos (by omega)))
  refine exists_congr fun d => and_congr_right fun hd => ?_
  rw [hzero d hd, hzero _ field_lt]
  exact and_iff_right rfl

/-- A place over the cut is the high part's. -/
theorem exists_over_iff (h : c ≤ offset S e rank l) :
    (∃ d < 2 ^ e l, d / 2 ^ (c - offset S e rank l) = field S e rank (b * 2 ^ c) l / 2 ^ (c - offset S e rank l) ∧ Q d) ↔
      Q (b / 2 ^ (offset S e rank l - c) % 2 ^ e l) := by
  have hfield : field S e rank (b * 2 ^ c) l = b / 2 ^ (offset S e rank l - c) % 2 ^ e l := by
    obtain ⟨k, hk⟩ := Nat.exists_eq_add_of_le h
    rw [field_eq, hk, pow_add, mul_comm b, Nat.mul_div_mul_left _ _ (Nat.two_pow_pos c), Nat.add_sub_cancel_left]
  rw [hfield, Nat.sub_eq_zero_of_le h, pow_zero]
  simp only [Nat.div_one]
  constructor
  · rintro ⟨d, -, rfl, hQ⟩
    exact hQ
  · exact fun hQ => ⟨_, Nat.mod_lt _ (Nat.two_pow_pos _), rfl, hQ⟩

/-- A place across the cut has the high part's class over its free bits. -/
theorem exists_across_iff (h : offset S e rank l ≤ c) (h' : c ≤ offset S e rank l + e l) :
    (∃ d < 2 ^ e l, d / 2 ^ (c - offset S e rank l) = field S e rank (b * 2 ^ c) l / 2 ^ (c - offset S e rank l) ∧ Q d) ↔
      ∃ d < 2 ^ (c - offset S e rank l),
        Q (b % 2 ^ (offset S e rank l + e l - c) * 2 ^ (c - offset S e rank l) + d) := by
  have hpos := Nat.two_pow_pos (c - offset S e rank l)
  have hsplit : 2 ^ e l = 2 ^ (offset S e rank l + e l - c) * 2 ^ (c - offset S e rank l) := by
    rw [← pow_add]
    congr 1
    omega
  have hfield : field S e rank (b * 2 ^ c) l =
      b % 2 ^ (offset S e rank l + e l - c) * 2 ^ (c - offset S e rank l) := by
    have hc : 2 ^ c = 2 ^ offset S e rank l * 2 ^ (c - offset S e rank l) := by
      rw [← pow_add, Nat.add_sub_cancel' h]
    rw [field_eq, hc, mul_left_comm, Nat.mul_div_cancel_left _ (Nat.two_pow_pos _), hsplit, Nat.mul_mod_mul_right]
  rw [hfield, Nat.mul_div_cancel _ hpos]
  constructor
  · rintro ⟨d, -, hd, hQ⟩
    refine ⟨d % 2 ^ (c - offset S e rank l), Nat.mod_lt _ hpos, ?_⟩
    rwa [← hd, Nat.div_add_mod']
  · rintro ⟨d, hd, hQ⟩
    refine ⟨_, ?_, ?_, hQ⟩
    · have hclass := Nat.mod_lt b (Nat.two_pow_pos (offset S e rank l + e l - c))
      have := Nat.mul_le_mul_right (2 ^ (c - offset S e rank l)) hclass
      rw [Nat.succ_mul] at this
      omega
    · rw [mul_comm, Nat.mul_add_div hpos, Nat.div_eq_of_lt hd, Nat.add_zero]

end Cut

end RankedRadix
