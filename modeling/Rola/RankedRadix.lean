import Rola.MixedRadix
import Mathlib.Algebra.Order.BigOperators.Ring.Finset
import Mathlib.Data.Finset.Max
import Mathlib.Data.Set.Function
import Mathlib.Tactic.Ring

/-!
# Mixed radix in a chosen order

The digits of a number over a finite set of places, the place of least rank the least significant.
Numbers and bounded digit families correspond one to one whatever the ranks, so a number read under
one order and written under another is permuted; and two numbers' digits, nested place by place, are
one number's.
-/

namespace RankedRadix

open Finset

variable {ι : Type*}

/-- The weight of a place: the bases of the places ranked below it. -/
def place (S : Finset ι) (b rank : ι → ℕ) (l : ι) : ℕ := ∏ m ∈ S with rank m < rank l, b m

def digit (S : Finset ι) (b rank : ι → ℕ) (x : ℕ) (l : ι) : ℕ := x / place S b rank l % b l

def encode (S : Finset ι) (b rank d : ι → ℕ) : ℕ := ∑ l ∈ S, d l * place S b rank l

/-- A digit below the base at every place. -/
def Bounded (S : Finset ι) (b d : ι → ℕ) : Prop := ∀ l ∈ S, d l < b l

variable {S : Finset ι} {b rank d d' : ι → ℕ} {x : ℕ}

theorem place_pos (hb : ∀ l ∈ S, 0 < b l) (l : ι) : 0 < place S b rank l :=
  prod_pos fun m hm => hb m (mem_filter.1 hm).1

theorem encode_congr (h : ∀ l ∈ S, d l = d' l) : encode S b rank d = encode S b rank d' :=
  sum_congr rfl fun l hl => by rw [h l hl]

theorem digit_bounded (hb : ∀ l ∈ S, 0 < b l) (x : ℕ) : Bounded S b (digit S b rank x) :=
  fun l hl => Nat.mod_lt _ (hb l hl)

/-- A place's next weight divides the size. -/
theorem place_mul_dvd {l : ι} (hl : l ∈ S) : place S b rank l * b l ∣ ∏ m ∈ S, b m := by
  rw [place, ← prod_filter_mul_prod_filter_not S fun m => rank m < rank l]
  exact Nat.mul_dvd_mul_left _ (dvd_prod_of_mem b (mem_filter.2 ⟨hl, lt_irrefl _⟩))

/-- With bases that are powers of two a place is a bit offset. -/
theorem place_two_pow (S : Finset ι) (bits rank : ι → ℕ) (l : ι) :
    place S (fun m => 2 ^ bits m) rank l = 2 ^ ∑ m ∈ S with rank m < rank l, bits m := by
  rw [place, prod_pow_eq_pow_sum]

theorem digit_eq_shiftRight {e k l} (hp : place S b rank l = 2 ^ e) (hk : b l = 2 ^ k) :
    digit S b rank x l = (x >>> e) &&& (b l - 1) := by
  rw [digit, hp, hk, Nat.shiftRight_eq_div_pow, Nat.and_two_pow_sub_one_eq_mod]

section Insert
variable [DecidableEq ι] {a : ι} (hmax : ∀ m ∈ S, rank m < rank a)
include hmax

/-- A place ranked above the others leaves their weights. -/
theorem place_insert {l : ι} (hl : l ∈ S) : place (insert a S) b rank l = place S b rank l := by
  have h : ¬ rank a < rank l := not_lt.2 (hmax l hl).le
  unfold place
  rw [filter_insert, if_neg h]

theorem place_insert_self : place (insert a S) b rank a = ∏ m ∈ S, b m := by
  unfold place
  rw [filter_insert, if_neg (lt_irrefl _), filter_true_of_mem hmax]

theorem encode_insert (ha : a ∉ S) :
    encode (insert a S) b rank d = d a * ∏ m ∈ S, b m + encode S b rank d := by
  unfold encode
  rw [sum_insert ha, place_insert_self hmax]
  congr 1
  refine sum_congr rfl fun l hl => ?_
  rw [place_insert hmax hl]

end Insert

/-- Induction on the places, the highest ranked last. -/
theorem induction_by_rank [DecidableEq ι] {p : Finset ι → Prop} (hrank : Set.InjOn rank S)
    (empty : p ∅) (insert : ∀ a T, insert a T ⊆ S → a ∉ T → (∀ m ∈ T, rank m < rank a) →
      p T → p (insert a T)) : p S := by
  suffices h : ∀ T ⊆ S, p T from h S subset_rfl
  intro T
  induction T using Finset.induction_on_max_value rank with
  | empty => exact fun _ => empty
  | insert a T ha hle ih =>
    intro hsub
    refine insert a T hsub ha (fun m hm => ?_) (ih fun x hx => hsub (mem_insert_of_mem hx))
    refine lt_of_le_of_ne (hle m hm) fun heq => ha ?_
    rwa [← hrank (hsub (mem_insert_of_mem hm)) (hsub (mem_insert_self a T)) heq]

section Ranked
variable [DecidableEq ι] (hrank : Set.InjOn rank S)
include hrank

theorem encode_lt (hd : Bounded S b d) : encode S b rank d < ∏ m ∈ S, b m := by
  refine induction_by_rank hrank (p := fun T => encode T b rank d < ∏ m ∈ T, b m) (by simp [encode])
    fun a T hsub ha hmax ih => ?_
  rw [encode_insert hmax ha, prod_insert ha]
  have hda := hd a (hsub (mem_insert_self a T))
  calc d a * ∏ m ∈ T, b m + encode T b rank d < d a * ∏ m ∈ T, b m + ∏ m ∈ T, b m := by omega
    _ = (d a + 1) * ∏ m ∈ T, b m := by ring
    _ ≤ b a * ∏ m ∈ T, b m := Nat.mul_le_mul_right _ hda

theorem digit_encode (hd : Bounded S b d) : ∀ l ∈ S, digit S b rank (encode S b rank d) l = d l := by
  refine induction_by_rank hrank (p := fun T => ∀ l ∈ T, digit T b rank (encode T b rank d) l = d l)
    (by simp) fun a T hsub ha hmax ih l hl => ?_
  have hdT : Bounded T b d := fun m hm => hd m (hsub (mem_insert_of_mem hm))
  have hpos : ∀ m ∈ T, 0 < b m := fun m hm => (Nat.zero_le _).trans_lt (hdT m hm)
  have hlt := encode_lt (hrank.mono fun m hm => hsub (mem_insert_of_mem hm)) hdT
  rcases mem_insert.1 hl with rfl | hl
  · rw [digit, place_insert_self hmax, encode_insert hmax ha, mul_comm,
      Nat.mul_add_div (prod_pos hpos), Nat.div_eq_of_lt hlt, Nat.add_zero,
      Nat.mod_eq_of_lt (hd _ (hsub (mem_insert_self _ T)))]
  · -- the top digit's weight is a whole number of this place's
    obtain ⟨c, hc⟩ := @RankedRadix.place_mul_dvd _ _ b rank _ hl
    rw [digit, place_insert hmax hl, encode_insert hmax ha, hc,
      show d a * (place T b rank l * b l * c) = place T b rank l * (b l * (d a * c)) by ring,
      Nat.mul_add_div (place_pos hpos l), Nat.mul_add_mod]
    exact ih l hl

theorem encode_digit (hb : ∀ l ∈ S, 0 < b l) (hx : x < ∏ m ∈ S, b m) :
    encode S b rank (digit S b rank x) = x := by
  refine induction_by_rank hrank
    (p := fun T => ∀ x < ∏ m ∈ T, b m, encode T b rank (digit T b rank x) = x)
    (fun x hx => ?_) (fun a T hsub ha hmax ih x hx => ?_) x hx
  · simp only [prod_empty] at hx
    simp only [encode, sum_empty]
    omega
  · have hpos : 0 < ∏ m ∈ T, b m := prod_pos fun m hm => hb m (hsub (mem_insert_of_mem hm))
    rw [prod_insert ha] at hx
    have htop : digit (insert a T) b rank x a = x / ∏ m ∈ T, b m := by
      rw [digit, place_insert_self hmax, Nat.mod_eq_of_lt ((Nat.div_lt_iff_lt_mul hpos).2 hx)]
    have hlow : encode T b rank (digit (insert a T) b rank x) = x % ∏ m ∈ T, b m := by
      rw [← ih _ (Nat.mod_lt x hpos)]
      refine encode_congr fun l hl => ?_
      rw [digit, digit, place_insert hmax hl, ← Nat.mod_mul_right_div_self,
        ← Nat.mod_mul_right_div_self, Nat.mod_mod_of_dvd _ (place_mul_dvd hl)]
    rw [encode_insert hmax ha, htop, hlow, mul_comm, Nat.div_add_mod]

end Ranked

/-! ### Maps between numbers -/

section Maps
variable [DecidableEq ι] {rank' : ι → ℕ} (hrank : Set.InjOn rank S) (hrank' : Set.InjOn rank' S)
  (hb : ∀ l ∈ S, 0 < b l)
include hrank hrank' hb

/-- A number read under one order and written under another. -/
theorem reorder_bijOn : Set.BijOn (fun x => encode S b rank' (digit S b rank x))
    (Set.Iio (∏ m ∈ S, b m)) (Set.Iio (∏ m ∈ S, b m)) := by
  have hinv : ∀ {r r' : ι → ℕ}, Set.InjOn r S → Set.InjOn r' S → Set.LeftInvOn
      (fun x => encode S b r (digit S b r' x)) (fun x => encode S b r' (digit S b r x))
      (Set.Iio (∏ m ∈ S, b m)) := by
    intro r r' hr hr' x hx
    simp only
    rw [encode_congr (digit_encode hr' (digit_bounded hb x)), encode_digit hr hb hx]
  refine Set.InvOn.bijOn ⟨hinv hrank hrank', hinv hrank' hrank⟩ ?_ ?_
  · exact fun x _ => encode_lt hrank' (digit_bounded hb x)
  · exact fun x _ => encode_lt hrank (digit_bounded hb x)

end Maps

/-- One number's digits inside another's, place by place. -/
def nest (S : Finset ι) (c e rankC rankE : ι → ℕ) (x y : ℕ) (l : ι) : ℕ :=
  digit S c rankC x l * e l + digit S e rankE y l

section Nested
variable [DecidableEq ι] {c e : ι → ℕ} (rankC rankE : ι → ℕ)
  (hc : ∀ l ∈ S, 0 < c l) (he : ∀ l ∈ S, 0 < e l) (hb : ∀ l ∈ S, c l * e l = b l)
include hc he hb

omit [DecidableEq ι] in
theorem nest_bounded (x y : ℕ) : Bounded S b (nest S c e rankC rankE x y) := by
  intro l hl
  have h1 : digit S c rankC x l < c l := digit_bounded hc x l hl
  have h2 : digit S e rankE y l < e l := digit_bounded he y l hl
  rw [nest, ← hb l hl]
  calc digit S c rankC x l * e l + digit S e rankE y l < digit S c rankC x l * e l + e l := by omega
    _ = (digit S c rankC x l + 1) * e l := by ring
    _ ≤ c l * e l := Nat.mul_le_mul_right _ h1

variable {rankC rankE} (hrank : Set.InjOn rank S) (hrankC : Set.InjOn rankC S) (hrankE : Set.InjOn rankE S)
include hrank hrankC hrankE

/-- Two numbers, nested, are one. -/
theorem nested_bijOn :
    Set.BijOn (fun x : ℕ × ℕ => encode S b rank (nest S c e rankC rankE x.1 x.2))
      (Set.Iio (∏ m ∈ S, c m) ×ˢ Set.Iio (∏ m ∈ S, e m)) (Set.Iio (∏ m ∈ S, b m)) := by
  refine ⟨fun x _ => encode_lt hrank (nest_bounded rankC rankE hc he hb x.1 x.2), ?_, ?_⟩
  · rintro ⟨x, y⟩ ⟨hx, hy⟩ ⟨x', y'⟩ ⟨hx', hy'⟩ heq
    simp only [Set.mem_Iio] at hx hy hx' hy' heq
    have hdig : ∀ l ∈ S, digit S c rankC x l = digit S c rankC x' l ∧
        digit S e rankE y l = digit S e rankE y' l := by
      intro l hl
      have h := digit_encode hrank (nest_bounded rankC rankE hc he hb x y) l hl
      rw [heq, digit_encode hrank (nest_bounded rankC rankE hc he hb x' y') l hl] at h
      exact MixedRadix.mul_add_inj (digit_bounded he y l hl) (digit_bounded he y' l hl) h.symm
    refine Prod.ext ?_ ?_
    · rw [← encode_digit hrankC hc hx, ← encode_digit hrankC hc hx']
      exact encode_congr fun l hl => (hdig l hl).1
    · rw [← encode_digit hrankE he hy, ← encode_digit hrankE he hy']
      exact encode_congr fun l hl => (hdig l hl).2
  · intro z hz
    have hpos : ∀ l ∈ S, 0 < b l := by
      intro l hl
      rw [← hb l hl]
      exact Nat.mul_pos (hc l hl) (he l hl)
    have hz1 : Bounded S c fun l => digit S b rank z l / e l := by
      intro l hl
      rw [Nat.div_lt_iff_lt_mul (he l hl), hb l hl]
      exact digit_bounded hpos z l hl
    have hz2 : Bounded S e fun l => digit S b rank z l % e l := fun l hl => Nat.mod_lt _ (he l hl)
    refine ⟨(encode S c rankC fun l => digit S b rank z l / e l,
      encode S e rankE fun l => digit S b rank z l % e l),
      ⟨encode_lt hrankC hz1, encode_lt hrankE hz2⟩, ?_⟩
    refine Eq.trans (encode_congr fun l hl => ?_) (encode_digit hrank hpos hz)
    rw [nest, digit_encode hrankC hz1 l hl, digit_encode hrankE hz2 l hl, Nat.div_add_mod']

end Nested

end RankedRadix
