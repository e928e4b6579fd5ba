import Mathlib.Algebra.BigOperators.Intervals
import Mathlib.Algebra.Order.BigOperators.Ring.Finset
import Mathlib.Tactic.Linarith
import Mathlib.Tactic.Ring

/-!
# Mixed-radix indices, most significant digit first

`encode b d D` is the index of the digits `d 0, …, d (D-1)` under the radices `b 0, …, b (D-1)`;
digit `l` carries the weight `∏ i ∈ (l, D), b i`. `digit b D x l` reads digit `l` back off an index.
Horner's rule (`encode_succ`) is the induction everything else follows from.
-/

namespace MixedRadix

open Finset

/-- The weight of digit `l`: the product of the radices below it. -/
def weight (b : ℕ → ℕ) (D l : ℕ) : ℕ := ∏ i ∈ Ico (l + 1) D, b i

/-- The number of indices `D` digits address. -/
def size (b : ℕ → ℕ) (D : ℕ) : ℕ := ∏ l ∈ range D, b l

def encode (b d : ℕ → ℕ) (D : ℕ) : ℕ := ∑ l ∈ range D, d l * weight b D l

def digit (b : ℕ → ℕ) (D x l : ℕ) : ℕ := x / weight b D l % b l

/-- Every digit is below its radix. -/
def Bounded (b d : ℕ → ℕ) (D : ℕ) : Prop := ∀ l < D, d l < b l

variable {b b' d d' : ℕ → ℕ} {D l x : ℕ}

theorem Bounded.mono (h : Bounded b d (D + 1)) : Bounded b d D := fun l hl => h l (by omega)

@[simp] theorem weight_last (b : ℕ → ℕ) (D : ℕ) : weight b (D + 1) D = 1 := by simp [weight]

theorem weight_succ (h : l < D) : weight b (D + 1) l = weight b D l * b D := by
  unfold weight
  rw [Finset.prod_Ico_succ_top (by omega)]

theorem weight_congr (h : ∀ i < D, b i = b' i) : weight b D l = weight b' D l :=
  Finset.prod_congr rfl fun i hi => h i (mem_Ico.1 hi).2

theorem weight_pos (h : ∀ i < D, 0 < b i) : 0 < weight b D l :=
  Finset.prod_pos fun i hi => h i (mem_Ico.1 hi).2

@[simp] theorem size_zero (b : ℕ → ℕ) : size b 0 = 1 := rfl

theorem size_succ : size b (D + 1) = size b D * b D := Finset.prod_range_succ ..

theorem size_pos (h : ∀ i < D, 0 < b i) : 0 < size b D :=
  Finset.prod_pos fun i hi => h i (mem_range.1 hi)

theorem size_eq_mul_weight (h : l < D) : size b D = size b (l + 1) * weight b D l := by
  unfold size weight
  rw [Finset.prod_range_mul_prod_Ico _ h]

theorem weight_mul_dvd_size (h : l < D) : b l * weight b D l ∣ size b D := by
  rw [size_eq_mul_weight h, size_succ]
  exact ⟨size b l, by ring⟩

@[simp] theorem encode_zero (b d : ℕ → ℕ) : encode b d 0 = 0 := rfl

/-- Horner's rule. -/
theorem encode_succ : encode b d (D + 1) = encode b d D * b D + d D := by
  unfold encode
  rw [Finset.sum_range_succ, weight_last, mul_one, Finset.sum_mul]
  congr 1
  refine Finset.sum_congr rfl fun l hl => ?_
  rw [weight_succ (mem_range.1 hl)]
  ring

theorem encode_congr (hb : ∀ i < D, b i = b' i) (hd : ∀ i < D, d i = d' i) :
    encode b d D = encode b' d' D := by
  refine Finset.sum_congr rfl fun l hl => ?_
  rw [hd l (mem_range.1 hl), weight_congr hb]

theorem encode_lt (h : Bounded b d D) : encode b d D < size b D := by
  induction D with
  | zero => simp
  | succ D ih =>
    rw [encode_succ, size_succ]
    have h1 := ih h.mono
    have h2 := h D (Nat.lt_succ_self D)
    calc encode b d D * b D + d D < encode b d D * b D + b D := by omega
      _ = (encode b d D + 1) * b D := by ring
      _ ≤ size b D * b D := Nat.mul_le_mul_right _ h1

theorem digit_encode (h : Bounded b d D) (hl : l < D) : digit b D (encode b d D) l = d l := by
  induction D with
  | zero => omega
  | succ D ih =>
    have hD := h D (Nat.lt_succ_self D)
    have hpos : 0 < b D := by omega
    unfold digit
    rw [encode_succ]
    rcases Nat.lt_succ_iff_lt_or_eq.1 hl with hl | rfl
    · have hdiv : (encode b d D * b D + d D) / b D = encode b d D := by
        rw [Nat.add_comm, Nat.add_mul_div_right _ _ hpos, Nat.div_eq_of_lt hD, Nat.zero_add]
      rw [weight_succ hl, Nat.mul_comm (weight b D l), ← Nat.div_div_eq_div_mul, hdiv]
      exact ih h.mono hl
    · rw [weight_last, Nat.div_one, Nat.add_comm, Nat.add_mul_mod_self_right, Nat.mod_eq_of_lt hD]

theorem digit_lt (h : ∀ i < D, 0 < b i) (hl : l < D) : digit b D x l < b l :=
  Nat.mod_lt _ (h l hl)

theorem digit_bounded (h : ∀ i < D, 0 < b i) : Bounded b (digit b D x) D :=
  fun _ hl => digit_lt h hl

theorem encode_digit_mod (b : ℕ → ℕ) (D x : ℕ) : encode b (digit b D x) D = x % size b D := by
  induction D generalizing x with
  | zero => simp [Nat.mod_one]
  | succ D ih =>
    have hdig : encode b (digit b (D + 1) x) D = encode b (digit b D (x / b D)) D := by
      refine encode_congr (fun _ _ => rfl) fun i hi => ?_
      unfold digit
      rw [weight_succ hi, Nat.mul_comm (weight b D i), Nat.div_div_eq_div_mul]
    rw [encode_succ, hdig, ih, size_succ, Nat.mul_comm (size b D), Nat.mod_mul]
    simp only [digit, weight_last, Nat.div_one]
    ring

theorem encode_digit (h : x < size b D) : encode b (digit b D x) D = x := by
  rw [encode_digit_mod, Nat.mod_eq_of_lt h]

theorem encode_inj (hd : Bounded b d D) (hd' : Bounded b d' D)
    (h : encode b d D = encode b d' D) : ∀ l < D, d l = d' l := fun l hl => by
  rw [← digit_encode hd hl, h, digit_encode hd' hl]

/-- Digits mapped in order keep the order of the index. -/
theorem encode_lt_encode {c e e' : ℕ → ℕ} (hd : Bounded b d D) (hd' : Bounded b d' D) (he : Bounded c e D)
    (hmono : ∀ l < D, d l < d' l → e l < e' l) (hsame : ∀ l < D, d l = d' l → e l = e' l)
    (h : encode b d D < encode b d' D) : encode c e D < encode c e' D := by
  induction D with
  | zero => simp at h
  | succ D ih =>
    have hlast := hd D (Nat.lt_succ_self D)
    have hlast' := hd' D (Nat.lt_succ_self D)
    have hc := he D (Nat.lt_succ_self D)
    rw [encode_succ, encode_succ] at h ⊢
    rcases Nat.lt_trichotomy (encode b d D) (encode b d' D) with hlt | heq | hgt
    · have hhead := ih hd.mono hd'.mono he.mono (fun l hl => hmono l (by omega)) (fun l hl => hsame l (by omega)) hlt
      calc encode c e D * c D + e D < encode c e D * c D + c D := by omega
        _ = (encode c e D + 1) * c D := by ring
        _ ≤ encode c e' D * c D := Nat.mul_le_mul_right _ hhead
        _ ≤ _ := Nat.le_add_right _ _
    · have hdig := encode_inj hd.mono hd'.mono heq
      have hhead : encode c e D = encode c e' D :=
        encode_congr (fun _ _ => rfl) fun l hl => hsame l (by omega) (hdig l hl)
      have := hmono D (Nat.lt_succ_self D) (by rw [heq] at h; omega)
      rw [hhead]
      omega
    · have : encode b d' D * b D + b D ≤ encode b d D * b D := by
        calc _ = (encode b d' D + 1) * b D := by ring
          _ ≤ _ := Nat.mul_le_mul_right _ hgt
      omega

theorem mul_add_inj {a a' r r' n : ℕ} (hr : r < n) (hr' : r' < n) (h : a * n + r = a' * n + r') :
    a = a' ∧ r = r' := by
  have hdiv : ∀ a r : ℕ, r < n → (a * n + r) / n = a := fun a r hr => by
    rw [Nat.add_comm, Nat.add_mul_div_right _ _ (by omega), Nat.div_eq_of_lt hr, Nat.zero_add]
  have ha : a = a' := by rw [← hdiv a r hr, h, hdiv a' r' hr']
  subst ha
  exact ⟨rfl, by omega⟩

/-- Refining every digit into a high and a low part. -/
theorem size_mul (b b' : ℕ → ℕ) (D : ℕ) :
    size (fun l => b l * b' l) D = size b D * size b' D := Finset.prod_mul_distrib

end MixedRadix
