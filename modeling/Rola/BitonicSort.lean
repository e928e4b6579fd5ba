import Mathlib.Data.List.Perm.Basic
import Mathlib.Data.List.Nodup
import Mathlib.Data.Nat.Bitwise
import Mathlib.Order.Lattice
import Mathlib.Order.Monotone.Basic
import Mathlib.Order.BooleanAlgebra.Basic
import Mathlib.Tactic.Linarith
import Mathlib.Tactic.Ring

/-!
# Bitonic sorting

Positions are paired at a distance `2 ^ t`, and bit `s` of a position says which way its pair is
ordered. Stage `s` merges runs of `2 ^ (s - 1)` into runs of `2 ^ s`. A comparator commutes with a
monotone map, so a sequence is sorted as soon as every threshold of it is: the argument is about
sequences of booleans, where a block that rises and falls once stays so under a half-cleaner.
-/

namespace Rola.Bitonic

section Exchange

variable {α β : Type*} [LinearOrder α] [LinearOrder β]

/-- The pair's lower position. -/
def lower (t x : ℕ) : ℕ := if x.testBit t then x ^^^ 2 ^ t else x

/-- The larger value belongs at the lower position where bit `s` is clear, else the smaller. -/
def Swaps (s t : ℕ) (v : ℕ → α) (x : ℕ) : Prop :=
  x.testBit s = false ↔ v (lower t x) < v (lower t x ^^^ 2 ^ t)

instance (s t : ℕ) (v : ℕ → α) (x : ℕ) : Decidable (Swaps s t v x) :=
  inferInstanceAs (Decidable (_ ↔ _))

/-- The position a position's new value comes from. -/
def source (s t : ℕ) (v : ℕ → α) (x : ℕ) : ℕ := if Swaps s t v x then x ^^^ 2 ^ t else x

def exchange (s t : ℕ) (v : ℕ → α) (x : ℕ) : α := v (source s t v x)

/-- The exchanges of stage `s`, from distance `2 ^ (t - 1)` down. -/
def merge (s : ℕ) : ℕ → (ℕ → α) → ℕ → α
  | 0, v => v
  | t + 1, v => merge s t (exchange s t v)

/-- Stages one to `n`. -/
def sort : ℕ → (ℕ → α) → ℕ → α
  | 0, v => v
  | s + 1, v => merge (s + 1) (s + 1) (sort s v)

variable {s t x : ℕ} {v : ℕ → α}

theorem testBit_partner (h : s ≠ t) : (x ^^^ 2 ^ t).testBit s = x.testBit s := by
  simp [Nat.testBit_xor, h.symm]

@[simp] theorem testBit_partner_self (t x : ℕ) : (x ^^^ 2 ^ t).testBit t = !x.testBit t := by
  simp [Nat.testBit_xor]

@[simp] theorem partner_partner (t x : ℕ) : x ^^^ 2 ^ t ^^^ 2 ^ t = x := by
  rw [Nat.xor_assoc, Nat.xor_self, Nat.xor_zero]

theorem testBit_lower (t x : ℕ) : (lower t x).testBit t = false := by
  unfold lower
  cases hx : x.testBit t <;> simp [hx]

theorem lower_of_testBit (hx : x.testBit t = false) : lower t x = x := by simp [lower, hx]

theorem lower_partner (hx : x.testBit t = false) : lower t (x ^^^ 2 ^ t) = x := by simp [lower, hx]

/-- A position is its pair's lower one, or its partner. -/
theorem eq_lower_or (t x : ℕ) : x = lower t x ∨ x = lower t x ^^^ 2 ^ t := by
  unfold lower
  cases x.testBit t <;> simp

theorem exchange_eq (s t : ℕ) (v : ℕ → α) (x : ℕ) : exchange s t v x =
    if x.testBit t = x.testBit s then max (v x) (v (x ^^^ 2 ^ t)) else min (v x) (v (x ^^^ 2 ^ t)) := by
  unfold exchange source Swaps lower
  rcases Bool.eq_false_or_eq_true (x.testBit t) with ht | ht <;>
    rcases Bool.eq_false_or_eq_true (x.testBit s) with hs | hs
  all_goals
    simp only [ht, hs, Bool.false_eq_true, Bool.true_eq_false, if_true, if_false, partner_partner, true_iff,
      false_iff]
    rcases lt_trichotomy (v x) (v (x ^^^ 2 ^ t)) with h | h | h
    · simp [h, h.le, h.not_gt]
    · simp [h]
    · simp [h, h.le, h.not_gt]

theorem exchange_low (hx : x.testBit t = false) : exchange s t v x =
    if x.testBit s = false ↔ v x < v (x ^^^ 2 ^ t) then v (x ^^^ 2 ^ t) else v x := by
  unfold exchange source Swaps lower
  simp only [hx, Bool.false_eq_true, if_false]
  split <;> rfl

theorem exchange_high (hx : x.testBit t = true) : exchange s t v x =
    if x.testBit s = false ↔ v (x ^^^ 2 ^ t) < v x then v (x ^^^ 2 ^ t) else v x := by
  unfold exchange source Swaps lower
  simp only [hx, if_true, partner_partner]
  split <;> rfl

theorem exchange_comp {f : α → β} (hf : Monotone f) (s t : ℕ) (v : ℕ → α) :
    exchange s t (f ∘ v) = f ∘ exchange s t v := by
  funext x
  simp only [Function.comp, exchange_eq]
  split
  · exact (hf.map_max).symm
  · exact (hf.map_min).symm

theorem merge_comp {f : α → β} (hf : Monotone f) (s t : ℕ) (v : ℕ → α) :
    merge s t (f ∘ v) = f ∘ merge s t v := by
  induction t generalizing v with
  | zero => rfl
  | succ t ih => rw [merge, exchange_comp hf, ih, merge]

theorem sort_comp {f : α → β} (hf : Monotone f) (n : ℕ) (v : ℕ → α) : sort n (f ∘ v) = f ∘ sort n v := by
  induction n with
  | zero => rfl
  | succ n ih => rw [sort, ih, merge_comp hf, sort]

/-! ### A permutation -/

theorem swaps_partner (h : s ≠ t) : Swaps s t v (x ^^^ 2 ^ t) ↔ Swaps s t v x := by
  have hlower : lower t (x ^^^ 2 ^ t) = lower t x := by
    unfold lower
    cases hx : x.testBit t <;> simp [hx]
  rw [Swaps, Swaps, hlower, testBit_partner h]

theorem partner_lt {n : ℕ} (ht : t < n) (hx : x < 2 ^ n) : x ^^^ 2 ^ t < 2 ^ n :=
  Nat.xor_lt_two_pow hx (Nat.pow_lt_pow_right (by omega) ht)

theorem exchange_congr {n : ℕ} (ht : t < n) {w : ℕ → α} (h : ∀ x < 2 ^ n, v x = w x) (hx : x < 2 ^ n) :
    exchange s t v x = exchange s t w x := by
  rw [exchange_eq, exchange_eq, h x hx, h _ (partner_lt ht hx)]

/-- The positions of a pair change places together. -/
theorem source_source (h : s ≠ t) (v : ℕ → α) (x : ℕ) : source s t v (source s t v x) = x := by
  unfold source
  by_cases hx : Swaps s t v x
  · simp [hx, swaps_partner h]
  · simp [hx]

theorem source_lt {n : ℕ} (ht : t < n) (v : ℕ → α) (hx : x < 2 ^ n) : source s t v x < 2 ^ n := by
  unfold source
  split
  · exact partner_lt ht hx
  · exact hx

theorem exchange_perm {n : ℕ} (hs : s ≠ t) (ht : t < n) (v : ℕ → α) :
    ((List.range (2 ^ n)).map (exchange s t v)).Perm ((List.range (2 ^ n)).map v) := by
  rw [show exchange s t v = v ∘ source s t v from rfl, ← List.map_map]
  refine List.Perm.map v ((List.perm_ext_iff_of_nodup ?_ List.nodup_range).2 fun y => ?_)
  · exact List.nodup_range.map (Function.LeftInverse.injective (source_source hs v))
  · simp only [List.mem_map, List.mem_range]
    refine ⟨?_, fun hy => ⟨_, source_lt ht v hy, source_source hs v y⟩⟩
    rintro ⟨x, hx, rfl⟩
    exact source_lt ht v hx

theorem merge_perm {n : ℕ} (hsn : s ≤ n) (hts : t ≤ s) (v : ℕ → α) :
    ((List.range (2 ^ n)).map (merge s t v)).Perm ((List.range (2 ^ n)).map v) := by
  induction t generalizing v with
  | zero => exact List.Perm.refl _
  | succ t ih => exact (ih (by omega) _).trans (exchange_perm (by omega) (by omega) v)

theorem sort_perm_of_le {n m : ℕ} (h : m ≤ n) (v : ℕ → α) :
    ((List.range (2 ^ n)).map (sort m v)).Perm ((List.range (2 ^ n)).map v) := by
  induction m with
  | zero => exact List.Perm.refl _
  | succ m ih => exact (merge_perm h le_rfl _).trans (ih (by omega))

end Exchange

/-! ### Half-cleaners -/

/-- Among the first `m`, the sequence is `c` off one interval and `!c` on it. -/
def Bumped (m : ℕ) (u : ℕ → Bool) : Prop := ∃ lo hi c, ∀ r < m, u r = (c ^^ decide (lo ≤ r ∧ r < hi))

theorem Bumped.congr {m : ℕ} {u w : ℕ → Bool} (h : Bumped m u) (heq : ∀ r < m, w r = u r) : Bumped m w := by
  obtain ⟨lo, hi, c, hu⟩ := h
  exact ⟨lo, hi, c, fun r hr => (heq r hr).trans (hu r hr)⟩

theorem Bumped.not {m : ℕ} {u : ℕ → Bool} (h : Bumped m u) : Bumped m fun r => !u r := by
  obtain ⟨lo, hi, c, hu⟩ := h
  exact ⟨lo, hi, !c, fun r hr => by simp [hu r hr]⟩

/-- One interval, cleaned: folded over the middle it fills a half or leaves the other half empty. -/
theorem interval_clean {m lo hi : ℕ} {u : ℕ → Bool} (hu : ∀ r < 2 * m, u r = decide (lo ≤ r ∧ r < hi)) :
    Bumped m (fun r => u r || u (m + r)) ∧ Bumped m (fun r => u r && u (m + r)) ∧
      ((∀ r < m, (u r || u (m + r)) = true) ∨ ∀ r < m, (u r && u (m + r)) = false) := by
  have hor : ∀ r < m, (u r || u (m + r)) = decide ((lo ≤ r ∧ r < hi) ∨ (lo ≤ m + r ∧ m + r < hi)) :=
    fun r hr => by rw [hu r (by omega), hu (m + r) (by omega), Bool.decide_or]
  have hand : ∀ r < m, (u r && u (m + r)) = decide ((lo ≤ r ∧ r < hi) ∧ (lo ≤ m + r ∧ m + r < hi)) :=
    fun r hr => by
      rw [hu r (by omega), hu (m + r) (by omega)]
      exact (Bool.decide_and _ _).symm
  rcases le_or_gt hi m with hhi | hhi
  · refine ⟨⟨lo, hi, false, fun r hr => ?_⟩, ⟨0, 0, false, fun r hr => ?_⟩, .inr fun r hr => ?_⟩
    · exact (hor r hr).trans (by rw [Bool.false_xor]; exact decide_eq_decide.2 (by omega))
    · exact (hand r hr).trans (by rw [Bool.false_xor]; exact decide_eq_decide.2 (by omega))
    · exact (hand r hr).trans (decide_eq_false (by omega))
  rcases le_or_gt m lo with hlo | hlo
  · refine ⟨⟨lo - m, hi - m, false, fun r hr => ?_⟩, ⟨0, 0, false, fun r hr => ?_⟩, .inr fun r hr => ?_⟩
    · exact (hor r hr).trans (by rw [Bool.false_xor]; exact decide_eq_decide.2 (by omega))
    · exact (hand r hr).trans (by rw [Bool.false_xor]; exact decide_eq_decide.2 (by omega))
    · exact (hand r hr).trans (decide_eq_false (by omega))
  · -- the interval crosses the middle: what is folded back overlaps it, or leaves a gap
    refine ⟨⟨hi - m, lo, true, fun r hr => ?_⟩, ⟨lo, hi - m, false, fun r hr => ?_⟩, ?_⟩
    · refine (hor r hr).trans ?_
      rw [Bool.true_xor, ← decide_not]
      exact decide_eq_decide.2 (by omega)
    · exact (hand r hr).trans (by rw [Bool.false_xor]; exact decide_eq_decide.2 (by omega))
    · rcases le_or_gt lo (hi - m) with hover | hgap
      · exact .inl fun r hr => (hor r hr).trans (decide_eq_true (by omega))
      · exact .inr fun r hr => (hand r hr).trans (decide_eq_false (by omega))

theorem Bumped.clean {m : ℕ} {u : ℕ → Bool} (h : Bumped (2 * m) u) :
    Bumped m (fun r => u r || u (m + r)) ∧ Bumped m (fun r => u r && u (m + r)) ∧
      ((∀ r < m, (u r || u (m + r)) = true) ∨ ∀ r < m, (u r && u (m + r)) = false) := by
  obtain ⟨lo, hi, c, hu⟩ := h
  cases c with
  | false => exact interval_clean (by simpa using hu)
  | true =>
    obtain ⟨hor, hand, hclean⟩ := @interval_clean m lo hi (fun r => !u r) fun r hr => by simp [hu r hr]
    refine ⟨hand.not.congr fun r _ => by simp, hor.not.congr fun r _ => by simp, ?_⟩
    rcases hclean with hall | hall
    · exact .inr fun r hr => Bool.not_eq_eq_eq_not.1 ((Bool.not_and _ _).trans (hall r hr))
    · exact .inl fun r hr => Bool.not_eq_eq_eq_not.1 ((Bool.not_or _ _).trans (hall r hr))

/-- A falling sequence of booleans is true up to a cut. -/
theorem exists_cut {m : ℕ} {u : ℕ → Bool} (h : ∀ x y, x ≤ y → y < m → u y ≤ u x) :
    ∃ cut ≤ m, ∀ r < m, u r = decide (r < cut) := by
  induction m with
  | zero => exact ⟨0, le_rfl, by simp⟩
  | succ m ih =>
    obtain ⟨cut, hle, hcut⟩ := ih fun x y hxy hy => h x y hxy (by omega)
    cases hm : u m with
    | true =>
      refine ⟨m + 1, le_rfl, fun r hr => ?_⟩
      have := h r m (by omega) (by omega)
      rw [hm] at this
      rw [decide_eq_true hr]
      exact top_le_iff.1 this
    | false =>
      refine ⟨cut, by omega, fun r hr => ?_⟩
      rcases Nat.lt_succ_iff_lt_or_eq.1 hr with hlt | rfl
      · exact hcut r hlt
      · simp [hm, hle]

/-! ### Stages on booleans -/

/-- Every run of `2 ^ s` is sorted, upwards where bit `s` is set. -/
def Runs (s : ℕ) (v : ℕ → Bool) : Prop := ∀ x y, x / 2 ^ s = y / 2 ^ s → x ≤ y →
  if x.testBit s then v x ≤ v y else v y ≤ v x

/-- Half way through stage `s`: each block of `2 ^ t` rises and falls once, and the blocks of a run
are in order. -/
structure Merging (s t : ℕ) (v : ℕ → Bool) : Prop where
  bumped : ∀ q, Bumped (2 ^ t) fun r => v (2 ^ t * q + r)
  ordered : ∀ x y, x / 2 ^ s = y / 2 ^ s → x / 2 ^ t < y / 2 ^ t → if x.testBit s then v x ≤ v y else v y ≤ v x

variable {s t : ℕ} {v : ℕ → Bool}

/-- Bit `s` is the same over a block. -/
theorem testBit_eq_of_div_eq {b x y : ℕ} (hb : b ≤ s) (h : x / 2 ^ b = y / 2 ^ b) : x.testBit s = y.testBit s := by
  obtain ⟨d, rfl⟩ := Nat.exists_eq_add_of_le hb
  rw [Nat.add_comm, ← Nat.testBit_div_two_pow, ← Nat.testBit_div_two_pow, h]

theorem partner_lower {p r : ℕ} (hr : r < 2 ^ t) :
    (2 ^ t * (2 * p) + r) ^^^ 2 ^ t = 2 ^ t * (2 * p + 1) + r := by
  have hdiv : (2 ^ t * (2 * p) + r) / 2 ^ t = 2 * p := by
    rw [Nat.mul_add_div (Nat.two_pow_pos t), Nat.div_eq_of_lt hr, Nat.add_zero]
  have hmod : (2 ^ t * (2 * p) + r) % 2 ^ t = r := by
    rw [Nat.mul_add_mod, Nat.mod_eq_of_lt hr]
  rw [← Nat.div_add_mod ((2 ^ t * (2 * p) + r) ^^^ 2 ^ t) (2 ^ t), Nat.xor_div_two_pow, Nat.xor_mod_two_pow,
    hdiv, hmod, Nat.div_self (Nat.two_pow_pos t), Nat.mod_self, Nat.xor_zero,
    Nat.xor_one_of_even (even_two_mul p)]

theorem partner_upper {p r : ℕ} (hr : r < 2 ^ t) :
    (2 ^ t * (2 * p + 1) + r) ^^^ 2 ^ t = 2 ^ t * (2 * p) + r := by
  rw [← partner_lower hr, partner_partner]

theorem testBit_block {q r : ℕ} (hr : r < 2 ^ t) : (2 ^ t * q + r).testBit t = q.testBit 0 := by
  simp [Nat.testBit_two_pow_mul_add _ hr]

/-- The two halves of a block after its exchange. -/
theorem exchange_block (hts : t < s) (v : ℕ → Bool) {p r : ℕ} (hr : r < 2 ^ t) :
    let u := fun r => v (2 ^ (t + 1) * p + r)
    let up := (2 ^ (t + 1) * p).testBit s
    exchange s t v (2 ^ t * (2 * p) + r) = (if up then u r && u (2 ^ t + r) else u r || u (2 ^ t + r)) ∧
      exchange s t v (2 ^ t * (2 * p + 1) + r) = (if up then u r || u (2 ^ t + r) else u r && u (2 ^ t + r)) := by
  intro u up
  have hbase : 2 ^ (t + 1) * p = 2 ^ t * (2 * p) := by rw [Nat.pow_succ, Nat.mul_assoc]
  have hu : v (2 ^ t * (2 * p) + r) = u r := by rw [← hbase]
  have hu' : v (2 ^ t * (2 * p + 1) + r) = u (2 ^ t + r) := by
    simp only [u, hbase]
    congr 1
    ring
  have hup : ∀ q, q / 2 = p → (2 ^ t * q + r).testBit s = up := by
    intro q hq
    refine testBit_eq_of_div_eq (show t + 1 ≤ s from hts) ?_
    rw [Nat.mul_div_cancel_left _ (Nat.two_pow_pos _), Nat.pow_succ, ← Nat.div_div_eq_div_mul,
      Nat.mul_add_div (Nat.two_pow_pos t), Nat.div_eq_of_lt hr, Nat.add_zero, hq]
  rw [exchange_eq, exchange_eq, partner_lower hr, partner_upper hr, hu, hu', testBit_block hr, testBit_block hr,
    hup _ (by omega), hup _ (by omega)]
  cases up <;> simp [Bool.max_eq_or, Bool.min_eq_and, Bool.or_comm, Bool.and_comm]

theorem source_div {b : ℕ} (hb : t < b) (v : ℕ → Bool) (x : ℕ) : source s t v x / 2 ^ b = x / 2 ^ b := by
  unfold source
  split
  · rw [Nat.xor_div_two_pow, Nat.div_eq_of_lt (Nat.pow_lt_pow_right (by omega) hb), Nat.xor_zero]
  · rfl

theorem Merging.clean (h : Merging s (t + 1) v) (p : ℕ) :
    let u := fun r => v (2 ^ (t + 1) * p + r)
    Bumped (2 ^ t) (fun r => u r || u (2 ^ t + r)) ∧ Bumped (2 ^ t) (fun r => u r && u (2 ^ t + r)) ∧
      ((∀ r < 2 ^ t, (u r || u (2 ^ t + r)) = true) ∨ ∀ r < 2 ^ t, (u r && u (2 ^ t + r)) = false) := by
  have hbumped := h.bumped p
  exact Bumped.clean (by rw [← Nat.pow_succ']; exact hbumped)

theorem Merging.exchange (hts : t < s) (h : Merging s (t + 1) v) : Merging s t (exchange s t v) where
  bumped q := by
    obtain ⟨p, rfl | rfl⟩ := Nat.even_or_odd' q
    · obtain ⟨hor, hand, -⟩ := h.clean p
      cases hup : (2 ^ (t + 1) * p).testBit s with
      | false => exact hor.congr fun r hr => by simp [(exchange_block hts v hr).1, hup]
      | true => exact hand.congr fun r hr => by simp [(exchange_block hts v hr).1, hup]
    · obtain ⟨hor, hand, -⟩ := h.clean p
      cases hup : (2 ^ (t + 1) * p).testBit s with
      | false => exact hand.congr fun r hr => by simp [(exchange_block hts v hr).2, hup]
      | true => exact hor.congr fun r hr => by simp [(exchange_block hts v hr).2, hup]
  ordered x y hrun hlt := by
    rcases Nat.lt_or_ge (x / 2 ^ (t + 1)) (y / 2 ^ (t + 1)) with hblock | hblock
    · -- either value comes from its own block
      have hsource := h.ordered (source s t v x) (source s t v y)
        (by rw [source_div hts, source_div hts, hrun])
        (by rw [source_div (by omega), source_div (by omega)]; exact hblock)
      rwa [testBit_eq_of_div_eq le_rfl (source_div hts v x)] at hsource
    · -- in one block, `x` is in its lower half and `y` in its upper
      obtain ⟨p, hx, hy⟩ : ∃ p, x / 2 ^ t = 2 * p ∧ y / 2 ^ t = 2 * p + 1 := by
        rw [Nat.pow_succ, ← Nat.div_div_eq_div_mul, ← Nat.div_div_eq_div_mul] at hblock
        exact ⟨x / 2 ^ t / 2, by omega, by omega⟩
      have hxr := Nat.mod_lt x (Nat.two_pow_pos t)
      have hyr := Nat.mod_lt y (Nat.two_pow_pos t)
      have hbit : x.testBit s = (2 ^ (t + 1) * p).testBit s := by
        refine testBit_eq_of_div_eq (show t + 1 ≤ s from hts) ?_
        rw [Nat.mul_div_cancel_left _ (Nat.two_pow_pos _), Nat.pow_succ, ← Nat.div_div_eq_div_mul, hx]
        omega
      have hlower := (exchange_block (p := p) hts v hxr).1
      have hupper := (exchange_block (p := p) hts v hyr).2
      rw [← hx, Nat.div_add_mod] at hlower
      rw [← hy, Nat.div_add_mod] at hupper
      rw [hlower, hupper, hbit]
      obtain ⟨-, -, hclean⟩ := h.clean p
      split
      · rcases hclean with hall | hnone
        · rw [hall _ hyr]
          exact le_top
        · rw [hnone _ hxr]
          exact bot_le
      · rcases hclean with hall | hnone
        · rw [hall _ hxr]
          exact le_top
        · rw [hnone _ hyr]
          exact bot_le

theorem Merging.runs (h : Merging s 0 v) : Runs s v := by
  intro x y hrun hle
  rcases Nat.lt_or_eq_of_le hle with hlt | rfl
  · exact h.ordered x y hrun (by simpa using hlt)
  · split <;> exact le_rfl

theorem Runs.block (h : Runs s v) (q : ℕ) {x y : ℕ} (hxy : x ≤ y) (hy : y < 2 ^ s) :
    if q.testBit 0 then v (2 ^ s * q + x) ≤ v (2 ^ s * q + y) else v (2 ^ s * q + y) ≤ v (2 ^ s * q + x) := by
  have hpos := Nat.two_pow_pos s
  have hrun := h (2 ^ s * q + x) (2 ^ s * q + y)
    (by rw [Nat.mul_add_div hpos, Nat.mul_add_div hpos, Nat.div_eq_of_lt hy, Nat.div_eq_of_lt (by omega)])
    (by omega)
  rwa [testBit_block (by omega)] at hrun

theorem Runs.merging (h : Runs s v) : Merging (s + 1) (s + 1) v where
  bumped q := by
    -- a falling run followed by a rising one is false between their cuts
    have hbase : 2 ^ (s + 1) * q = 2 ^ s * (2 * q) := by rw [Nat.pow_succ, Nat.mul_assoc]
    have hupper : ∀ r, 2 ^ (s + 1) * q + (2 ^ s + r) = 2 ^ s * (2 * q + 1) + r := fun r => by
      rw [hbase]
      ring
    obtain ⟨cut₁, hle₁, hcut₁⟩ := @exists_cut (2 ^ s) (fun r => v (2 ^ s * (2 * q) + r)) fun x y hxy hy => by
      simpa using h.block (2 * q) hxy hy
    obtain ⟨cut₂, hle₂, hcut₂⟩ := @exists_cut (2 ^ s) (fun r => !v (2 ^ s * (2 * q + 1) + r)) fun x y hxy hy => by
      have := h.block (2 * q + 1) hxy hy
      simp only [Nat.testBit_zero] at this
      rw [if_pos (by simp)] at this
      exact compl_le_compl this
    refine ⟨cut₁, 2 ^ s + cut₂, true, fun r hr => ?_⟩
    dsimp only
    rcases Nat.lt_or_ge r (2 ^ s) with hlt | hge
    · rw [hbase]
      refine (hcut₁ r hlt).trans ?_
      rw [Bool.true_xor, ← decide_not]
      exact decide_eq_decide.2 (by omega)
    · obtain ⟨r, rfl⟩ := Nat.exists_eq_add_of_le hge
      have hlt : r < 2 ^ s := by omega
      have := congrArg Bool.not (hcut₂ r hlt)
      rw [Bool.not_not] at this
      rw [hupper, this, Bool.true_xor]
      exact congrArg Bool.not (decide_eq_decide.2 (by omega))
  ordered x y hrun hlt := absurd hlt (by rw [hrun]; exact lt_irrefl _)

theorem merge_runs (hts : t ≤ s) (h : Merging s t v) : Runs s (merge s t v) := by
  induction t generalizing v with
  | zero => exact h.runs
  | succ t ih => exact ih (by omega) (h.exchange (by omega))

theorem sort_runs (n : ℕ) (v : ℕ → Bool) : Runs n (sort n v) := by
  induction n with
  | zero =>
    intro x y hrun _
    obtain rfl : x = y := by simpa using hrun
    split <;> exact le_rfl
  | succ n ih => exact merge_runs le_rfl ih.merging

/-! ### Any order -/

/-- The network leaves any `2 ^ n` values in descending order. -/
theorem sort_antitone {α : Type*} [LinearOrder α] (n : ℕ) (v : ℕ → α) {x y : ℕ} (hxy : x ≤ y) (hy : y < 2 ^ n) :
    sort n v y ≤ sort n v x := by
  by_contra hlt
  rw [not_le] at hlt
  -- the threshold at the larger value is a boolean sequence the network leaves out of order
  have hmono : Monotone fun a => decide (sort n v y ≤ a) := fun a b hab => by
    simp only [Bool.le_iff_imp, decide_eq_true_eq]
    exact fun ha => ha.trans hab
  have hrun := sort_runs n ((fun a => decide (sort n v y ≤ a)) ∘ v) x y
    (by rw [Nat.div_eq_of_lt hy, Nat.div_eq_of_lt (by omega)]) hxy
  rw [sort_comp hmono, Nat.testBit_lt_two_pow (by omega)] at hrun
  simp [Bool.le_iff_imp, not_le.2 hlt] at hrun

theorem sort_perm {α : Type*} [LinearOrder α] (n : ℕ) (v : ℕ → α) :
    ((List.range (2 ^ n)).map (sort n v)).Perm ((List.range (2 ^ n)).map v) :=
  sort_perm_of_le le_rfl v

end Rola.Bitonic
