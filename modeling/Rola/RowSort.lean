import Mathlib.Tactic.NormNum
import Rola.BitonicSort

/-!
# The row sort

`csrc/rola/src/entmax/entmax.cuh`, `RowSort::sort`: the network a logical warp of `LW` lanes runs on
`IPT` keys a lane, its pairs within a lane exchanged in registers and those across lanes by shuffles.
A key's rank is its blocked index `lane * IPT + i`.
-/

namespace Rola.Entmax
open Bitonic

section Model

variable {α : Type*} [LinearOrder α]

/-- The registers of a logical warp: lane, then item. -/
abbrev Keys (α : Type*) := ℕ → ℕ → α

/-- `__shfl_xor_sync(mask, v, laneMask, LW)`: a lane past the segment answers with the caller's own. -/
def shflXor (LW : ℕ) (v : ℕ → α) (lane laneMask : ℕ) : α :=
  if lane ^^^ laneMask < LW then v (lane ^^^ laneMask) else v lane

/-- `for (k = 2; k <= N; k <<= 1)`. -/
def powersUpTo (N : ℕ) : List ℕ := (List.range N.log2).map fun s => 2 ^ (s + 1)

/-- `for (; j >= bound; j >>= 1)`. -/
def halvings (j bound : ℕ) : List ℕ := ((List.range (j.log2 + 1)).map (j >>> ·)).takeWhile (bound ≤ ·)

/-- Item `i` of every lane against the lane `j / IPT` away. -/
def shuffleItem (LW IPT k j : ℕ) (keys : Keys α) (i : ℕ) : Keys α := fun lane item =>
  if item = i then
    let base := lane * IPT
    let low : Bool := base &&& j = 0
    let desc : Bool := base &&& k = 0
    let other := shflXor LW (fun l => keys l i) lane (j / IPT)
    let swap := if low then desc == decide (keys lane i < other) else desc == decide (other < keys lane i)
    if swap then other else keys lane i
  else keys lane item

/-- Items `i` and `i | j` of every lane. -/
def registerItem (IPT k j : ℕ) (keys : Keys α) (i : ℕ) : Keys α := fun lane item =>
  if i &&& j ≠ 0 then keys lane item
  else
    let base := lane * IPT
    let p := i ||| j
    let desc : Bool := (base + i) &&& k = 0
    let swap := desc == decide (keys lane i < keys lane p)
    if item = i then if swap then keys lane p else keys lane i
    else if item = p then if swap then keys lane i else keys lane p
    else keys lane item

def shuffles (LW IPT k : ℕ) (keys : Keys α) (j : ℕ) : Keys α :=
  (List.range IPT).foldl (shuffleItem LW IPT k j) keys

def registers (IPT k : ℕ) (keys : Keys α) (j : ℕ) : Keys α :=
  (List.range IPT).foldl (registerItem IPT k j) keys

/-- One stage of the network. -/
def stage (LW IPT : ℕ) (keys : Keys α) (k : ℕ) : Keys α :=
  let shuffled := (halvings (k >>> 1) IPT).foldl (shuffles LW IPT k) keys
  (halvings (if k >>> 1 < IPT then k >>> 1 else IPT >>> 1) 1).foldl (registers IPT k) shuffled

/-- `RowSort::sort` where `kInRegisters`. -/
def RowSort.sort (LW IPT : ℕ) (keys : Keys α) : Keys α := (powersUpTo (LW * IPT)).foldl (stage LW IPT) keys

/-- The keys in the order of their blocked index. -/
def flat (IPT : ℕ) (keys : Keys α) (x : ℕ) : α := keys (x / IPT) (x % IPT)

end Model

example : (List.range 8).map (flat 2 (RowSort.sort 4 2 fun lane i => [3, 1, 4, 1, 5, 9, 2, 6].getD (lane * 2 + i) 0)) =
    [9, 6, 5, 4, 3, 2, 1, 1] := by decide

/-! ### Indices -/

variable {a b s t lane item : ℕ}

theorem blocked_testBit (hitem : item < 2 ^ b) :
    (2 ^ b * lane + item).testBit t = if t < b then item.testBit t else lane.testBit (t - b) :=
  Nat.testBit_two_pow_mul_add _ hitem t

theorem and_two_pow_eq_zero (x t : ℕ) : x &&& 2 ^ t = 0 ↔ x.testBit t = false := by
  rw [Nat.and_two_pow]
  cases x.testBit t <;> simp

theorem or_two_pow {x : ℕ} (h : x.testBit t = false) : x ||| 2 ^ t = x ^^^ 2 ^ t := by
  refine Nat.eq_of_testBit_eq fun u => ?_
  rw [Nat.testBit_or, Nat.testBit_xor, Nat.testBit_two_pow]
  rcases eq_or_ne t u with rfl | hne
  · simp [h]
  · simp [hne]

/-- `desc == (x < y)`. -/
theorem beq_decide_iff (c : Bool) (p : Prop) [Decidable p] :
    (decide (c = false) == decide p) = true ↔ (c = false ↔ p) := by
  by_cases h : p <;> cases c <;> simp [h]

/-- A pair across lanes is the same item `2 ^ (t - b)` lanes away. -/
theorem blocked_partner_lane (hitem : item < 2 ^ b) (hbt : b ≤ t) :
    (2 ^ b * lane + item) ^^^ 2 ^ t = 2 ^ b * (lane ^^^ 2 ^ (t - b)) + item := by
  rw [← Nat.div_add_mod ((2 ^ b * lane + item) ^^^ 2 ^ t) (2 ^ b), Nat.xor_div_two_pow, Nat.xor_mod_two_pow,
    Nat.mul_add_div (Nat.two_pow_pos b), Nat.div_eq_of_lt hitem, Nat.mul_add_mod, Nat.mod_eq_of_lt hitem,
    Nat.pow_div hbt (by omega), Nat.mod_eq_zero_of_dvd (Nat.pow_dvd_pow 2 hbt), Nat.xor_zero, Nat.add_zero]

/-- A pair within a lane. -/
theorem blocked_partner_item (hitem : item < 2 ^ b) (htb : t < b) :
    (2 ^ b * lane + item) ^^^ 2 ^ t = 2 ^ b * lane + (item ^^^ 2 ^ t) := by
  have hlt : 2 ^ t < 2 ^ b := Nat.pow_lt_pow_right (by omega) htb
  rw [← Nat.div_add_mod ((2 ^ b * lane + item) ^^^ 2 ^ t) (2 ^ b), Nat.xor_div_two_pow, Nat.xor_mod_two_pow,
    Nat.mul_add_div (Nat.two_pow_pos b), Nat.div_eq_of_lt hitem, Nat.mul_add_mod, Nat.mod_eq_of_lt hitem,
    Nat.div_eq_of_lt hlt, Nat.mod_eq_of_lt hlt, Nat.xor_zero, Nat.add_zero]

theorem flat_blocked {α : Type*} (keys : Keys α) (hitem : item < 2 ^ b) :
    flat (2 ^ b) keys (2 ^ b * lane + item) = keys lane item := by
  rw [flat, Nat.mul_add_div (Nat.two_pow_pos b), Nat.div_eq_of_lt hitem, Nat.mul_add_mod, Nat.mod_eq_of_lt hitem,
    Nat.add_zero]

/-! ### One distance -/

section Step

variable {α : Type*} [LinearOrder α] {keys : Keys α}

/-- Item `i` reads and writes only its own column. -/
theorem shuffleItem_congr {LW IPT k j i : ℕ} {keys keys' : Keys α} (h : ∀ lane, keys' lane i = keys lane i) (lane : ℕ) :
    shuffleItem LW IPT k j keys' i lane i = shuffleItem LW IPT k j keys i lane i := by
  simp only [shuffleItem, h]

theorem shuffles_apply (LW IPT k j n : ℕ) (keys : Keys α) (lane item : ℕ) :
    (List.range n).foldl (shuffleItem LW IPT k j) keys lane item =
      if item < n then shuffleItem LW IPT k j keys item lane item else keys lane item := by
  induction n generalizing lane item with
  | zero => simp
  | succ n ih =>
    rw [List.range_succ, List.foldl_append, List.foldl_cons, List.foldl_nil]
    by_cases hitem : item = n
    · subst hitem
      rw [if_pos (by omega)]
      exact shuffleItem_congr (fun l => by rw [ih, if_neg (by omega)]) lane
    · rw [shuffleItem, if_neg hitem, ih]
      simp only [show item < n + 1 ↔ item < n by omega]

/-- Across lanes, the items exchanged one by one are the exchange at that distance. -/
theorem shuffles_flat (hbt : b ≤ t) (hta : t < a + b) (hlane : lane < 2 ^ a) (hitem : item < 2 ^ b) (hts : t < s) :
    flat (2 ^ b) (shuffles (2 ^ a) (2 ^ b) (2 ^ s) keys (2 ^ t)) (2 ^ b * lane + item) =
      exchange s t (flat (2 ^ b) keys) (2 ^ b * lane + item) := by
  have hj : 2 ^ t / 2 ^ b = 2 ^ (t - b) := Nat.pow_div hbt (by omega)
  have hpartner : lane ^^^ 2 ^ (t - b) < 2 ^ a :=
    Nat.xor_lt_two_pow hlane (Nat.pow_lt_pow_right (by omega) (by omega))
  have hbit : ∀ u, b ≤ u → (lane * 2 ^ b).testBit u = (2 ^ b * lane + item).testBit u := fun u hu => by
    rw [blocked_testBit hitem, if_neg (by omega), Nat.testBit_mul_two_pow]
    simp [hu]
  rw [flat_blocked _ hitem, shuffles, shuffles_apply, if_pos hitem, shuffleItem, if_pos rfl]
  simp only [and_two_pow_eq_zero, hbit t hbt, hbit s (by omega), shflXor, hj, if_pos hpartner]
  cases ht : (2 ^ b * lane + item).testBit t with
  | false =>
    rw [exchange_low ht, blocked_partner_lane hitem hbt, flat_blocked _ hitem, flat_blocked _ hitem]
    simp only [decide_true, if_true, beq_decide_iff]
  | true =>
    rw [exchange_high ht, blocked_partner_lane hitem hbt, flat_blocked _ hitem, flat_blocked _ hitem]
    simp only [Bool.true_eq_false, decide_false, Bool.false_eq_true, if_false, beq_decide_iff]

/-- Within a lane, what the pairs below item `n` leave. -/
theorem registers_apply (htb : t < b) (hts : t < s) (n : ℕ) (hn : n ≤ 2 ^ b) (keys : Keys α) (hitem : item < 2 ^ b) :
    (List.range n).foldl (registerItem (2 ^ b) (2 ^ s) (2 ^ t)) keys lane item =
      if lower t item < n then exchange s t (flat (2 ^ b) keys) (2 ^ b * lane + item) else keys lane item := by
  induction n generalizing item with
  | zero => simp
  | succ n ih =>
    rw [List.range_succ, List.foldl_append, List.foldl_cons, List.foldl_nil, registerItem]
    have hnb : n < 2 ^ b := by omega
    have hlower := testBit_lower t item
    cases hbit : n.testBit t with
    | true =>
      -- not the lower item of a pair
      have hne : lower t item ≠ n := fun h => by rw [h, hbit] at hlower; cases hlower
      rw [if_pos (by rw [Ne, and_two_pow_eq_zero, hbit]; simp), ih (by omega) hitem]
      simp only [show lower t item < n + 1 ↔ lower t item < n by omega]
    | false =>
      have hp := partner_lt htb hnb
      have hor : n ||| 2 ^ t = n ^^^ 2 ^ t := or_two_pow hbit
      have hkn : (List.range n).foldl (registerItem (2 ^ b) (2 ^ s) (2 ^ t)) keys lane n = keys lane n := by
        rw [ih (by omega) hnb, if_neg (by rw [lower_of_testBit hbit]; omega)]
      have hkp : (List.range n).foldl (registerItem (2 ^ b) (2 ^ s) (2 ^ t)) keys lane (n ^^^ 2 ^ t) =
          keys lane (n ^^^ 2 ^ t) := by
        rw [ih (by omega) hp, if_neg (by rw [lower_partner hbit]; omega)]
      have hbn : (2 ^ b * lane + n).testBit t = false := by rw [blocked_testBit hnb, if_pos htb, hbit]
      have hbp : (2 ^ b * lane + (n ^^^ 2 ^ t)).testBit t = true := by
        rw [blocked_testBit hp, if_pos htb, testBit_partner_self, hbit, Bool.not_false]
      rw [if_neg (by rw [not_not, and_two_pow_eq_zero, hbit])]
      simp only [hor, hkn, hkp, and_two_pow_eq_zero, Nat.mul_comm lane (2 ^ b), beq_decide_iff]
      by_cases hn' : item = n
      · subst hn'
        have hlt : lower t item < item + 1 := by rw [lower_of_testBit hbit]; omega
        rw [exchange_low hbn, blocked_partner_item hnb htb, flat_blocked _ hp, flat_blocked _ hnb]
        simp only [if_pos hlt, if_true]
      · rw [if_neg hn']
        by_cases hp' : item = n ^^^ 2 ^ t
        · subst hp'
          have hlt : lower t (n ^^^ 2 ^ t) < n + 1 := by rw [lower_partner hbit]; omega
          have hdesc : (2 ^ b * lane + (n ^^^ 2 ^ t)).testBit s = (2 ^ b * lane + n).testBit s := by
            rw [← blocked_partner_item hnb htb, testBit_partner (by omega)]
          rw [exchange_high hbp, blocked_partner_item hp htb, flat_blocked _ hp, partner_partner,
            flat_blocked _ hnb, hdesc]
          simp only [if_pos hlt, if_true]
        · have hne : lower t item ≠ n := by
            rintro rfl
            exact (eq_lower_or t item).elim hn' hp'
          rw [if_neg hp', ih (by omega) hitem]
          simp only [show lower t item < n + 1 ↔ lower t item < n by omega]

theorem registers_flat (htb : t < b) (hts : t < s) (hitem : item < 2 ^ b) :
    flat (2 ^ b) (registers (2 ^ b) (2 ^ s) keys (2 ^ t)) (2 ^ b * lane + item) =
      exchange s t (flat (2 ^ b) keys) (2 ^ b * lane + item) := by
  have hlower : lower t item < 2 ^ b := by
    unfold lower
    split
    · exact partner_lt htb hitem
    · exact hitem
  rw [flat_blocked _ hitem, registers, registers_apply htb hts _ le_rfl _ hitem, if_pos hlower]

/-! ### A stage -/

theorem halvings_succ {m bound : ℕ} (h : bound ≤ 2 ^ (m + 1)) :
    halvings (2 ^ (m + 1)) bound = 2 ^ (m + 1) :: halvings (2 ^ m) bound := by
  unfold halvings
  rw [Nat.log2_two_pow, Nat.log2_two_pow, List.range_succ_eq_map, List.map_cons, List.map_map]
  rw [List.takeWhile_cons_of_pos (by simpa using h)]
  simp only [Nat.shiftRight_zero]
  congr 2
  refine List.map_congr_left fun d _ => ?_
  simp only [Function.comp, Nat.shiftRight_eq_div_pow, Nat.succ_eq_add_one]
  rw [Nat.pow_succ, Nat.pow_succ, Nat.mul_comm (2 ^ m), Nat.mul_comm (2 ^ d), Nat.mul_div_mul_left _ _ (by omega)]

theorem halvings_of_lt {m bound : ℕ} (h : 2 ^ m < bound) : halvings (2 ^ m) bound = [] := by
  unfold halvings
  rw [List.range_succ_eq_map, List.map_cons, List.takeWhile_cons_of_neg]
  simpa using h

theorem halvings_one : halvings 1 1 = [1] := by decide

/-- The loop over the distances from `2 ^ m` down to `2 ^ lo`, each step one exchange. -/
theorem foldl_halvings {f : Keys α → ℕ → Keys α} {lo m : ℕ} {v : ℕ → α}
    (hf : ∀ t, lo ≤ t → t ≤ m → ∀ keys, ∀ x < 2 ^ (a + b),
      flat (2 ^ b) (f keys (2 ^ t)) x = exchange s t (flat (2 ^ b) keys) x)
    (hlo : lo ≤ m + 1) (hm : m < a + b) (hkeys : ∀ x < 2 ^ (a + b), flat (2 ^ b) keys x = v x) :
    ∃ w, (∀ x < 2 ^ (a + b), flat (2 ^ b) ((halvings (2 ^ m) (2 ^ lo)).foldl f keys) x = w x) ∧
      merge s lo w = merge s (m + 1) v := by
  induction m generalizing keys v with
  | zero =>
    rcases Nat.eq_zero_or_pos lo with rfl | hpos
    · refine ⟨exchange s 0 v, fun x hx => ?_, rfl⟩
      rw [Nat.pow_zero, halvings_one, List.foldl_cons, List.foldl_nil]
      exact (hf 0 le_rfl le_rfl keys x hx).trans (exchange_congr hm hkeys hx)
    · obtain rfl : lo = 1 := by omega
      exact ⟨v, by rw [halvings_of_lt (by norm_num)]; exact hkeys, rfl⟩
  | succ m ih =>
    rcases Nat.lt_or_ge (m + 1) lo with hlt | hge
    · obtain rfl : lo = m + 2 := by omega
      exact ⟨v, by rw [halvings_of_lt (Nat.pow_lt_pow_right (by omega) hlt)]; exact hkeys, rfl⟩
    · rw [halvings_succ (Nat.pow_le_pow_right (by omega) hge), List.foldl_cons]
      exact ih (fun t hlo ht => hf t hlo (by omega)) (by omega) (by omega) fun x hx =>
        (hf (m + 1) hge le_rfl keys x hx).trans (exchange_congr hm hkeys hx)

theorem stage_flat {n : ℕ} (hn : n < a + b) {v : ℕ → α} (hkeys : ∀ x < 2 ^ (a + b), flat (2 ^ b) keys x = v x) :
    ∀ x < 2 ^ (a + b), flat (2 ^ b) (stage (2 ^ a) (2 ^ b) keys (2 ^ (n + 1))) x = merge (n + 1) (n + 1) v x := by
  have hsplit : ∀ x < 2 ^ (a + b), ∃ lane item, lane < 2 ^ a ∧ item < 2 ^ b ∧ 2 ^ b * lane + item = x :=
    fun x hx => ⟨x / 2 ^ b, x % 2 ^ b, Nat.div_lt_of_lt_mul (by rwa [Nat.mul_comm, ← Nat.pow_add]),
      Nat.mod_lt _ (Nat.two_pow_pos b), Nat.div_add_mod ..⟩
  have hshuffle : ∀ t, b ≤ t → t ≤ n → ∀ keys : Keys α, ∀ x < 2 ^ (a + b),
      flat (2 ^ b) (shuffles (2 ^ a) (2 ^ b) (2 ^ (n + 1)) keys (2 ^ t)) x =
        exchange (n + 1) t (flat (2 ^ b) keys) x := by
    intro t hbt htn keys x hx
    obtain ⟨lane, item, hlane, hitem, rfl⟩ := hsplit x hx
    exact shuffles_flat hbt (by omega) hlane hitem (by omega)
  have hregister : ∀ t, 0 ≤ t → t < b → t ≤ n → ∀ keys : Keys α, ∀ x < 2 ^ (a + b),
      flat (2 ^ b) (registers (2 ^ b) (2 ^ (n + 1)) keys (2 ^ t)) x =
        exchange (n + 1) t (flat (2 ^ b) keys) x := by
    intro t _ htb htn keys x hx
    obtain ⟨lane, item, -, hitem, rfl⟩ := hsplit x hx
    exact registers_flat htb (by omega) hitem
  have hhalf : 2 ^ (n + 1) >>> 1 = 2 ^ n := by
    rw [Nat.shiftRight_eq_div_pow, Nat.pow_succ]
    omega
  rw [stage, hhalf]
  rcases Nat.lt_or_ge n b with hnb | hbn
  · -- every pair lies within a lane
    have hlt : 2 ^ n < 2 ^ b := Nat.pow_lt_pow_right (by omega) hnb
    obtain ⟨w, hw, hmerge⟩ := foldl_halvings (fun t h0 ht => hregister t h0 (by omega) ht) (Nat.zero_le _) hn hkeys
    rw [halvings_of_lt hlt, List.foldl_nil, if_pos hlt, ← hmerge]
    exact hw
  · have hge : ¬ 2 ^ n < 2 ^ b := not_lt.2 (Nat.pow_le_pow_right (by omega) hbn)
    obtain ⟨w, hw, hmerge⟩ := foldl_halvings hshuffle (by omega) hn hkeys
    rw [if_neg hge, ← hmerge]
    rcases b with - | b
    · rw [show halvings (2 ^ 0 >>> 1) 1 = [] by decide, List.foldl_nil]
      exact hw
    · have hhalf' : 2 ^ (b + 1) >>> 1 = 2 ^ b := by
        rw [Nat.shiftRight_eq_div_pow, Nat.pow_succ]
        omega
      obtain ⟨w', hw', hmerge'⟩ := foldl_halvings (fun t h0 ht => hregister t h0 (by omega) (by omega))
        (Nat.zero_le _) (show b < a + (b + 1) by omega) hw
      rw [hhalf', ← hmerge']
      exact hw'

end Step

/-- `RowSort` leaves a logical warp's keys in descending order of their blocked index, the same keys
as it was given. -/
theorem RowSort.sort_sorts {α : Type*} [LinearOrder α] (a b : ℕ) (keys : Keys α) :
    (∀ x y, x ≤ y → y < 2 ^ a * 2 ^ b →
      flat (2 ^ b) (RowSort.sort (2 ^ a) (2 ^ b) keys) y ≤ flat (2 ^ b) (RowSort.sort (2 ^ a) (2 ^ b) keys) x) ∧
    ((List.range (2 ^ a * 2 ^ b)).map (flat (2 ^ b) (RowSort.sort (2 ^ a) (2 ^ b) keys))).Perm
      ((List.range (2 ^ a * 2 ^ b)).map (flat (2 ^ b) keys)) := by
  have hsort : ∀ n ≤ a + b, ∀ x < 2 ^ (a + b),
      flat (2 ^ b) ((((List.range n).map fun s => 2 ^ (s + 1))).foldl (stage (2 ^ a) (2 ^ b)) keys) x =
        Bitonic.sort n (flat (2 ^ b) keys) x := by
    intro n hn
    induction n with
    | zero => exact fun _ _ => rfl
    | succ n ih =>
      rw [List.range_succ, List.map_append, List.foldl_append]
      exact stage_flat (by omega) (ih (by omega))
  have hwhole : ∀ x < 2 ^ (a + b), flat (2 ^ b) (RowSort.sort (2 ^ a) (2 ^ b) keys) x =
      Bitonic.sort (a + b) (flat (2 ^ b) keys) x := by
    rw [RowSort.sort, powersUpTo, ← Nat.pow_add, Nat.log2_two_pow]
    exact hsort (a + b) le_rfl
  rw [← Nat.pow_add]
  refine ⟨fun x y hxy hy => ?_, ?_⟩
  · rw [hwhole y hy, hwhole x (by omega)]
    exact sort_antitone (a + b) _ hxy hy
  · rw [List.map_congr_left fun x hx => hwhole x (List.mem_range.1 hx)]
    exact sort_perm (a + b) _

end Rola.Entmax
