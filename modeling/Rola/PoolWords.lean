import Mathlib.Algebra.BigOperators.Intervals
import Mathlib.Data.Nat.Count
import Mathlib.Data.Nat.Find
import Mathlib.Data.List.Sort
import Mathlib.Tactic.Ring

/-!
# The fold's words and ranks

`csrc/rola/src/carry/carry_kernel.cuh`, the write side of `head`: a window is sixteen rounds of
thirty-two tokens; a warp's word of a round names the tokens live in a box the warp owns, the union
word those live in any, and `prefix` counts the union's tokens before a round. A live token's rank
is the number of live tokens before it.
-/

namespace Rola

/-- `kWindow`. -/
def window : ℕ := 512

/-- `kRounds`. -/
def rounds : ℕ := 16

/-- `len_of`. -/
def lenOf (L win : ℕ) : ℕ := min (L - win * window) window

theorem lenOf_le (L win : ℕ) : lenOf L win ≤ window := min_le_right _ _

/-- `__popc`. -/
def popc (u : BitVec 32) : ℕ := Nat.count (fun i => u.getLsbD i) 32

/-- `(1u << t) - 1u`. -/
def below (t : ℕ) : BitVec 32 := (1#32 <<< t) - 1#32

theorem below_getLsbD {t : ℕ} (ht : t < 32) (i : ℕ) : (below t).getLsbD i = decide (i < t) := by
  have h : below t = BitVec.ofNat 32 (2 ^ t - 1) := by
    apply BitVec.eq_of_toNat_eq
    have h1 : 2 ^ t < 4294967296 := by
      calc 2 ^ t < 2 ^ 32 := Nat.pow_lt_pow_right (by norm_num) ht
        _ = 4294967296 := by norm_num
    have h2 := Nat.one_le_two_pow (n := t)
    rw [below, BitVec.toNat_sub_of_le]
    · simp only [BitVec.toNat_shiftLeft, BitVec.toNat_ofNat, Nat.shiftLeft_eq]
      rw [Nat.mod_eq_of_lt (by omega : 2 ^ t - 1 < 2 ^ 32)]
      simp [Nat.mod_eq_of_lt h1]
    · rw [BitVec.le_def]
      simp only [BitVec.toNat_shiftLeft, BitVec.toNat_ofNat, Nat.shiftLeft_eq]
      simpa [Nat.mod_eq_of_lt h1] using h2
  rw [h, BitVec.getLsbD_ofNat, Nat.testBit_two_pow_sub_one]
  by_cases hi : i < t
  · simp [hi, hi.trans ht]
  · simp [hi]

theorem count_congr {p q : ℕ → Prop} [DecidablePred p] [DecidablePred q] {n : ℕ}
    (h : ∀ i < n, p i ↔ q i) : Nat.count p n = Nat.count q n := by
  induction n with
  | zero => simp
  | succ n ih =>
    rw [Nat.count_succ, Nat.count_succ, ih fun i hi => h i (by omega)]
    simp only [h n (by omega)]

theorem count_lt_false (p : ℕ → Prop) [DecidablePred p] {t n : ℕ} (h : t ≤ n) :
    Nat.count (fun i => p i ∧ i < t) n = Nat.count p t := by
  obtain ⟨k, rfl⟩ := Nat.exists_eq_add_of_le h
  have hlow : Nat.count (fun i => p i ∧ i < t) t = Nat.count p t := by
    apply count_congr
    intro i hi
    simp [hi]
  have hhigh : Nat.count (fun i => p (t + i) ∧ t + i < t) k = Nat.count (fun _ => False) k := by
    apply count_congr
    intro i _
    simp
  rw [Nat.count_add, hlow, hhigh]
  simp

/-- The live lanes below `t`. -/
theorem popc_below (u : BitVec 32) {t : ℕ} (ht : t < 32) :
    popc (u &&& below t) = Nat.count (fun i => u.getLsbD i) t := by
  rw [popc, ← count_lt_false (fun i => u.getLsbD i = true) ht.le]
  exact count_congr fun i _ => by simp [below_getLsbD ht]

/-! ### The words -/

/-- What the pool's code reads of the box plan, with what the plan asserts of it. -/
structure PoolPlan where
  warps : ℕ
  dealt : ℕ
  poolTok : ℕ
  warps_shape : warps = 8 ∨ warps = 4
  fills : rounds ≤ 2 * warps
  poolTok_pos : 32 ≤ poolTok
  poolTok_lt : poolTok < 255

/-- A window's write side: its length and the box words of each round. -/
structure WriteWords where
  len : ℕ
  box : ℕ → ℕ → BitVec 32

namespace WriteWords
variable (P : PoolPlan) (W : WriteWords)

/-- `inmask`: the window's tokens of round `rho`. -/
def inmask (rho : ℕ) : BitVec 32 :=
  if 32 ≤ W.len - rho * 32 then 0xFFFFFFFF#32
  else if W.len - rho * 32 = 0 then 0#32 else below (W.len - rho * 32)

/-- `ww`: the boxes dealt to a warp, or-ed. -/
def warpWord (v rho : ℕ) : BitVec 32 :=
  (List.range P.dealt).foldl (fun ww i => ww ||| W.box (v + i * P.warps) rho) 0#32 &&& W.inmask rho

/-- `u`. -/
def unionWord (rho : ℕ) : BitVec 32 :=
  (List.range P.warps).foldl (fun u v => u ||| W.warpWord P v rho) 0#32

/-- `prefix`: the union's tokens before a round. -/
def prefixAt (r : ℕ) : ℕ := ∑ rho ∈ Finset.range r, popc (W.unionWord P rho)

/-- `live_count()[kWrite]`. -/
def live : ℕ := W.prefixAt P rounds

/-- `chunks`: the live tokens by the pool's rows. -/
def chunks : ℕ := (W.live P + P.poolTok - 1) / P.poolTok

/-- Token `t` of the window is live in a box of warp `v`. -/
def LiveAt (v t : ℕ) : Prop := (W.warpWord P v (t / 32)).getLsbD (t % 32) = true

/-- Token `t` is live in the union. -/
def Live (t : ℕ) : Prop := (W.unionWord P (t / 32)).getLsbD (t % 32) = true

instance (v : ℕ) : DecidablePred (W.LiveAt P v) := fun _ => inferInstanceAs (Decidable (_ = _))

instance : DecidablePred (W.Live P) := fun _ => inferInstanceAs (Decidable (_ = _))

def rank (t : ℕ) : ℕ := Nat.count (W.Live P) t

theorem foldl_or_getLsbD (f : ℕ → BitVec 32) (l : List ℕ) (u : BitVec 32) (i : ℕ) :
    (l.foldl (fun u v => u ||| f v) u).getLsbD i = true ↔
      u.getLsbD i = true ∨ ∃ v ∈ l, (f v).getLsbD i = true := by
  induction l generalizing u with
  | nil => simp
  | cons v l ih => simp [ih, or_assoc]

theorem live_iff (t : ℕ) : W.Live P t ↔ ∃ v < P.warps, W.LiveAt P v t := by
  simp [Live, LiveAt, unionWord, foldl_or_getLsbD]

theorem inmask_getLsbD {t : ℕ} : (W.inmask (t / 32)).getLsbD (t % 32) = true ↔ t < W.len := by
  have hlt : t % 32 < 32 := Nat.mod_lt _ (by norm_num)
  unfold inmask
  split_ifs with h1 h2
  · have hones : (0xFFFFFFFF#32).getLsbD (t % 32) = true := by
      rw [show (0xFFFFFFFF#32) = BitVec.allOnes 32 from rfl, BitVec.getLsbD_allOnes]
      simpa using hlt
    simp only [hones, true_iff]
    omega
  · simp only [BitVec.getLsbD_zero, Bool.false_eq_true, false_iff]
    omega
  · rw [below_getLsbD (by omega), decide_eq_true_iff]
    omega

theorem liveAt_iff (v t : ℕ) : W.LiveAt P v t ↔
    (∃ i < P.dealt, (W.box (v + i * P.warps) (t / 32)).getLsbD (t % 32) = true) ∧ t < W.len := by
  simp only [LiveAt, warpWord, BitVec.getLsbD_and, Bool.and_eq_true, foldl_or_getLsbD,
    inmask_getLsbD]
  simp

theorem LiveAt.live {v t : ℕ} (hv : v < P.warps) (h : W.LiveAt P v t) : W.Live P t :=
  (W.live_iff P t).2 ⟨v, hv, h⟩

theorem Live.lt {t : ℕ} (h : W.Live P t) : t < W.len := by
  obtain ⟨v, -, hv⟩ := (W.live_iff P t).1 h
  exact ((W.liveAt_iff P v t).1 hv).2

/-! ### Ranks -/

theorem count_round (r : ℕ) {k : ℕ} (hk : k ≤ 32) :
    Nat.count (fun i => W.Live P (32 * r + i)) k =
      Nat.count (fun i => (W.unionWord P r).getLsbD i) k :=
  count_congr fun i hi => by
    rw [Live, show (32 * r + i) / 32 = r by omega, show (32 * r + i) % 32 = i by omega]

theorem prefixAt_eq (r : ℕ) : W.prefixAt P r = W.rank P (32 * r) := by
  induction r with
  | zero => simp [WriteWords.prefixAt, rank]
  | succ r ih =>
    rw [WriteWords.prefixAt, Finset.sum_range_succ, ← WriteWords.prefixAt, ih, rank, rank,
      show 32 * (r + 1) = 32 * r + 32 by ring, Nat.count_add, count_round P W r le_rfl]
    rfl

/-- A lane's rank, as both the fill and the walk compute it. -/
theorem rank_eq (r : ℕ) {t : ℕ} (ht : t < 32) :
    W.prefixAt P r + popc (W.unionWord P r &&& below t) = W.rank P (32 * r + t) := by
  rw [prefixAt_eq, rank, rank, Nat.count_add, popc_below _ ht, count_round P W r ht.le]

theorem rank_mono {s t : ℕ} (h : s ≤ t) : W.rank P s ≤ W.rank P t := Nat.count_monotone _ h

theorem rank_lt {s t : ℕ} (hs : W.Live P s) (h : s < t) : W.rank P s < W.rank P t :=
  Nat.count_strict_mono hs h

theorem rank_inj {s t : ℕ} (hs : W.Live P s) (ht : W.Live P t) (h : W.rank P s = W.rank P t) :
    s = t :=
  Nat.count_injective hs ht h

theorem rank_lt_live {t : ℕ} (ht : W.Live P t) (hlen : W.len ≤ window) :
    W.rank P t < W.live P := by
  rw [live, prefixAt_eq]
  apply W.rank_lt P ht
  have h := Live.lt P W ht
  simp only [window, rounds] at *
  omega

/-- The chunk a rank falls in. -/
theorem chunk_lt {t : ℕ} (ht : W.Live P t) (hlen : W.len ≤ window) :
    W.rank P t / P.poolTok < W.chunks P := by
  have h := W.rank_lt_live P ht hlen
  have hpos := P.poolTok_pos
  rw [chunks, Nat.div_lt_iff_lt_mul (by omega), Nat.lt_iff_add_one_le]
  have h1 := Nat.div_add_mod (W.live P + P.poolTok - 1) P.poolTok
  have h2 := Nat.mod_lt (W.live P + P.poolTok - 1) (show P.poolTok > 0 by omega)
  rw [mul_comm] at h1
  omega

end WriteWords

end Rola
