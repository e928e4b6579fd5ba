import Rola.CarryCall
import Rola.PoolFill

/-!
# Which gain a token's fold uses

The fill aligns a token's gain pair on the plane's row `bh * L + t` and the walk picks the half by
`t` alone. In an even batch-head, or at an even `L`, the two agree; in an odd batch-head at an odd
`L` the walk takes the neighbour's gain, and the plane's last row, when its index is even, is staged
with the two bytes past the plane's end.
-/

namespace Rola

/-- The write side's box words of every CTA: by owner, batch-head, window, box and round. -/
abbrev Support := ℕ → ℕ → ℕ → ℕ → ℕ → BitVec 32

namespace CarryCall
variable (c : CarryCall) (P : PoolPlan) (S : Support)

/-- `nWindows`. -/
def windows : ℕ := (c.L + window - 1) / window

/-- `rowbase`. -/
def rowbase (bh win : ℕ) : ℕ := (bh * c.L + win * window) % 2 ^ 32

def writeWords (owner bh win : ℕ) : WriteWords := ⟨lenOf c.L win, S owner bh win⟩

/-- Token `t` of the batch-head is live in a box of the owner. -/
def TokenLive (owner bh t : ℕ) : Prop :=
  (c.writeWords S owner bh (t / window)).Live P (t % window)

/-- Each warp of each CTA folds, over each window, its live tokens once each with their own gains,
whatever the plane and its surroundings hold; and the fill reads inside the plane. -/
structure OwnGains : Prop where
  folds : ∀ mem : ℕ → BitVec 16, ∀ owner < c.g.owners, ∀ bh < c.BH, ∀ win < c.windows,
    ∀ warp < P.warps, ∀ pools : ℕ → ℕ → BitVec 32,
      (∀ k < (c.writeWords S owner bh win).chunks P,
        (c.writeWords S owner bh win).Landed P mem (c.rowbase bh win) k (pools k)) →
      (c.writeWords S owner bh win).folded P warp pools =
        ((List.range (lenOf c.L win)).filter
          fun t => (c.writeWords S owner bh win).LiveAt P warp t).map
          fun t => (t, mem (bh * c.L + (win * window + t)))
  reads : ∀ owner < c.g.owners, ∀ bh < c.BH, ∀ win < c.windows,
    ∀ k < (c.writeWords S owner bh win).chunks P,
      ∀ copy ∈ (c.writeWords S owner bh win).chunkCopies P (c.rowbase bh win) k,
        copy.live = true → copy.src + 4 ≤ 2 * (c.BH * c.L)

/-- No live token's row is out of step with its position, and the last row's pair is whole. -/
def GainsPaired : Prop :=
  c.L % 2 = 0 ∨
    ((∀ owner < c.g.owners, ∀ bh < c.BH, bh % 2 = 1 → ∀ t < c.L, ¬ c.TokenLive P S owner bh t) ∧
      (c.BH % 2 = 1 → ∀ owner < c.g.owners, ¬ c.TokenLive P S owner (c.BH - 1) (c.L - 1)))

end CarryCall

namespace CarryCall
variable {c : CarryCall} {P : PoolPlan} {S : Support}

theorem lenOf_token {win t : ℕ} (ht : t < lenOf c.L win) : win * window + t < c.L := by
  have h : t < c.L - win * window := ht.trans_le (min_le_left _ _)
  omega

theorem window_lt {win : ℕ} (hwin : win < c.windows) : win * window < c.L := by
  rw [windows, Nat.lt_iff_add_one_le, Nat.le_div_iff_mul_le (by simp [window])] at hwin
  simp only [window] at *
  omega

theorem div_window_lt {t : ℕ} (ht : t < c.L) : t / window < c.windows := by
  rw [windows, Nat.div_lt_iff_lt_mul (by simp [window])]
  have h := Nat.div_add_mod (c.L + window - 1) window
  have h1 := Nat.mod_lt (c.L + window - 1) (show window > 0 by simp [window])
  simp only [window] at *
  omega

/-- Tokens of a window are the call's tokens of the same remainder. -/
theorem tokenLive_iff {owner bh win t : ℕ} (ht : t < window) :
    c.TokenLive P S owner bh (win * window + t) ↔ (c.writeWords S owner bh win).Live P t := by
  rw [TokenLive, show (win * window + t) / window = win by
      rw [mul_comm, Nat.mul_add_div (by simp [window]), Nat.div_eq_of_lt ht, Nat.add_zero],
    show (win * window + t) % window = t by rw [mul_comm, Nat.mul_add_mod, Nat.mod_eq_of_lt ht]]

/-- A row is in step with its position exactly in an even batch-head or at an even length. -/
theorem row_parity (bh t : ℕ) :
    (bh * c.L + t) / 2 * 2 + t % 2 = bh * c.L + t ↔ c.L % 2 = 0 ∨ bh % 2 = 0 := by
  have h : (bh * c.L) % 2 = bh % 2 * (c.L % 2) % 2 := Nat.mul_mod _ _ _
  generalize bh * c.L = x at h ⊢
  rcases Nat.mod_two_eq_zero_or_one c.L with hL | hL <;>
    rcases Nat.mod_two_eq_zero_or_one bh with hbh | hbh <;>
    rw [hL, hbh] at h ⊢ <;> omega

section Admitted
variable (hplane : c.BH * c.L < 2 ^ 26)
include hplane

theorem rowbase_eq {bh win : ℕ} (hbh : bh < c.BH) (hwin : win < c.windows) :
    c.rowbase bh win = bh * c.L + win * window := by
  have h := row_lt hbh (window_lt hwin)
  rw [rowbase, Nat.mod_eq_of_lt]
  omega

theorem rowbase_len {bh win : ℕ} (hbh : bh < c.BH) (hwin : win < c.windows) :
    c.rowbase bh win + lenOf c.L win ≤ 2 ^ 26 := by
  have h1 : lenOf c.L win ≤ c.L - win * window := min_le_left _ _
  have h2 := window_lt hwin
  have h3 := row_lt hbh (show c.L - 1 < c.L by omega)
  rw [rowbase_eq hplane hbh hwin]
  omega

theorem gainPair_eq {bh win t : ℕ} (hbh : bh < c.BH) (hwin : win < c.windows)
    (ht : t < lenOf c.L win) : gainPair ((c.rowbase bh win + t) % 2 ^ 32) =
      (bh * c.L + (win * window + t)) / 2 * 2 * 2 := by
  have h := row_lt hbh (lenOf_token ht)
  rw [rowbase_eq hplane hbh hwin, gainPair, Nat.mod_eq_of_lt (by omega), Nat.mod_eq_of_lt (by omega),
    Nat.add_assoc]

/-- What a window's fold selects, by plane row. -/
theorem folded_rows {mem : ℕ → BitVec 16} {owner bh win warp : ℕ} {pools : ℕ → ℕ → BitVec 32}
    (hbh : bh < c.BH) (hwin : win < c.windows) (hwarp : warp < P.warps)
    (hpools : ∀ k < (c.writeWords S owner bh win).chunks P,
      (c.writeWords S owner bh win).Landed P mem (c.rowbase bh win) k (pools k)) :
    (c.writeWords S owner bh win).folded P warp pools =
      ((List.range (lenOf c.L win)).filter
        fun t => (c.writeWords S owner bh win).LiveAt P warp t).map fun t => (t,
          mem ((bh * c.L + (win * window + t)) / 2 * 2 + (win * window + t) % 2)) := by
  rw [WriteWords.folded_eq (lenOf_le _ _) hwarp (rowbase_len hplane hbh hwin) hpools]
  apply List.map_congr_left
  intro t _
  rw [WriteWords.selected, rowbase_eq hplane hbh hwin, Nat.add_assoc,
    show (win * window + t) % 2 = t % 2 by simp only [window]; omega]

/-- A live token in an odd batch-head at an odd length takes another row's gain. -/
theorem OwnGains.even_row (h : c.OwnGains P S) {owner bh t : ℕ} (howner : owner < c.g.owners)
    (hbh : bh < c.BH) (ht : t < c.L) (hlive : c.TokenLive P S owner bh t) :
    (bh * c.L + t) / 2 * 2 + t % 2 = bh * c.L + t := by
  have hwin := div_window_lt ht
  have hrem : t % window < window := Nat.mod_lt _ (by simp [window])
  have heq : t / window * window + t % window = t := by rw [mul_comm, Nat.div_add_mod]
  obtain ⟨warp, hwarp, hat⟩ := (WriteWords.live_iff P _ _).1 hlive
  have hlen : t % window < lenOf c.L (t / window) := WriteWords.Live.lt P _ hlive
  -- a plane that differs at this row only
  let mem : ℕ → BitVec 16 := fun i => if i = bh * c.L + t then 1#16 else 0#16
  let W := c.writeWords S owner bh (t / window)
  let pools : ℕ → ℕ → BitVec 32 := fun k =>
    (W.chunkCopies P (c.rowbase bh (t / window)) k).foldl (stage mem) fun _ => 0#32
  have hpools : ∀ k < W.chunks P, W.Landed P mem (c.rowbase bh (t / window)) k (pools k) :=
    fun k _ => ⟨fun _ => 0#32, _, .refl _, rfl⟩
  have hfold := h.folds mem owner howner bh hbh _ hwin warp hwarp pools hpools
  rw [folded_rows hplane hbh hwin hwarp hpools, List.map_inj_left] at hfold
  have hgain := hfold (t % window)
    (List.mem_filter.2 ⟨List.mem_range.2 hlen, decide_eq_true hat⟩)
  rw [Prod.mk.injEq, heq] at hgain
  by_contra hne
  have hne' := hgain.2
  simp only [mem, if_neg hne, if_true] at hne'
  exact absurd hne' (by decide)

/-- The last row's pair is whole when its token is live. -/
theorem OwnGains.last_row (h : c.OwnGains P S) {owner : ℕ} (howner : owner < c.g.owners)
    (hBH : 0 < c.BH) (hL : 0 < c.L) (hlive : c.TokenLive P S owner (c.BH - 1) (c.L - 1)) :
    c.BH * c.L % 2 = 0 := by
  have hbh : c.BH - 1 < c.BH := by omega
  have ht : c.L - 1 < c.L := by omega
  have hwin := div_window_lt ht
  have heq : (c.L - 1) / window * window + (c.L - 1) % window = c.L - 1 := by
    rw [mul_comm, Nat.div_add_mod]
  have hlen := WriteWords.Live.lt P _ hlive
  have hchunk := WriteWords.chunk_lt P _ hlive (lenOf_le _ _)
  have hin := WriteWords.rankIn_div (P := P) (W := c.writeWords S owner (c.BH - 1) ((c.L - 1) / window))
    ((c.L - 1) % window)
  have hread := h.reads owner howner _ hbh _ hwin _ hchunk _
    (WriteWords.live_copy (lenOf_le _ _) hlive hin) rfl
  rw [gainPair_eq hplane hbh hwin hlen, heq] at hread
  simp only at hread
  have hrow : (c.BH - 1) * c.L + (c.L - 1) + 1 = c.BH * c.L := by
    obtain ⟨n, hn⟩ := Nat.exists_eq_succ_of_ne_zero hBH.ne'
    rw [hn, Nat.succ_sub_one, Nat.succ_mul]
    omega
  omega

/-- Rows in step and a whole last pair are enough. -/
theorem GainsPaired.ownGains (h : c.GainsPaired P S) : c.OwnGains P S := by
  -- a live token's row is in step, and when its index is even it is not the plane's last
  have hstep : ∀ owner < c.g.owners, ∀ bh < c.BH, ∀ win t, t < lenOf c.L win →
      (c.writeWords S owner bh win).Live P t → c.L % 2 = 0 ∨ bh % 2 = 0 := by
    intro owner howner bh hbh win t ht hlive
    rcases h with hL | ⟨hodd, -⟩
    · exact .inl hL
    · right
      by_contra hne
      exact hodd owner howner bh hbh (by omega) _ (lenOf_token ht)
        ((tokenLive_iff (ht.trans_le (lenOf_le _ _))).2 hlive)
  refine ⟨?_, ?_⟩
  · intro mem owner howner bh hbh win hwin warp hwarp pools hpools
    rw [folded_rows hplane hbh hwin hwarp hpools]
    apply List.map_congr_left
    intro t ht
    obtain ⟨hlen, hat⟩ := List.mem_filter.1 ht
    have hlive := WriteWords.LiveAt.live P _ hwarp (of_decide_eq_true hat)
    rw [(row_parity bh _).2 (hstep owner howner bh hbh win t (List.mem_range.1 hlen) hlive)]
  · intro owner howner bh hbh win hwin k _ copy hcopy hlive
    obtain ⟨t, ht, hsrc⟩ := WriteWords.mem_live_copy hcopy hlive
    have hlen : t < lenOf c.L win := WriteWords.Live.lt P _ ht
    have htok := lenOf_token hlen
    have hrow := row_lt hbh htok
    rw [hsrc, gainPair_eq hplane hbh hwin hlen]
    rcases h with hL | ⟨-, hlast⟩
    · have heven : c.BH * c.L % 2 = 0 := by rw [Nat.mul_mod, hL]; simp
      omega
    · by_cases hend : bh * c.L + (win * window + t) + 1 = c.BH * c.L
      · -- the last row: at an odd plane its token is dead
        have hbh' : bh = c.BH - 1 := by
          by_contra hne
          have hlt := row_lt (show bh + 1 < c.BH by omega) htok
          rw [Nat.succ_mul] at hlt
          omega
        have ht' : win * window + t = c.L - 1 := by
          have hmul : c.BH * c.L = (c.BH - 1) * c.L + c.L := by
            rw [← Nat.succ_mul, Nat.succ_eq_add_one, Nat.sub_add_cancel (by omega)]
          rw [hbh'] at hend
          omega
        by_cases hBH : c.BH % 2 = 1
        · refine absurd ?_ (hlast hBH owner howner)
          rw [← hbh', ← ht']
          exact (tokenLive_iff (hlen.trans_le (lenOf_le _ _))).2 ht
        · have heven : c.BH * c.L % 2 = 0 := by
            rw [Nat.mul_mod, show c.BH % 2 = 0 by omega]
            simp
          omega
      · omega

theorem ownGains_iff_paired : c.OwnGains P S ↔ c.GainsPaired P S := by
  constructor
  · intro h
    by_cases hL : c.L % 2 = 0
    · exact .inl hL
    · right
      constructor
      · intro owner howner bh hbh hodd t ht hlive
        have hpar := (row_parity bh t).1 (h.even_row hplane howner hbh ht hlive)
        omega
      · intro hBH owner howner hlive
        have heven := h.last_row hplane howner (by omega) (by omega) hlive
        rw [Nat.mul_mod, hBH, show c.L % 2 = 1 by omega] at heven
        exact absurd heven (by decide)
  · exact GainsPaired.ownGains hplane

end Admitted

end CarryCall

/-- For an admitted call, every token's fold uses its own gain and nothing outside the plane is read
exactly when no live token's row is out of step with its position and the last row's pair is whole. -/
theorem CarryOperands.ownGains_iff {a : CarryOperands} {c : CarryCall} (h : deriveCarryCall a = .ok c)
    (P : PoolPlan) (S : Support) : c.OwnGains P S ↔ c.GainsPaired P S := by
  have hadm := deriveCarryCall_ok h
  apply CarryCall.ownGains_iff_paired
  rw [hadm.BH_eq, hadm.L_eq]
  exact hadm.rows_lt

/-- A plan of eight warps by two boxes, every box live throughout. -/
def fullPlan : PoolPlan := ⟨8, 2, 32, .inl rfl, by decide, by decide, by decide⟩

def allLive : Support := fun _ _ _ _ _ => 0xFFFFFFFF#32

/-- Two batch-heads of two tokens. -/
theorem ownGains_iff_even : ∃ c, deriveCarryCall (.ofShape 2 2 [16, 16] 64 none false) = .ok c ∧
    c.OwnGains fullPlan allLive := by
  obtain ⟨c, hc, -⟩ : ∃ c, deriveCarryCall (.ofShape 2 2 [16, 16] 64 none false) = .ok c ∧ True :=
    exists_ok_of_ok (by decide +kernel)
  refine ⟨c, hc, (CarryOperands.ownGains_iff hc fullPlan allLive).2 (.inl ?_)⟩
  rw [(deriveCarryCall_ok hc).L_eq]
  rfl

/-- Two batch-heads of one token: the second's gain is the first's. -/
theorem odd_head_takes_neighbour :
    ∃ c, deriveCarryCall (.ofShape 2 1 [16, 16] 64 none false) = .ok c ∧
      ¬ c.OwnGains fullPlan allLive := by
  obtain ⟨c, hc, howners⟩ : ∃ c, deriveCarryCall (.ofShape 2 1 [16, 16] 64 none false) = .ok c ∧
      c.g.owners = 1 := exists_ok_of_ok (by decide +kernel)
  have hadm := deriveCarryCall_ok hc
  have hL : c.L = 1 := hadm.L_eq
  have hBH : c.BH = 2 := hadm.BH_eq
  refine ⟨c, hc, fun h => ?_⟩
  have hlive : c.TokenLive fullPlan allLive 0 1 0 := by
    simp only [CarryCall.TokenLive, CarryCall.writeWords, hL]
    decide
  have hrow := h.even_row (by rw [hL, hBH]; decide) (by omega) (by omega) (by omega) hlive
  rw [hL] at hrow
  exact absurd hrow (by decide)

end Rola
