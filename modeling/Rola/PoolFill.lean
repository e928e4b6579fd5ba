import Rola.PoolWords

/-!
# The pool's gains

`csrc/rola/src/carry/carry_kernel.cuh`, `pool_fill` and `FoldStream::walk`, as far as the write gain
goes. A chunk's fill stages a live token's aligned gain pair in the pool row of its rank; the walk
takes a half of that row's pair by the lane's parity. The gain plane is `mem`, by halfword from its
base, past the plane's end too.
-/

namespace Rola

/-- `last_set` of a ballot; lane 0 votes in every one taken here. -/
def lastSet (vote : ℕ → Prop) [DecidablePred vote] : ℕ := Nat.findGreatest vote 31

/-- One lane's copy of a gain pair: the pool row, the byte offset of the pair, and whether it reads. -/
structure GainCopy where
  row : ℕ
  src : ℕ
  live : Bool

/-- The four bytes at a byte offset, low halfword first. -/
def load4 (mem : ℕ → BitVec 16) (off : ℕ) : BitVec 32 := mem (off / 2 + 1) ++ mem (off / 2)

/-- `stage_run_if<4>`: a copy without its token zero-fills and reads nothing. -/
def stage (mem : ℕ → BitVec 16) (pool : ℕ → BitVec 32) (c : GainCopy) : ℕ → BitVec 32 :=
  Function.update pool c.row (if c.live then load4 mem c.src else 0#32)

/-- The byte offset of a row's gain pair. -/
def gainPair (trow : ℕ) : ℕ := trow / 2 * 2 * 2 % 2 ^ 32

namespace WriteWords
variable (P : PoolPlan) (W : WriteWords)

/-- `pr`. -/
def lanePrefix (lane : ℕ) : ℕ := if lane < rounds then W.prefixAt P lane else 0x7FFFFFFF

/-- `r0`: the last round starting at or before the chunk's first row. -/
def firstRound (chunk : ℕ) : ℕ := lastSet fun lane => W.lanePrefix P lane ≤ chunk * P.poolTok

/-- `r1`: the last round starting before the chunk's end. -/
def lastRound (chunk : ℕ) : ℕ :=
  lastSet fun lane => W.lanePrefix P lane < chunk * P.poolTok + P.poolTok

/-- A round's union word, or none past the chunk's last round. -/
def roundWord (chunk rr : ℕ) : BitVec 32 :=
  if rr ≤ W.lastRound P chunk then W.unionWord P rr else 0#32

/-- `in`: a lane of word `w` whose rank falls in the chunk. -/
def InChunk (w : BitVec 32) (chunk t rank : ℕ) : Prop :=
  w.getLsbD t = true ∧ chunk * P.poolTok ≤ rank ∧ rank < chunk * P.poolTok + P.poolTok

instance (w : BitVec 32) (chunk t rank : ℕ) : Decidable (InChunk P w chunk t rank) :=
  inferInstanceAs (Decidable (_ ∧ _))

def fillCopy (rowbase chunk rr t : ℕ) : GainCopy :=
  let u := W.roundWord P chunk rr
  let rank := W.prefixAt P rr + popc (u &&& below t)
  let has := InChunk P u chunk t rank
  { row := if has then rank - chunk * P.poolTok else P.poolTok
    src := gainPair ((rowbase + if has then rr * 32 + t else 0) % 2 ^ 32)
    live := has }

/-- The round a warp fills on its `i`-th pass. -/
def fillRound (chunk warp i : ℕ) : ℕ :=
  W.firstRound P chunk + ((warp + chunk) &&& (P.warps - 1)) + i * P.warps

/-- `pool_fill`: a warp's copies, sixteen lanes by two halves; a round without a live token is
skipped. -/
def fillCopies (rowbase chunk warp : ℕ) : List GainCopy :=
  (List.range 2).flatMap fun i =>
    let rr := W.fillRound P chunk warp i
    if W.roundWord P chunk rr = 0#32 then []
    else (List.range 2).flatMap fun half =>
      (List.range 16).map fun j => W.fillCopy P rowbase chunk rr (half * 16 + j)

/-- The chunk's copies, every warp's. -/
def chunkCopies (rowbase chunk : ℕ) : List GainCopy :=
  (List.range P.warps).flatMap (W.fillCopies P rowbase chunk)

/-- A slot the chunk's copies have landed in, in some order. -/
def Landed (mem : ℕ → BitVec 16) (rowbase chunk : ℕ) (pool : ℕ → BitVec 32) : Prop :=
  ∃ (old : ℕ → BitVec 32) (order : List GainCopy), order.Perm (W.chunkCopies P rowbase chunk) ∧
    pool = order.foldl (stage mem) old

/-- The ring entry of a kept lane: its pool row, and the gain in the high half. -/
def ringEntry (pool : ℕ → BitVec 32) (lane row : ℕ) : BitVec 32 :=
  BitVec.ofNat 32 row |||
    if lane % 2 = 1 then pool row &&& 0xFFFF0000#32 else pool row <<< 16

/-- The gain a fragment takes off an entry's high half. -/
def entryGain (e : BitVec 32) : BitVec 16 := e.extractLsb' 16 16

/-- `keep`: a round's kept lanes in order, each with its window token and ring entry. -/
def keep (chunk warp : ℕ) (pool : ℕ → BitVec 32) (round : ℕ) : List (ℕ × BitVec 32) :=
  let u := W.roundWord P chunk round
  let w := if round ≤ W.lastRound P chunk then W.warpWord P warp round else 0#32
  let rank := fun lane => W.prefixAt P (round &&& (rounds - 1)) + popc (u &&& below lane)
  ((List.range 32).filter fun lane => InChunk P w chunk lane (rank lane)).map fun lane =>
    (round * 32 + lane, ringEntry pool lane (rank lane - chunk * P.poolTok))

/-- The rounds of the walk, two an iteration. -/
def walkRounds (r0 r1 : ℕ) : List ℕ := List.range' r0 (2 * ((r1 + 2 - r0) / 2))

def walk (chunk warp : ℕ) (pool : ℕ → BitVec 32) : List (ℕ × BitVec 32) :=
  (walkRounds (W.firstRound P chunk) (W.lastRound P chunk)).flatMap (W.keep P chunk warp pool)

/-- What a warp folds over the window: each kept token with its gain, `pools c` the slot chunk `c`
is taken from. -/
def folded (warp : ℕ) (pools : ℕ → ℕ → BitVec 32) : List (ℕ × BitVec 16) :=
  (List.range (W.chunks P)).flatMap fun c =>
    (W.walk P c warp (pools c)).map fun e => (e.1, entryGain e.2)

/-! ### A chunk's rounds -/

/-- A rank of the chunk's rows. -/
def RankIn (chunk t : ℕ) : Prop :=
  chunk * P.poolTok ≤ W.rank P t ∧ W.rank P t < chunk * P.poolTok + P.poolTok

variable {P W}
variable {chunk t : ℕ}

theorem rankIn_div (t : ℕ) : W.RankIn P (W.rank P t / P.poolTok) t := by
  have hpos := P.poolTok_pos
  have h1 := Nat.div_add_mod (W.rank P t) P.poolTok
  have h2 := Nat.mod_lt (W.rank P t) (show P.poolTok > 0 by omega)
  rw [mul_comm] at h1
  exact ⟨by omega, by omega⟩

theorem lanePrefix_of_lt {r : ℕ} (hr : r < rounds) : W.lanePrefix P r = W.rank P (32 * r) := by
  rw [lanePrefix, if_pos hr, prefixAt_eq]

theorem Live.round_lt (hlen : W.len ≤ window) (ht : W.Live P t) : t / 32 < rounds := by
  have h := Live.lt P W ht
  simp only [window, rounds] at *
  omega

theorem RankIn.round_le_last (hlen : W.len ≤ window) (ht : W.Live P t) (h : W.RankIn P chunk t) :
    t / 32 ≤ W.lastRound P chunk := by
  have hround := Live.round_lt hlen ht
  apply Nat.le_findGreatest
  · simp only [rounds] at hround
    omega
  · rw [lanePrefix_of_lt hround]
    exact (W.rank_mono P (by omega)).trans_lt h.2

theorem RankIn.first_le_round (hlen : W.len ≤ window) (ht : W.Live P t) (h : W.RankIn P chunk t) :
    W.firstRound P chunk ≤ t / 32 := by
  have hzero : W.lanePrefix P 0 ≤ chunk * P.poolTok := by simp [lanePrefix, rounds, prefixAt]
  have hvote : W.lanePrefix P (W.firstRound P chunk) ≤ chunk * P.poolTok :=
    Nat.findGreatest_spec (P := fun lane => W.lanePrefix P lane ≤ chunk * P.poolTok)
      (Nat.zero_le 31) hzero
  by_contra hlt
  by_cases hr : W.firstRound P chunk < rounds
  · rw [lanePrefix_of_lt hr] at hvote
    have hrank := W.rank_lt P ht (show t < 32 * W.firstRound P chunk by omega)
    have hlow := h.1
    omega
  · -- a lane past the rounds holds the largest prefix, which no live rank reaches
    rw [lanePrefix, if_neg hr] at hvote
    have hlow := h.1
    have hle : W.rank P t ≤ t := Nat.count_le _
    have hlt := Live.lt P W ht
    simp only [window] at hlen
    omega

/-! ### The fill -/

theorem warps_eq (P : PoolPlan) : P.warps = 8 := by
  have h := P.fills
  rcases P.warps_shape with h8 | h4
  · exact h8
  · simp [rounds, h4] at h

theorem fillCopy_of_live {rowbase r l : ℕ} (hl : l < 32) (hr : r ≤ W.lastRound P chunk)
    (ht : W.Live P (32 * r + l)) (h : W.RankIn P chunk (32 * r + l)) :
    W.fillCopy P rowbase chunk r l = ⟨W.rank P (32 * r + l) - chunk * P.poolTok,
      gainPair ((rowbase + (32 * r + l)) % 2 ^ 32), true⟩ := by
  have hbit : (W.unionWord P r).getLsbD l = true := by
    rw [Live, show (32 * r + l) / 32 = r by omega, show (32 * r + l) % 32 = l by omega] at ht
    exact ht
  have hin : InChunk P (W.unionWord P r) chunk l (W.rank P (32 * r + l)) := ⟨hbit, h⟩
  simp only [fillCopy, roundWord, if_pos hr, rank_eq P W r hl, hin, if_true, decide_true,
    mul_comm r 32]

/-- Which copies write a row below the zero row. -/
theorem fillCopy_row {rowbase r l : ℕ} (hl : l < 32)
    (h : (W.fillCopy P rowbase chunk r l).row ≠ P.poolTok) :
    r ≤ W.lastRound P chunk ∧ W.Live P (32 * r + l) ∧ W.RankIn P chunk (32 * r + l) := by
  have hin : InChunk P (W.roundWord P chunk r) chunk l
      (W.prefixAt P r + popc (W.roundWord P chunk r &&& below l)) := by
    by_contra hno
    exact h (by simp only [fillCopy, if_neg hno])
  by_cases hr : r ≤ W.lastRound P chunk
  · simp only [roundWord, if_pos hr, rank_eq P W r hl] at hin
    refine ⟨hr, ?_, hin.2⟩
    rw [Live, show (32 * r + l) / 32 = r by omega, show (32 * r + l) % 32 = l by omega]
    exact hin.1
  · simp [roundWord, if_neg hr, InChunk] at hin

theorem mem_chunkCopies {rowbase : ℕ} {c : GainCopy} : c ∈ W.chunkCopies P rowbase chunk ↔
    ∃ warp < P.warps, ∃ i < 2, W.roundWord P chunk (W.fillRound P chunk warp i) ≠ 0#32 ∧
      ∃ l < 32, c = W.fillCopy P rowbase chunk (W.fillRound P chunk warp i) l := by
  simp only [chunkCopies, fillCopies, List.mem_flatMap, List.mem_range]
  constructor
  · rintro ⟨warp, hwarp, i, hi, hc⟩
    split_ifs at hc with hzero
    · exact absurd hc List.not_mem_nil
    · simp only [List.mem_flatMap, List.mem_map, List.mem_range] at hc
      obtain ⟨half, hhalf, j, hj, rfl⟩ := hc
      exact ⟨warp, hwarp, i, hi, hzero, half * 16 + j, by omega, rfl⟩
  · rintro ⟨warp, hwarp, i, hi, hzero, l, hl, rfl⟩
    refine ⟨warp, hwarp, i, hi, ?_⟩
    rw [if_neg hzero]
    simp only [List.mem_flatMap, List.mem_map, List.mem_range]
    exact ⟨l / 16, by omega, l % 16, by omega, by rw [show l / 16 * 16 + l % 16 = l by omega]⟩

/-- The deal of a chunk's rounds leaves none out. -/
theorem exists_fillRound {r : ℕ} (hfirst : W.firstRound P chunk ≤ r) (hr : r < rounds) :
    ∃ warp < P.warps, ∃ i < 2, W.fillRound P chunk warp i = r := by
  have hmask : ∀ x : ℕ, x &&& (8 - 1) = x % 8 := fun x => Nat.and_two_pow_sub_one_eq_mod x 3
  simp only [fillRound, warps_eq, hmask, rounds] at *
  refine ⟨((r - W.firstRound P chunk) % 8 + (8 - chunk % 8)) % 8, by omega,
    (r - W.firstRound P chunk) / 8, by omega, by omega⟩

theorem live_copy {rowbase : ℕ} (hlen : W.len ≤ window) (ht : W.Live P t) (h : W.RankIn P chunk t) :
    ⟨W.rank P t - chunk * P.poolTok, gainPair ((rowbase + t) % 2 ^ 32), true⟩ ∈
      W.chunkCopies P rowbase chunk := by
  have hlast := RankIn.round_le_last hlen ht h
  obtain ⟨warp, hwarp, i, hi, hr⟩ :=
    exists_fillRound (RankIn.first_le_round hlen ht h) (Live.round_lt hlen ht)
  have heq : 32 * (t / 32) + t % 32 = t := Nat.div_add_mod t 32
  have hl : t % 32 < 32 := Nat.mod_lt _ (by norm_num)
  apply mem_chunkCopies.2
  refine ⟨warp, hwarp, i, hi, ?_, t % 32, hl, ?_⟩
  · rw [hr, roundWord, if_pos hlast]
    intro hzero
    rw [Live, hzero] at ht
    simp at ht
  · rw [hr, fillCopy_of_live hl hlast (by rwa [heq]) (by rwa [heq]), heq]

/-- A row below the zero row is one token's. -/
theorem copy_of_row {rowbase : ℕ} {c : GainCopy} (hc : c ∈ W.chunkCopies P rowbase chunk)
    (ht : W.Live P t) (h : W.RankIn P chunk t) (hrow : c.row = W.rank P t - chunk * P.poolTok) :
    c = ⟨W.rank P t - chunk * P.poolTok, gainPair ((rowbase + t) % 2 ^ 32), true⟩ := by
  obtain ⟨warp, -, i, -, -, l, hl, rfl⟩ := mem_chunkCopies.1 hc
  obtain ⟨hlow, hhigh⟩ := h
  have hne : (W.fillCopy P rowbase chunk (W.fillRound P chunk warp i) l).row ≠ P.poolTok := by omega
  obtain ⟨hr, hlive, hin⟩ := fillCopy_row hl hne
  rw [fillCopy_of_live hl hr hlive hin] at hrow ⊢
  have hrank : W.rank P (32 * W.fillRound P chunk warp i + l) = W.rank P t := by
    have h1 := hin.1
    simp only at hrow
    omega
  rw [W.rank_inj P hlive ht hrank]

theorem foldl_stage {mem : ℕ → BitVec 16} {copies : List GainCopy} {pool : ℕ → BitVec 32} {row : ℕ}
    {x : BitVec 32} (hall : ∀ c ∈ copies, c.row = row → (if c.live then load4 mem c.src else 0#32) = x)
    (h : pool row = x ∨ ∃ c ∈ copies, c.row = row) : copies.foldl (stage mem) pool row = x := by
  induction copies generalizing pool with
  | nil => simpa using h
  | cons c copies ih =>
    apply ih fun d hd => hall d (List.mem_cons_of_mem c hd)
    by_cases hc : c.row = row
    · left
      rw [stage, hc, Function.update_self]
      exact hall c List.mem_cons_self hc
    · rcases h with h | ⟨d, hd, hrow⟩
      · left
        rw [stage, Function.update_of_ne (Ne.symm hc), h]
      · rcases List.mem_cons.1 hd with rfl | hd
        · exact absurd hrow hc
        · exact .inr ⟨d, hd, hrow⟩

/-- A landed slot holds each live token's pair in the row of its rank. -/
theorem Landed.row {mem : ℕ → BitVec 16} {rowbase : ℕ} {pool : ℕ → BitVec 32}
    (hpool : W.Landed P mem rowbase chunk pool) (hlen : W.len ≤ window) (ht : W.Live P t)
    (h : W.RankIn P chunk t) : pool (W.rank P t - chunk * P.poolTok) =
      load4 mem (gainPair ((rowbase + t) % 2 ^ 32)) := by
  obtain ⟨old, order, hperm, rfl⟩ := hpool
  apply foldl_stage
  · intro c hc hrow
    rw [copy_of_row (hperm.mem_iff.1 hc) ht h hrow]
    rfl
  · exact .inr ⟨_, hperm.mem_iff.2 (live_copy hlen ht h), rfl⟩

/-! ### The walk -/

theorem append_high (hi lo : BitVec 16) (i : ℕ) : (hi ++ lo).getLsbD (16 + i) = hi.getLsbD i := by
  rw [BitVec.getLsbD_append, if_neg (by omega), Nat.add_sub_cancel_left]

theorem append_low (hi lo : BitVec 16) {i : ℕ} (h : i < 16) :
    (hi ++ lo).getLsbD i = lo.getLsbD i := by
  rw [BitVec.getLsbD_append, if_pos h]

/-- The half of the pair the lane's parity names. -/
theorem entryGain_ringEntry {pool : ℕ → BitVec 32} {lane row : ℕ} {lo hi : BitVec 16}
    (hrow : row < 2 ^ 16) (hpool : pool row = hi ++ lo) :
    entryGain (ringEntry pool lane row) = if lane % 2 = 1 then hi else lo := by
  have hlow : ∀ i, (BitVec.ofNat 32 row).getLsbD (16 + i) = false := by
    intro i
    rw [BitVec.getLsbD_ofNat, Nat.testBit_lt_two_pow, Bool.and_false]
    exact hrow.trans_le (Nat.pow_le_pow_right (by norm_num) (by omega))
  apply BitVec.eq_of_getLsbD_eq
  intro i hi
  simp only [entryGain, ringEntry, BitVec.getLsbD_extractLsb', BitVec.getLsbD_or, hlow, hpool, hi,
    decide_true, Bool.true_and, Bool.false_or]
  split_ifs with hlane
  · have hmask : ∀ i < 16, (0xFFFF0000#32).getLsbD (16 + i) = true := by decide
    rw [BitVec.getLsbD_and, hmask i hi, Bool.and_true]
    exact append_high _ _ i
  · rw [BitVec.getLsbD_shiftLeft]
    simp only [show 16 + i < 32 by omega, decide_true, Bool.true_and,
      show ¬ 16 + i < 16 by omega, decide_false, Bool.not_false, Nat.add_sub_cancel_left]
    exact append_low _ _ hi

/-- The gain the walk selects for token `t` of the window based at `rowbase`. -/
def selected (mem : ℕ → BitVec 16) (rowbase t : ℕ) : BitVec 16 :=
  mem ((rowbase + t) / 2 * 2 + t % 2)

theorem rank_sub_lt (h : W.RankIn P chunk t) : W.rank P t - chunk * P.poolTok < 2 ^ 16 := by
  have h1 := h.2
  have h2 := P.poolTok_lt
  omega

theorem Landed.selected {mem : ℕ → BitVec 16} {rowbase : ℕ} {pool : ℕ → BitVec 32}
    (hpool : W.Landed P mem rowbase chunk pool) (hlen : W.len ≤ window) (ht : W.Live P t)
    (h : W.RankIn P chunk t) (hrows : rowbase + t < 2 ^ 26) :
    entryGain (ringEntry pool (t % 32) (W.rank P t - chunk * P.poolTok)) =
      selected mem rowbase t := by
  have hpair : gainPair ((rowbase + t) % 2 ^ 32) / 2 = (rowbase + t) / 2 * 2 := by
    rw [gainPair, Nat.mod_eq_of_lt (by omega), Nat.mod_eq_of_lt (by omega)]
    omega
  rw [entryGain_ringEntry (rank_sub_lt h) (hpool.row hlen ht h), hpair, WriteWords.selected,
    show t % 32 % 2 = t % 2 by omega]
  rcases Nat.mod_two_eq_zero_or_one t with h0 | h1
  · simp [h0]
  · simp [h1]

theorem mem_keep {warp round : ℕ} {pool : ℕ → BitVec 32} (hlen : W.len ≤ window)
    (hwarp : warp < P.warps) {e : ℕ × BitVec 32} : e ∈ W.keep P chunk warp pool round ↔
      e.1 / 32 = round ∧ round ≤ W.lastRound P chunk ∧ W.LiveAt P warp e.1 ∧
        W.RankIn P chunk e.1 ∧
        e.2 = ringEntry pool (e.1 % 32) (W.rank P e.1 - chunk * P.poolTok) := by
  have hround : ∀ lane < 32, W.LiveAt P warp (round * 32 + lane) →
      (round &&& (rounds - 1)) = round := by
    intro lane hlane hlive
    have h := Live.round_lt hlen (LiveAt.live P W hwarp hlive)
    rw [show rounds - 1 = 2 ^ 4 - 1 from rfl, Nat.and_two_pow_sub_one_eq_mod]
    simp only [rounds] at h
    omega
  have hat : ∀ lane < 32, W.LiveAt P warp (round * 32 + lane) ↔
      (W.warpWord P warp round).getLsbD lane = true := by
    intro lane hlane
    rw [LiveAt, show (round * 32 + lane) / 32 = round by omega,
      show (round * 32 + lane) % 32 = lane by omega]
  simp only [keep, roundWord, List.mem_map, List.mem_filter, List.mem_range]
  constructor
  · rintro ⟨lane, ⟨hlane, hin⟩, rfl⟩
    replace hin := of_decide_eq_true hin
    by_cases hr : round ≤ W.lastRound P chunk
    · simp only [if_pos hr, InChunk] at hin ⊢
      have hlive := (hat lane hlane).2 hin.1
      rw [hround lane hlane hlive, rank_eq P W round hlane, mul_comm 32] at hin ⊢
      exact ⟨by omega, hr, hlive, hin.2, by rw [show (round * 32 + lane) % 32 = lane by omega]⟩
    · simp [if_neg hr, InChunk] at hin
  · rintro ⟨hdiv, hr, hlive, hin, he⟩
    have heq : round * 32 + e.1 % 32 = e.1 := by omega
    have hlane : e.1 % 32 < 32 := Nat.mod_lt _ (by norm_num)
    rw [← heq] at hlive
    refine ⟨e.1 % 32, ⟨hlane, decide_eq_true ?_⟩, ?_⟩
    · simp only [if_pos hr, InChunk]
      rw [hround _ hlane hlive, rank_eq P W round hlane, mul_comm 32, heq]
      exact ⟨(hat _ hlane).1 hlive, hin⟩
    · simp only [if_pos hr]
      rw [hround _ hlane hlive, rank_eq P W round hlane, mul_comm 32, heq, ← he]

theorem mem_walk {warp : ℕ} {pool : ℕ → BitVec 32} (hlen : W.len ≤ window)
    (hwarp : warp < P.warps) {e : ℕ × BitVec 32} : e ∈ W.walk P chunk warp pool ↔
      W.LiveAt P warp e.1 ∧ W.RankIn P chunk e.1 ∧
        e.2 = ringEntry pool (e.1 % 32) (W.rank P e.1 - chunk * P.poolTok) := by
  simp only [walk, walkRounds, List.mem_flatMap, mem_keep hlen hwarp, List.mem_range'_1]
  constructor
  · rintro ⟨round, -, -, -, h⟩
    exact h
  · rintro ⟨hlive, hin, he⟩
    have hl := LiveAt.live P W hwarp hlive
    have hfirst := RankIn.first_le_round hlen hl hin
    have hlast := RankIn.round_le_last hlen hl hin
    exact ⟨e.1 / 32, ⟨hfirst, by omega⟩, rfl, hlast, hlive, hin, he⟩

theorem walk_sorted {warp : ℕ} {pool : ℕ → BitVec 32} (hlen : W.len ≤ window)
    (hwarp : warp < P.warps) : (W.walk P chunk warp pool).Pairwise fun a b => a.1 < b.1 := by
  rw [walk, List.pairwise_flatMap]
  constructor
  · intro round _
    simp only [keep, List.pairwise_map]
    apply (List.pairwise_lt_range.filter _).imp
    intro a b hab
    omega
  · apply (List.pairwise_lt_range' 1).imp
    intro r r' hr a ha b hb
    have h1 := ((mem_keep hlen hwarp).1 ha).1
    have h2 := ((mem_keep hlen hwarp).1 hb).1
    omega

/-! ### A window -/

theorem mem_folded {mem : ℕ → BitVec 16} {warp rowbase : ℕ} {pools : ℕ → ℕ → BitVec 32}
    (hlen : W.len ≤ window) (hwarp : warp < P.warps) (hrows : rowbase + W.len ≤ 2 ^ 26)
    (hpools : ∀ c < W.chunks P, W.Landed P mem rowbase c (pools c)) {e : ℕ × BitVec 16} :
    e ∈ W.folded P warp pools ↔ W.LiveAt P warp e.1 ∧ e.2 = selected mem rowbase e.1 := by
  simp only [folded, List.mem_flatMap, List.mem_map, List.mem_range, mem_walk hlen hwarp]
  constructor
  · rintro ⟨c, hc, x, ⟨hlive, hin, hx⟩, rfl⟩
    have hl := LiveAt.live P W hwarp hlive
    have hlt := Live.lt P W hl
    refine ⟨hlive, ?_⟩
    rw [hx, (hpools c hc).selected hlen hl hin (by omega)]
  · rintro ⟨hlive, he⟩
    have hl := LiveAt.live P W hwarp hlive
    have hlt := Live.lt P W hl
    have hchunk := W.chunk_lt P hl hlen
    have hin : W.RankIn P (W.rank P e.1 / P.poolTok) e.1 := rankIn_div e.1
    generalize W.rank P e.1 / P.poolTok = k at hchunk hin
    refine ⟨k, hchunk, (e.1, ringEntry (pools k) (e.1 % 32) (W.rank P e.1 - k * P.poolTok)),
      ⟨hlive, hin, rfl⟩, ?_⟩
    rw [(hpools k hchunk).selected hlen hl hin (by omega), ← he]

theorem folded_sorted {warp : ℕ} {pools : ℕ → ℕ → BitVec 32} (hlen : W.len ≤ window)
    (hwarp : warp < P.warps) : (W.folded P warp pools).Pairwise fun a b => a.1 < b.1 := by
  rw [folded, List.pairwise_flatMap]
  constructor
  · intro c _
    rw [List.pairwise_map]
    exact walk_sorted hlen hwarp
  · apply List.pairwise_lt_range.imp
    intro c c' hc a ha b hb
    obtain ⟨x, hx, rfl⟩ := List.mem_map.1 ha
    obtain ⟨y, hy, rfl⟩ := List.mem_map.1 hb
    have h1 := ((mem_walk hlen hwarp).1 hx).2.1.2
    have h2 := ((mem_walk hlen hwarp).1 hy).2.1.1
    -- the later chunk's ranks are the larger, so its tokens come later
    have h3 : c * P.poolTok + P.poolTok ≤ c' * P.poolTok := by
      rw [← Nat.succ_mul]
      exact Nat.mul_le_mul_right _ hc
    by_contra hle
    have h4 := W.rank_mono P (Nat.le_of_not_lt hle)
    simp only at h4
    omega

/-- Over a window a warp's walks keep each of its live tokens once, in order. -/
theorem folded_tokens {warp : ℕ} {pools : ℕ → ℕ → BitVec 32} (hlen : W.len ≤ window)
    (hwarp : warp < P.warps) : (W.folded P warp pools).map Prod.fst =
      (List.range W.len).filter fun t => W.LiveAt P warp t := by
  refine List.Pairwise.eq_of_mem_iff (r := (· < ·)) ?_ (List.pairwise_lt_range.filter _) fun t => ?_
  · rw [List.pairwise_map]
    exact folded_sorted hlen hwarp
  · simp only [folded, List.mem_map, List.mem_flatMap, List.mem_range, mem_walk hlen hwarp,
      List.mem_filter, decide_eq_true_eq]
    constructor
    · rintro ⟨e, ⟨c, -, x, ⟨hlive, -⟩, rfl⟩, rfl⟩
      exact ⟨Live.lt P W (LiveAt.live P W hwarp hlive), hlive⟩
    · rintro ⟨-, hlive⟩
      have hl := LiveAt.live P W hwarp hlive
      let c := W.rank P t / P.poolTok
      exact ⟨_, ⟨c, W.chunk_lt P hl hlen,
        (t, ringEntry (pools c) (t % 32) (W.rank P t - c * P.poolTok)),
        ⟨hlive, rankIn_div t, rfl⟩, rfl⟩, rfl⟩

/-- Over a window a warp folds each of its live tokens once, in order, each with the half its lane
names of the pair its row aligns to. -/
theorem folded_eq {mem : ℕ → BitVec 16} {warp rowbase : ℕ} {pools : ℕ → ℕ → BitVec 32}
    (hlen : W.len ≤ window) (hwarp : warp < P.warps) (hrows : rowbase + W.len ≤ 2 ^ 26)
    (hpools : ∀ c < W.chunks P, W.Landed P mem rowbase c (pools c)) :
    W.folded P warp pools =
      ((List.range W.len).filter fun t => W.LiveAt P warp t).map
        fun t => (t, selected mem rowbase t) := by
  rw [← folded_tokens hlen hwarp, List.map_map]
  conv_lhs => rw [← List.map_id (W.folded P warp pools)]
  refine List.map_congr_left fun e he => ?_
  exact Prod.ext rfl ((mem_folded hlen hwarp hrows hpools).1 he).2

/-- The live copies of a chunk are its live tokens'. -/
theorem mem_live_copy {rowbase : ℕ} {c : GainCopy} (hc : c ∈ W.chunkCopies P rowbase chunk)
    (hlive : c.live = true) :
    ∃ t, W.Live P t ∧ c.src = gainPair ((rowbase + t) % 2 ^ 32) := by
  obtain ⟨warp, -, i, -, -, l, hl, rfl⟩ := mem_chunkCopies.1 hc
  have hne : (W.fillCopy P rowbase chunk (W.fillRound P chunk warp i) l).row ≠ P.poolTok := by
    have hin : InChunk P (W.roundWord P chunk (W.fillRound P chunk warp i)) chunk l _ :=
      of_decide_eq_true hlive
    have hhigh := hin.2.2
    have hpos := P.poolTok_pos
    simp only [fillCopy, if_pos hin]
    omega
  obtain ⟨hr, ht, hin⟩ := fillCopy_row hl hne
  rw [fillCopy_of_live hl hr ht hin]
  exact ⟨_, ht, rfl⟩

end WriteWords

end Rola
