import Rola.PoolFill

/-!
# The fold's ring

`pool_fill` and `FoldStream::walk` over any window's tables: a chunk's rows are staged by rank, each by
the warp its round is dealt to, and a warp's walk queues its kept rows into its ring at consecutive
indices and pads the last fragment with the zero row. A part of a row is named by the row and the part;
a gain's copy is `PoolFill`'s.
-/

namespace Rola

/-- `kWalkEntries`. -/
def walkEntries : ℕ := 128

/-- What the plan asserts of the ring beside the pool. -/
structure FoldPlan extends PoolPlan where
  vChunks : ℕ
  vChunks_dvd : 4 ∣ vChunks
  poolTok_le : poolTok ≤ walkEntries
  poolTok_dvd : 16 ∣ poolTok

/-- The pool's plan, a box a warp. -/
def FoldPlan.plain (P : FoldPlan) : PoolPlan := { P.toPoolPlan with dealt := 1 }

@[simp] theorem FoldPlan.plain_warps (P : FoldPlan) : P.plain.warps = P.warps := rfl
@[simp] theorem FoldPlan.plain_poolTok (P : FoldPlan) : P.plain.poolTok = P.poolTok := rfl

/-- A window's union words and each warp's, for its sixteen rounds. -/
structure FoldTables where
  union : ℕ → BitVec 32
  warp : ℕ → ℕ → BitVec 32
  past : ∀ rho, rounds ≤ rho → union rho = 0#32
  sub : ∀ v rho i, (warp v rho).getLsbD i = true → (union rho).getLsbD i = true

/-- The sixteen-byte parts of a pool row. -/
inductive PoolPart where
  | v (c : ℕ)
  | inner (h : ℕ)
  | outer (h : ℕ)
deriving DecidableEq

/-- One lane's copy of a part: the pool row, and the plane row it reads or `none` to zero-fill. -/
structure PartCopy where
  row : ℕ
  part : PoolPart
  src : Option ℕ

namespace FoldTables

variable (P : FoldPlan) (T : FoldTables)

/-- `prefix`. -/
def prefixAt (r : ℕ) : ℕ := ∑ rho ∈ Finset.range r, popc (T.union rho)

def live : ℕ := T.prefixAt rounds

def chunks : ℕ := (T.live + P.poolTok - 1) / P.poolTok

def lanePrefix (lane : ℕ) : ℕ := if lane < rounds then T.prefixAt lane else 0x7FFFFFFF

def firstRound (chunk : ℕ) : ℕ := lastSet fun lane => T.lanePrefix lane ≤ chunk * P.poolTok

def lastRound (chunk : ℕ) : ℕ := lastSet fun lane => T.lanePrefix lane < chunk * P.poolTok + P.poolTok

def roundWord (chunk rr : ℕ) : BitVec 32 := if rr ≤ T.lastRound P chunk then T.union rr else 0#32

def fillRound (chunk warp i : ℕ) : ℕ :=
  T.firstRound P chunk + ((warp + chunk) &&& (P.warps - 1)) + i * P.warps

/-- The parts lane `j` or lane `j + 16` copies, alternate sixteen bytes. -/
def laneParts (h : ℕ) : List PoolPart :=
  (List.range (P.vChunks / 2)).map (fun cc => .v (2 * cc + h)) ++ [.inner h, .outer h]

/-- A lane's copies in round `rr`, `t` its token. -/
def fillLane (rowbase chunk rr t h : ℕ) : List PartCopy :=
  let u := T.roundWord P chunk rr
  let rank := T.prefixAt rr + popc (u &&& below t)
  let has := WriteWords.InChunk P.toPoolPlan u chunk t rank
  (laneParts P h).map fun part =>
    { row := if has then rank - chunk * P.poolTok else P.poolTok
      part := part
      src := if has then some ((rowbase + (rr * 32 + t)) % 2 ^ 32) else none }

/-- `pool_fill`: a warp's share. -/
def fillShare (rowbase chunk warp : ℕ) : List PartCopy :=
  (List.range 2).flatMap fun i =>
    let rr := T.fillRound P chunk warp i
    if T.roundWord P chunk rr = 0#32 then []
    else (List.range 2).flatMap fun half =>
      (List.range 32).flatMap fun lane => T.fillLane P rowbase chunk rr (half * 16 + lane % 16) (lane / 16)

/-- What a copy of a part writes: `mem part row` is the plane row's, nothing read zero-fills. -/
def partValue {α : Type} (mem : PoolPart → ℕ → α) (zero : α) (part : PoolPart) : Option ℕ → α
  | some row => mem part row
  | none => zero

/-- `stage_run_if<16>`. -/
def stagePart {α : Type} (mem : PoolPart → ℕ → α) (zero : α) (slot : ℕ → PoolPart → α) (c : PartCopy) :
    ℕ → PoolPart → α :=
  Function.update slot c.row (Function.update (slot c.row) c.part (partValue mem zero c.part c.src))

/-- A slot every warp's share of the chunk has landed in, in some order. -/
def Landed {α : Type} (mem : PoolPart → ℕ → α) (zero : α) (rowbase chunk : ℕ) (old slot : ℕ → PoolPart → α) :
    Prop :=
  ∃ order : List PartCopy, order.Perm ((List.range P.warps).flatMap (T.fillShare P rowbase chunk)) ∧
    slot = order.foldl (stagePart mem zero) old

/-- `in`: a lane whose token the warp keeps. -/
def Keeps (chunk warp round lane : ℕ) : Prop :=
  WriteWords.InChunk P.toPoolPlan (if round ≤ T.lastRound P chunk then T.warp warp round else 0#32) chunk lane
    (T.prefixAt (round &&& (rounds - 1)) + popc (T.roundWord P chunk round &&& below lane))

instance (chunk warp round : ℕ) : DecidablePred (T.Keeps P chunk warp round) :=
  fun _ => inferInstanceAs (Decidable (WriteWords.InChunk ..))

/-- `row`, the kept token's pool row. -/
def keepRow (chunk round lane : ℕ) : ℕ :=
  T.prefixAt (round &&& (rounds - 1)) + popc (T.roundWord P chunk round &&& below lane) - chunk * P.poolTok

/-- A word of the ring: where it goes, its token of the window, and the word. -/
structure RingWrite where
  idx : ℕ
  token : ℕ
  entry : BitVec 32

/-- `keep`: a round's writes past the `base` queued, `gains` the slot's gain pairs. -/
def keepRound (chunk warp : ℕ) (gains : ℕ → BitVec 32) (round base : ℕ) : List RingWrite :=
  ((List.range 32).filter fun lane => T.Keeps P chunk warp round lane).map fun lane =>
    { idx := base + Nat.count (T.Keeps P chunk warp round) lane
      token := round * 32 + lane
      entry := WriteWords.ringEntry gains lane (T.keepRow P chunk round lane) }

/-- The kept rows of the walk, two rounds an iteration, each past those queued before it. -/
def ringWrites (chunk warp : ℕ) (gains : ℕ → BitVec 32) : List RingWrite :=
  (WriteWords.walkRounds (T.firstRound P chunk) (T.lastRound P chunk)).foldl
    (fun writes round => writes ++ T.keepRound P chunk warp gains round writes.length) []

/-- `nfrag`, and the entries of a whole pair of fragments. -/
def nfrag (queued : ℕ) : ℕ := (queued + 16 - 1) / 16

def padded (queued : ℕ) : ℕ := (nfrag queued + 1) / 2 * 2

/-- The ring after the walk: its writes, then the zero row up to a whole pair of fragments. -/
def ringAfter (writes : List RingWrite) (zeroRow : ℕ) (ring : ℕ → BitVec 32) : ℕ → BitVec 32 :=
  (List.range' writes.length (padded writes.length * 16 - writes.length)).foldl
    (fun ring idx => Function.update ring idx (BitVec.ofNat 32 zeroRow))
    (writes.foldl (fun ring e => Function.update ring e.idx e.entry) ring)

/-- Token `t` is live for a warp, and in the union. -/
def LiveAt (v t : ℕ) : Prop := (T.warp v (t / 32)).getLsbD (t % 32) = true

instance (v : ℕ) : DecidablePred (T.LiveAt v) := fun _ => inferInstanceAs (Decidable (_ = _))

def Live (t : ℕ) : Prop := (T.union (t / 32)).getLsbD (t % 32) = true

instance : DecidablePred T.Live := fun _ => inferInstanceAs (Decidable (_ = _))

def rank (t : ℕ) : ℕ := Nat.count T.Live t

/-! ### One warp's tables as a head's -/

/-- A head's words that give warp `v` its own and the union to the others: what a warp's walk and every
fill see of the tables. -/
def words (v : ℕ) : WriteWords :=
  { len := window, box := fun b rho => if b = v then T.warp v rho else T.union rho }

variable {P T} {v chunk : ℕ}

theorem warp_past {rho : ℕ} (h : rounds ≤ rho) : T.warp v rho = 0#32 := by
  refine BitVec.eq_of_getLsbD_eq fun i hi => ?_
  by_contra hbit
  have hset : (T.warp v rho).getLsbD i = true := by simpa using hbit
  have hunion := T.sub v rho i hset
  rw [T.past rho h] at hunion
  simp at hunion

theorem words_warpWord (v' rho : ℕ) : (T.words v).warpWord P.plain v' rho =
    if v' = v then T.warp v rho else T.union rho := by
  have hmask : ∀ x : BitVec 32, (rounds ≤ rho → x = 0#32) → x &&& (T.words v).inmask rho = x := by
    intro x hx
    unfold WriteWords.inmask words
    split_ifs with h1 h2
    · rw [show 0xFFFFFFFF#32 = BitVec.allOnes 32 from rfl, BitVec.and_allOnes]
    · rw [hx (by simp only [window, rounds] at *; omega), BitVec.zero_and]
    · simp only [window] at h1 h2
      omega
  have hfold : (T.words v).warpWord P.plain v' rho =
      (0#32 ||| (T.words v).box v' rho) &&& (T.words v).inmask rho := by
    simp [WriteWords.warpWord, FoldPlan.plain]
  rw [hfold, BitVec.zero_or]
  unfold words
  dsimp only
  split
  · exact hmask _ warp_past
  · exact hmask _ (T.past rho)

theorem words_unionWord (hv : v < P.warps) (rho : ℕ) :
    (T.words v).unionWord P.plain rho = T.union rho := by
  have h8 := WriteWords.warps_eq P.toPoolPlan
  refine BitVec.eq_of_getLsbD_eq fun i _ => ?_
  rw [Bool.eq_iff_iff]
  unfold WriteWords.unionWord
  rw [WriteWords.foldl_or_getLsbD]
  simp only [words_warpWord, BitVec.getLsbD_zero, Bool.false_eq_true, false_or, List.mem_range]
  constructor
  · rintro ⟨v', -, hbit⟩
    split at hbit
    · exact T.sub v rho i hbit
    · exact hbit
  · intro hbit
    -- another warp carries the whole union
    obtain ⟨v', hv', hne⟩ : ∃ v' < P.warps, v' ≠ v := by
      rcases eq_or_ne v 0 with rfl | hne
      · exact ⟨1, by omega, by omega⟩
      · exact ⟨0, by omega, hne.symm⟩
    exact ⟨v', hv', by rwa [if_neg hne]⟩

section Transfer
variable (hv : v < P.warps)
include hv

theorem words_prefixAt (r : ℕ) : (T.words v).prefixAt P.plain r = T.prefixAt r := by
  simp only [WriteWords.prefixAt, prefixAt, words_unionWord hv]

theorem words_lanePrefix (lane : ℕ) : (T.words v).lanePrefix P.plain lane = T.lanePrefix lane := by
  simp only [WriteWords.lanePrefix, lanePrefix, words_prefixAt hv]

theorem words_firstRound : (T.words v).firstRound P.plain chunk = T.firstRound P chunk := by
  simp only [WriteWords.firstRound, firstRound, words_lanePrefix hv, FoldPlan.plain_poolTok]

theorem words_lastRound : (T.words v).lastRound P.plain chunk = T.lastRound P chunk := by
  simp only [WriteWords.lastRound, lastRound, words_lanePrefix hv, FoldPlan.plain_poolTok]

theorem words_roundWord (rr : ℕ) : (T.words v).roundWord P.plain chunk rr = T.roundWord P chunk rr := by
  simp only [WriteWords.roundWord, roundWord, words_lastRound hv, words_unionWord hv]

theorem words_fillRound (warp i : ℕ) :
    (T.words v).fillRound P.plain chunk warp i = T.fillRound P chunk warp i := by
  simp only [WriteWords.fillRound, fillRound, words_firstRound hv, FoldPlan.plain_warps]

theorem words_chunks : (T.words v).chunks P.plain = T.chunks P := by
  simp only [WriteWords.chunks, chunks, WriteWords.live, live, words_prefixAt hv, FoldPlan.plain_poolTok]

theorem words_live (t : ℕ) : (T.words v).Live P.plain t ↔ T.Live t := by
  simp only [WriteWords.Live, Live, words_unionWord hv]

omit hv in
theorem words_liveAt (t : ℕ) : (T.words v).LiveAt P.plain v t ↔ T.LiveAt v t := by
  simp only [WriteWords.LiveAt, LiveAt, words_warpWord, if_true]

theorem words_rank (t : ℕ) : (T.words v).rank P.plain t = T.rank t :=
  count_congr fun i _ => words_live hv i

end Transfer

/-- Token `t`'s rank is a row of the chunk. -/
def RankIn (P : FoldPlan) (T : FoldTables) (chunk t : ℕ) : Prop :=
  chunk * P.poolTok ≤ T.rank t ∧ T.rank t < chunk * P.poolTok + P.poolTok

theorem words_rankIn (hv : v < P.warps) (t : ℕ) :
    (T.words v).RankIn P.plain chunk t ↔ T.RankIn P chunk t := by
  simp only [WriteWords.RankIn, RankIn, words_rank hv, FoldPlan.plain_poolTok]

theorem words_len (T : FoldTables) (v : ℕ) : (T.words v).len ≤ window := Nat.le_refl _

/-! ### The walk's writes -/

section Walk
variable (hv : v < P.warps) (gains : ℕ → BitVec 32)
include hv

/-- A round's kept lanes, each with its token and word. -/
theorem keepRound_eq (round base : ℕ) :
    (T.keepRound P chunk v gains round base).map (fun e => (e.token, e.entry)) =
      (T.words v).keep P.plain chunk v gains round := by
  simp only [keepRound, WriteWords.keep, List.map_map, words_roundWord hv, words_lastRound hv,
    words_warpWord, if_true, words_prefixAt hv]
  rfl

omit hv in
/-- The kept lanes below a kept lane are those before it in the round. -/
theorem map_count_filter (p : ℕ → Prop) [DecidablePred p] (base n : ℕ) :
    ((List.range n).filter fun lane => p lane).map (fun lane => base + Nat.count p lane) =
      List.range' base (Nat.count p n) := by
  induction n with
  | zero => simp
  | succ n ih =>
    rw [List.range_succ, List.filter_append, List.map_append, ih, Nat.count_succ]
    by_cases hn : p n
    · simp [hn, List.range'_concat]
    · simp [hn]

omit hv in
theorem keepRound_idx (round base : ℕ) : (T.keepRound P chunk v gains round base).map RingWrite.idx =
    List.range' base (T.keepRound P chunk v gains round base).length := by
  have hlen : (T.keepRound P chunk v gains round base).length =
      Nat.count (T.Keeps P chunk v round) 32 := by
    have h := congrArg List.length (map_count_filter (T.Keeps P chunk v round) 0 32)
    simpa [keepRound] using h
  rw [hlen, ← map_count_filter, keepRound, List.map_map]
  rfl

omit hv in
/-- The rounds' writes queue one after another. -/
theorem ringWrites_go (rounds : List ℕ) (writes : List RingWrite)
    (h : writes.map RingWrite.idx = List.range writes.length) :
    let out := rounds.foldl
      (fun writes round => writes ++ T.keepRound P chunk v gains round writes.length) writes
    out.map RingWrite.idx = List.range out.length := by
  induction rounds generalizing writes with
  | nil => exact h
  | cons round rounds ih =>
    refine ih _ ?_
    rw [List.map_append, h, keepRound_idx, List.length_append, List.range_eq_range',
      List.range_eq_range', ← List.range'_append_1, Nat.zero_add]

omit hv in
theorem ringWrites_idx : (T.ringWrites P chunk v gains).map RingWrite.idx =
    List.range (T.ringWrites P chunk v gains).length := ringWrites_go gains _ [] rfl

theorem ringWrites_eq : (T.ringWrites P chunk v gains).map (fun e => (e.token, e.entry)) =
    (T.words v).walk P.plain chunk v gains := by
  have hgo : ∀ (rounds : List ℕ) (writes : List RingWrite), (rounds.foldl
      (fun writes round => writes ++ T.keepRound P chunk v gains round writes.length) writes).map
        (fun e => (e.token, e.entry)) = writes.map (fun e => (e.token, e.entry)) ++
          rounds.flatMap ((T.words v).keep P.plain chunk v gains) := by
    intro rounds
    induction rounds with
    | nil => simp
    | cons round rounds ih =>
      intro writes
      rw [List.foldl_cons, ih, List.map_append, keepRound_eq hv, List.flatMap_cons, List.append_assoc]
  rw [ringWrites, hgo, WriteWords.walk, words_firstRound hv, words_lastRound hv]
  rfl

theorem mem_ringWrites {e : RingWrite} (he : e ∈ T.ringWrites P chunk v gains) :
    T.LiveAt v e.token ∧ T.RankIn P chunk e.token ∧
      e.entry = WriteWords.ringEntry gains (e.token % 32) (T.rank e.token - chunk * P.poolTok) := by
  have hmem := List.mem_map_of_mem (f := fun e : RingWrite => (e.token, e.entry)) he
  rw [ringWrites_eq hv] at hmem
  have hplain : v < P.plain.warps := hv
  have h := (WriteWords.mem_walk (words_len T v) hplain).1 hmem
  rw [words_liveAt, words_rankIn hv, words_rank hv] at h
  exact h

theorem token_mem_ringWrites {t : ℕ} (hlive : T.LiveAt v t) (hin : T.RankIn P chunk t) :
    ∃ e ∈ T.ringWrites P chunk v gains, e.token = t := by
  have hplain : v < P.plain.warps := hv
  have hmem : (t, WriteWords.ringEntry gains (t % 32) ((T.words v).rank P.plain t - chunk * P.poolTok)) ∈
      (T.words v).walk P.plain chunk v gains :=
    (WriteWords.mem_walk (words_len T v) hplain).2 ⟨(words_liveAt t).2 hlive, (words_rankIn hv t).2 hin, rfl⟩
  rw [← ringWrites_eq hv] at hmem
  obtain ⟨e, he, heq⟩ := List.mem_map.1 hmem
  exact ⟨e, he, congrArg Prod.fst heq⟩

/-- A chunk's kept rows fit its pool rows. -/
theorem length_ringWrites_le : (T.ringWrites P chunk v gains).length ≤ P.poolTok := by
  have hsorted := @WriteWords.walk_sorted P.plain (T.words v) chunk v gains (words_len T v) hv
  rw [← ringWrites_eq hv, List.pairwise_map] at hsorted
  have hrows : ((T.ringWrites P chunk v gains).map fun e => T.rank e.token - chunk * P.poolTok).Nodup := by
    rw [List.Nodup, List.pairwise_map]
    refine hsorted.imp_of_mem fun {a b} ha hb hlt heq => ?_
    obtain ⟨hla, ⟨hloa, -⟩, -⟩ := mem_ringWrites hv gains ha
    obtain ⟨hlb, ⟨hlob, -⟩, -⟩ := mem_ringWrites hv gains hb
    have hrank := (T.words v).rank_lt P.plain
      (WriteWords.LiveAt.live _ _ hv ((words_liveAt (P := P) a.token).2 hla)) hlt
    rw [words_rank hv, words_rank hv] at hrank
    dsimp only at hrank
    omega
  have hsub : ((T.ringWrites P chunk v gains).map fun e => T.rank e.token - chunk * P.poolTok) ⊆
      List.range P.poolTok := by
    intro x hx
    obtain ⟨e, he, rfl⟩ := List.mem_map.1 hx
    obtain ⟨-, ⟨hlo, hhi⟩, -⟩ := mem_ringWrites hv gains he
    exact List.mem_range.2 (by omega)
  have hle := (hrows.subperm hsub).length_le
  rwa [List.length_map, List.length_range] at hle

end Walk

end FoldTables

end Rola
