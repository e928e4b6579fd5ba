import Rola.FoldRing
import Rola.PoolCursor

/-!
# The fold adds each live write once

Over a window's chunks a warp's ring holds its live tokens in order, each naming the row some one
warp's fill staged that token into, and past them the zero row.
-/

namespace Rola

namespace FoldTables

variable {P : FoldPlan} {T : FoldTables} {chunk rowbase t : ℕ}

/-! ### The fill -/

/-- The parts of a row. -/
def IsPart (P : FoldPlan) : PoolPart → Prop
  | .v c => c < P.vChunks
  | .inner h => h < 2
  | .outer h => h < 2

/-- The two lanes of a token copy each part once. -/
theorem mem_laneParts (part : PoolPart) : (∃ h < 2, part ∈ laneParts P h) ↔ IsPart P part := by
  obtain ⟨k, hk⟩ := P.vChunks_dvd
  cases part with
  | v c =>
    simp only [laneParts, List.mem_append, List.mem_map, List.mem_range, IsPart, List.mem_cons,
      PoolPart.v.injEq, reduceCtorEq, List.not_mem_nil, or_false, or_self]
    constructor
    · rintro ⟨h, hh, cc, hcc, rfl⟩
      omega
    · intro hc
      exact ⟨c % 2, by omega, c / 2, by omega, by omega⟩
  | inner h => simp [laneParts, IsPart]
  | outer h => simp [laneParts, IsPart]

/-- A token's row, read by its gain copy's lane. -/
theorem fillLane_eq {v : ℕ} (hv : v < P.warps) (rr l h : ℕ) :
    T.fillLane P rowbase chunk rr l h = (laneParts P h).map fun part =>
      let c := (T.words v).fillCopy P.plain rowbase chunk rr l
      ⟨c.row, part, if c.live then some ((rowbase + (rr * 32 + l)) % 2 ^ 32) else none⟩ := by
  simp only [fillLane, WriteWords.fillCopy, words_roundWord hv, words_prefixAt hv, decide_eq_true_eq]
  rfl

theorem mem_share {warp : ℕ} {c : PartCopy} : c ∈ T.fillShare P rowbase chunk warp ↔
    ∃ i < 2, T.roundWord P chunk (T.fillRound P chunk warp i) ≠ 0#32 ∧ ∃ l < 32, ∃ h < 2,
      c ∈ T.fillLane P rowbase chunk (T.fillRound P chunk warp i) l h := by
  simp only [fillShare, List.mem_flatMap, List.mem_range]
  constructor
  · rintro ⟨i, hi, hc⟩
    split_ifs at hc with hzero
    · exact absurd hc List.not_mem_nil
    · simp only [List.mem_flatMap, List.mem_range] at hc
      obtain ⟨half, hhalf, lane, hlane, hc⟩ := hc
      exact ⟨i, hi, hzero, half * 16 + lane % 16, by omega, lane / 16, by omega, hc⟩
  · rintro ⟨i, hi, hzero, l, hl, h, hh, hc⟩
    refine ⟨i, hi, ?_⟩
    rw [if_neg hzero]
    simp only [List.mem_flatMap, List.mem_range]
    refine ⟨l / 16, by omega, h * 16 + l % 16, by omega, ?_⟩
    rwa [show l / 16 * 16 + (h * 16 + l % 16) % 16 = l by omega, show (h * 16 + l % 16) / 16 = h by omega]

theorem warps_pos (P : FoldPlan) : 0 < P.warps := by
  have := WriteWords.warps_eq P.toPoolPlan
  omega

/-- A copy into a row below the zero row is a live token's, from the round its warp was dealt. -/
theorem copy_cases {warp : ℕ} {c : PartCopy} (hc : c ∈ T.fillShare P rowbase chunk warp) :
    IsPart P c.part ∧ (c.row = P.poolTok ∧ c.src = none ∨
      ∃ t i, i < 2 ∧ T.fillRound P chunk warp i = t / 32 ∧ T.Live t ∧ T.RankIn P chunk t ∧
        c.row = T.rank t - chunk * P.poolTok ∧ c.src = some ((rowbase + t) % 2 ^ 32)) := by
  obtain ⟨i, hi, -, l, hl, h, hh, hc⟩ := mem_share.1 hc
  have hv := warps_pos P
  rw [fillLane_eq hv] at hc
  obtain ⟨part, hpart, rfl⟩ := List.mem_map.1 hc
  refine ⟨(mem_laneParts part).1 ⟨h, hh, hpart⟩, ?_⟩
  dsimp only
  by_cases hrow : ((T.words 0).fillCopy P.plain rowbase chunk (T.fillRound P chunk warp i) l).row = P.poolTok
  · refine .inl ⟨hrow, if_neg fun hlive => ?_⟩
    have hin : WriteWords.InChunk P.plain ((T.words 0).roundWord P.plain chunk _) chunk l _ :=
      of_decide_eq_true hlive
    have hhi := hin.2.2
    have hlo := hin.2.1
    simp only [WriteWords.fillCopy, if_pos hin] at hrow
    simp only [FoldPlan.plain_poolTok] at hhi hlo hrow
    omega
  · obtain ⟨hr, hlive, hin⟩ := WriteWords.fillCopy_row hl hrow
    right
    refine ⟨32 * T.fillRound P chunk warp i + l, i, hi, by omega, (words_live hv _).1 hlive,
      (words_rankIn hv _).1 hin, ?_, ?_⟩
    · rw [WriteWords.fillCopy_of_live hl hr hlive hin, words_rank hv]
      rfl
    · rw [WriteWords.fillCopy_of_live hl hr hlive hin, if_pos rfl, mul_comm 32]

/-- The deal gives each round to one warp. -/
theorem fillRound_inj {warp warp' i i' : ℕ} (hw : warp < P.warps) (hw' : warp' < P.warps)
    (h : T.fillRound P chunk warp i = T.fillRound P chunk warp' i') : warp = warp' := by
  have h8 := WriteWords.warps_eq P.toPoolPlan
  have hmask : ∀ x : ℕ, x &&& (8 - 1) = x % 8 := fun x => Nat.and_two_pow_sub_one_eq_mod x 3
  simp only [fillRound, h8, hmask] at h hw hw'
  omega

/-- A live token of the chunk is staged by the warp its round is dealt to. -/
theorem exists_share (ht : T.Live t) (hin : T.RankIn P chunk t) : ∃ warp < P.warps, ∀ part, IsPart P part →
    ⟨T.rank t - chunk * P.poolTok, part, some ((rowbase + t) % 2 ^ 32)⟩ ∈
      T.fillShare P rowbase chunk warp := by
  have hv := warps_pos P
  have ht' : (T.words 0).Live P.plain t := (words_live hv t).2 ht
  have hin' : (T.words 0).RankIn P.plain chunk t := (words_rankIn hv t).2 hin
  have hlen := words_len T 0
  have hlast := hin'.round_le_last hlen ht'
  obtain ⟨warp, hwarp, i, hi, hr⟩ :=
    WriteWords.exists_fillRound (hin'.first_le_round hlen ht') (ht'.round_lt hlen)
  rw [words_fillRound hv] at hr
  have heq : 32 * (t / 32) + t % 32 = t := Nat.div_add_mod t 32
  have hl : t % 32 < 32 := Nat.mod_lt _ (by norm_num)
  refine ⟨warp, hwarp, fun part hpart => mem_share.2 ⟨i, hi, ?_, t % 32, hl, ?_⟩⟩
  · rw [hr, ← words_roundWord hv, WriteWords.roundWord, if_pos hlast]
    intro hzero
    rw [WriteWords.Live, hzero] at ht'
    simp at ht'
  · obtain ⟨h, hh, hmem⟩ := (mem_laneParts part).2 hpart
    refine ⟨h, hh, ?_⟩
    rw [hr, fillLane_eq hv, WriteWords.fillCopy_of_live hl hlast (by rwa [heq]) (by rwa [heq]), heq]
    refine List.mem_map.2 ⟨part, hmem, ?_⟩
    dsimp only
    rw [if_pos rfl, mul_comm (t / 32), heq, words_rank hv]
    rfl

/-! ### The slot -/

section Slot

variable {α : Type} {mem : PoolPart → ℕ → α} {zero : α} {old slot : ℕ → PoolPart → α}

theorem foldl_stagePart {copies : List PartCopy} {row : ℕ} {part : PoolPart} {src : Option ℕ}
    (hall : ∀ c ∈ copies, c.row = row → c.part = part → c.src = src)
    (h : old row part = partValue mem zero part src ∨
      ∃ c ∈ copies, c.row = row ∧ c.part = part) :
    copies.foldl (stagePart mem zero) old row part = partValue mem zero part src := by
  induction copies generalizing old with
  | nil => simpa using h
  | cons c copies ih =>
    refine ih (fun d hd => hall d (List.mem_cons_of_mem c hd)) ?_
    by_cases hc : c.row = row ∧ c.part = part
    · left
      obtain ⟨hrow, hpart⟩ := hc
      have hsrc := hall c List.mem_cons_self hrow hpart
      subst hrow hpart hsrc
      simp [stagePart]
    · rcases h with h | ⟨d, hd, hrow, hpart⟩
      · left
        rw [← h, stagePart]
        by_cases hrow : c.row = row
        · have hpart : part ≠ c.part := fun heq => hc ⟨hrow, heq.symm⟩
          subst hrow
          simp [hpart]
        · simp [Ne.symm hrow]
      · rcases List.mem_cons.1 hd with rfl | hd
        · exact absurd ⟨hrow, hpart⟩ hc
        · exact .inr ⟨d, hd, hrow, hpart⟩

theorem mem_order {order : List PartCopy}
    (hperm : order.Perm ((List.range P.warps).flatMap (T.fillShare P rowbase chunk))) {c : PartCopy} :
    c ∈ order ↔ ∃ warp < P.warps, c ∈ T.fillShare P rowbase chunk warp := by
  rw [hperm.mem_iff]
  simp [List.mem_flatMap, List.mem_range]

/-- A landed slot holds each live token's parts in the row of its rank. -/
theorem Landed.row (h : T.Landed P mem zero rowbase chunk old slot) (ht : T.Live t)
    (hin : T.RankIn P chunk t) {part : PoolPart} (hpart : IsPart P part) :
    slot (T.rank t - chunk * P.poolTok) part = mem part ((rowbase + t) % 2 ^ 32) := by
  obtain ⟨order, hperm, rfl⟩ := h
  refine @FoldTables.foldl_stagePart _ _ _ _ _ _ _ (some ((rowbase + t) % 2 ^ 32)) (fun c hc hrow _ => ?_) ?_
  · obtain ⟨warp, -, hc⟩ := (mem_order hperm).1 hc
    have hlo := hin.1
    have hhi := hin.2
    rcases (copy_cases hc).2 with ⟨hzero, -⟩ | ⟨t', i, -, -, ht', hin', hrow', hsrc⟩
    · omega
    · have hlo' := hin'.1
      have hrank : T.rank t' = T.rank t := by omega
      rw [hsrc, Nat.count_injective ht' ht hrank]
  · obtain ⟨warp, hwarp, hshare⟩ := @FoldTables.exists_share _ _ _ rowbase _ ht hin
    exact .inr ⟨_, (mem_order hperm).2 ⟨warp, hwarp, hshare part hpart⟩, rfl, rfl⟩

/-- No copy but zeros goes to the zero row. -/
theorem Landed.zeroRow (h : T.Landed P mem zero rowbase chunk old slot)
    (hold : ∀ part, old P.poolTok part = zero) (part : PoolPart) : slot P.poolTok part = zero := by
  obtain ⟨order, hperm, rfl⟩ := h
  refine @FoldTables.foldl_stagePart _ _ _ _ _ _ _ none (fun c hc hrow _ => ?_) (.inl (hold part))
  obtain ⟨warp, -, hc⟩ := (mem_order hperm).1 hc
  rcases (copy_cases hc).2 with ⟨-, hsrc⟩ | ⟨t, i, -, -, -, hin, hrow', -⟩
  · exact hsrc
  · have hlo := hin.1
    have hhi := hin.2
    omega

end Slot

/-! ### The ring -/

theorem nfrag_le (n : ℕ) : n ≤ 16 * nfrag n ∧ 16 * nfrag n ≤ padded n * 16 := by
  unfold padded nfrag
  omega

theorem padded_le {n : ℕ} (h : n ≤ walkEntries) : padded n * 16 ≤ walkEntries := by
  unfold walkEntries at h ⊢
  unfold padded nfrag
  omega

theorem foldl_pad (n k : ℕ) (x : BitVec 32) (ring : ℕ → BitVec 32) (i : ℕ) :
    (List.range' n k).foldl (fun ring idx => Function.update ring idx x) ring i =
      if n ≤ i ∧ i < n + k then x else ring i := by
  induction k generalizing n ring with
  | zero =>
    rw [if_neg (by omega)]
    rfl
  | succ k ih =>
    rw [List.range'_succ, List.foldl_cons, ih]
    by_cases h : n + 1 ≤ i ∧ i < n + 1 + k
    · rw [if_pos h, if_pos (by omega)]
    · rw [if_neg h]
      rcases eq_or_ne i n with rfl | hne
      · rw [Function.update_self, if_pos (by omega)]
      · rw [Function.update_of_ne hne, if_neg (by omega)]

theorem foldl_writes {writes : List RingWrite} {n : ℕ}
    (hidx : writes.map RingWrite.idx = List.range' n writes.length) (ring : ℕ → BitVec 32) {i : ℕ}
    (hi : i < writes.length) : writes.foldl (fun ring e => Function.update ring e.idx e.entry) ring (n + i) =
      (writes.get ⟨i, hi⟩).entry := by
  have hkeep : ∀ (writes : List RingWrite) (ring : ℕ → BitVec 32) (j : ℕ),
      (∀ e ∈ writes, e.idx ≠ j) →
      writes.foldl (fun ring e => Function.update ring e.idx e.entry) ring j = ring j := by
    intro writes
    induction writes with
    | nil => exact fun _ _ _ => rfl
    | cons e writes ih =>
      intro ring j hj
      rw [List.foldl_cons, ih _ j fun d hd => hj d (List.mem_cons_of_mem e hd),
        Function.update_of_ne (hj e List.mem_cons_self).symm]
  induction writes generalizing n ring i with
  | nil => exact absurd hi (Nat.not_lt_zero i)
  | cons e writes ih =>
    rw [List.map_cons, List.length_cons, List.range'_succ, List.cons.injEq] at hidx
    rw [List.foldl_cons]
    cases i with
    | zero =>
      rw [hkeep]
      · rw [Nat.add_zero, ← hidx.1, Function.update_self]
        rfl
      · intro d hd heq
        have hmem := List.mem_map_of_mem (f := RingWrite.idx) hd
        rw [hidx.2, List.mem_range'_1, heq] at hmem
        omega
    | succ i =>
      have h := ih hidx.2 (Function.update ring e.idx e.entry) (Nat.lt_of_succ_lt_succ hi)
      rw [show n + 1 + i = n + (i + 1) by omega] at h
      exact h

/-- The row a fragment reads off an entry: its low byte. -/
def entryRow (e : BitVec 32) : ℕ := (e &&& 0xFF#32).toNat

theorem entryRow_ringEntry {gains : ℕ → BitVec 32} {lane row : ℕ} (hrow : row < 256) :
    entryRow (WriteWords.ringEntry gains lane row) = row := by
  have hand : WriteWords.ringEntry gains lane row &&& 0xFF#32 = BitVec.ofNat 32 row := by
    refine BitVec.eq_of_getLsbD_eq fun i hi => ?_
    have hmask : (0xFF#32).getLsbD i = decide (i < 8) := getLsbD_byteMask i
    have hlow : (BitVec.ofNat 32 row).getLsbD i = true → i < 8 := by
      intro hbit
      rw [BitVec.getLsbD_ofNat, Bool.and_eq_true] at hbit
      by_contra hge
      have hlt : row < 2 ^ i := hrow.trans_le (Nat.pow_le_pow_right (n := 2) (by norm_num) (not_lt.1 hge))
      rw [Nat.testBit_lt_two_pow hlt] at hbit
      exact absurd hbit.2 (by simp)
    have hgain : i < 8 → (if lane % 2 = 1 then gains row &&& 0xFFFF0000#32 else gains row <<< 16).getLsbD i =
        false := by
      intro h8
      split
      · have hzero : ∀ i < 8, (0xFFFF0000#32).getLsbD i = false := by decide
        rw [BitVec.getLsbD_and, hzero i h8, Bool.and_false]
      · rw [BitVec.getLsbD_shiftLeft]
        simp only [show i < 16 by omega, decide_true, Bool.not_true, Bool.and_false, Bool.false_and]
    rw [BitVec.getLsbD_and, WriteWords.ringEntry, BitVec.getLsbD_or, hmask]
    by_cases h8 : i < 8
    · simp [h8, hgain h8]
    · rw [decide_eq_false h8, Bool.and_false]
      by_contra hbit
      exact h8 (hlow (by simpa using Ne.symm hbit))
  rw [entryRow, hand, BitVec.toNat_ofNat, Nat.mod_eq_of_lt (by omega)]

/-! ### A window -/

/-- Warp `v`'s fold of a window: `ring0 c` and `old c` are what chunk `c`'s walk and fill find in the ring
and the slot, `slots c` what has landed there and `gains c` its gain pairs. -/
structure FoldsOnce {α : Type} (P : FoldPlan) (T : FoldTables) (v rowbase : ℕ) (mem : PoolPart → ℕ → α)
    (zero : α) (gains ring0 : ℕ → ℕ → BitVec 32) (slots : ℕ → ℕ → PoolPart → α) : Prop where
  tokens : ((List.range (T.chunks P)).flatMap fun c => (T.ringWrites P c v (gains c)).map RingWrite.token) =
    (List.range window).filter fun t => T.LiveAt v t
  kept : ∀ c < T.chunks P, ∀ i (hi : i < (T.ringWrites P c v (gains c)).length),
    let e := (T.ringWrites P c v (gains c)).get ⟨i, hi⟩
    let row := entryRow (ringAfter (T.ringWrites P c v (gains c)) P.poolTok (ring0 c) i)
    e.idx = i ∧ row < P.poolTok ∧
      (∀ part, IsPart P part → slots c row part = mem part ((rowbase + e.token) % 2 ^ 32)) ∧
      ∃! warp, warp < P.warps ∧ ∃ x ∈ T.fillShare P rowbase c warp, x.row = row
  rest : ∀ c < T.chunks P, ∀ i, (T.ringWrites P c v (gains c)).length ≤ i →
    i < 16 * nfrag (T.ringWrites P c v (gains c)).length →
      let e := ringAfter (T.ringWrites P c v (gains c)) P.poolTok (ring0 c) i
      entryRow e = P.poolTok ∧ WriteWords.entryGain e = 0#16 ∧
        ∀ part, slots c (entryRow e) part = zero
  inside : ∀ c < T.chunks P, (T.ringWrites P c v (gains c)).length ≤ walkEntries ∧
    padded (T.ringWrites P c v (gains c)).length * 16 ≤ walkEntries ∧
    16 * nfrag (T.ringWrites P c v (gains c)).length ≤ walkEntries

theorem entryGain_zeroRow (P : FoldPlan) : entryRow (BitVec.ofNat 32 P.poolTok) = P.poolTok ∧
    WriteWords.entryGain (BitVec.ofNat 32 P.poolTok) = 0#16 := by
  have hlt := P.poolTok_lt
  have hle := P.poolTok_le
  unfold walkEntries at hle
  generalize P.poolTok = n at *
  interval_cases n <;> decide

/-- The filler of a kept row. -/
theorem existsUnique_share (ht : T.Live t) (hin : T.RankIn P chunk t) :
    ∃! warp, warp < P.warps ∧ ∃ x ∈ T.fillShare P rowbase chunk warp,
      x.row = T.rank t - chunk * P.poolTok := by
  obtain ⟨warp, hwarp, hshare⟩ := @FoldTables.exists_share _ _ _ rowbase _ ht hin
  have hpart : IsPart P (.inner 0) := by simp [IsPart]
  refine ⟨warp, ⟨hwarp, _, hshare _ hpart, rfl⟩, ?_⟩
  rintro warp' ⟨hwarp', x, hx, hrow⟩
  have hround : ∀ {warp} {x : PartCopy}, x ∈ T.fillShare P rowbase chunk warp →
      x.row = T.rank t - chunk * P.poolTok → ∃ i, T.fillRound P chunk warp i = t / 32 := by
    intro warp x hx hrow
    have hlo := hin.1
    have hhi := hin.2
    rcases (copy_cases hx).2 with ⟨hzero, -⟩ | ⟨t', i, -, hr, ht', hin', hrow', -⟩
    · omega
    · have hlo' := hin'.1
      have hrank : T.rank t' = T.rank t := by omega
      exact ⟨i, by rw [hr, Nat.count_injective ht' ht hrank]⟩
  obtain ⟨i, hi⟩ := hround (hshare _ hpart) rfl
  obtain ⟨i', hi'⟩ := hround hx hrow
  exact fillRound_inj hwarp' hwarp (hi'.trans hi.symm)

/-- Over any window's tables the fold adds each of a warp's live writes once. -/
theorem fold_adds_once {α : Type} (P : FoldPlan) (T : FoldTables) (v rowbase : ℕ) (hv : v < P.warps)
    (mem : PoolPart → ℕ → α) (zero : α) (gains ring0 : ℕ → ℕ → BitVec 32)
    (old slots : ℕ → ℕ → PoolPart → α) (hzero : ∀ c part, old c P.poolTok part = zero)
    (hland : ∀ c < T.chunks P, T.Landed P mem zero rowbase c (old c) (slots c)) :
    FoldsOnce P T v rowbase mem zero gains ring0 slots := by
  have hlen : ∀ c, (T.ringWrites P c v (gains c)).length ≤ walkEntries := fun c =>
    (length_ringWrites_le hv (gains c)).trans P.poolTok_le
  refine ⟨?_, fun c hc i hi => ?_, fun c hc i hle hlt => ?_, fun c _ => ⟨hlen c, padded_le (hlen c), ?_⟩⟩
  · have htokens := @WriteWords.folded_tokens P.plain (T.words v) _ gains (words_len T v) hv
    rw [WriteWords.folded, List.map_flatMap, words_chunks hv] at htokens
    have heach : ∀ c, (T.ringWrites P c v (gains c)).map RingWrite.token =
        (((T.words v).walk P.plain c v (gains c)).map fun e => (e.1, WriteWords.entryGain e.2)).map
          Prod.fst := by
      intro c
      rw [← ringWrites_eq hv, List.map_map, List.map_map]
      rfl
    simp only [heach]
    refine htokens.trans (List.filter_congr fun t _ => ?_)
    simp only [words_liveAt]
  · dsimp only
    have hmem := List.get_mem (T.ringWrites P c v (gains c)) ⟨i, hi⟩
    obtain ⟨hlive, hin, hentry⟩ := mem_ringWrites hv (gains c) hmem
    have hidx := @FoldTables.ringWrites_idx P T v c (gains c)
    have hring : ringAfter (T.ringWrites P c v (gains c)) P.poolTok (ring0 c) i =
        ((T.ringWrites P c v (gains c)).get ⟨i, hi⟩).entry := by
      rw [ringAfter, foldl_pad, if_neg (by omega)]
      have h := foldl_writes (n := 0) (by rw [hidx, List.range_eq_range']) (ring0 c) hi
      rwa [Nat.zero_add] at h
    have ht : T.Live ((T.ringWrites P c v (gains c)).get ⟨i, hi⟩).token :=
      T.sub v _ _ hlive
    have hlo := hin.1
    have hhi := hin.2
    have htok := P.poolTok_lt
    have hrow : entryRow (ringAfter (T.ringWrites P c v (gains c)) P.poolTok (ring0 c) i) =
        T.rank ((T.ringWrites P c v (gains c)).get ⟨i, hi⟩).token - c * P.poolTok := by
      rw [hring, hentry, entryRow_ringEntry (by omega)]
    rw [hrow]
    refine ⟨?_, by omega, fun part hpart => (hland c hc).row ht hin hpart, existsUnique_share ht hin⟩
    have h := congrArg (fun l => l[i]?) hidx
    simp only [List.getElem?_map, List.getElem?_range hi, List.getElem?_eq_getElem hi, Option.map_some,
      Option.some.injEq] at h
    exact h
  · dsimp only
    obtain ⟨hrow, hgain⟩ := entryGain_zeroRow P
    have hpad := nfrag_le (T.ringWrites P c v (gains c)).length
    have hring : ringAfter (T.ringWrites P c v (gains c)) P.poolTok (ring0 c) i =
        BitVec.ofNat 32 P.poolTok := by
      rw [ringAfter, foldl_pad, if_pos (by omega)]
    rw [hring, hrow]
    exact ⟨rfl, hgain, fun part => (hland c hc).zeroRow (hzero c) part⟩
  · exact (nfrag_le _).2.trans (padded_le (hlen c))

/-- The arm at `DV = 64`: two tokens live for warp 3, one of them in the union for another warp too. -/
theorem fold_adds_once_two : ∃ (P : FoldPlan) (T : FoldTables) (slots : ℕ → ℕ → PoolPart → ℕ),
    (P.warps = 8 ∧ T.chunks P = 1) ∧
      FoldsOnce P T 3 1024 (fun _ row => row + 1) 0 (fun _ _ => 0#32) (fun _ _ => 0#32) slots := by
  let P : FoldPlan :=
    { warps := 8, dealt := 2, poolTok := 64, warps_shape := .inl rfl, fills := by decide
      poolTok_pos := by decide, poolTok_lt := by decide, vChunks := 8, vChunks_dvd := by decide
      poolTok_le := by decide, poolTok_dvd := by decide }
  let T : FoldTables :=
    { union := fun rho => if rho = 2 then 7#32 else 0#32
      warp := fun v rho => if v = 3 ∧ rho = 2 then 5#32 else 0#32
      past := fun rho hrho => if_neg (by unfold rounds at hrho; omega)
      sub := fun v rho i h => by
        split at h
        · rename_i hv
          have hbits : ∀ i < 32, (5#32).getLsbD i = true → (7#32).getLsbD i = true := by decide
          rw [if_pos hv.2]
          exact hbits i (BitVec.lt_of_getLsbD h) h
        · simp at h }
  let slots : ℕ → ℕ → PoolPart → ℕ := fun c =>
    ((List.range P.warps).flatMap (T.fillShare P 1024 c)).foldl
      (stagePart (fun _ row => row + 1) 0) fun _ _ => 0
  exact ⟨P, T, slots, by decide +kernel, fold_adds_once P T 3 1024 (by decide) _ 0 _ _
    (fun _ _ _ => 0) slots (fun _ _ => rfl) fun c _ => ⟨_, List.Perm.refl _, rfl⟩⟩

end FoldTables

theorem WriteWords.unionWord_past {P : PoolPlan} {W : WriteWords} (hlen : W.len ≤ window) (rho : ℕ) (hrho : rounds ≤ rho) :
    W.unionWord P rho = 0#32 := by
  refine BitVec.eq_of_getLsbD_eq fun i hi => ?_
  by_contra hbit
  have hlive : W.Live P (rho * 32 + i) := by
    rw [WriteWords.Live, show (rho * 32 + i) / 32 = rho by omega, show (rho * 32 + i) % 32 = i by omega]
    simpa using hbit
  have hround := hlive.round_lt hlen
  omega

theorem WriteWords.warpWord_sub (P : PoolPlan) (W : WriteWords) (v rho i : ℕ)
    (h : (if v < P.warps then W.warpWord P v rho else 0#32).getLsbD i = true) : (W.unionWord P rho).getLsbD i = true := by
  split at h
  · rename_i hv
    rw [WriteWords.unionWord, WriteWords.foldl_or_getLsbD]
    exact .inr ⟨v, List.mem_range.2 hv, h⟩
  · simp at h

/-- A head's tables. -/
def WriteWords.tables (P : PoolPlan) (W : WriteWords) (hlen : W.len ≤ window) : FoldTables where
  union := W.unionWord P
  warp v rho := if v < P.warps then W.warpWord P v rho else 0#32
  past := unionWord_past hlen
  sub := warpWord_sub P W

/-- What a head's tables count as live: the tokens before the length, in a box the warp is dealt. -/
theorem WriteWords.tables_liveAt {P : PoolPlan} {W : WriteWords} (hlen : W.len ≤ window) {v t : ℕ}
    (hv : v < P.warps) : (W.tables P hlen).LiveAt v t ↔
      (∃ i < P.dealt, (W.box (v + i * P.warps) (t / 32)).getLsbD (t % 32) = true) ∧ t < W.len := by
  rw [← W.liveAt_iff P v t, FoldTables.LiveAt, WriteWords.LiveAt]
  simp only [WriteWords.tables, if_pos hv]

end Rola
