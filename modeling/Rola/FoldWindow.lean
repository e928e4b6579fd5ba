import Rola.FragmentSum

/-!
# A window's fold

A window's chunks are folded one after another out of their slots and rings, and each accumulator of a
warp gains its live tokens' products, each once; a box's mass gains their weights.
-/

namespace Rola

open Warp

/-! ### The ring -/

namespace FoldTables

variable {P : FoldPlan} {T : FoldTables} {v c : ℕ} {gains ring : ℕ → BitVec 32}

theorem ringAfter_kept {e : RingWrite} (he : e ∈ T.ringWrites P c v gains) :
    ringAfter (T.ringWrites P c v gains) P.poolTok ring e.idx = e.entry := by
  obtain ⟨i, hi, rfl⟩ := List.mem_iff_getElem.1 he
  have hidx := @ringWrites_idx P T v c gains
  have hat : (T.ringWrites P c v gains)[i].idx = i := by
    have h := congrArg (fun l => l[i]?) hidx
    simp only [List.getElem?_map, List.getElem?_range hi, List.getElem?_eq_getElem hi, Option.map_some, Option.some.injEq] at h
    exact h
  have hwrite := foldl_writes (n := 0) (by rw [hidx, List.range_eq_range']) ring hi
  rw [Nat.zero_add] at hwrite
  rw [hat, ringAfter, foldl_pad, if_neg (by omega)]
  exact hwrite

theorem ringAfter_rest {writes : List RingWrite} {i : ℕ} (hlo : writes.length ≤ i) (hhi : i < nfrag writes.length * 16) :
    ringAfter writes P.poolTok ring i = BitVec.ofNat 32 P.poolTok := by
  have hpad := nfrag_le writes.length
  rw [ringAfter, foldl_pad, if_pos (by omega)]

theorem entry_zeroRow (P : FoldPlan) : entryRow (BitVec.ofNat 32 P.poolTok) = P.poolTok ∧
    WriteWords.entryGain (BitVec.ofNat 32 P.poolTok) = 0#16 := entryGain_zeroRow P

instance (c : ℕ) : DecidablePred (T.RankIn P c) := fun _ => inferInstanceAs (Decidable (_ ∧ _))

theorem rankIn_iff (c t : ℕ) : T.RankIn P c t ↔ T.rank t / P.poolTok = c := by
  have hpos : 0 < P.poolTok := by
    have h := P.poolTok_pos
    omega
  rw [Nat.div_eq_iff hpos]
  unfold RankIn
  omega

theorem nodup_tokens (hv : v < P.warps) : ((T.ringWrites P c v gains).map RingWrite.token).Nodup := by
  have hsorted := @WriteWords.walk_sorted P.plain (T.words v) c v gains (words_len T v) hv
  rw [← ringWrites_eq hv, List.pairwise_map] at hsorted
  rw [List.Nodup, List.pairwise_map]
  exact hsorted.imp fun hlt => Nat.ne_of_lt hlt

theorem LiveAt.lt {t : ℕ} (h : T.LiveAt v t) : t < window := by
  by_contra hge
  have hround : rounds ≤ t / 32 := by
    unfold rounds
    unfold window at hge
    omega
  rw [LiveAt, warp_past hround] at h
  simp at h

theorem LiveAt.chunk_lt {t : ℕ} (hv : v < P.warps) (h : T.LiveAt v t) : T.rank t / P.poolTok < T.chunks P := by
  have hlive : (T.words v).Live P.plain t := WriteWords.LiveAt.live _ _ hv ((words_liveAt t).2 h)
  have hlt := WriteWords.chunk_lt P.plain (T.words v) hlive (words_len T v)
  rwa [words_rank hv, words_chunks hv] at hlt

end FoldTables

/-! ### The chunks -/

section Window

variable (P : FragPlan) (T : FoldTables) (hmul : BitVec 16 → BitVec 16 → BitVec 16) (v rowbase : ℕ)

/-- What a chunk is folded out of: its slot, the memory, its gain pairs, and what the ring and the
registers held before. -/
structure TakenChunk where
  slot : ℕ
  mem : ℕ → BitVec 16
  gains : ℕ → BitVec 32
  ring : ℕ → BitVec 32
  a : FragOperands
  b : FragOperands
  a' : FragOperands
  b' : FragOperands

variable {K : Type} [Semiring K] (val : BitVec 16 → K) (bits : K → BitVec 32)

/-- A chunk: its walk into the ring, and its fragments. -/
def foldTaken (c : ℕ) (x : TakenChunk) (st : FoldState K) : FoldState K :=
  let writes := T.ringWrites P.toFoldPlan c v x.gains
  foldChunk P hmul x.mem x.slot (FoldTables.ringAfter writes P.poolTok x.ring) v val bits (FoldTables.nfrag writes.length)
    x.a x.b x.a' x.b' st

def foldWindow (xs : ℕ → TakenChunk) (st : FoldState K) : FoldState K :=
  (List.range (T.chunks P.toFoldPlan)).foldl (fun st c => foldTaken P T hmul v val bits c (xs c) st) st

/-- A chunk's slot under its full barrier: every warp's copies landed over a zeroed zero row, and the gain
pairs. -/
structure TakenChunk.Landed (plane : PoolPart → ℕ → ℕ → BitVec 16) (gmem : ℕ → BitVec 16) (c : ℕ) (x : TakenChunk) : Prop where
  copies : ∃ (old : ℕ → BitVec 16) (order : List PartCopy),
    order.Perm ((List.range P.warps).flatMap (T.fillShare P.toFoldPlan rowbase c)) ∧
    (∀ part, FoldTables.IsPart P.toFoldPlan part → ∀ i < 8, old ((x.slot + P.partOff P.poolTok part) / 2 + i) = 0#16) ∧
    ∀ row ≤ P.poolTok, ∀ part, FoldTables.IsPart P.toFoldPlan part → ∀ i < 8, x.mem ((x.slot + P.partOff row part) / 2 + i) =
      order.foldl (stageHalves P plane x.slot) old ((x.slot + P.partOff row part) / 2 + i)
  gains : (T.words v).Landed P.plain gmem rowbase c x.gains

variable {P T hmul v rowbase val bits}

/-- A slot's parts over its zero row. -/
def zeroedParts (P : FragPlan) (old : ℕ → BitVec 16) (slot row : ℕ) (part : PoolPart) (i : ℕ) : BitVec 16 :=
  if row = P.poolTok then 0#16 else old ((slot + P.partOff row part) / 2 + i)

/-- A landed slot holds the parts of its tokens, and the zero row. -/
theorem TakenChunk.Landed.holds {plane : PoolPart → ℕ → ℕ → BitVec 16} {gmem : ℕ → BitVec 16} {c : ℕ} {x : TakenChunk}
    (hchunks : 8 ∣ P.vChunks) (h : x.Landed P T v rowbase plane gmem c) : ∃ parts, SlotHolds P x.mem x.slot parts ∧
      (∀ t, T.Live t → T.RankIn P.toFoldPlan c t → ∀ part, FoldTables.IsPart P.toFoldPlan part →
        parts (T.rank t - c * P.poolTok) part = plane part ((rowbase + t) % 2 ^ 32)) ∧
      ∀ part, parts P.poolTok part = fun _ => 0#16 := by
  obtain ⟨old, order, hperm, hzero, hmem⟩ := h.copies
  have hland : T.Landed P.toFoldPlan plane (fun _ => 0#16) rowbase c (zeroedParts P old x.slot)
      (order.foldl (FoldTables.stagePart plane fun _ => 0#16) (zeroedParts P old x.slot)) := ⟨order, hperm, rfl⟩
  have hold : SlotHolds P old x.slot (zeroedParts P old x.slot) := by
    intro y hy i hi
    dsimp only
    rw [zeroedParts]
    split
    · rename_i heq
      rw [partPlace, heq]
      exact hzero y.2 hy.2 i hi
    · rfl
  have hrows : ∀ d ∈ order, InSlot P (d.row, d.part) := by
    intro d hd
    obtain ⟨warp, -, hshare⟩ := (FoldTables.mem_order hperm).1 hd
    obtain ⟨hpart, hcase⟩ := FoldTables.copy_cases hshare
    refine ⟨?_, hpart⟩
    dsimp only
    rcases hcase with ⟨hrow, -⟩ | ⟨t, i, -, -, -, hin, hrow, -⟩
    · exact Nat.le_of_eq hrow
    · have hlo := hin.1
      have hhi := hin.2
      omega
  refine ⟨_, fun y hy i hi => ?_, fun t ht hin part hpart => hland.row ht hin hpart,
    fun part => hland.zeroRow (fun part => ?_) part⟩
  · exact (hmem y.1 hy.1 y.2 hy.2 i hi).trans (hold.foldl_stage hchunks hrows y hy i hi)
  · funext i
    exact if_pos rfl

/-! ### The tokens -/

/-- A token's parts in the planes. -/
def tokenRow (plane : PoolPart → ℕ → ℕ → BitVec 16) (rowbase t : ℕ) : PoolPart → ℕ → BitVec 16 :=
  fun part => plane part ((rowbase + t) % 2 ^ 32)

variable (hmul rowbase val) in
/-- A token's addition to a box's accumulator, and to its mass. -/
def tokenTerm (plane : PoolPart → ℕ → ℕ → BitVec 16) (gmem : ℕ → BitVec 16) (box leaf channel t : ℕ) : K :=
  val (weightAt hmul (tokenRow plane rowbase t) (WriteWords.selected gmem rowbase t) box leaf) *
    val (valueAt (tokenRow plane rowbase t) channel)

variable (hmul rowbase val) in
def tokenMass (plane : PoolPart → ℕ → ℕ → BitVec 16) (gmem : ℕ → BitVec 16) (box leaf col t : ℕ) : K :=
  if col = 0 then val (weightAt hmul (tokenRow plane rowbase t) (WriteWords.selected gmem rowbase t) box leaf) else 0

section Chunk

variable {plane : PoolPart → ℕ → ℕ → BitVec 16} {gmem : ℕ → BitVec 16} {c : ℕ} {x : TakenChunk} {parts : ℕ → PoolPart → ℕ → BitVec 16}

/-- A kept entry names its token's row and gain. -/
theorem kept_entry (hv : v < P.warps) (hrows : ∀ t, T.Live t → rowbase + t < 2 ^ 26) (h : x.Landed P T v rowbase plane gmem c)
    (hparts : ∀ t, T.Live t → T.RankIn P.toFoldPlan c t → ∀ part, FoldTables.IsPart P.toFoldPlan part →
      parts (T.rank t - c * P.poolTok) part = plane part ((rowbase + t) % 2 ^ 32))
    {e : FoldTables.RingWrite} (he : e ∈ T.ringWrites P.toFoldPlan c v x.gains) :
    FoldTables.entryRow e.entry < P.poolTok ∧ WriteWords.entryGain e.entry = WriteWords.selected gmem rowbase e.token ∧
      ∀ part, FoldTables.IsPart P.toFoldPlan part → parts (FoldTables.entryRow e.entry) part = tokenRow plane rowbase e.token part := by
  obtain ⟨hlive, hin, hentry⟩ := FoldTables.mem_ringWrites hv x.gains he
  have ht : T.Live e.token := T.sub v _ _ hlive
  have hlo := hin.1
  have hhi := hin.2
  have htok := P.poolTok_lt
  have hrow : FoldTables.entryRow e.entry = T.rank e.token - c * P.poolTok := by
    rw [hentry, FoldTables.entryRow_ringEntry (by omega)]
  refine ⟨by omega, ?_, fun part hpart => ?_⟩
  · have hgain := h.gains.selected (FoldTables.words_len T v) ((FoldTables.words_live hv e.token).2 ht)
      ((FoldTables.words_rankIn hv e.token).2 hin) (hrows e.token ht)
    rw [FoldTables.words_rank hv] at hgain
    rw [hentry]
    exact hgain
  · rw [hrow]
    exact hparts e.token ht hin part hpart

/-- A sum over a chunk's entries is over its tokens, where the zero row adds nothing. -/
theorem sum_entries (hv : v < P.warps) {ring : ℕ → BitVec 32} {g : BitVec 32 → K} {f : ℕ → K}
    (hkept : ∀ e ∈ T.ringWrites P.toFoldPlan c v x.gains, g e.entry = f e.token) (hrest : g (BitVec.ofNat 32 P.poolTok) = 0) :
    ∑ i ∈ Finset.range (FoldTables.nfrag (T.ringWrites P.toFoldPlan c v x.gains).length * 16),
        g (FoldTables.ringAfter (T.ringWrites P.toFoldPlan c v x.gains) P.poolTok ring i) =
      ∑ t ∈ (Finset.range window).filter (fun t => T.LiveAt v t ∧ T.RankIn P.toFoldPlan c t), f t := by
  have hkeptAt := fun e he => @FoldTables.ringAfter_kept P.toFoldPlan T v c x.gains ring e he
  have hrestAt := fun i => @FoldTables.ringAfter_rest P.toFoldPlan ring (T.ringWrites P.toFoldPlan c v x.gains) i
  have hmem : ∀ t, t ∈ (T.ringWrites P.toFoldPlan c v x.gains).map FoldTables.RingWrite.token ↔
      T.LiveAt v t ∧ T.RankIn P.toFoldPlan c t := by
    intro t
    rw [List.mem_map]
    constructor
    · rintro ⟨e, he, rfl⟩
      obtain ⟨hlive, hin, -⟩ := FoldTables.mem_ringWrites hv x.gains he
      exact ⟨hlive, hin⟩
    · rintro ⟨hlive, hin⟩
      exact FoldTables.token_mem_ringWrites hv x.gains hlive hin
  have hidx := @FoldTables.ringWrites_idx P.toFoldPlan T v c x.gains
  have hnodup := @FoldTables.nodup_tokens P.toFoldPlan T v c x.gains hv
  have hfrag := (FoldTables.nfrag_le (T.ringWrites P.toFoldPlan c v x.gains).length).1
  generalize T.ringWrites P.toFoldPlan c v x.gains = writes at *
  have hfilter : (Finset.range window).filter (fun t => T.LiveAt v t ∧ T.RankIn P.toFoldPlan c t) =
      (writes.map FoldTables.RingWrite.token).toFinset := by
    ext t
    rw [Finset.mem_filter, List.mem_toFinset, hmem, Finset.mem_range]
    exact ⟨fun h => h.2, fun h => ⟨h.1.lt, h⟩⟩
  have hsplit : Finset.range writes.length ⊆ Finset.range (FoldTables.nfrag writes.length * 16) :=
    Finset.range_subset_range.2 (by omega)
  rw [← Finset.sum_subset hsplit fun i hi hout => ?_, hfilter, List.sum_toFinset f hnodup, ← List.toFinset_range,
    List.sum_toFinset _ List.nodup_range, ← hidx, List.map_map, List.map_map]
  · refine congrArg List.sum (List.map_congr_left fun e he => ?_)
    rw [Function.comp_apply, Function.comp_apply, hkeptAt e he, hkept e he]
  · rw [Finset.mem_range] at hi hout
    rw [hrestAt i (Nat.le_of_not_lt hout) hi, hrest]

variable {bi lane i : ℕ}

theorem dealtBox_lt (P : FragPlan) (hv : v < P.warps) (hbi : bi < 2) : dealtBox v bi P.warps < 16 := by
  have hwarps := WriteWords.warps_eq P.toPoolPlan
  rw [hwarps] at hv
  rw [dealtBox, hwarps]
  omega

/-- A chunk adds its tokens' products. -/
theorem foldTaken_sum (hval : val 0#16 = 0) (hone : val 0x3F80#16 = 1) (hzero : hmul 0#16 0#16 = 0#16) (hchunks : 8 ∣ P.vChunks)
    (hv : v < P.warps) (hrows : ∀ t, T.Live t → rowbase + t < 2 ^ 26) (h : x.Landed P T v rowbase plane gmem c) (hbi : bi < 2)
    (hlane : lane < 32) (hi : i < 4) (st : FoldState K) :
    (∀ j < P.kNT, (foldTaken P T hmul v val bits c x st).c bi j lane i = st.c bi j lane i +
      ∑ t ∈ (Finset.range window).filter (fun t => T.LiveAt v t ∧ T.RankIn P.toFoldPlan c t),
        tokenTerm hmul rowbase val plane gmem (dealtBox v bi P.warps) (rowOf lane i) (8 * j + colOf lane i) t) ∧
    (foldTaken P T hmul v val bits c x st).m bi lane i = st.m bi lane i +
      ∑ t ∈ (Finset.range window).filter (fun t => T.LiveAt v t ∧ T.RankIn P.toFoldPlan c t),
        tokenMass hmul rowbase val plane gmem (dealtBox v bi P.warps) (rowOf lane i) (colOf lane i) t := by
  obtain ⟨parts, hslot, hparts, hzeroRow⟩ := h.holds hchunks
  obtain ⟨hrest, hrestGain⟩ := FoldTables.entry_zeroRow P.toFoldPlan
  have hbox := dealtBox_lt P hv hbi
  have hrow : rowOf lane i < 16 := by
    unfold rowOf
    omega
  have hcol : colOf lane i < 8 := by
    unfold colOf
    omega
  have hkept := fun e he => @kept_entry P T v rowbase plane gmem c x parts hv hrows h hparts e he
  have hweight : ∀ e ∈ T.ringWrites P.toFoldPlan c v x.gains,
      weightAt hmul (parts (FoldTables.entryRow e.entry)) (WriteWords.entryGain e.entry) (dealtBox v bi P.warps) (rowOf lane i) =
        weightAt hmul (tokenRow plane rowbase e.token) (WriteWords.selected gmem rowbase e.token) (dealtBox v bi P.warps) (rowOf lane i) := by
    intro e he
    obtain ⟨-, hgain, hpart⟩ := hkept e he
    have hinner : FoldTables.IsPart P.toFoldPlan (.inner (rowOf lane i / 8)) := show rowOf lane i / 8 < 2 by omega
    have houter : FoldTables.IsPart P.toFoldPlan (.outer (dealtBox v bi P.warps / 8)) := show dealtBox v bi P.warps / 8 < 2 by omega
    rw [weightAt, hgain, hpart _ hinner, hpart _ houter, weightAt]
  have hzeroWeight : weightAt hmul (parts P.poolTok) 0#16 (dealtBox v bi P.warps) (rowOf lane i) = 0#16 := by
    rw [weightAt, hzeroRow, hzeroRow, hzero, hzero]
  have hbelow : ∀ e < FoldTables.nfrag (T.ringWrites P.toFoldPlan c v x.gains).length * 16,
      FoldTables.entryRow (FoldTables.ringAfter (T.ringWrites P.toFoldPlan c v x.gains) P.poolTok x.ring e) ≤ P.poolTok := by
    intro e he
    rcases Nat.lt_or_ge e (T.ringWrites P.toFoldPlan c v x.gains).length with hlt | hge
    · have hidx := @FoldTables.ringWrites_idx P.toFoldPlan T v c x.gains
      have hmem : e ∈ (T.ringWrites P.toFoldPlan c v x.gains).map FoldTables.RingWrite.idx := by
        rw [hidx, List.mem_range]
        exact hlt
      obtain ⟨w, hw, rfl⟩ := List.mem_map.1 hmem
      rw [FoldTables.ringAfter_kept hw]
      exact Nat.le_of_lt (hkept w hw).1
    · rw [FoldTables.ringAfter_rest hge he, hrest]
  obtain ⟨hc, hm⟩ := @foldChunk_sum P hmul x.mem x.slot
    (FoldTables.ringAfter (T.ringWrites P.toFoldPlan c v x.gains) P.poolTok x.ring) v K _ val parts bits _ hval hone hslot hbelow hv
    x.a x.b x.a' x.b' bi lane i hbi hlane hi st
  unfold foldTaken
  refine ⟨fun j hj => (hc j hj).trans ?_, hm.trans ?_⟩
  · refine congrArg (st.c bi j lane i + ·) (sum_entries (x := x) hv (g := fun e =>
      termAt hmul val parts e (dealtBox v bi P.warps) (rowOf lane i) (8 * j + colOf lane i)) (fun e he => ?_) ?_)
    · have hvalue : FoldTables.IsPart P.toFoldPlan (.v ((8 * j + colOf lane i) / 8)) :=
        show (8 * j + colOf lane i) / 8 < P.vChunks by
          have hkNT : P.kNT = P.vChunks := rfl
          omega
      rw [termAt, hweight e he, valueAt, (hkept e he).2.2 _ hvalue]
      rfl
    · rw [termAt, hrest, hrestGain, hzeroWeight, hval, zero_mul]
  · refine congrArg (st.m bi lane i + ·) (sum_entries (x := x) hv (g := fun e =>
      massAt hmul val parts e (dealtBox v bi P.warps) (rowOf lane i) (colOf lane i)) (fun e he => ?_) ?_)
    · rw [massAt, hweight e he]
      rfl
    · rw [massAt, hrest, hrestGain, hzeroWeight, hval, ite_self]

end Chunk

/-! ### The window -/

/-- The chunks take a warp's live tokens apart. -/
theorem sum_chunks (hv : v < P.warps) (f : ℕ → K) : ∑ c ∈ Finset.range (T.chunks P.toFoldPlan),
      ∑ t ∈ (Finset.range window).filter (fun t => T.LiveAt v t ∧ T.RankIn P.toFoldPlan c t), f t =
    ∑ t ∈ (Finset.range window).filter (fun t => T.LiveAt v t), f t := by
  have hmaps : ∀ t ∈ (Finset.range window).filter (fun t => T.LiveAt v t), T.rank t / P.poolTok ∈ Finset.range (T.chunks P.toFoldPlan) := by
    intro t ht
    rw [Finset.mem_range]
    exact FoldTables.LiveAt.chunk_lt hv (Finset.mem_filter.1 ht).2
  rw [← Finset.sum_fiberwise_of_maps_to hmaps]
  refine Finset.sum_congr rfl fun c _ => Finset.sum_congr ?_ fun _ _ => rfl
  rw [Finset.filter_filter]
  exact Finset.filter_congr fun t _ => and_congr_right fun _ => FoldTables.rankIn_iff c t

/-- Over a window each accumulator of a warp gains its live tokens' products, and each mass their weights. -/
theorem foldWindow_sum {plane : PoolPart → ℕ → ℕ → BitVec 16} {gmem : ℕ → BitVec 16} {xs : ℕ → TakenChunk} (hval : val 0#16 = 0)
    (hone : val 0x3F80#16 = 1) (hzero : hmul 0#16 0#16 = 0#16) (hchunks : 8 ∣ P.vChunks) (hv : v < P.warps)
    (hrows : ∀ t, T.Live t → rowbase + t < 2 ^ 26)
    (hland : ∀ c < T.chunks P.toFoldPlan, (xs c).Landed P T v rowbase plane gmem c) {bi lane i : ℕ} (hbi : bi < 2) (hlane : lane < 32)
    (hi : i < 4) (st : FoldState K) :
    (∀ j < P.kNT, (foldWindow P T hmul v val bits xs st).c bi j lane i = st.c bi j lane i +
      ∑ t ∈ (Finset.range window).filter (fun t => T.LiveAt v t),
        tokenTerm hmul rowbase val plane gmem (dealtBox v bi P.warps) (rowOf lane i) (8 * j + colOf lane i) t) ∧
    (foldWindow P T hmul v val bits xs st).m bi lane i = st.m bi lane i +
      ∑ t ∈ (Finset.range window).filter (fun t => T.LiveAt v t),
        tokenMass hmul rowbase val plane gmem (dealtBox v bi P.warps) (rowOf lane i) (colOf lane i) t := by
  simp only [← sum_chunks hv]
  unfold foldWindow
  generalize T.chunks P.toFoldPlan = n at *
  induction n with
  | zero => simp
  | succ n ih =>
    obtain ⟨hc, hm⟩ := ih fun c hc => hland c (Nat.lt_succ_of_lt hc)
    rw [List.range_succ, List.foldl_append, List.foldl_cons, List.foldl_nil]
    obtain ⟨hcn, hmn⟩ := @foldTaken_sum P T hmul v rowbase K _ val bits plane gmem n (xs n) bi lane i hval hone hzero hchunks hv hrows (hland n (Nat.lt_succ_self n)) hbi hlane hi
      ((List.range n).foldl (fun st c => foldTaken P T hmul v val bits c (xs c) st) st)
    refine ⟨fun j hj => ?_, ?_⟩
    · rw [hcn j hj, hc j hj, Finset.sum_range_succ _ n, add_assoc]
    · rw [hmn, hm, Finset.sum_range_succ _ n, add_assoc]

end Window

/-- Two tokens live for warp 3, amplitudes and values one and gains two, in units. -/
theorem foldWindow_sum_two : ∃ (P : FragPlan) (T : FoldTables) (hmul : BitVec 16 → BitVec 16 → BitVec 16) (val : BitVec 16 → ℕ)
    (xs : ℕ → TakenChunk), (T.chunks P.toFoldPlan = 1 ∧ T.LiveAt 3 64 ∧ T.LiveAt 3 66 ∧ val 0x4000#16 = 2) ∧ ∀ st : FoldState ℕ,
      (foldWindow P T hmul 3 val (BitVec.ofNat 32) xs st).c 1 7 31 2 = st.c 1 7 31 2 + 4 ∧
      (foldWindow P T hmul 3 val (BitVec.ofNat 32) xs st).m 1 4 2 = st.m 1 4 2 + 4 := by
  let P : FragPlan :=
    { warps := 8, dealt := 2, poolTok := 64, warps_shape := .inl rfl, fills := by decide
      poolTok_pos := by decide, poolTok_lt := by decide, vChunks := 8, vChunks_dvd := by decide
      poolTok_le := by decide, poolTok_dvd := by decide, dealt_eq := rfl, vChunks_ge := by decide }
  let T : FoldTables :=
    { union := fun rho => if rho = 2 then 7#32 else 0#32
      warp := fun v rho => if v = 3 ∧ rho = 2 then 5#32 else 0#32
      past := fun rho hrho => if_neg (by unfold rounds at hrho; omega)
      sub := fun v rho i h => by
        split at h
        · rename_i hv
          have hbits : ∀ i < 32, (5#32).getLsbD i = true → (7#32).getLsbD i = true := by decide
          rw [if_pos hv.2]
          exact hbits i (BitVec.lt_of_getLsbD h) h
        · simp at h }
  let one : PoolPart → ℕ → ℕ → BitVec 16 := fun _ _ _ => 0x3F80#16
  let hmul : BitVec 16 → BitVec 16 → BitVec 16 := fun x y => if x = 0x3F80#16 then y else if y = 0x3F80#16 then x else 0#16
  let val : BitVec 16 → ℕ := fun x => if x = 0x3F80#16 then 1 else if x = 0x4000#16 then 2 else 0
  let junk : FragOperands := ⟨fun _ _ _ => 0#32, fun _ _ => 0#32⟩
  let xs : ℕ → TakenChunk := fun c =>
    { slot := 0
      mem := ((List.range P.warps).flatMap (T.fillShare P.toFoldPlan 1024 c)).foldl (stageHalves P one 0) fun _ => 0#16
      gains := ((T.words 3).chunkCopies P.plain 1024 c).foldl (stage fun _ => 0x4000#16) fun _ => 0#32
      ring := fun _ => 0#32, a := junk, b := junk, a' := junk, b' := junk }
  have hland : ∀ c < T.chunks P.toFoldPlan, (xs c).Landed P T 3 1024 one (fun _ => 0x4000#16) c := fun c _ =>
    ⟨⟨_, _, List.Perm.refl _, fun _ _ _ _ => rfl, fun _ _ _ _ _ _ => rfl⟩, ⟨_, _, List.Perm.refl _, rfl⟩⟩
  have hrows : ∀ t, T.Live t → 1024 + t < 2 ^ 26 := by
    intro t ht
    have hlt := WriteWords.Live.lt P.plain (T.words 3) ((FoldTables.words_live (P := P.toFoldPlan) (v := 3) (by decide) t).2 ht)
    have hlen := FoldTables.words_len T 3
    unfold window at hlen
    omega
  refine ⟨P, T, hmul, val, xs, by decide +kernel, fun st => ⟨?_, ?_⟩⟩
  · have h := (@foldWindow_sum P T hmul 3 1024 ℕ _ val (BitVec.ofNat 32) one (fun _ => 0x4000#16) xs rfl rfl rfl (by decide) (by decide)
      hrows hland 1 31 2 (by decide) (by decide) (by decide) st).1 7 (by decide)
    exact h.trans (congrArg (st.c 1 7 31 2 + ·) (by decide +kernel))
  · have h := (@foldWindow_sum P T hmul 3 1024 ℕ _ val (BitVec.ofNat 32) one (fun _ => 0x4000#16) xs rfl rfl rfl (by decide) (by decide)
      hrows hland 1 4 2 (by decide) (by decide) (by decide) st).2
    exact h.trans (congrArg (st.m 1 4 2 + ·) (by decide +kernel))

end Rola
