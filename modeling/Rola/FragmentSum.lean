import Mathlib.Data.Nat.Bitwise
import Rola.FragmentExact
import Rola.RangeSums
import Rola.Staging

/-!
# What a fragment adds

By the lane layouts, a fragment's A operand is its sixteen tokens' inner runs scaled by a box's outer
amplitude and the gains, and its B operand their values: each accumulator gains the sixteen entries'
products, and a box's mass their weights.
-/

namespace Rola

open Warp

variable {P : FragPlan} {hmul : BitVec 16 → BitVec 16 → BitVec 16} {mem : ℕ → BitVec 16} {slot : ℕ} {ring : ℕ → BitVec 32} {warp : ℕ}
  {K : Type} [Semiring K] {val : BitVec 16 → K}

/-- Where a row's part lies in the memory, by halves, and the parts a slot has. -/
def partPlace (P : FragPlan) (slot : ℕ) (x : ℕ × PoolPart) : ℕ := (slot + P.partOff x.1 x.2) / 2

def InSlot (P : FragPlan) (x : ℕ × PoolPart) : Prop := x.1 ≤ P.poolTok ∧ FoldTables.IsPart P.toFoldPlan x.2

/-- A slot's rows as they lie in its memory. -/
def SlotHolds (P : FragPlan) (mem : ℕ → BitVec 16) (slot : ℕ) (parts : ℕ → PoolPart → ℕ → BitVec 16) : Prop :=
  Staging.Laid 8 (partPlace P slot) (InSlot P) mem fun x => parts x.1 x.2

/-- A leaf's weight in a token: inner, by outer scaled by gain. -/
def weightAt (hmul : BitVec 16 → BitVec 16 → BitVec 16) (row : PoolPart → ℕ → BitVec 16) (gain : BitVec 16) (box leaf : ℕ) : BitVec 16 :=
  hmul (row (.inner (leaf / 8)) (leaf % 8)) (hmul (row (.outer (box / 8)) (box % 8)) gain)

def valueAt (row : PoolPart → ℕ → BitVec 16) (channel : ℕ) : BitVec 16 := row (.v (channel / 8)) (channel % 8)

/-! ### Lanes -/

theorem runLaneRow_eq (lane : ℕ) : runLaneRow lane = lane % 8 + 8 * (lane / 16) := by
  have hmask : lane &&& 7 = lane % 8 := Nat.and_two_pow_sub_one_eq_mod lane 3
  rw [runLaneRow, hmask, Nat.shiftRight_eq_div_pow]

theorem vLaneRow_eq (lane : ℕ) : vLaneRow lane = lane % 8 + 8 * (lane / 8 % 2) := by
  have hmask : lane &&& 7 = lane % 8 := Nat.and_two_pow_sub_one_eq_mod lane 3
  rw [vLaneRow, hmask, Nat.and_one_is_mod, Nat.shiftRight_eq_div_pow]

theorem chunkBit_eq (lane : ℕ) : (lane >>> 3) &&& 1 = lane / 8 % 2 := by
  rw [Nat.and_one_is_mod, Nat.shiftRight_eq_div_pow]

theorem srcLane_eq (b lane : ℕ) : srcLane b lane = 4 * (b % 8) + lane % 4 := by
  have hmask : b &&& 7 = b % 8 := Nat.and_two_pow_sub_one_eq_mod b 3
  have hmask' : lane &&& 3 = lane % 4 := Nat.and_two_pow_sub_one_eq_mod lane 2
  have hor : 2 ^ 2 * (b % 8) + lane % 4 = 2 ^ 2 * (b % 8) ||| lane % 4 :=
    Nat.two_pow_add_eq_or_of_lt (Nat.mod_lt _ (by decide)) _
  rw [srcLane, hmask, hmask', Nat.shiftLeft_eq, Nat.mul_comm (b % 8), ← hor]
  rfl

theorem half_mulPair (x y : BitVec 32) {h : ℕ} (hh : h < 2) : half h (mulPair hmul x y) = hmul (half h x) (half h y) := by
  rw [mulPair, half_append _ _ hh]
  rcases Nat.le_one_iff_eq_zero_or_eq_one.1 (Nat.le_of_lt_succ hh) with rfl | rfl
  · rfl
  · rfl

theorem half_bytePerm (x y : BitVec 32) {h : ℕ} (hh : h < 2) :
    half h (ByteMemory.bytePerm x y 0x7632) = WriteWords.entryGain (if h = 0 then x else y) := by
  rw [ByteMemory.bytePerm_hi, half_append _ _ hh]
  split <;> rfl

/-! ### The operands -/

theorem SlotHolds.get {parts : ℕ → PoolPart → ℕ → BitVec 16} (hslot : SlotHolds P mem slot parts) {row : ℕ} (hrow : row ≤ P.poolTok)
    {part : PoolPart} (hpart : FoldTables.IsPart P.toFoldPlan part) {addr i : ℕ} (haddr : addr = slot + P.partOff row part) (hi : i < 8) :
    mem (addr / 2 + i) = parts row part i := by
  rw [haddr]
  exact hslot (row, part) ⟨hrow, hpart⟩ i hi

section Operands

variable {parts : ℕ → PoolPart → ℕ → BitVec 16} {n : ℕ} {f : FragOperands}

/-- The runs of a fragment's rows, `m` the half of a row and `k` the entry. -/
theorem half_load (hslot : SlotHolds P mem slot parts) (hrows : ∀ e < 16, FoldTables.entryRow (ring (n * 16 + e)) ≤ P.poolTok)
    {part : ℕ → PoolPart} (hpart : ∀ h < 2, FoldTables.IsPart P.toFoldPlan (part h)) {m k : ℕ} (hm : m < 16) (hk : k < 16) :
    half (k % 2) (ldmatrixTrans mem (fun lane => slot + P.partOff (rrow ring n lane) (part ((lane >>> 3) &&& 1)))
        (m / 8 + 2 * (k / 8)) (4 * (m % 8) + k % 8 / 2)) =
      parts (FoldTables.entryRow (ring (n * 16 + k))) (part (m / 8)) (m % 8) := by
  have hlane : 8 * (m / 8 + 2 * (k / 8)) + (2 * ((4 * (m % 8) + k % 8 / 2) % 4) + k % 2) = 8 * (m / 8) + 16 * (k / 8) + k % 8 := by omega
  have hcol : (4 * (m % 8) + k % 8 / 2) / 4 = m % 8 := by omega
  have hrow : runLaneRow (8 * (m / 8) + 16 * (k / 8) + k % 8) = k := by
    rw [runLaneRow_eq]
    omega
  have hchunk : (8 * (m / 8) + 16 * (k / 8) + k % 8) / 8 % 2 = m / 8 := by omega
  rw [half_ldmatrixTrans _ _ _ _ (by omega), hlane, hcol]
  refine hslot.get (hrows k hk) (hpart _ (by omega)) ?_ (by omega)
  rw [chunkBit_eq, hchunk, rrow, hrow]
  rfl

/-- A fragment's A operand for a dealt box. -/
theorem entryA_eq (h : Holds P hmul mem slot ring warp n f) (hslot : SlotHolds P mem slot parts)
    (hrows : ∀ e < 16, FoldTables.entryRow (ring (n * 16 + e)) ≤ P.poolTok) (hwarp : warp < P.warps) {bi m k : ℕ} (hbi : bi < 2)
    (hm : m < 16) (hk : k < 16) : entryA (f.ab bi) m k =
      weightAt hmul (parts (FoldTables.entryRow (ring (n * 16 + k)))) (WriteWords.entryGain (ring (n * 16 + k))) (dealtBox warp bi P.warps) m := by
  have hwarps := WriteWords.warps_eq P.toPoolPlan
  have hb : dealtBox warp bi P.warps < 16 := by
    rw [dealtBox, hwarps]
    rw [hwarps] at hwarp
    interval_cases bi <;> omega
  generalize hbox : dealtBox warp bi P.warps = b at hb
  have hreg : ((if m / 8 + 2 * (k / 8) < 2 then 0 else 2) + if b < 8 then 0 else 1) = b / 8 + 2 * (k / 8) := by
    have hb8 : (if b < 8 then 0 else 1) = b / 8 := by split <;> omega
    have hk8 : (if m / 8 + 2 * (k / 8) < 2 then 0 else 2) = 2 * (k / 8) := by split <;> omega
    rw [hb8, hk8, Nat.add_comm]
  have hgain : (if m / 8 + 2 * (k / 8) < 2 then 0 else 1) = k / 8 := by split <;> omega
  have hsrc : srcLane b (4 * (m % 8) + k % 8 / 2) = 4 * (b % 8) + k % 8 / 2 := by
    rw [srcLane_eq]
    omega
  have hinner : half (k % 2) (loadInner P mem slot (rrow ring n) (m / 8 + 2 * (k / 8)) (4 * (m % 8) + k % 8 / 2)) = _ :=
    half_load hslot hrows (fun h hh => show FoldTables.IsPart P.toFoldPlan (.inner h) from hh) hm hk
  have houter : half (k % 2) (loadOuter P mem slot (rrow ring n) (b / 8 + 2 * (k / 8)) (4 * (b % 8) + k % 8 / 2)) = _ :=
    half_load hslot hrows (fun h hh => show FoldTables.IsPart P.toFoldPlan (.outer h) from hh) hb hk
  rw [entryA, h.ab bi hbi, hbox, half_mulPair _ _ (by omega), hinner, shfl, hsrc, half_mulPair _ _ (by omega), hreg, houter, hgain,
    half_bytePerm _ _ (by omega), weightAt]
  refine congrArg (fun gain => hmul _ (hmul _ (WriteWords.entryGain gain))) ?_
  have hmask : ∀ x : ℕ, x &&& 3 = x % 4 := fun x => Nat.and_two_pow_sub_one_eq_mod x 2
  unfold gainWord fragRow
  rw [hmask]
  split
  · exact congrArg ring (by omega)
  · exact congrArg ring (by omega)

/-- Its B operand for an n-tile. -/
theorem entryB_eq (h : Holds P hmul mem slot ring warp n f) (hslot : SlotHolds P mem slot parts)
    (hrows : ∀ e < 16, FoldTables.entryRow (ring (n * 16 + e)) ≤ P.poolTok) {j k col : ℕ} (hj : j < P.kNT) (hk : k < 16) (hcol : col < 8) :
    entryB (fun r => f.v (2 * j + r)) k col = valueAt (parts (FoldTables.entryRow (ring (n * 16 + k)))) (8 * j + col) := by
  have hlane : 8 * ((2 * j + k / 8) % 4) + (2 * ((4 * col + k % 8 / 2) % 4) + k % 2) = 16 * (j % 2) + 8 * (k / 8) + k % 8 := by omega
  have hchannel : (4 * col + k % 8 / 2) / 4 = col := by omega
  have hrow : vLaneRow (16 * (j % 2) + 8 * (k / 8) + k % 8) = k := by
    rw [vLaneRow_eq]
    omega
  have hchunk : 2 * ((2 * j + k / 8) / 4) + (16 * (j % 2) + 8 * (k / 8) + k % 8) / 16 = j := by omega
  have hpart : (8 * j + col) / 8 = j ∧ (8 * j + col) % 8 = col := by omega
  rw [entryB, h.v _ (by omega), loadV, half_ldmatrixTrans _ _ _ _ (by omega), hlane, hchannel, valueAt, hpart.1, hpart.2]
  refine hslot.get (hrows k hk) (show FoldTables.IsPart P.toFoldPlan (.v j) from hj) ?_ hcol
  rw [Nat.shiftRight_eq_div_pow, hchunk, vrow, hrow]
  rfl

theorem entryB_ones (k col : ℕ) :
    entryB (fun _ lane => if lane >>> 2 = 0 then 0x3F803F80#32 else 0#32) k col = if col = 0 then 0x3F80#16 else 0#16 := by
  have hlane : (4 * col + k % 8 / 2) >>> 2 = col := by
    rw [Nat.shiftRight_eq_div_pow]
    omega
  rw [entryB, hlane]
  rcases Nat.mod_two_eq_zero_or_one k with hpar | hpar
  · rw [hpar]
    split <;> rfl
  · rw [hpar]
    split <;> rfl

/-! ### The accumulators -/

variable (hmul val) in
/-- An entry's addition to a box's accumulator. -/
def termAt (parts : ℕ → PoolPart → ℕ → BitVec 16) (e : BitVec 32) (box leaf channel : ℕ) : K :=
  val (weightAt hmul (parts (FoldTables.entryRow e)) (WriteWords.entryGain e) box leaf) * val (valueAt (parts (FoldTables.entryRow e)) channel)

variable (hmul val) in
/-- An entry's addition to a box's mass, in the first column alone. -/
def massAt (parts : ℕ → PoolPart → ℕ → BitVec 16) (e : BitVec 32) (box leaf col : ℕ) : K :=
  if col = 0 then val (weightAt hmul (parts (FoldTables.entryRow e)) (WriteWords.entryGain e) box leaf) else 0

theorem useFragment_c (hslot : SlotHolds P mem slot parts) (hrows : ∀ e < 16, FoldTables.entryRow (ring (n * 16 + e)) ≤ P.poolTok)
    (hwarp : warp < P.warps) {bi j lane i : ℕ} (hbi : bi < 2) (hj : j < P.kNT) (hlane : lane < 32) (hi : i < 4) (st : FoldState K) :
    (useFragment P hmul mem slot ring warp val n st).c bi j lane i = st.c bi j lane i + ∑ k ∈ Finset.range 16,
      termAt hmul val parts (ring (n * 16 + k)) (dealtBox warp bi P.warps) (rowOf lane i) (8 * j + colOf lane i) := by
  have hholds := @holds_fragLoad P hmul mem slot ring warp n ⟨fun _ _ _ => 0#32, fun _ _ => 0#32⟩
  have hrow : rowOf lane i < 16 := by
    unfold rowOf
    omega
  have hcol : colOf lane i < 8 := by
    unfold colOf
    omega
  unfold useFragment usedBy
  dsimp only
  rw [if_pos ⟨hbi, hj⟩, mma]
  refine congrArg (st.c bi j lane i + ·) (Finset.sum_congr rfl fun k hk => ?_)
  rw [entryA_eq hholds hslot hrows hwarp hbi hrow (Finset.mem_range.1 hk), entryB_eq hholds hslot hrows hj (Finset.mem_range.1 hk) hcol]
  rfl

theorem useFragment_m (hval : val 0#16 = 0) (hone : val 0x3F80#16 = 1) (hslot : SlotHolds P mem slot parts)
    (hrows : ∀ e < 16, FoldTables.entryRow (ring (n * 16 + e)) ≤ P.poolTok) (hwarp : warp < P.warps) {bi lane i : ℕ} (hbi : bi < 2)
    (hlane : lane < 32) (hi : i < 4) (st : FoldState K) :
    (useFragment P hmul mem slot ring warp val n st).m bi lane i = st.m bi lane i + ∑ k ∈ Finset.range 16,
      massAt hmul val parts (ring (n * 16 + k)) (dealtBox warp bi P.warps) (rowOf lane i) (colOf lane i) := by
  have hholds := @holds_fragLoad P hmul mem slot ring warp n ⟨fun _ _ _ => 0#32, fun _ _ => 0#32⟩
  have hrow : rowOf lane i < 16 := by
    unfold rowOf
    omega
  unfold useFragment usedBy
  dsimp only
  rw [if_pos hbi, mma]
  refine congrArg (st.m bi lane i + ·) (Finset.sum_congr rfl fun k hk => ?_)
  rw [entryA_eq hholds hslot hrows hwarp hbi hrow (Finset.mem_range.1 hk), entryB_ones, massAt]
  split
  · rw [hone, mul_one]
  · rw [hval, mul_zero]

/-- A chunk's fragments add its entries' products. -/
theorem foldChunk_sum {bits : K → BitVec 32} {nfrag : ℕ} (hval : val 0#16 = 0) (hone : val 0x3F80#16 = 1) (hslot : SlotHolds P mem slot parts)
    (hrows : ∀ e < nfrag * 16, FoldTables.entryRow (ring e) ≤ P.poolTok) (hwarp : warp < P.warps) (a b a' b' : FragOperands)
    {bi lane i : ℕ} (hbi : bi < 2) (hlane : lane < 32) (hi : i < 4) (st : FoldState K) :
    (∀ j < P.kNT, (foldChunk P hmul mem slot ring warp val bits nfrag a b a' b' st).c bi j lane i = st.c bi j lane i +
      ∑ e ∈ Finset.range (nfrag * 16), termAt hmul val parts (ring e) (dealtBox warp bi P.warps) (rowOf lane i) (8 * j + colOf lane i)) ∧
    (foldChunk P hmul mem slot ring warp val bits nfrag a b a' b' st).m bi lane i = st.m bi lane i +
      ∑ e ∈ Finset.range (nfrag * 16), massAt hmul val parts (ring e) (dealtBox warp bi P.warps) (rowOf lane i) (colOf lane i) := by
  rw [foldChunk_eq]
  simp only [sum_blocks]
  induction nfrag with
  | zero => simp
  | succ n ih =>
    have hn : ∀ e < 16, FoldTables.entryRow (ring (n * 16 + e)) ≤ P.poolTok := fun e he => hrows _ (by omega)
    obtain ⟨hc, hm⟩ := ih fun e he => hrows e (by omega)
    rw [List.range_succ, List.foldl_append, List.foldl_cons, List.foldl_nil]
    refine ⟨fun j hj => ?_, ?_⟩
    · rw [useFragment_c hslot hn hwarp hbi hj hlane hi, hc j hj, Finset.sum_range_succ _ n, add_assoc]
    · rw [useFragment_m hval hone hslot hn hwarp hbi hlane hi, hm, Finset.sum_range_succ _ n, add_assoc]

end Operands

/-! ### The swizzle -/

theorem xor_low (chunk s : ℕ) (hs : s < 8) : (chunk ^^^ s) / 8 = chunk / 8 := by
  have h : (chunk ^^^ s) / 2 ^ 3 = chunk / 2 ^ 3 ^^^ s / 2 ^ 3 := Nat.xor_div_two_pow
  rw [show s / 2 ^ 3 = 0 from Nat.div_eq_of_lt hs, Nat.xor_zero] at h
  exact h

theorem xor_bit {chunk s : ℕ} (hchunk : chunk < 2) (hs : s < 2) : chunk ^^^ s < 2 := Nat.xor_lt_two_pow (n := 1) hchunk hs

/-- The bits a channel row's chunks are swizzled by. -/
def chanSwz (row : ℕ) : ℕ := ((row >>> 0) ^^^ (row >>> (0 + 4))) &&& (8 - 1)

theorem chanSwz_lt (row : ℕ) : chanSwz row < 8 := Nat.and_lt_two_pow (n := 3) _ (by decide)

theorem poolVOff_eq (P : FragPlan) (row chunk : ℕ) : P.poolVOff row chunk = 16 * (row * P.vChunks + (chunk ^^^ chanSwz row)) := by
  have hge : ¬ P.vChunks < 8 := not_lt.2 P.vChunks_ge
  unfold FragPlan.poolVOff FragPlan.chanRowOff FragPlan.vRowBytes chanSwz
  simp only [hge, if_false]
  ring

/-- The half of a run row a chunk lies in. -/
def runSwz (row : ℕ) : ℕ := (row >>> 2) &&& 1

theorem runSwz_lt (row : ℕ) : runSwz row < 2 := Nat.and_lt_two_pow (n := 1) _ (by decide)

theorem poolInnerOff_eq (P : FragPlan) (row chunk : ℕ) :
    P.poolInnerOff row chunk = 16 * (P.poolRows * P.vChunks + row * 2 + (chunk ^^^ runSwz row)) := by
  unfold FragPlan.poolInnerOff FragPlan.row32Off FragPlan.vRowBytes runSwz
  ring

theorem poolOuterOff_eq (P : FragPlan) (row chunk : ℕ) :
    P.poolOuterOff row chunk = 16 * (P.poolRows * P.vChunks + P.poolRows * 2 + row * 2 + (chunk ^^^ runSwz row)) := by
  unfold FragPlan.poolOuterOff FragPlan.row32Off FragPlan.vRowBytes runSwz
  ring

/-- Where a part lies, in sixteens of bytes. -/
def place (P : FragPlan) (row : ℕ) : PoolPart → ℕ
  | .v c => row * P.vChunks + (c ^^^ chanSwz row)
  | .inner h => P.poolRows * P.vChunks + row * 2 + (h ^^^ runSwz row)
  | .outer h => P.poolRows * P.vChunks + P.poolRows * 2 + row * 2 + (h ^^^ runSwz row)

theorem partOff_eq (row : ℕ) (part : PoolPart) : P.partOff row part = 16 * place P row part := by
  cases part with
  | v c => exact poolVOff_eq P row c
  | inner h => exact poolInnerOff_eq P row h
  | outer h => exact poolOuterOff_eq P row h

/-- A mixed-radix digit below its base gives back both. -/
theorem digit_inj {b x x' d d' : ℕ} (hd : d < b) (hd' : d' < b) (h : x * b + d = x' * b + d') : x = x' ∧ d = d' := by
  have hb : 0 < b := by omega
  have hdiv : ∀ {x d : ℕ}, d < b → (x * b + d) / b = x := by
    intro x d hd
    rw [Nat.mul_comm, Nat.mul_add_div hb, Nat.div_eq_of_lt hd, Nat.add_zero]
  have hx : x = x' := (hdiv hd).symm.trans ((congrArg (· / b) h).trans (hdiv hd'))
  subst hx
  exact ⟨rfl, Nat.add_left_cancel h⟩

/-- Each part has a place of its own. -/
theorem place_inj (hchunks : 8 ∣ P.vChunks) {row row' : ℕ} {part part' : PoolPart} (hrow : row ≤ P.poolTok) (hrow' : row' ≤ P.poolTok)
    (hpart : FoldTables.IsPart P.toFoldPlan part) (hpart' : FoldTables.IsPart P.toFoldPlan part') (h : place P row part = place P row' part') :
    row = row' ∧ part = part' := by
  have hv : ∀ row c : ℕ, c < P.vChunks → c ^^^ chanSwz row < P.vChunks := by
    intro row c hc
    have hlow := xor_low c (chanSwz row) (chanSwz_lt row)
    omega
  have hrows : ∀ row c : ℕ, row ≤ P.poolTok → c < P.vChunks → row * P.vChunks + c < P.poolRows * P.vChunks := by
    intro row c hrow hc
    have hle : (row + 1) * P.vChunks ≤ P.poolRows * P.vChunks := Nat.mul_le_mul_right _ (Nat.succ_le_succ hrow)
    rw [Nat.succ_mul] at hle
    omega
  have hh : ∀ row h : ℕ, h < 2 → h ^^^ runSwz row < 2 := fun row h hh => xor_bit hh (runSwz_lt row)
  have hrun : P.poolRows = P.poolTok + 1 := rfl
  cases part with
  | v c =>
    have hc := hv row _ hpart
    have hlt := hrows row _ hrow hc
    cases part' with
    | v c' =>
      obtain ⟨rfl, hx⟩ := digit_inj hc (hv row' _ hpart') h
      exact ⟨rfl, congrArg PoolPart.v (Nat.xor_left_inj.1 hx)⟩
    | inner h' =>
      simp only [place] at h
      omega
    | outer h' =>
      simp only [place] at h
      omega
  | inner g =>
    have hg := hh row _ hpart
    cases part' with
    | v c' =>
      have hlt := hrows row' _ hrow' (hv row' _ hpart')
      simp only [place] at h
      omega
    | inner g' =>
      have hg' := hh row' _ hpart'
      simp only [place] at h
      have hrun2 : row * 2 + (g ^^^ runSwz row) = row' * 2 + (g' ^^^ runSwz row') := by omega
      obtain ⟨rfl, hx⟩ := digit_inj hg hg' hrun2
      exact ⟨rfl, congrArg PoolPart.inner (Nat.xor_left_inj.1 hx)⟩
    | outer g' =>
      simp only [place] at h
      omega
  | outer g =>
    have hg := hh row _ hpart
    cases part' with
    | v c' =>
      have hlt := hrows row' _ hrow' (hv row' _ hpart')
      simp only [place] at h
      omega
    | inner g' =>
      have hg' := hh row' _ hpart'
      simp only [place] at h
      omega
    | outer g' =>
      have hg' := hh row' _ hpart'
      simp only [place] at h
      have hrun2 : row * 2 + (g ^^^ runSwz row) = row' * 2 + (g' ^^^ runSwz row') := by omega
      obtain ⟨rfl, hx⟩ := digit_inj hg hg' hrun2
      exact ⟨rfl, congrArg PoolPart.outer (Nat.xor_left_inj.1 hx)⟩

/-! ### The copies -/

/-- A slot's parts lie apart. -/
theorem apart_parts (hchunks : 8 ∣ P.vChunks) (slot : ℕ) : Staging.Apart 8 (partPlace P slot) (InSlot P) := by
  have hhalf : ∀ p : ℕ, (slot + 16 * p) / 2 = slot / 2 + 8 * p := by omega
  intro x y hx hy hne
  have hplace : place P x.1 x.2 ≠ place P y.1 y.2 := by
    intro heq
    obtain ⟨hrow, hpart⟩ := place_inj hchunks hx.1 hy.1 hx.2 hy.2 heq
    exact hne (Prod.ext hrow hpart)
  unfold partPlace
  rw [partOff_eq, partOff_eq, hhalf, hhalf]
  omega

/-- `stage_run_if<16>`: a part's eight halves to its place in a slot. -/
def stageHalves (P : FragPlan) (plane : PoolPart → ℕ → ℕ → BitVec 16) (slot : ℕ) (mem : ℕ → BitVec 16) (c : PartCopy) : ℕ → BitVec 16 :=
  Staging.stage 8 ((slot + P.partOff c.row c.part) / 2) (FoldTables.partValue plane (fun _ => 0#16) c.part c.src) mem

/-- A copy to memory is its part's. -/
theorem SlotHolds.stage (hchunks : 8 ∣ P.vChunks) {plane : PoolPart → ℕ → ℕ → BitVec 16} {parts : ℕ → PoolPart → ℕ → BitVec 16}
    (h : SlotHolds P mem slot parts) {c : PartCopy} (hc : InSlot P (c.row, c.part)) :
    SlotHolds P (stageHalves P plane slot mem c) slot (FoldTables.stagePart plane (fun _ => 0#16) parts c) := by
  have hparts : (fun x : ℕ × PoolPart => FoldTables.stagePart plane (fun _ => 0#16) parts c x.1 x.2) =
      Function.update (fun x : ℕ × PoolPart => parts x.1 x.2) (c.row, c.part)
        (FoldTables.partValue plane (fun _ => 0#16) c.part c.src) := by
    funext x
    rw [FoldTables.stagePart]
    rcases eq_or_ne x (c.row, c.part) with rfl | hne
    · rw [Function.update_self, Function.update_self, Function.update_self]
    · rw [Function.update_of_ne hne]
      rcases eq_or_ne x.1 c.row with hrow | hrow
      · rw [hrow, Function.update_self, Function.update_of_ne fun hpart => hne (Prod.ext hrow hpart)]
      · rw [Function.update_of_ne hrow]
  unfold SlotHolds
  rw [hparts]
  exact Staging.Laid.stage h (apart_parts hchunks slot) hc _

/-- So are a chunk's, in any order. -/
theorem SlotHolds.foldl_stage (hchunks : 8 ∣ P.vChunks) {plane : PoolPart → ℕ → ℕ → BitVec 16} {copies : List PartCopy}
    (hrows : ∀ c ∈ copies, InSlot P (c.row, c.part)) {parts : ℕ → PoolPart → ℕ → BitVec 16}
    (h : SlotHolds P mem slot parts) : SlotHolds P (copies.foldl (stageHalves P plane slot) mem) slot
      (copies.foldl (FoldTables.stagePart plane fun _ => 0#16) parts) := by
  induction copies generalizing mem parts with
  | nil => exact h
  | cons c copies ih =>
    exact ih (fun d hd => hrows d (List.mem_cons_of_mem c hd)) (h.stage hchunks (hrows c List.mem_cons_self))

end Rola
