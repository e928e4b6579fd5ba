import Mathlib.Data.Nat.Bitwise
import Rola.FragmentSum
import Rola.IntraExact
import Rola.ReadoutTile

/-!
# What a tile's readout adds

The boxes of a tile's mask are read once each, and by the lane layouts each of the tile's live rows gains,
in every channel, its weights' products with the snapshot, and its denominator with the masses.
-/

namespace Rola

open Warp

/-! ### The mask's boxes -/

/-- The lowest bit cleared. -/
theorem testBit_clear {x k : ℕ} (hk : x.testBit k = true) (hlow : ∀ i < k, x.testBit i = false) (i : ℕ) :
    (x &&& (x - 1)).testBit i = (x.testBit i && decide (i ≠ k)) := by
  have hmod : x % 2 ^ k = 0 := by
    refine Nat.eq_of_testBit_eq fun j => ?_
    rw [Nat.testBit_mod_two_pow, Nat.zero_testBit]
    by_cases hj : j < k
    · rw [hlow j hj, Bool.and_false]
    · rw [decide_eq_false hj, Bool.false_and]
  have hodd : x / 2 ^ k % 2 = 1 := by
    rw [Nat.testBit_eq_decide_div_mod_eq, decide_eq_true_eq] at hk
    exact hk
  obtain ⟨m, hm⟩ : ∃ m, x = 2 ^ k * (2 * m + 1) := by
    refine ⟨x / 2 ^ k / 2, ?_⟩
    have hdiv := Nat.div_add_mod x (2 ^ k)
    have htwo := Nat.div_add_mod (x / 2 ^ k) 2
    rw [hodd] at htwo
    rw [htwo]
    omega
  have hpos : 0 < 2 ^ k := Nat.two_pow_pos k
  have hpred : x - 1 = 2 ^ k * (2 * m) + (2 ^ k - 1) := by
    rw [hm, Nat.mul_add, Nat.mul_one]
    omega
  rw [Nat.testBit_and, hpred, Nat.testBit_two_pow_mul_add _ (by omega)]
  rcases lt_trichotomy i k with hi | rfl | hi
  · rw [hlow i hi, Bool.false_and, Bool.false_and]
  · have hzero : (2 * m).testBit 0 = false := by
      rw [Nat.testBit_zero, Nat.mul_mod_right]
      rfl
    rw [if_neg (Nat.lt_irrefl i), Nat.sub_self, hzero]
    simp
  · rw [if_neg (Nat.not_lt_of_lt hi), decide_eq_true (Nat.ne_of_gt hi), Bool.and_true]
    have hx : x.testBit i = (2 * m + 1).testBit (i - k) := by
      rw [hm, Nat.testBit_two_pow_mul, decide_eq_true (Nat.le_of_lt hi), Bool.true_and]
    obtain ⟨d, hd⟩ := Nat.exists_eq_succ_of_ne_zero (Nat.sub_ne_zero_of_lt hi)
    rw [hx, hd, Nat.testBit_succ, Nat.testBit_succ]
    have hsucc : (2 * m + 1) / 2 = 2 * m / 2 := by omega
    rw [hsucc, Bool.and_self]

theorem getLsbD_clear {x : BitVec 32} (hx : x ≠ 0#32) (i : ℕ) :
    (x &&& (x - 1#32)).getLsbD i = (x.getLsbD i && decide (i ≠ ffs x - 1)) := by
  obtain ⟨hbit, hlow⟩ := ffs_spec hx
  have hpos : 1 ≤ x.toNat := by
    rcases Nat.eq_zero_or_pos x.toNat with hzero | hpos
    · exact absurd (BitVec.eq_of_toNat_eq hzero) hx
    · exact hpos
  have hsub : (x - 1#32).toNat = x.toNat - 1 := by
    rw [BitVec.toNat_sub_of_le]
    · rfl
    · rw [BitVec.le_def]
      exact hpos
  have htest : ∀ y : BitVec 32, ∀ i, y.getLsbD i = y.toNat.testBit i := fun y i => rfl
  rw [htest, htest, BitVec.toNat_and, hsub]
  exact testBit_clear (by rw [← htest]; exact hbit) (fun j hj => by rw [← htest]; exact hlow j hj) i

/-- A mask's bits are its lowest, then what is left. -/
theorem filter_bits {x : BitVec 32} (hx : x ≠ 0#32) : ((List.range 32).filter fun i => x.getLsbD i) =
    (ffs x - 1) :: (List.range 32).filter fun i => (x &&& (x - 1#32)).getLsbD i := by
  obtain ⟨hbit, hlow⟩ := ffs_spec hx
  have hlt : ffs x - 1 < 32 := BitVec.lt_of_getLsbD hbit
  have hclear := getLsbD_clear hx
  generalize ffs x - 1 = k at *
  have hsplit : List.range 32 = List.range k ++ k :: List.range' (k + 1) (31 - k) := by
    have hcons : k :: List.range' (k + 1) (31 - k) = List.range' k (31 - k + 1) := rfl
    have happ := @List.range'_append_1 0 k (31 - k + 1)
    rw [Nat.zero_add, show k + (31 - k + 1) = 32 by omega] at happ
    rw [hcons, List.range_eq_range', List.range_eq_range', happ]
  have hbelow : ∀ y : BitVec 32, (∀ i < k, y.getLsbD i = false) → ((List.range k).filter fun i => y.getLsbD i) = [] := by
    intro y hy
    rw [List.filter_eq_nil_iff]
    intro i hi
    rw [hy i (List.mem_range.1 hi)]
    simp
  rw [hsplit, List.filter_append, List.filter_append, hbelow x hlow, hbelow _ fun i hi => by rw [hclear, hlow i hi, Bool.false_and],
    List.nil_append, List.nil_append, List.filter_cons_of_pos hbit, List.filter_cons_of_neg (by simp [hclear])]
  refine congrArg (k :: ·) (List.filter_congr fun i hi => ?_)
  rw [List.mem_range'_1] at hi
  rw [hclear, decide_eq_true (by omega), Bool.and_true]

theorem filter_bits_zero : ((List.range 32).filter fun i => (0#32).getLsbD i) = [] := by
  rw [List.filter_eq_nil_iff]
  intro i _
  simp

section Tile

variable {P : FragPlan} {hmul : BitVec 16 → BitVec 16 → BitVec 16} {K : Type} [CommRing K] {val : BitVec 16 → K}
  {mem : ℕ → BitVec 16} {massrow : ℕ → K} {slot snap : ℕ}

/-- The loop reads each box of the mask once. -/
theorem tileLoop_eq (n : ℕ) (rest : BitVec 32) (acc : TileAcc K) (h : ((List.range 32).filter fun i => rest.getLsbD i).length ≤ n) :
    tileLoop P hmul val mem massrow slot snap n rest acc = ((List.range 32).filter fun i => rest.getLsbD i).foldl
      (fun acc b => tileBox P hmul val mem massrow slot snap b acc) acc := by
  induction n generalizing rest acc with
  | zero =>
    rw [List.eq_nil_of_length_eq_zero (Nat.le_zero.1 h)]
    rfl
  | succ n ih =>
    rw [tileLoop]
    by_cases hrest : rest = 0#32
    · rw [if_pos hrest, hrest, filter_bits_zero]
      rfl
    · rw [filter_bits hrest, List.length_cons] at h
      rw [if_neg hrest, filter_bits hrest, List.foldl_cons, ih _ _ (Nat.le_of_succ_le_succ h)]

theorem tileAcc_eq (mask : BitVec 16) : tileAcc P hmul val mem massrow slot snap mask =
    ((List.range 32).filter fun b => mask.getLsbD b).foldl (fun acc b => tileBox P hmul val mem massrow slot snap b acc)
      ⟨fun _ _ _ => 0, fun _ => 0, fun _ => 0⟩ := by
  have hbits : ((List.range 32).filter fun b => (mask.setWidth 32).getLsbD b) = (List.range 32).filter fun b => mask.getLsbD b := by
    refine List.filter_congr fun b hb => ?_
    rw [BitVec.getLsbD_setWidth, decide_eq_true (List.mem_range.1 hb), Bool.true_and]
  have hlen : ((List.range 32).filter fun b => (mask.setWidth 32).getLsbD b).length ≤ 32 := by
    have hle := List.length_filter_le (fun b => (mask.setWidth 32).getLsbD b) (List.range 32)
    rwa [List.length_range] at hle
  rw [tileAcc, tileLoop_eq _ _ _ hlen, hbits]

/-! ### The operands -/

/-- A tile's runs as they lie in its slot, and the snapshot's rows. -/
def RunHolds (mem : ℕ → BitVec 16) (slot : ℕ) (rows : Bool → ℕ → ℕ → BitVec 16) : Prop :=
  ∀ outer, ∀ row < 16, ∀ d < 16, mem ((slot + RunPlace.off ⟨outer, row, d / 8⟩) / 2 + d % 8) = rows outer row d

def SnapHolds (P : FragPlan) (mem : ℕ → BitVec 16) (snap : ℕ) (S : ℕ → ℕ → BitVec 16) : Prop :=
  ∀ row < 256, ∀ ch < P.kDv, mem ((snap + P.chanRowOff row (ch / 8)) / 2 + ch % 8) = S row ch

theorem snapRow_eq (lane : ℕ) : snapRow lane = lane % 8 + 8 * (lane / 8 % 2) := vLaneRow_eq lane

theorem row32Elem_eq (row col : ℕ) : row32Elem row col = FragPlan.row32Off row (col / 8) + 2 * (col % 8) := by
  have hmask : col &&& 7 = col % 8 := Nat.and_two_pow_sub_one_eq_mod col 3
  rw [row32Elem, hmask, Nat.shiftRight_eq_div_pow, Nat.mul_comm 2]

theorem splatU16_eq (x : BitVec 16) : splatU16 x = x ++ x := by
  have hlt := x.isLt
  have hone : (0x10001#32).toNat = 65537 := rfl
  refine BitVec.eq_of_toNat_eq ?_
  rw [splatU16, BitVec.toNat_mul, BitVec.toNat_setWidth, BitVec.toNat_append, Nat.shiftLeft_eq, Nat.mul_comm x.toNat,
    ← Nat.two_pow_add_eq_or_of_lt hlt, hone]
  omega

theorem half_splat (x : BitVec 16) {h : ℕ} (hh : h < 2) : half h (splatU16 x) = x := by
  rw [splatU16_eq, half_append _ _ hh, ite_self]

variable (hmul) in
/-- A row's weight at a leaf of a box. -/
def tileWeight (rows : Bool → ℕ → ℕ → BitVec 16) (row b leaf : ℕ) : BitVec 16 := hmul (rows false row leaf) (rows true row b)

section Operands

variable {rows : Bool → ℕ → ℕ → BitVec 16} {S : ℕ → ℕ → BitVec 16} {b : ℕ}

theorem outerFactor_eq (hrun : RunHolds mem slot rows) {row : ℕ} (hrow : row < 16) (hb : b < 16) :
    outerFactor mem slot b row = splatU16 (rows true row b) := by
  have hplace : (slot + kRunTileBytes + row32Elem row b) / 2 = (slot + RunPlace.off ⟨true, row, b / 8⟩) / 2 + b % 8 := by
    rw [row32Elem_eq, RunPlace.off, if_pos rfl]
    dsimp only
    omega
  rw [outerFactor, hplace, hrun true row hrow b hb]

/-- A tile's A operand for a box. -/
theorem entryA_tile (hrun : RunHolds mem slot rows) (hb : b < 16) {m k : ℕ} (hm : m < 16) (hk : k < 16) :
    entryA (scaledTile hmul mem slot b) m k = tileWeight hmul rows m b k := by
  have hlane : 8 * (m / 8 + 2 * (k / 8)) + (4 * (m % 8) + k % 8 / 2) / 4 = 8 * (m / 8) + 16 * (k / 8) + m % 8 := by omega
  have hrow : snapRow (8 * (m / 8) + 16 * (k / 8) + m % 8) = m := by
    rw [snapRow_eq]
    omega
  have hchunk : (8 * (m / 8) + 16 * (k / 8) + m % 8) >>> 4 = k / 8 := by
    rw [Nat.shiftRight_eq_div_pow]
    omega
  have hcol : 2 * ((4 * (m % 8) + k % 8 / 2) % 4) + k % 2 = k % 8 := by omega
  have hinner : half (k % 2) (innerTile mem slot (m / 8 + 2 * (k / 8)) (4 * (m % 8) + k % 8 / 2)) = rows false m k := by
    rw [innerTile, half_ldmatrix _ _ _ _ (by omega), hlane, hcol, hrow, hchunk, ← hrun false m hm k hk, RunPlace.off]
    simp
  have hlow : (4 * (m % 8) + k % 8 / 2) >>> 2 = m % 8 := by
    rw [Nat.shiftRight_eq_div_pow]
    omega
  have hpick : (if (m / 8 + 2 * (k / 8)) % 2 = 0 then outerFactor mem slot b (m % 8) else outerFactor mem slot b (m % 8 + 8)) =
      outerFactor mem slot b m := by
    split
    · exact congrArg (outerFactor mem slot b) (by omega)
    · exact congrArg (outerFactor mem slot b) (by omega)
  rw [entryA, scaledTile, half_mulPair _ _ (by omega), hinner, hlow, hpick, outerFactor_eq hrun hm hb, half_splat _ (by omega), tileWeight]

/-- A chunk's address by its row's first. -/
theorem snap_xor {e : ℕ} (hpow : P.vChunks = 2 ^ e) (halign : P.vRowBytes ∣ snap) {row chunk : ℕ} (hchunk : chunk < P.vChunks) :
    (snap + P.chanRowOff row 0) ^^^ (chunk * 16) = snap + P.chanRowOff row chunk := by
  obtain ⟨base, hbase⟩ := halign
  have hge := P.vChunks_ge
  have hswz := chanSwz_lt row
  have hoff : ∀ c, P.chanRowOff row c = 16 * (row * P.vChunks + (c ^^^ chanSwz row)) := fun c => poolVOff_eq P row c
  have hrowBytes : P.vRowBytes = P.vChunks * 16 := rfl
  have hfirst : snap + P.chanRowOff row 0 = (P.vChunks * (base + row) + chanSwz row) <<< 4 := by
    rw [hoff, hbase, hrowBytes, Nat.shiftLeft_eq, Nat.zero_xor]
    ring
  have hthere : snap + P.chanRowOff row chunk = (P.vChunks * (base + row) + (chanSwz row ^^^ chunk)) <<< 4 := by
    rw [hoff, hbase, hrowBytes, Nat.shiftLeft_eq, Nat.xor_comm chunk]
    ring
  have hshift : chunk * 16 = chunk <<< 4 := by rw [Nat.shiftLeft_eq]
  have hxorLt : chanSwz row ^^^ chunk < 2 ^ e := Nat.xor_lt_two_pow (by omega) (by omega)
  rw [hfirst, hthere, hshift, ← Nat.shiftLeft_xor_distrib]
  refine congrArg (· <<< 4) (Nat.eq_of_testBit_eq fun i => ?_)
  rw [hpow, Nat.testBit_xor, Nat.testBit_two_pow_mul_add _ (by omega), Nat.testBit_two_pow_mul_add _ hxorLt]
  split
  · rw [Nat.testBit_xor]
  · rename_i hi
    have hbit : chunk.testBit i = false := Nat.testBit_lt_two_pow (hchunk.trans_le (hpow ▸ Nat.pow_le_pow_right (by omega) (by omega)))
    rw [hbit, Bool.xor_false]

/-- A tile's B operand for a box and a channel tile. -/
theorem entryB_snap {e : ℕ} (hpow : P.vChunks = 2 ^ e) (halign : P.vRowBytes ∣ snap) (hsnap : SnapHolds P mem snap S) (hb : b < 16)
    {i w k col : ℕ} (hi : 2 * i + w < P.kNT) (hk : k < 16) (hcol : col < 8) :
    entryB (fun r => snapTile P mem snap b i (r + 2 * w)) k col = S (b * 16 + k) (8 * (2 * i + w) + col) := by
  have hkNT : P.kNT = P.vChunks := rfl
  have hlane : 8 * (k / 8 + 2 * w) + (2 * ((4 * col + k % 8 / 2) % 4) + k % 2) = 16 * w + 8 * (k / 8) + k % 8 := by omega
  have hchannel : (4 * col + k % 8 / 2) / 4 = col := by omega
  have hrow : snapRow (16 * w + 8 * (k / 8) + k % 8) = k := by
    rw [snapRow_eq]
    omega
  have hchunk : 2 * i + (16 * w + 8 * (k / 8) + k % 8) >>> 4 = 2 * i + w := by
    rw [Nat.shiftRight_eq_div_pow]
    omega
  have hpart : (8 * (2 * i + w) + col) / 8 = 2 * i + w ∧ (8 * (2 * i + w) + col) % 8 = col := by omega
  have hlt : 8 * (2 * i + w) + col < P.kDv := by
    unfold FragPlan.kDv
    omega
  rw [entryB, snapTile, half_ldmatrixTrans _ _ _ _ (by omega), hlane, hchannel, hrow, hchunk, snap_xor hpow halign (by omega),
    ← hsnap _ (by omega) _ hlt, hpart.1, hpart.2]

end Operands

/-! ### A box -/

/-- A box's products into the channel tiles before `n`. -/
def tileProducts (P : FragPlan) (hmul : BitVec 16 → BitVec 16 → BitVec 16) (val : BitVec 16 → K) (mem : ℕ → BitVec 16) (slot snap b n : ℕ)
    (y : ℕ → ℕ → ℕ → K) : ℕ → ℕ → ℕ → K := fun j =>
  if j < n then mma val (y j) (scaledTile hmul mem slot b) fun r => snapTile P mem snap b (j / 2) (r + 2 * (j % 2)) else y j

theorem channelPairs_eq (b : ℕ) (acc : TileAcc K) : (List.range (P.kNT / 2)).foldl
    (fun acc i => channelPair P hmul val mem slot snap b i acc) acc =
      { acc with y := tileProducts P hmul val mem slot snap b P.kNT acc.y } := by
  have heven : P.kNT / 2 * 2 = P.kNT := by
    obtain ⟨m, hm⟩ := P.vChunks_dvd
    have hkNT : P.kNT = P.vChunks := rfl
    omega
  have hloop : ∀ n, (List.range n).foldl (fun acc i => channelPair P hmul val mem slot snap b i acc) acc =
      { acc with y := tileProducts P hmul val mem slot snap b (2 * n) acc.y } := by
    intro n
    induction n with
    | zero =>
      unfold tileProducts
      simp
    | succ n ih =>
      rw [List.range_succ, List.foldl_append, ih, List.foldl_cons, List.foldl_nil, channelPair]
      dsimp only
      refine congrArg (fun y => { acc with y := y }) ?_
      unfold tileProducts
      funext j
      rcases eq_or_ne j (2 * n + 1) with rfl | hodd
      · rw [Function.update_self, Function.update_of_ne (by omega), if_neg (by omega), if_pos (by omega)]
        have hhalf : (2 * n + 1) / 2 = n ∧ (2 * n + 1) % 2 = 1 := by omega
        rw [hhalf.1, hhalf.2]
      · rw [Function.update_of_ne hodd]
        rcases eq_or_ne j (2 * n) with rfl | hne
        · rw [Function.update_self, if_neg (by omega), if_pos (by omega)]
          have hhalf : 2 * n / 2 = n ∧ 2 * n % 2 = 0 := by omega
          rw [hhalf.1, hhalf.2]
          simp only [Nat.mul_zero, Nat.add_zero]
        · rw [Function.update_of_ne hne]
          exact if_congr (by omega) rfl rfl
  rw [hloop, Nat.mul_comm 2, heven]

/-- A lane's four leaves of a box. -/
def quadPart (f : ℕ → K) (q : ℕ) : K := f (2 * q + 9) + (f (2 * q + 8) + (f (2 * q + 1) + f (2 * q)))

theorem sum_quads (f : ℕ → K) : ∑ q ∈ Finset.range 4, quadPart f q = ∑ p ∈ Finset.range 16, f p := by
  unfold quadPart
  simp only [Finset.sum_range_succ, Finset.sum_range_zero, zero_add, Nat.mul_zero, Nat.mul_one, Nat.reduceMul, Nat.reduceAdd]
  ring

section Accumulators

variable {rows : Bool → ℕ → ℕ → BitVec 16} {S : ℕ → ℕ → BitVec 16} {e : ℕ}

variable (hmul val) in
/-- What a box adds to a row's channel, and to its denominator. -/
def boxNum (rows : Bool → ℕ → ℕ → BitVec 16) (S : ℕ → ℕ → BitVec 16) (row ch b : ℕ) : K :=
  ∑ p ∈ Finset.range 16, val (tileWeight hmul rows row b p) * val (S (b * 16 + p) ch)

variable (hmul val) in
def massTerm (rows : Bool → ℕ → ℕ → BitVec 16) (massrow : ℕ → K) (row b p : ℕ) : K :=
  val (tileWeight hmul rows row b p) * massrow (b * 16 + p)

theorem tileBox_y (hpow : P.vChunks = 2 ^ e) (halign : P.vRowBytes ∣ snap) (hrun : RunHolds mem slot rows) (hsnap : SnapHolds P mem snap S)
    {b j lane i : ℕ} (hb : b < 16) (hj : j < P.kNT) (hlane : lane < 32) (hi : i < 4) (acc : TileAcc K) :
    (tileBox P hmul val mem massrow slot snap b acc).y j lane i =
      acc.y j lane i + boxNum hmul val rows S (rowOf lane i) (8 * j + colOf lane i) b := by
  have hrow : rowOf lane i < 16 := by
    unfold rowOf
    omega
  have hcol : colOf lane i < 8 := by
    unfold colOf
    omega
  have hsplit : 2 * (j / 2) + j % 2 = j := Nat.div_add_mod j 2
  unfold tileBox massPairs
  rw [channelPairs_eq]
  dsimp only
  rw [tileProducts, if_pos hj, mma, boxNum]
  refine congrArg (acc.y j lane i + ·) (Finset.sum_congr rfl fun k hk => ?_)
  have hB := @entryB_snap P mem snap S b e hpow halign hsnap hb (j / 2) (j % 2) k _ (by omega) (Finset.mem_range.1 hk) hcol
  rw [hsplit] at hB
  rw [entryA_tile hrun hb hrow (Finset.mem_range.1 hk), hB]

/-- A lane's pair of a row is two of its weights. -/
theorem half_tile (hrun : RunHolds mem slot rows) {b lane : ℕ} (hb : b < 16) (hlane : lane < 32) {x h u : ℕ} (hx : x < 2) (hh : h < 2)
    (hu : u < 2) : half h (scaledTile hmul mem slot b (x + 2 * u) lane) =
      tileWeight hmul rows (lane / 4 + 8 * x) b (2 * (lane % 4) + 8 * u + h) := by
  have hA := @entryA_tile hmul mem slot rows b hrun hb _ _ (show lane / 4 + 8 * x < 16 by omega) (show 2 * (lane % 4) + 8 * u + h < 16 by omega)
  have hreg : (lane / 4 + 8 * x) / 8 + 2 * ((2 * (lane % 4) + 8 * u + h) / 8) = x + 2 * u := by omega
  have hat : 4 * ((lane / 4 + 8 * x) % 8) + (2 * (lane % 4) + 8 * u + h) % 8 / 2 = lane := by omega
  have hpar : (2 * (lane % 4) + 8 * u + h) % 2 = h := by omega
  rw [entryA, hreg, hat, hpar] at hA
  exact hA

theorem tileBox_dr (hrun : RunHolds mem slot rows) {b lane : ℕ} (hb : b < 16) (hlane : lane < 32) (acc : TileAcc K) :
    (tileBox P hmul val mem massrow slot snap b acc).dr lane =
      acc.dr lane + quadPart (massTerm hmul val rows massrow (lane / 4) b) (lane % 4) ∧
    (tileBox P hmul val mem massrow slot snap b acc).dr8 lane =
      acc.dr8 lane + quadPart (massTerm hmul val rows massrow (lane / 4 + 8) b) (lane % 4) := by
  have hmask : lane &&& 3 = lane % 4 := Nat.and_two_pow_sub_one_eq_mod lane 2
  have hpair : ∀ {x h u : ℕ}, x < 2 → h < 2 → u < 2 → half h (scaledTile hmul mem slot b (x + 2 * u) lane) = _ :=
    fun hx hh hu => half_tile hrun hb hlane hx hh hu
  unfold tileBox massPairs quadPart massTerm
  rw [channelPairs_eq]
  dsimp only
  rw [hmask]
  constructor
  · have h00 := hpair (x := 0) (h := 0) (u := 0) (by decide) (by decide) (by decide)
    have h01 := hpair (x := 0) (h := 1) (u := 0) (by decide) (by decide) (by decide)
    have h10 := hpair (x := 0) (h := 0) (u := 1) (by decide) (by decide) (by decide)
    have h11 := hpair (x := 0) (h := 1) (u := 1) (by decide) (by decide) (by decide)
    simp only [Nat.mul_zero, Nat.add_zero, Nat.mul_one, Nat.zero_add, Nat.reduceAdd, Nat.add_assoc] at h00 h01 h10 h11 ⊢
    rw [h00, h01, h10, h11]
    ring
  · have h00 := hpair (x := 1) (h := 0) (u := 0) (by decide) (by decide) (by decide)
    have h01 := hpair (x := 1) (h := 1) (u := 0) (by decide) (by decide) (by decide)
    have h10 := hpair (x := 1) (h := 0) (u := 1) (by decide) (by decide) (by decide)
    have h11 := hpair (x := 1) (h := 1) (u := 1) (by decide) (by decide) (by decide)
    simp only [Nat.mul_zero, Nat.add_zero, Nat.mul_one, Nat.reduceAdd, Nat.add_assoc] at h00 h01 h10 h11 ⊢
    rw [h00, h01, h10, h11]
    ring

/-! ### The tile -/

/-- The boxes of a mask. -/
def maskBoxes (mask : BitVec 16) : Finset ℕ := (Finset.range 16).filter fun b => mask.getLsbD b = true

/-- A sum over the boxes read is over the mask's. -/
theorem foldl_boxes {α : Type} (mask : BitVec 16) (f : α → ℕ → α) (get : α → K) (g : ℕ → K) (acc : α)
    (hstep : ∀ b < 16, ∀ acc, get (f acc b) = get acc + g b) :
    get (((List.range 32).filter fun b => mask.getLsbD b).foldl f acc) = get acc + ∑ b ∈ maskBoxes mask, g b := by
  have hrange : ((List.range 32).filter fun b => mask.getLsbD b) = (List.range 16).filter fun b => mask.getLsbD b := by
    have happ : List.range 32 = List.range 16 ++ List.range' 16 16 := rfl
    have hhigh : (List.range' 16 16).filter (fun b => mask.getLsbD b) = [] := by
      rw [List.filter_eq_nil_iff]
      intro b hb
      rw [List.mem_range'_1] at hb
      rw [BitVec.getLsbD_of_ge mask b hb.1]
      simp
    rw [happ, List.filter_append, hhigh, List.append_nil]
  have hfold : ∀ n ≤ 16, get (((List.range n).filter fun b => mask.getLsbD b).foldl f acc) =
      get acc + ∑ b ∈ (Finset.range n).filter (fun b => mask.getLsbD b = true), g b := by
    intro n hn
    induction n with
    | zero => simp
    | succ n ih =>
      rw [List.range_succ, List.filter_append, List.foldl_append, Finset.range_add_one, Finset.filter_insert]
      by_cases hbit : mask.getLsbD n = true
      · rw [if_pos hbit, Finset.sum_insert (by simp), List.filter_cons_of_pos hbit, List.filter_nil, List.foldl_cons, List.foldl_nil,
          hstep n (by omega), ih (by omega)]
        ring
      · rw [if_neg hbit, List.filter_cons_of_neg hbit, List.filter_nil, List.foldl_nil, ih (by omega)]
  rw [hrange]
  exact hfold 16 le_rfl

variable (hmul val) in
/-- What a mask's boxes add to a row's channel, and to its denominator. -/
def rowNum (rows : Bool → ℕ → ℕ → BitVec 16) (S : ℕ → ℕ → BitVec 16) (mask : BitVec 16) (row ch : ℕ) : K :=
  ∑ b ∈ maskBoxes mask, boxNum hmul val rows S row ch b

variable (hmul val) in
def rowDen (rows : Bool → ℕ → ℕ → BitVec 16) (massrow : ℕ → K) (mask : BitVec 16) (row : ℕ) : K :=
  ∑ b ∈ maskBoxes mask, ∑ p ∈ Finset.range 16, massTerm hmul val rows massrow row b p

theorem tileAcc_y (hpow : P.vChunks = 2 ^ e) (halign : P.vRowBytes ∣ snap) (hrun : RunHolds mem slot rows) (hsnap : SnapHolds P mem snap S)
    (mask : BitVec 16) {j lane i : ℕ} (hj : j < P.kNT) (hlane : lane < 32) (hi : i < 4) :
    (tileAcc P hmul val mem massrow slot snap mask).y j lane i = rowNum hmul val rows S mask (rowOf lane i) (8 * j + colOf lane i) := by
  have hsum := foldl_boxes mask (fun acc b => tileBox P hmul val mem massrow slot snap b acc) (fun acc => acc.y j lane i)
    (boxNum hmul val rows S (rowOf lane i) (8 * j + colOf lane i)) ⟨fun _ _ _ => 0, fun _ => 0, fun _ => 0⟩ fun b hb acc =>
      tileBox_y hpow halign hrun hsnap hb hj hlane hi acc
  rw [tileAcc_eq, hsum]
  exact zero_add _

theorem tileAcc_dr (hrun : RunHolds mem slot rows) (mask : BitVec 16) {lane : ℕ} (hlane : lane < 32) :
    (tileAcc P hmul val mem massrow slot snap mask).dr lane =
      ∑ b ∈ maskBoxes mask, quadPart (massTerm hmul val rows massrow (lane / 4) b) (lane % 4) ∧
    (tileAcc P hmul val mem massrow slot snap mask).dr8 lane =
      ∑ b ∈ maskBoxes mask, quadPart (massTerm hmul val rows massrow (lane / 4 + 8) b) (lane % 4) := by
  have hdr := foldl_boxes mask (fun acc b => tileBox P hmul val mem massrow slot snap b acc) (fun acc => acc.dr lane)
    (fun b => quadPart (massTerm hmul val rows massrow (lane / 4) b) (lane % 4)) ⟨fun _ _ _ => 0, fun _ => 0, fun _ => 0⟩ fun b hb acc =>
      (tileBox_dr hrun hb hlane acc).1
  have hdr8 := foldl_boxes mask (fun acc b => tileBox P hmul val mem massrow slot snap b acc) (fun acc => acc.dr8 lane)
    (fun b => quadPart (massTerm hmul val rows massrow (lane / 4 + 8) b) (lane % 4)) ⟨fun _ _ _ => 0, fun _ => 0, fun _ => 0⟩ fun b hb acc =>
      (tileBox_dr hrun hb hlane acc).2
  rw [tileAcc_eq, hdr, hdr8]
  exact ⟨zero_add _, zero_add _⟩

theorem quad_lanes : ∀ r < 8, 4 * r ^^^ 1 = 4 * r + 1 ∧ 4 * r ^^^ 2 = 4 * r + 2 ∧ (4 * r + 2) ^^^ 1 = 4 * r + 3 := by decide

/-- The quad's sum is its four lanes'. -/
theorem quadSum_eq (d : ℕ → K) {r : ℕ} (hr : r < 8) : quadSum d (4 * r) = ∑ q ∈ Finset.range 4, d (4 * r + q) := by
  obtain ⟨hone, htwo, hthree⟩ := quad_lanes r hr
  simp only [quadSum, List.foldl_cons, List.foldl_nil, hone, htwo, hthree, Finset.sum_range_succ, Finset.sum_range_zero, zero_add, Nat.add_zero]
  ring

theorem quadSum_den {d : ℕ → K} {mask : BitVec 16} {row r : ℕ} (hr : r < 8) (hd : ∀ q < 4, d (4 * r + q) =
    ∑ b ∈ maskBoxes mask, quadPart (massTerm hmul val rows massrow row b) q) :
    quadSum d (4 * r) = rowDen hmul val rows massrow mask row := by
  rw [quadSum_eq d hr, Finset.sum_congr rfl fun q hq => hd q (Finset.mem_range.1 hq), Finset.sum_comm, rowDen]
  exact Finset.sum_congr rfl fun b _ => sum_quads _

theorem tileAcc_den (hrun : RunHolds mem slot rows) (mask : BitVec 16) {r : ℕ} (hr : r < 8) :
    quadSum (tileAcc P hmul val mem massrow slot snap mask).dr (4 * r) = rowDen hmul val rows massrow mask r ∧
    quadSum (tileAcc P hmul val mem massrow slot snap mask).dr8 (4 * r) = rowDen hmul val rows massrow mask (r + 8) := by
  have hlane : ∀ q < 4, (4 * r + q) / 4 = r ∧ (4 * r + q) % 4 = q := by
    intro q hq
    omega
  refine ⟨quadSum_den hr fun q hq => ?_, quadSum_den hr fun q hq => ?_⟩
  · rw [(tileAcc_dr hrun mask (by omega)).1, (hlane q hq).1, (hlane q hq).2]
  · rw [(tileAcc_dr hrun mask (by omega)).2, (hlane q hq).1, (hlane q hq).2]

end Accumulators

/-! ### The drain -/

/-- The pairs a pass stages lie apart. -/
def DrainLane (P : FragPlan) (pass : ℕ) (x : ℕ × ℕ) : Prop := x.1 < 32 ∧ (x.1 >>> 2) &&& 4 = pass % 2 * 4 ∧ x.2 < P.kNT

theorem drain_lanes : ∀ lane < 32, (lane >>> 2) &&& 4 = lane / 16 * 4 ∧ (lane >>> 2) &&& 3 = lane / 4 % 4 ∧ lane &&& 3 = lane % 4 := by
  decide

theorem apart_drain (pass : ℕ) : Staging.Apart 2 (drainPlace P) (DrainLane P pass) := by
  intro x y hx hy hne
  obtain ⟨hx32, hxq, hxj⟩ := hx
  obtain ⟨hy32, hyq, hyj⟩ := hy
  obtain ⟨hxa, hxb, hxc⟩ := drain_lanes x.1 hx32
  obtain ⟨hya, hyb, hyc⟩ := drain_lanes y.1 hy32
  have hkNT : P.kNT = P.vChunks := rfl
  have hrow : P.drainRow = 2 * (4 * P.vChunks + 4) := by
    unfold FragPlan.drainRow FragPlan.kDv
    omega
  unfold drainPlace
  rw [hxb, hyb, hxc, hyc, hrow]
  by_contra hclose
  have hsame : x.1 / 4 % 4 * (4 * P.vChunks + 4) + (x.1 % 4 + 4 * x.2) = y.1 / 4 % 4 * (4 * P.vChunks + 4) + (y.1 % 4 + 4 * y.2) := by
    rw [Nat.mul_left_comm, Nat.mul_left_comm (y.1 / 4 % 4)] at hclose
    omega
  obtain ⟨hhigh, hlow⟩ := digit_inj (by omega) (by omega) hsame
  exact hne (Prod.ext (by omega) (by omega))

variable {acc : TileAcc K}

omit [CommRing K] in
/-- A staged row's channel. -/
theorem drainStage_at (stage : ℕ → K) {pass srow ch : ℕ} (hsrow : srow < 4) (hch : ch < P.kDv) :
    drainStage P acc stage pass (srow * P.drainRow + ch) =
      acc.y (ch / 8) (4 * (pass % 2 * 4 + srow) + ch % 8 / 2) (2 * (pass / 2) + ch % 2) := by
  have hkNT : P.kNT = P.vChunks := rfl
  have hkDv : P.kDv = 8 * P.vChunks := rfl
  have hlane : 4 * (pass % 2 * 4 + srow) + ch % 8 / 2 < 32 := by omega
  obtain ⟨ha, hb, hc⟩ := drain_lanes _ hlane
  have hx : DrainLane P pass (4 * (pass % 2 * 4 + srow) + ch % 8 / 2, ch / 8) := ⟨hlane, by dsimp only; omega, by dsimp only; omega⟩
  have hmem : ∀ c ∈ drainStores P acc pass, DrainLane P pass c.1 := by
    intro c hc
    obtain ⟨lane, hl, hin⟩ := List.mem_flatMap.1 hc
    obtain ⟨j, hj, rfl⟩ := List.mem_map.1 hin
    rw [List.mem_filter, List.mem_range, decide_eq_true_eq] at hl
    exact ⟨hl.1, hl.2, List.mem_range.1 hj⟩
  have hplace : srow * P.drainRow + ch = drainPlace P (4 * (pass % 2 * 4 + srow) + ch % 8 / 2, ch / 8) + ch % 2 := by
    unfold drainPlace
    dsimp only
    rw [hb, hc, show (4 * (pass % 2 * 4 + srow) + ch % 8 / 2) / 4 % 4 = srow by omega]
    omega
  have hlaid : Staging.Laid 2 (drainPlace P) (DrainLane P pass) stage fun x i => stage (drainPlace P x + i) := fun _ _ _ _ => rfl
  unfold drainStage
  rw [hplace, hlaid.foldl (apart_drain pass) hmem _ hx _ (Nat.mod_lt _ (by decide))]
  refine congrFun (Staging.foldl_update (x := fun i => acc.y (ch / 8) (4 * (pass % 2 * 4 + srow) + ch % 8 / 2) (2 * (pass / 2) + i))
    (fun c hc heq => ?_) (.inr ?_)) _
  · obtain ⟨lane, -, hin⟩ := List.mem_flatMap.1 hc
    obtain ⟨j, -, rfl⟩ := List.mem_map.1 hin
    obtain ⟨rfl, rfl⟩ := Prod.mk.inj heq
    rfl
  · refine ⟨((4 * (pass % 2 * 4 + srow) + ch % 8 / 2, ch / 8), _), List.mem_flatMap.2 ⟨_, List.mem_filter.2 ⟨List.mem_range.2 hlane, ?_⟩,
      List.mem_map.2 ⟨_, List.mem_range.2 hx.2.2, rfl⟩⟩, rfl⟩
    rw [decide_eq_true_eq]
    exact hx.2.1

/-! ### The reductions -/

section Reductions

variable {rows : Bool → ℕ → ℕ → BitVec 16} {S : ℕ → ℕ → BitVec 16} {order : ℕ → BitVec 16} {mask : BitVec 16} {e k live t0 : ℕ}

/-- A pass adds its four rows. -/
theorem hits_drainReds (hpow : P.vChunks = 2 ^ e) (halign : P.vRowBytes ∣ snap) (hrun : RunHolds mem slot rows)
    (hsnap : SnapHolds P mem snap S) (addr : ℕ) (stage : ℕ → K) {pass : ℕ} (hpass : pass < 4) :
    Intra.hits addr (drainReds P order k live t0 (drainStage P (tileAcc P hmul val mem massrow slot snap mask) stage pass) pass) =
      ∑ srow ∈ Finset.range 4, ∑ ch ∈ Finset.range P.kDv,
        if (t0 + tileToken order k live (pass * 4 + srow)) * P.kDv + ch = addr then rowNum hmul val rows S mask (pass * 4 + srow) ch
        else 0 := by
  have hkNT : P.kNT = P.vChunks := rfl
  have hkDv : P.kDv = 8 * P.vChunks := rfl
  have hlines : P.kDv / 32 * 32 = P.kDv := by
    obtain ⟨m, hm⟩ := P.vChunks_dvd
    omega
  unfold drainReds
  rw [Intra.hits_range, Finset.sum_congr rfl fun lane _ => Intra.hits_range _ _ _, Finset.sum_comm]
  refine Finset.sum_congr rfl fun srow hsrow => ?_
  rw [Finset.mem_range] at hsrow
  have hrow : pass % 2 * 4 + srow + 8 * (pass / 2) = pass * 4 + srow := by omega
  have hblocks := sum_blocks (fun ch => if (t0 + tileToken order k live (pass * 4 + srow)) * P.kDv + ch = addr then
    rowNum hmul val rows S mask (pass * 4 + srow) ch else 0) (P.kDv / 32) 32
  rw [hlines] at hblocks
  rw [hblocks, Finset.sum_comm]
  refine Finset.sum_congr rfl fun lane hlane => ?_
  rw [Intra.hits_map]
  refine Finset.sum_congr rfl fun line hline => ?_
  rw [Finset.mem_range] at hlane hline
  have hch : line * 32 + lane < P.kDv := by omega
  dsimp only
  have haddr : t0 * P.kDv + lane + tileToken order k live (pass * 4 + srow) * P.kDv + line * 32 =
      (t0 + tileToken order k live (pass * 4 + srow)) * P.kDv + (line * 32 + lane) := by ring
  have hword : lane + srow * P.drainRow + line * 32 = srow * P.drainRow + (line * 32 + lane) := by omega
  rw [hrow, haddr, hword, drainStage_at stage hsrow hch,
    tileAcc_y hpow halign hrun hsnap mask (by omega) (by omega) (show 2 * (pass / 2) + (line * 32 + lane) % 2 < 4 by omega)]
  generalize line * 32 + lane = ch at hch
  have hrowOf : rowOf (4 * (pass % 2 * 4 + srow) + ch % 8 / 2) (2 * (pass / 2) + ch % 2) = pass * 4 + srow := by
    unfold rowOf
    omega
  have hcolOf : 8 * (ch / 8) + colOf (4 * (pass % 2 * 4 + srow) + ch % 8 / 2) (2 * (pass / 2) + ch % 2) = ch := by
    unfold colOf
    omega
  rw [hrowOf, hcolOf]

theorem hits_tileNum (hpow : P.vChunks = 2 ^ e) (halign : P.vRowBytes ∣ snap) (hrun : RunHolds mem slot rows)
    (hsnap : SnapHolds P mem snap S) (addr : ℕ) (stage : ℕ → K) :
    Intra.hits addr (tileNum P (tileAcc P hmul val mem massrow slot snap mask) order k live t0 stage) =
      ∑ row ∈ Finset.range 16, ∑ ch ∈ Finset.range P.kDv,
        if (t0 + tileToken order k live row) * P.kDv + ch = addr then rowNum hmul val rows S mask row ch else 0 := by
  have hpasses : ∀ n ≤ 4, Intra.hits addr ((List.range n).foldl (fun (s : (ℕ → K) × List (Intra.Add K)) pass =>
      let stage := drainStage P (tileAcc P hmul val mem massrow slot snap mask) s.1 pass
      (stage, s.2 ++ drainReds P order k live t0 stage pass)) (stage, [])).2 =
      ∑ pass ∈ Finset.range n, ∑ srow ∈ Finset.range 4, ∑ ch ∈ Finset.range P.kDv,
        if (t0 + tileToken order k live (pass * 4 + srow)) * P.kDv + ch = addr then rowNum hmul val rows S mask (pass * 4 + srow) ch
        else 0 := by
    intro n hn
    induction n with
    | zero => simp [Intra.hits]
    | succ n ih =>
      rw [List.range_succ, List.foldl_append, List.foldl_cons, List.foldl_nil]
      dsimp only
      rw [Intra.hits_append, ih (by omega), Finset.sum_range_succ _ n, hits_drainReds hpow halign hrun hsnap addr _ (by omega)]
  unfold tileNum
  rw [hpasses 4 le_rfl]
  exact (sum_blocks (fun row => ∑ ch ∈ Finset.range P.kDv,
    if (t0 + tileToken order k live row) * P.kDv + ch = addr then rowNum hmul val rows S mask row ch else 0) 4 4).symm

theorem hits_tileDen (hrun : RunHolds mem slot rows) (addr : ℕ) :
    Intra.hits addr (tileDen (tileAcc P hmul val mem massrow slot snap mask) order k live t0) =
      ∑ row ∈ Finset.range 16, if k * kTile + row < live then
        if t0 + (order (k * kTile + row)).toNat = addr then rowDen hmul val rows massrow mask row else 0 else 0 := by
  have hlanes : ((List.range 32).filter fun lane => lane &&& 3 = 0) = (List.range 8).map fun r => 4 * r := by decide
  have hone : ∀ (c : Prop) [Decidable c] (a : Intra.Add K), Intra.hits addr (if c then [a] else []) =
      if c then if a.addr = addr then a.value else 0 else 0 := by
    intro c _ a
    split
    · simp [Intra.hits]
    · rfl
  have hsplit : ∀ f : ℕ → K, ∑ row ∈ Finset.range 16, f row = ∑ r ∈ Finset.range 8, (f r + f (r + 8)) := by
    intro f
    rw [Finset.sum_add_distrib]
    simp only [Finset.sum_range_succ, Finset.sum_range_zero, zero_add, Nat.reduceAdd]
    ring
  unfold tileDen
  rw [hlanes, List.flatMap_map, Intra.hits_range, hsplit]
  refine Finset.sum_congr rfl fun r hr => ?_
  rw [Finset.mem_range] at hr
  have hshift : (4 * r) >>> 2 = r := by
    rw [Nat.shiftRight_eq_div_pow]
    omega
  obtain ⟨hlow, hhigh⟩ := @tileAcc_den P hmul K _ val mem massrow slot snap rows hrun mask r hr
  dsimp only
  rw [Intra.hits_append, hone, hone]
  dsimp only
  rw [hshift, hlow, hhigh, Nat.add_assoc]

end Reductions

end Tile

/-! ### The ring slot -/

def InTile (x : RunPlace) : Prop := x.row < 16 ∧ x.h < 2

def ringPlace (slot : ℕ) (x : RunPlace) : ℕ := (slot + x.off) / 2

theorem apart_runs (slot : ℕ) : Staging.Apart 8 (ringPlace slot) InTile := by
  have hoff : ∀ x : RunPlace, x.off = 16 * ((if x.outer then 32 else 0) + (x.row * 2 + (x.h ^^^ runSwz x.row))) := by
    intro x
    unfold RunPlace.off FragPlan.row32Off runSwz kRunTileBytes
    split
    · ring
    · ring
  have hhalf : ∀ p : ℕ, (slot + 16 * p) / 2 = slot / 2 + 8 * p := by omega
  intro x y hx hy hne
  have hxh := xor_bit hx.2 (runSwz_lt x.row)
  have hyh := xor_bit hy.2 (runSwz_lt y.row)
  have hx16 := hx.1
  have hy16 := hy.1
  unfold ringPlace
  rw [hoff, hoff, hhalf, hhalf]
  by_contra hclose
  have hplace : (if x.outer then 32 else 0) + (x.row * 2 + (x.h ^^^ runSwz x.row)) =
      (if y.outer then 32 else 0) + (y.row * 2 + (y.h ^^^ runSwz y.row)) := by omega
  have houter : x.outer = y.outer := by
    cases hxo : x.outer <;> cases hyo : y.outer <;> simp [hxo, hyo] at hplace ⊢ <;> omega
  rw [houter] at hplace
  obtain ⟨hrow, hxor⟩ := digit_inj hxh hyh (Nat.add_left_cancel hplace)
  rw [hrow] at hxor
  have hh : x.h = y.h := Nat.xor_left_inj.1 hxor
  cases x
  cases y
  exact hne (by simp_all)

/-- The rows a tile's copies bring: its live tokens', and zeros. -/
def tileRows (run : Bool → ℕ → ℕ → BitVec 16) (order : ℕ → BitVec 16) (k live rowbase : ℕ) (outer : Bool) (row d : ℕ) : BitVec 16 :=
  if k * kTile + row < live then run outer ((rowbase + (order (k * kTile + row)).toNat) % 2 ^ 32) d else 0#16

/-- A ring slot a tile's copies have landed in, in some order. -/
def TileStaged (run : Bool → ℕ → ℕ → BitVec 16) (order : ℕ → BitVec 16) (k live rowbase slot : ℕ) (mem : ℕ → BitVec 16) : Prop :=
  ∃ (old : ℕ → BitVec 16) (copies : List (RunPlace × (ℕ → BitVec 16))), copies.Perm (issueCopies run order k live rowbase) ∧
    ∀ x, InTile x → ∀ i < 8, mem (ringPlace slot x + i) =
      copies.foldl (fun mem c => Staging.stage 8 (ringPlace slot c.1) c.2 mem) old (ringPlace slot x + i)

section Staged

variable {run : Bool → ℕ → ℕ → BitVec 16} {order : ℕ → BitVec 16} {k live rowbase slot : ℕ} {mem : ℕ → BitVec 16}

theorem mem_issueCopies {c : RunPlace × (ℕ → BitVec 16)} (hc : c ∈ issueCopies run order k live rowbase) :
    InTile c.1 ∧ c.2 = fun i => tileRows run order k live rowbase c.1.outer c.1.row (8 * c.1.h + i) := by
  obtain ⟨lane, hlane, hin⟩ := List.mem_flatMap.1 hc
  obtain ⟨outer, -, rfl⟩ := List.mem_map.1 hin
  rw [List.mem_range] at hlane
  have hmask : lane &&& 15 = lane % 16 := Nat.and_two_pow_sub_one_eq_mod lane 4
  refine ⟨⟨?_, ?_⟩, ?_⟩
  · dsimp only
    omega
  · dsimp only
    rw [Nat.shiftRight_eq_div_pow]
    omega
  · dsimp only
    funext i
    rw [tileRows, tileToken]
    split <;> rfl

theorem exists_issueCopy {x : RunPlace} (hx : InTile x) : ∃ c ∈ issueCopies run order k live rowbase, c.1 = x := by
  obtain ⟨outer, row, h⟩ := x
  obtain ⟨hrow, hh⟩ := hx
  dsimp only at hrow hh
  have hmask : (row + 16 * h) &&& 15 = row := by
    have hmod : (row + 16 * h) &&& 15 = (row + 16 * h) % 16 := Nat.and_two_pow_sub_one_eq_mod _ 4
    omega
  have hshift : (row + 16 * h) >>> 4 = h := by
    rw [Nat.shiftRight_eq_div_pow]
    omega
  refine ⟨_, List.mem_flatMap.2 ⟨row + 16 * h, List.mem_range.2 (by omega), List.mem_map.2 ⟨outer, ?_, rfl⟩⟩, ?_⟩
  · cases outer <;> simp
  · dsimp only
    rw [hmask, hshift]

/-- A staged slot holds its tile's rows. -/
theorem TileStaged.holds (h : TileStaged run order k live rowbase slot mem) : RunHolds mem slot (tileRows run order k live rowbase) := by
  obtain ⟨old, copies, hperm, hmem⟩ := h
  intro outer row hrow d hd
  have hx : InTile ⟨outer, row, d / 8⟩ := ⟨hrow, by dsimp only; omega⟩
  have hlaid : Staging.Laid 8 (ringPlace slot) InTile old fun x i => old (ringPlace slot x + i) := fun _ _ _ _ => rfl
  have hin : ∀ c ∈ copies, InTile c.1 := fun c hc => (mem_issueCopies (hperm.mem_iff.1 hc)).1
  obtain ⟨c, hc, hat⟩ := @exists_issueCopy run order k live rowbase _ hx
  have hupdate := @Staging.foldl_update _ _ (fun x i => old (ringPlace slot x + i)) _ copies ⟨outer, row, d / 8⟩
    (fun i => tileRows run order k live rowbase outer row (8 * (d / 8) + i)) (fun c hc heq => ?_) (.inr ⟨c, hperm.mem_iff.2 hc, hat⟩)
  · have hword := (hmem _ hx (d % 8) (Nat.mod_lt _ (by decide))).trans
      (hlaid.foldl (apart_runs slot) hin _ hx _ (Nat.mod_lt _ (by decide)))
    rw [hupdate] at hword
    dsimp only at hword
    rw [Nat.div_add_mod] at hword
    exact hword
  · have hvalue := (mem_issueCopies (hperm.mem_iff.1 hc)).2
    rw [heq] at hvalue
    exact hvalue

end Staged

end Rola
