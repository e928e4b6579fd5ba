import Rola.ByteMemory
import Rola.SplitPlanes

/-!
# One page layout, four ways

`to_split_planes` and `from_split_planes` as reshapes of a page's halves; `state_page::Blocks`, the
carry's chunked copies and the decode step's halfwords as loads and stores of its bytes. A page is at a
byte offset; an image is its words by row and column, column `DV` the mass.
-/

namespace Rola

open ByteMemory

namespace SplitPage

variable {dv row col j : ℕ}

/-! ### The reshapes -/

abbrev Image := ℕ → ℕ → BitVec 32

def hiOf (w : BitVec 32) : BitVec 16 := (w.sshiftRight 16).setWidth 16

def loOf (w : BitVec 32) : BitVec 16 := w.setWidth 16

/-- `stored`: the four slices of a page, in halves. -/
def stored (dv : ℕ) (x : Image) : SplitPage := fun j =>
  let rows := 16 * dv
  if j < rows then hiOf (x (j / dv) (j % dv))
  else if j < 2 * rows then loOf (x ((j - rows) / dv) ((j - rows) % dv))
  else if j < 2 * rows + 16 then hiOf (x (j - 2 * rows) dv)
  else loOf (x (j - (2 * rows + 16)) dv)

namespace Words

variable (x : Words dv)

def image : Image := fun row col => if h : row < 16 ∧ col < dv + 1 then x ⟨row, h.1⟩ ⟨col, h.2⟩ else 0

/-- `view(torch.int16)`: the halves of the words in order. -/
def halves : SplitPage := fun j =>
  let w := x.image (j / 2 / (dv + 1)) (j / 2 % (dv + 1))
  if j % 2 = 0 then loOf w else hiOf w

/-- `to_split_planes`. -/
def toSplitPlanes : Words dv := fp32View dv (stored dv x.image)

/-- `from_split_planes`. -/
def fromSplitPlanes : Words dv :=
  let half (j : ℕ) : BitVec 32 := (x.halves j).signExtend 32 &&& 0xFFFF
  let rows := 16 * dv
  fun row col =>
    if col.val < dv then (half (row * dv + col) <<< 16) ||| half (rows + (row * dv + col))
    else (half (2 * rows + row) <<< 16) ||| half (2 * rows + 16 + row)

end Words

/-! ### `state_page::Blocks`, over a page at byte `off` -/

/-- A pair's row and column. -/
def pairAt (dv p : ℕ) : ℕ × ℕ := (p / (dv / 2), 2 * (p % (dv / 2)))

/-- `load`'s image, of the pairs and the mass rows its threads run. -/
def blocksLoad (dv : ℕ) (mem : Mem) (off : ℕ) (withLo : Bool) (pairs masses : List ℕ) (so : Image) : Image :=
  let so := pairs.foldl (fun so p =>
    let (row, col) := pairAt dv p
    let o := off + (row * dv + col) * 2
    let h := load32 mem o
    let l := load32 mem (o + 2 * kLo dv)
    let e0 := if withLo then bytePerm l h 0x5410 else h <<< 16
    let e1 := if withLo then bytePerm l h 0x7632 else h &&& 0xFFFF0000
    Function.update so row (Function.update (Function.update (so row) col e0) (col + 1) e1)) so
  masses.foldl (fun so r =>
    let w := (load16 mem (off + r * 2 + 2 * kMassHi dv)).setWidth 32 <<< 16
    let w := if withLo then w ||| (load16 mem (off + r * 2 + 2 * kMassLo dv)).setWidth 32 else w
    Function.update so r (Function.update (so r) dv w)) so

/-- `store`. -/
def blocksStore (dv : ℕ) (so : Image) (off : ℕ) (pairs masses : List ℕ) (mem : Mem) : Mem :=
  let mem := pairs.foldl (fun mem p =>
    let (row, col) := pairAt dv p
    let o := off + (row * dv + col) * 2
    let v0 := so row col
    let v1 := so row (col + 1)
    store32 (store32 mem o (bytePerm v0 v1 0x7632)) (o + 2 * kLo dv) (bytePerm v0 v1 0x5410)) mem
  masses.foldl (fun mem r =>
    let w := so r dv
    store16 (store16 mem (off + r * 2 + 2 * kMassHi dv) ((w >>> 16).setWidth 16))
      (off + r * 2 + 2 * kMassLo dv) ((w &&& 0xFFFF).setWidth 16)) mem

/-! ### The carry's chunks -/

/-- A chunk's byte of the page: its plane, its row, sixteen bytes of it. -/
def chunkOff (dv plane row chunk : ℕ) : ℕ := (if plane = 0 then 0 else 2 * kLo dv) + (row * dv + chunk * 8) * 2

/-- A chunk of a stage as `state_copy` loads it, word `q`. -/
def chunkLoad (dv : ℕ) (mem : Mem) (off : ℕ) (withLo : Bool) (plane row chunk q : ℕ) : BitVec 32 :=
  if plane = 0 ∨ withLo = true then load32 mem (off + chunkOff dv plane row chunk + 4 * q) else 0

/-- A row's channels and mass as `state_gather` joins them off the stages. -/
def carryLoad (dv : ℕ) (mem : Mem) (off : ℕ) (withLo : Bool) : Image := fun row col =>
  if col < dv then
    let hi := chunkLoad dv mem off withLo 0 row (col / 8) (col % 8 / 2)
    let lo := chunkLoad dv mem off withLo 1 row (col / 8) (col % 8 / 2)
    if col % 2 = 0 then bytePerm lo hi 0x5410 else bytePerm lo hi 0x7632
  else
    let w := (load16 mem (off + row * 2 + 2 * kMassHi dv)).setWidth 32 <<< 16
    if withLo then w ||| (load16 mem (off + row * 2 + 2 * kMassLo dv)).setWidth 32 else w

/-- A stage's word as `snapshot_publish` leaves it: two channels' halves. -/
def stageWord (x : Image) (plane row chunk q : ℕ) : BitVec 32 :=
  bytePerm (x row (8 * chunk + 2 * q)) (x row (8 * chunk + 2 * q + 1)) (if plane = 0 then 0x7632 else 0x5410)

/-- `state_copy`'s stores of a page, its items and its mass rows. -/
def carryStore (dv : ℕ) (x : Image) (off : ℕ) (items : List (ℕ × ℕ × ℕ)) (masses : List ℕ) (mem : Mem) : Mem :=
  let mem := items.foldl (fun mem (i : ℕ × ℕ × ℕ) =>
    (List.range 4).foldl (fun mem q =>
      store32 mem (off + chunkOff dv i.1 i.2.1 i.2.2 + 4 * q) (stageWord x i.1 i.2.1 i.2.2 q)) mem) mem
  masses.foldl (fun mem r =>
    let w := x r dv
    store16 (store16 mem (off + r * 2 + 2 * kMassHi dv) ((w >>> 16).setWidth 16))
      (off + r * 2 + 2 * kMassLo dv) ((w &&& 0xFFFF).setWidth 16)) mem

/-! ### The decode step's halfwords -/

/-- Lane `lane`'s column `q`, by halfwords; the mass is lane 0's. -/
def decodeLoad (dv : ℕ) (mem : Mem) (off prow : ℕ) (writes : Bool) (lane q : ℕ) : BitVec 32 :=
  let w := (load16 mem (off + prow * dv * 2 + 2 * (lane + 32 * q))).setWidth 32 <<< 16
  if writes then w ||| (load16 mem (off + 2 * kLo dv + prow * dv * 2 + 2 * (lane + 32 * q))).setWidth 32 else w

def decodeLoadMass (dv : ℕ) (mem : Mem) (off prow : ℕ) (writes : Bool) : BitVec 32 :=
  let w := (load16 mem (off + 2 * kMassHi dv + prow * 2)).setWidth 32 <<< 16
  if writes then w ||| (load16 mem (off + 2 * kMassLo dv + prow * 2)).setWidth 32 else w

/-- A leaf's row stored by the lanes, then its mass by lane 0. -/
def decodeStore (dv : ℕ) (words : ℕ → BitVec 32) (off prow : ℕ) (places : List (ℕ × ℕ)) (mem : Mem) : Mem :=
  let mem := places.foldl (fun mem (i : ℕ × ℕ) =>
    let w := words (i.1 + 32 * i.2)
    store16 (store16 mem (off + prow * dv * 2 + 2 * (i.1 + 32 * i.2)) ((w >>> 16).setWidth 16))
      (off + 2 * kLo dv + prow * dv * 2 + 2 * (i.1 + 32 * i.2)) ((w &&& 0xFFFF).setWidth 16)) mem
  store16 (store16 mem (off + 2 * kMassHi dv + prow * 2) ((words dv >>> 16).setWidth 16))
    (off + 2 * kMassLo dv + prow * 2) ((words dv &&& 0xFFFF).setWidth 16)

/-! ### Halves of a word -/

theorem hiOf_eq (w : BitVec 32) : hiOf w = w.extractLsb' 16 16 := by
  refine BitVec.eq_of_getLsbD_eq fun i hi => ?_
  rw [hiOf, BitVec.getLsbD_setWidth, BitVec.getLsbD_sshiftRight, BitVec.getLsbD_extractLsb']
  have h : 16 + i < 32 := by omega
  simp [hi, h]
  omega

theorem loOf_eq (w : BitVec 32) : loOf w = w.extractLsb' 0 16 := by
  refine BitVec.eq_of_getLsbD_eq fun i hi => ?_
  simp [loOf, hi]

theorem shift_setWidth (w : BitVec 32) : (w >>> 16).setWidth 16 = w.extractLsb' 16 16 := by
  refine BitVec.eq_of_getLsbD_eq fun i hi => ?_
  simp [hi]

theorem getLsbD_halfMask (i : ℕ) : (0xFFFF : BitVec 32).getLsbD i = decide (i < 16) := by
  have h : (0xFFFF : BitVec 32) = BitVec.ofNat 32 (2 ^ 16 - 1) := rfl
  rw [h, BitVec.getLsbD_ofNat, Nat.testBit_two_pow_sub_one]
  rcases lt_or_ge i 16 with hi | hi
  · simp [hi, show i < 32 by omega]
  · simp [Nat.not_lt.2 hi]

theorem and_setWidth (w : BitVec 32) : (w &&& 0xFFFF).setWidth 16 = w.extractLsb' 0 16 := by
  refine BitVec.eq_of_getLsbD_eq fun i hi => ?_
  rw [BitVec.getLsbD_setWidth, BitVec.getLsbD_and, getLsbD_halfMask, BitVec.getLsbD_extractLsb']
  simp [hi]

theorem setWidth_shift_or (h l : BitVec 16) : (h.setWidth 32 <<< 16) ||| l.setWidth 32 = h ++ l := by
  refine BitVec.eq_of_getLsbD_eq fun i hi => ?_
  rw [BitVec.getLsbD_or, BitVec.getLsbD_shiftLeft, BitVec.getLsbD_setWidth, BitVec.getLsbD_setWidth,
    BitVec.getLsbD_append]
  rcases lt_or_ge i 16 with h16 | h16
  · simp [h16, hi]
  · simp [Nat.not_lt.2 h16, hi, BitVec.getLsbD_of_ge l i h16]
    omega

theorem signExtend_and (h : BitVec 16) : h.signExtend 32 &&& 0xFFFF = h.setWidth 32 := by
  refine BitVec.eq_of_getLsbD_eq fun i hi => ?_
  rw [BitVec.getLsbD_and, getLsbD_halfMask, BitVec.getLsbD_signExtend, BitVec.getLsbD_setWidth]
  rcases lt_or_ge i 16 with h16 | h16
  · simp [h16, hi]
  · simp [Nat.not_lt.2 h16, BitVec.getLsbD_of_ge h i h16]

/-- The high half alone. -/
theorem hi_only (w : BitVec 32) : (w.extractLsb' 16 16).setWidth 32 <<< 16 = w &&& 0xFFFF0000 := by
  have hmask : (0xFFFF0000 : BitVec 32) = ~~~(0xFFFF : BitVec 32) := rfl
  refine BitVec.eq_of_getLsbD_eq fun i hi => ?_
  rw [BitVec.getLsbD_shiftLeft, BitVec.getLsbD_setWidth, BitVec.getLsbD_extractLsb', BitVec.getLsbD_and, hmask,
    BitVec.getLsbD_not, getLsbD_halfMask]
  rcases lt_or_ge i 16 with h16 | h16
  · simp [h16]
  · have h1 : i - 16 < 32 := by omega
    have h2 : i - 16 < 16 := by omega
    simp [Nat.not_lt.2 h16, hi, h1, h2, Nat.add_sub_cancel' h16]

theorem append_halves (w : BitVec 32) : w.extractLsb' 16 16 ++ w.extractLsb' 0 16 = w :=
  BitVec.extractLsb'_append_extractLsb'

theorem hi_append_zero (w : BitVec 32) : w.extractLsb' 16 16 ++ 0#16 = w &&& 0xFFFF0000 := by
  rw [← hi_only, ← setWidth_shift_or]
  simp

/-! ### The positions -/

/-- Where a word's half is. -/
def place (dv row col : ℕ) (lo : Bool) : ℕ := if lo then loHalf dv row col else hiHalf dv row col

def halfOf (w : BitVec 32) (lo : Bool) : BitVec 16 := if lo then w.extractLsb' 0 16 else w.extractLsb' 16 16

theorem place_lt {lo : Bool} (hr : row < 16) (hc : col ≤ dv) : place dv row col lo < 32 * (dv + 1) := by
  unfold place loHalf hiHalf kLo kMassHi kMassLo
  rcases lt_or_eq_of_le hc with hlt | rfl
  · have hflat := flat_lt hr hlt
    cases lo <;> simp [hlt] <;> omega
  · cases lo <;> simp <;> omega

theorem place_inj {row' col' : ℕ} {lo lo' : Bool} (hr : row < 16) (hc : col ≤ dv) (hr' : row' < 16) (hc' : col' ≤ dv)
    (h : place dv row col lo = place dv row' col' lo') : row = row' ∧ col = col' ∧ lo = lo' := by
  cases lo <;> cases lo' <;> simp only [place, Bool.false_eq_true, if_false, if_true] at h
  · obtain ⟨h1, h2⟩ := hiHalf_inj hr hc hr' hc' h
    exact ⟨h1, h2, rfl⟩
  · exact absurd h (hiHalf_ne_loHalf hr hr')
  · exact absurd h.symm (hiHalf_ne_loHalf hr' hr)
  · obtain ⟨h1, h2⟩ := loHalf_inj hr hc hr' hc' h
    exact ⟨h1, h2, rfl⟩

/-- `to_split_planes` puts each half in its place. -/
theorem stored_place (x : Image) (lo : Bool) (hr : row < 16) (hc : col ≤ dv) :
    stored dv x (place dv row col lo) = halfOf (x row col) lo := by
  unfold stored place halfOf hiHalf loHalf kLo kMassHi kMassLo
  rcases lt_or_eq_of_le hc with hlt | rfl
  · have hflat := flat_lt hr hlt
    have hdiv : (row * dv + col) / dv = row := by
      rw [Nat.mul_comm, Nat.mul_add_div (by omega), Nat.div_eq_of_lt hlt, Nat.add_zero]
    have hmod : (row * dv + col) % dv = col := by
      rw [Nat.mul_comm, Nat.mul_add_mod, Nat.mod_eq_of_lt hlt]
    cases lo
    · simp [hlt, hflat, hdiv, hmod, hiOf_eq]
    · have h1 : 16 * dv + (row * dv + col) < 2 * (16 * dv) := by omega
      simp [hlt, h1, hdiv, hmod, loOf_eq]
  · cases lo
    · have h1 : ¬ 32 * col + row < 16 * col := by omega
      have h2 : ¬ 32 * col + row < 2 * (16 * col) := by omega
      have h3 : 32 * col + row < 2 * (16 * col) + 16 := by omega
      have h4 : 32 * col + row - 2 * (16 * col) = row := by omega
      simp [h1, h2, h3, h4, hiOf_eq]
    · have h1 : ¬ 32 * col + 16 + row < 16 * col := by omega
      have h2 : ¬ 32 * col + 16 + row < 2 * (16 * col) := by omega
      have h3 : ¬ 32 * col + 16 + row < 2 * (16 * col) + 16 := by omega
      have h4 : 32 * col + 16 + row - (2 * (16 * col) + 16) = row := by omega
      simp [h1, h2, h3, h4, loOf_eq]

/-- Every half of a page is some word's. -/
theorem exists_place (hj : j < 32 * (dv + 1)) : ∃ row < 16, ∃ col ≤ dv, ∃ lo, place dv row col lo = j := by
  have hsplit : ∀ i < 16 * dv, i / dv < 16 ∧ i % dv < dv ∧ i / dv * dv + i % dv = i := by
    intro i hi
    have hpos : 0 < dv := by
      rcases Nat.eq_zero_or_pos dv with rfl | hpos
      · omega
      · exact hpos
    exact ⟨(Nat.div_lt_iff_lt_mul hpos).2 hi, Nat.mod_lt _ hpos, Nat.div_add_mod' i dv⟩
  unfold place hiHalf loHalf kLo kMassHi kMassLo
  rcases lt_or_ge j (16 * dv) with h1 | h1
  · obtain ⟨hr, hc, heq⟩ := hsplit j h1
    exact ⟨_, hr, _, hc.le, false, by simp [hc, heq]⟩
  rcases lt_or_ge j (32 * dv) with h2 | h2
  · obtain ⟨hr, hc, heq⟩ := hsplit (j - 16 * dv) (by omega)
    exact ⟨_, hr, _, hc.le, true, by simp [hc, heq]; omega⟩
  rcases lt_or_ge j (32 * dv + 16) with h3 | h3
  · exact ⟨j - 32 * dv, by omega, dv, le_rfl, false, by simp; omega⟩
  · exact ⟨j - (32 * dv + 16), by omega, dv, le_rfl, true, by simp; omega⟩

/-! ### The round trip -/

/-- A page that is `x` stored. -/
def Stores (dv : ℕ) (page : SplitPage) (x : Image) : Prop := ∀ j < 32 * (dv + 1), page j = stored dv x j

theorem Stores.place {page : SplitPage} {x : Image} (h : Stores dv page x) (lo : Bool) (hr : row < 16) (hc : col ≤ dv) :
    page (SplitPage.place dv row col lo) = halfOf (x row col) lo := by
  rw [h _ (place_lt hr hc), stored_place x lo hr hc]

theorem stores_iff {page : SplitPage} {x : Image} : Stores dv page x ↔
    ∀ row < 16, ∀ col ≤ dv, ∀ lo, page (place dv row col lo) = halfOf (x row col) lo := by
  constructor
  · intro h row hr col hc lo
    exact h.place lo hr hc
  · intro h j hj
    obtain ⟨row, hr, col, hc, lo, rfl⟩ := exists_place hj
    rw [h row hr col hc lo, stored_place x lo hr hc]

namespace Words

variable (x : Words dv)

theorem image_apply (row : Fin 16) (col : Fin (dv + 1)) : x.image row col = x row col :=
  dif_pos ⟨row.2, col.2⟩

/-- The words of a page's halves, and back. -/
theorem halves_fp32View (page : SplitPage) (hj : j < 32 * (dv + 1)) : halves (fp32View dv page) j = page j := by
  have hw : j / 2 < 16 * (dv + 1) := by omega
  have hr : j / 2 / (dv + 1) < 16 := (Nat.div_lt_iff_lt_mul (Nat.succ_pos dv)).2 hw
  have hc : j / 2 % (dv + 1) < dv + 1 := Nat.mod_lt _ (Nat.succ_pos dv)
  have hflat : j / 2 / (dv + 1) * (dv + 1) + j / 2 % (dv + 1) = j / 2 := Nat.div_add_mod' _ _
  have himage := image_apply (fp32View dv page) ⟨_, hr⟩ ⟨_, hc⟩
  unfold halves
  dsimp only at himage ⊢
  rw [himage]
  unfold fp32View
  dsimp only
  rw [hflat, hiOf_eq, loOf_eq, BitVec.extractLsb'_append_eq_left, BitVec.extractLsb'_append_eq_right]
  split
  · rw [show 2 * (j / 2) = j by omega]
  · rw [show 2 * (j / 2) + 1 = j by omega]

theorem fp32View_halves : fp32View dv x.halves = x := by
  funext row col
  have hlt := col.2
  have hdiv : (row * (dv + 1) + col) / (dv + 1) = row := by
    rw [Nat.mul_comm, Nat.mul_add_div (Nat.succ_pos dv), Nat.div_eq_of_lt hlt, Nat.add_zero]
  have hmod : (row * (dv + 1) + col) % (dv + 1) = col := by
    rw [Nat.mul_comm, Nat.mul_add_mod, Nat.mod_eq_of_lt hlt]
  unfold fp32View halves
  dsimp only
  rw [show (2 * (row * (dv + 1) + col) + 1) / 2 = row * (dv + 1) + col by omega,
    show 2 * (row * (dv + 1) + col) / 2 = row * (dv + 1) + (col : ℕ) by omega, hdiv, hmod, image_apply,
    if_neg (by omega), if_pos (by omega), hiOf_eq, loOf_eq]
  exact append_halves _

/-- The gather rejoins each word's halves. -/
theorem fromSplitPlanes_eq (row : Fin 16) (col : Fin (dv + 1)) : x.fromSplitPlanes row col =
    x.halves (place dv row col false) ++ x.halves (place dv row col true) := by
  unfold fromSplitPlanes place hiHalf loHalf kLo kMassHi kMassLo
  dsimp only
  rw [← setWidth_shift_or]
  by_cases hc : col.val < dv
  · simp only [hc, if_true, signExtend_and, Bool.false_eq_true, if_false]
  · simp only [hc, if_false, signExtend_and, Bool.false_eq_true, if_true]
    rw [show 2 * (16 * dv) = 32 * dv by omega]

theorem from_to : x.toSplitPlanes.fromSplitPlanes = x := by
  funext row col
  have hc : col.val ≤ dv := Nat.le_of_lt_succ col.2
  rw [fromSplitPlanes_eq, toSplitPlanes, halves_fp32View _ (place_lt row.2 hc), halves_fp32View _ (place_lt row.2 hc),
    stored_place _ _ row.2 hc, stored_place _ _ row.2 hc, image_apply]
  exact append_halves _

theorem to_from : x.fromSplitPlanes.toSplitPlanes = x := by
  have hstores : ∀ j < 32 * (dv + 1), stored dv x.fromSplitPlanes.image j = x.halves j := by
    intro j hj
    obtain ⟨row, hr, col, hc, lo, rfl⟩ := exists_place hj
    have himage := image_apply x.fromSplitPlanes ⟨row, hr⟩ ⟨col, Nat.lt_succ_of_le hc⟩
    dsimp only at himage
    rw [stored_place _ _ hr hc, himage, fromSplitPlanes_eq, halfOf]
    cases lo
    · exact BitVec.extractLsb'_append_eq_left
    · exact BitVec.extractLsb'_append_eq_right
  conv_rhs => rw [← x.fp32View_halves]
  funext row col
  have hlt : (row : ℕ) * (dv + 1) + col < 16 * (dv + 1) := flat_lt row.2 col.2
  unfold toSplitPlanes fp32View
  rw [hstores _ (by omega), hstores _ (by omega)]

end Words

end SplitPage

end Rola
