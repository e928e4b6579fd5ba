import Mathlib.Data.BitVec
import Mathlib.Tactic.IntervalCases

/-!
# The pool cursor

`bump_byte` and `PoolCursor`: a warp's word of four counts, the fills of the two slots in the low half
and their takes in the high half. A byte wraps in place, a fill count to two, so that its parity and
whether the slot was ever filled survive any number of fills.
-/

namespace Rola

/-- `bump_byte`. -/
def bumpByte (word : BitVec 32) (shift : ℕ) (fill : Bool) : BitVec 32 :=
  let v := ((word >>> shift) + 1) &&& 0xFF
  let v := if fill ∧ v = 0 then 2 else v
  (word &&& ~~~((0xFF : BitVec 32) <<< shift)) ||| (v <<< shift)

/-- The byte at `shift`. -/
def byteOf (word : BitVec 32) (shift : ℕ) : ℕ := ((word >>> shift) &&& 0xFF).toNat

/-- `kPoolSlots`. -/
def kPoolSlots : ℕ := 2

def fillsOf (uses : BitVec 32) (s : ℕ) : ℕ := byteOf uses (8 * s)

def takesOf (uses : BitVec 32) (s : ℕ) : ℕ := byteOf uses (16 + 8 * s)

/-- `PoolCursor::filled`. -/
def cursorFilled (uses : BitVec 32) (s : ℕ) : BitVec 32 := bumpByte uses (8 * s) true

/-- `PoolCursor::used`. -/
def cursorUsed (uses : BitVec 32) (s : ℕ) : BitVec 32 := bumpByte uses (16 + 8 * s) false

/-! ### One byte bumped -/

theorem getLsbD_byteMask (k : ℕ) : (0xFF : BitVec 32).getLsbD k = decide (k < 8) := by
  rcases lt_or_ge k 32 with h | h
  · interval_cases k <;> rfl
  · rw [BitVec.getLsbD_of_ge _ _ h, decide_eq_false (by omega)]

theorem byteOf_eq (word : BitVec 32) (shift : ℕ) : byteOf word shift = word.toNat / 2 ^ shift % 256 := by
  rw [byteOf, BitVec.toNat_and, BitVec.toNat_ushiftRight, Nat.shiftRight_eq_div_pow]
  exact Nat.and_two_pow_sub_one_eq_mod _ 8

/-- A byte put into its place leaves the others. -/
theorem byteOf_put {word v : BitVec 32} {i j : ℕ} (hi : i < 4) (hj : j < 4) (hv : v &&& 0xFF = v) :
    ((word &&& ~~~((0xFF : BitVec 32) <<< (8 * i))) ||| (v <<< (8 * i))) >>> (8 * j) &&& 0xFF =
      if j = i then v else (word >>> (8 * j)) &&& 0xFF := by
  have hbit : ∀ k, v.getLsbD k = (v.getLsbD k && decide (k < 8)) := fun k => by
    conv_lhs => rw [← hv]
    rw [BitVec.getLsbD_and, getLsbD_byteMask]
  refine BitVec.eq_of_getLsbD_eq fun k hk => ?_
  rw [apply_ite (fun x : BitVec 32 => x.getLsbD k)]
  simp only [BitVec.getLsbD_and, BitVec.getLsbD_or, BitVec.getLsbD_ushiftRight, BitVec.getLsbD_shiftLeft,
    BitVec.getLsbD_not, getLsbD_byteMask]
  rcases lt_or_ge k 8 with h8 | h8
  · have h32 : 8 * j + k < 32 := by omega
    rcases lt_trichotomy j i with hlt | rfl | hgt
    · have h1 : 8 * j + k < 8 * i := by omega
      simp [h8, h32, h1, hlt.ne]
    · simp [h8, h32]
    · have h1 : ¬ 8 * j + k < 8 * i := by omega
      have h2 : ¬ 8 * j + k - 8 * i < 8 := by omega
      rw [hbit (8 * j + k - 8 * i)]
      simp [h8, h32, h1, h2, hgt.ne']
  · rcases eq_or_ne j i with rfl | hne
    · rw [hbit k]
      simp [Nat.not_lt.2 h8]
    · simp [Nat.not_lt.2 h8, hne]

theorem byteOf_bumpByte {word : BitVec 32} {i j : ℕ} (hi : i < 4) (hj : j < 4) (fill : Bool) :
    byteOf (bumpByte word (8 * i) fill) (8 * j) =
      if j = i then
        if fill = true ∧ byteOf word (8 * i) = 255 then 2 else (byteOf word (8 * i) + 1) % 256
      else byteOf word (8 * j) := by
  have hv : ((word >>> (8 * i)) + 1 &&& 0xFF).toNat = (byteOf word (8 * i) + 1) % 256 := by
    rw [byteOf_eq, BitVec.toNat_and, BitVec.toNat_add, BitVec.toNat_ushiftRight,
      Nat.shiftRight_eq_div_pow]
    refine (Nat.and_two_pow_sub_one_eq_mod _ 8).trans ?_
    have h : (1 : BitVec 32).toNat = 1 := rfl
    rw [h]
    omega
  have hzero : (word >>> (8 * i)) + 1 &&& 0xFF = 0 ↔ byteOf word (8 * i) = 255 := by
    rw [← BitVec.toNat_inj, hv, byteOf_eq]
    have h : (0 : BitVec 32).toNat = 0 := rfl
    rw [h]
    omega
  have hmask : (if fill = true ∧ (word >>> (8 * i)) + 1 &&& 0xFF = 0 then 2
      else (word >>> (8 * i)) + 1 &&& 0xFF) &&& 0xFF =
      if fill = true ∧ (word >>> (8 * i)) + 1 &&& 0xFF = 0 then (2 : BitVec 32)
      else (word >>> (8 * i)) + 1 &&& 0xFF := by
    split
    · rfl
    · rw [BitVec.and_assoc, BitVec.and_self]
  unfold bumpByte byteOf
  dsimp only
  rw [byteOf_put hi hj hmask, apply_ite BitVec.toNat, apply_ite BitVec.toNat, hv]
  simp only [hzero]
  rfl

/-! ### The counts a cursor keeps -/

/-- The word stands for `n s` fills and `u s` takes of each slot. -/
structure CursorOk (uses : BitVec 32) (n u : ℕ → ℕ) : Prop where
  fills_mod : ∀ s < kPoolSlots, fillsOf uses s % 2 = n s % 2
  fills_zero : ∀ s < kPoolSlots, fillsOf uses s = 0 ↔ n s = 0
  takes_mod : ∀ s < kPoolSlots, takesOf uses s % 2 = u s % 2

namespace CursorOk

variable {uses : BitVec 32} {n u : ℕ → ℕ} {s : ℕ}

theorem zero : CursorOk 0 (fun _ => 0) fun _ => 0 := by
  refine ⟨?_, ?_, ?_⟩ <;> intro s hs <;> unfold kPoolSlots at hs <;> interval_cases s <;> decide

theorem byteOf_lt (word : BitVec 32) (shift : ℕ) : byteOf word shift < 256 := by
  rw [byteOf_eq]
  exact Nat.mod_lt _ (by norm_num)

theorem filled (h : CursorOk uses n u) (hs : s < kPoolSlots) :
    CursorOk (cursorFilled uses s) (Function.update n s (n s + 1)) u := by
  have hfills : ∀ t < kPoolSlots, fillsOf (cursorFilled uses s) t =
      if t = s then if fillsOf uses s = 255 then 2 else (fillsOf uses s + 1) % 256
      else fillsOf uses t := by
    intro t ht
    unfold kPoolSlots at hs ht
    unfold fillsOf cursorFilled
    rw [byteOf_bumpByte (by omega) (by omega)]
    simp
  have htakes : ∀ t < kPoolSlots, takesOf (cursorFilled uses s) t = takesOf uses t := by
    intro t ht
    unfold kPoolSlots at hs ht
    unfold takesOf cursorFilled
    rw [show 16 + 8 * t = 8 * (2 + t) by omega, byteOf_bumpByte (by omega) (by omega),
      if_neg (by omega)]
  have hlt : fillsOf uses s < 256 := byteOf_lt uses (8 * s)
  have hmod := h.fills_mod s hs
  refine ⟨fun t ht => ?_, fun t ht => ?_, fun t ht => ?_⟩
  · rw [hfills t ht]
    rcases eq_or_ne t s with rfl | hne
    · rw [if_pos rfl, Function.update_self]
      split <;> omega
    · rw [if_neg hne, Function.update_of_ne hne, h.fills_mod t ht]
  · rw [hfills t ht]
    rcases eq_or_ne t s with rfl | hne
    · rw [if_pos rfl, Function.update_self]
      split <;> omega
    · rw [if_neg hne, Function.update_of_ne hne, h.fills_zero t ht]
  · rw [htakes t ht, h.takes_mod t ht]

theorem used (h : CursorOk uses n u) (hs : s < kPoolSlots) :
    CursorOk (cursorUsed uses s) n (Function.update u s (u s + 1)) := by
  have hfills : ∀ t < kPoolSlots, fillsOf (cursorUsed uses s) t = fillsOf uses t := by
    intro t ht
    unfold kPoolSlots at hs ht
    unfold fillsOf cursorUsed
    rw [show 16 + 8 * s = 8 * (2 + s) by omega, byteOf_bumpByte (by omega) (by omega),
      if_neg (by omega)]
  have htakes : ∀ t < kPoolSlots, takesOf (cursorUsed uses s) t =
      if t = s then (takesOf uses s + 1) % 256 else takesOf uses t := by
    intro t ht
    unfold kPoolSlots at hs ht
    unfold takesOf cursorUsed
    rw [show 16 + 8 * s = 8 * (2 + s) by omega, show 16 + 8 * t = 8 * (2 + t) by omega,
      byteOf_bumpByte (by omega) (by omega)]
    simp
  refine ⟨fun t ht => ?_, fun t ht => ?_, fun t ht => ?_⟩
  · rw [hfills t ht, h.fills_mod t ht]
  · rw [hfills t ht, h.fills_zero t ht]
  · rw [htakes t ht]
    have hmod := h.takes_mod t ht
    rcases eq_or_ne t s with rfl | hne
    · rw [if_pos rfl, Function.update_self]
      omega
    · rw [if_neg hne, Function.update_of_ne hne, hmod]

end CursorOk

end Rola
