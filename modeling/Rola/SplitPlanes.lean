import Mathlib.Data.BitVec
import Mathlib.Data.List.FinRange
import Rola.MixedRadix

/-!
# The page's split planes

`rola/ops/paging.py`, `csrc/rola/src/common/state_page.cuh`: a page of 16 leaves is
`[16 x DV hi][16 x DV lo][16 mass hi][16 mass lo]` in 16-bit halves, and `hi || lo` is the fp32 word.
The kernels store and load words there; `from_split_planes` rejoins them; a plain fp32 view of the
same bytes takes halves `2w` and `2w + 1` for word `w`.
-/

namespace Rola

/-- A stored page, by 16-bit half. -/
abbrev SplitPage := ℕ → BitVec 16

namespace SplitPage

variable {dv : ℕ} {page : SplitPage} {row row' col col' : ℕ}

/-! ### The layout -/

/-- `kLo`, `kMassHi` and `kMassLo`, in halves. -/
def kLo (dv : ℕ) : ℕ := 16 * dv

def kMassHi (dv : ℕ) : ℕ := 32 * dv

def kMassLo (dv : ℕ) : ℕ := 32 * dv + 16

/-- The hi half of a leaf's column; column `dv` is the mass. -/
def hiHalf (dv row col : ℕ) : ℕ := if col < dv then row * dv + col else kMassHi dv + row

def loHalf (dv row col : ℕ) : ℕ := if col < dv then kLo dv + (row * dv + col) else kMassLo dv + row

def loadWord (dv : ℕ) (page : SplitPage) (row col : ℕ) : BitVec 32 :=
  page (hiHalf dv row col) ++ page (loHalf dv row col)

def storeWord (dv : ℕ) (page : SplitPage) (row col : ℕ) (w : BitVec 32) : SplitPage :=
  Function.update (Function.update page (hiHalf dv row col) (w.extractLsb' 16 16)) (loHalf dv row col)
    (w.extractLsb' 0 16)

/-- A leaf's value and mass words, stored in both planes. -/
def storeLeaf (dv : ℕ) (page : SplitPage) (row : ℕ) (words : Fin (dv + 1) → BitVec 32) : SplitPage :=
  (List.finRange (dv + 1)).foldl (fun page (col : Fin (dv + 1)) => storeWord dv page row col (words col)) page

theorem flat_lt (hr : row < 16) (hc : col < dv) : row * dv + col < 16 * dv := by
  calc row * dv + col < row * dv + dv := by omega
    _ = (row + 1) * dv := (Nat.succ_mul row dv).symm
    _ ≤ 16 * dv := Nat.mul_le_mul_right dv hr

theorem hiHalf_inj (hr : row < 16) (hc : col ≤ dv) (hr' : row' < 16) (hc' : col' ≤ dv)
    (h : hiHalf dv row col = hiHalf dv row' col') : row = row' ∧ col = col' := by
  unfold hiHalf kMassHi at h
  split at h <;> split at h
  · rename_i h1 h2
    exact MixedRadix.mul_add_inj h1 h2 h
  · have := @SplitPage.flat_lt dv row col hr ‹_›
    omega
  · have := @SplitPage.flat_lt dv row' col' hr' ‹_›
    omega
  · omega

theorem loHalf_inj (hr : row < 16) (hc : col ≤ dv) (hr' : row' < 16) (hc' : col' ≤ dv)
    (h : loHalf dv row col = loHalf dv row' col') : row = row' ∧ col = col' := by
  unfold loHalf kMassLo kLo at h
  split at h <;> split at h
  · rename_i h1 h2
    exact MixedRadix.mul_add_inj h1 h2 (Nat.add_left_cancel h)
  · have := @SplitPage.flat_lt dv row col hr ‹_›
    omega
  · have := @SplitPage.flat_lt dv row' col' hr' ‹_›
    omega
  · omega

/-- The two planes do not overlap. -/
theorem hiHalf_ne_loHalf (hr : row < 16) (hr' : row' < 16) :
    hiHalf dv row col ≠ loHalf dv row' col' := by
  unfold hiHalf loHalf kMassLo kMassHi kLo
  split
  · have := @SplitPage.flat_lt dv row col hr ‹_›
    split <;> omega
  · split
    · have := @SplitPage.flat_lt dv row' col' hr' ‹_›
      omega
    · omega

theorem loadWord_storeWord_self (hr : row < 16) (w : BitVec 32) :
    loadWord dv (storeWord dv page row col w) row col = w := by
  unfold loadWord storeWord
  rw [Function.update_of_ne (hiHalf_ne_loHalf hr hr), Function.update_self, Function.update_self]
  exact BitVec.extractLsb'_append_extractLsb'

theorem loadWord_storeWord_of_ne (hr : row < 16) (hc : col ≤ dv) (hr' : row' < 16) (hc' : col' ≤ dv)
    (hne : ¬ (row' = row ∧ col' = col)) (w : BitVec 32) :
    loadWord dv (storeWord dv page row col w) row' col' = loadWord dv page row' col' := by
  unfold loadWord storeWord
  rw [Function.update_of_ne (hiHalf_ne_loHalf hr' hr),
    Function.update_of_ne fun h => hne (hiHalf_inj hr' hc' hr hc h),
    Function.update_of_ne fun h => hne (loHalf_inj hr' hc' hr hc h),
    Function.update_of_ne fun h => hiHalf_ne_loHalf hr hr' h.symm]

theorem loadWord_storeLeaf (hr : row < 16) (hr' : row' < 16) (words : Fin (dv + 1) → BitVec 32)
    (c : Fin (dv + 1)) : loadWord dv (storeLeaf dv page row words) row' c =
      if row' = row then words c else loadWord dv page row' c := by
  -- every column of `cols` has been stored, and no other word of the page
  have key : ∀ cols : List (Fin (dv + 1)), loadWord dv
      (cols.foldl (fun page (col : Fin (dv + 1)) => storeWord dv page row col (words col)) page) row' c =
        if row' = row ∧ c ∈ cols then words c else loadWord dv page row' c := by
    intro cols
    induction cols using List.reverseRecOn with
    | nil => simp
    | append_singleton cols k ih =>
      rw [List.foldl_concat]
      by_cases hk : row' = row ∧ (c : ℕ) = k
      · obtain ⟨rfl, hck⟩ := hk
        obtain rfl : c = k := Fin.ext hck
        rw [loadWord_storeWord_self hr]
        simp
      · rw [loadWord_storeWord_of_ne hr (Nat.le_of_lt_succ k.2) hr' (Nat.le_of_lt_succ c.2) hk, ih]
        have hiff : (row' = row ∧ c ∈ cols ++ [k]) ↔ row' = row ∧ c ∈ cols := by
          rw [List.mem_append, List.mem_singleton]
          constructor
          · rintro ⟨hrow, hmem | rfl⟩
            · exact ⟨hrow, hmem⟩
            · exact absurd ⟨hrow, rfl⟩ hk
          · rintro ⟨hrow, hmem⟩
            exact ⟨hrow, .inl hmem⟩
        simp only [hiff]
  rw [storeLeaf, key]
  simp

/-! ### The two views of a page -/

/-- The logical `[16, DV + 1]` words of a page. -/
abbrev Words (dv : ℕ) := Fin 16 → Fin (dv + 1) → BitVec 32

/-- `from_split_planes`. -/
def fromSplitPlanes (dv : ℕ) (page : SplitPage) : Words dv := fun row col => loadWord dv page row col

/-- The fp32 words of the page's bytes, in order: `view` rejoins nothing. -/
def fp32View (dv : ℕ) (page : SplitPage) : Words dv := fun row col =>
  page (2 * (row * (dv + 1) + col) + 1) ++ page (2 * (row * (dv + 1) + col))

/-- The two halves a plain view takes for each word are the word's own. -/
def Aligned (dv : ℕ) (page : SplitPage) : Prop := ∀ row < 16, ∀ col ≤ dv,
  page (2 * (row * (dv + 1) + col) + 1) = page (hiHalf dv row col) ∧
    page (2 * (row * (dv + 1) + col)) = page (loHalf dv row col)

theorem append_inj {a b c d : BitVec 16} (h : a ++ b = c ++ d) : a = c ∧ b = d := by
  have hhi := congrArg (BitVec.extractLsb' 16 16) h
  have hlo := congrArg (BitVec.extractLsb' 0 16) h
  rw [BitVec.extractLsb'_append_eq_left, BitVec.extractLsb'_append_eq_left] at hhi
  rw [BitVec.extractLsb'_append_eq_right, BitVec.extractLsb'_append_eq_right] at hlo
  exact ⟨hhi, hlo⟩

theorem fp32View_eq_iff : fp32View dv page = fromSplitPlanes dv page ↔ Aligned dv page := by
  constructor
  · intro h row hr col hc
    exact append_inj (congrFun (congrFun h ⟨row, hr⟩) ⟨col, Nat.lt_succ_of_le hc⟩)
  · intro h
    funext row col
    obtain ⟨hhi, hlo⟩ := h row row.2 col (Nat.le_of_lt_succ col.2)
    exact congrArg₂ (· ++ ·) hhi hlo

theorem fromSplitPlanes_storeLeaf (row : Fin 16) (words : Fin (dv + 1) → BitVec 32) :
    fromSplitPlanes dv (storeLeaf dv page row words) =
      Function.update (fromSplitPlanes dv page) row words := by
  funext row' col
  rw [fromSplitPlanes, loadWord_storeLeaf row.2 row'.2, Function.update_apply]
  simp only [Fin.val_inj]
  split <;> rfl

theorem fromSplitPlanes_zero : fromSplitPlanes dv 0 = fun _ _ => 0 := by
  funext row col
  exact (by decide : 0#16 ++ 0#16 = 0#32)

end SplitPage

end Rola
