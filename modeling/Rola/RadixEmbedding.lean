import Rola.MixedRadix

/-!
# Indices under wider radices

An index keeps its digits under wider radices: `rebase` moves it there, and the indices it reaches are
those whose digits are all below the narrower radices. A sum that is zero elsewhere is the narrower sum.
-/

namespace MixedRadix
open Finset

/-- The index of the same digits under the radices `b'`. -/
def rebase (b b' : ℕ → ℕ) (D s : ℕ) : ℕ := encode b' (digit b D s) D

/-- An index with every digit below `b`. -/
def Inner (b b' : ℕ → ℕ) (D s : ℕ) : Prop := ∀ l < D, digit b' D s l < b l

instance (b b' : ℕ → ℕ) (D s : ℕ) : Decidable (Inner b b' D s) := Nat.decidableBallLT ..

variable {b b' : ℕ → ℕ} {D l s : ℕ}

theorem rebase_bounded (hb : ∀ i < D, 0 < b i) (hle : ∀ i < D, b i ≤ b' i) : Bounded b' (digit b D s) D :=
  fun i hi => (digit_lt hb hi).trans_le (hle i hi)

theorem rebase_lt (hb : ∀ i < D, 0 < b i) (hle : ∀ i < D, b i ≤ b' i) : rebase b b' D s < size b' D :=
  encode_lt (rebase_bounded hb hle)

theorem digit_rebase (hb : ∀ i < D, 0 < b i) (hle : ∀ i < D, b i ≤ b' i) (hl : l < D) :
    digit b' D (rebase b b' D s) l = digit b D s l := digit_encode (rebase_bounded hb hle) hl

theorem rebase_inner (hb : ∀ i < D, 0 < b i) (hle : ∀ i < D, b i ≤ b' i) : Inner b b' D (rebase b b' D s) := by
  intro l hl
  rw [digit_rebase hb hle hl]
  exact digit_lt hb hl

/-- Only such indices are reached, each from the index of its digits. -/
theorem exists_rebase (hs : s < size b' D) (hin : Inner b b' D s) : ∃ t < size b D, rebase b b' D t = s := by
  refine ⟨encode b (digit b' D s) D, encode_lt hin, ?_⟩
  rw [rebase, encode_congr (fun _ _ => rfl) fun i hi => digit_encode hin hi]
  exact encode_digit hs

theorem rebase_injOn (hb : ∀ i < D, 0 < b i) (hle : ∀ i < D, b i ≤ b' i) :
    Set.InjOn (rebase b b' D) (range (size b D)) := by
  intro s hs t ht h
  rw [coe_range] at hs ht
  rw [← encode_digit hs, ← encode_digit ht]
  exact encode_congr (fun _ _ => rfl) (encode_inj (rebase_bounded hb hle) (rebase_bounded hb hle) h)

theorem sum_rebase {M : Type*} [AddCommMonoid M] (hb : ∀ i < D, 0 < b i) (hle : ∀ i < D, b i ≤ b' i) {f : ℕ → M}
    (hf : ∀ s < size b' D, ¬Inner b b' D s → f s = 0) :
    ∑ s ∈ range (size b' D), f s = ∑ s ∈ range (size b D), f (rebase b b' D s) := by
  refine (sum_of_injOn (rebase b b' D) (rebase_injOn hb hle) ?_ ?_ fun s _ => rfl).symm
  · intro s _
    exact mem_coe.2 (mem_range.2 (rebase_lt hb hle))
  · intro s hs hout
    rw [mem_range] at hs
    refine hf s hs fun hin => hout ?_
    obtain ⟨t, ht, rfl⟩ := exists_rebase hs hin
    exact ⟨t, mem_coe.2 (mem_range.2 ht), rfl⟩

end MixedRadix
