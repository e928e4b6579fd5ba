import Mathlib.Data.Nat.ModEq
import Mathlib.Logic.Function.Basic

/-!
# Buffers by generation

The parties write their cells of a buffer generation after generation, `m` buffers in turn. What a
generation's owner has written stays until someone writes the generation that takes its buffer.
-/

namespace SharedBuffer

variable {ι κ α β : Type*} {m : ℕ} {keys : Set κ} {owner : κ → ι} {addr : ℕ → κ → α} {want : ℕ → κ → β}
  {done : ι → ℕ} {cells cells' : ℕ → α → β} {i : ι} {g : ℕ}

/-- `done i` generations of party `i` are written; a key's cell is at `addr`. -/
def Holds (m : ℕ) (keys : Set κ) (owner : κ → ι) (addr : ℕ → κ → α) (want : ℕ → κ → β) (done : ι → ℕ)
    (cells : ℕ → α → β) : Prop :=
  ∀ g, ∀ k ∈ keys, g < done (owner k) → (∀ i, done i ≤ g + m) → cells (g % m) (addr g k) = want g k

theorem Holds.start (h : ∀ i, done i = 0) : Holds m keys owner addr want done cells := by
  intro g k _ hlt
  simp [h] at hlt

/-- Between two of its overwritings a generation is whole. -/
theorem Holds.whole (h : Holds m keys owner addr want done cells) (hlt : ∀ i, g < done i)
    (hle : ∀ i, done i ≤ g + m) {k : κ} (hk : k ∈ keys) : cells (g % m) (addr g k) = want g k :=
  h g k hk (hlt _) hle

/-- A party writes its share, no other a buffer's turn behind it. -/
theorem Holds.write [DecidableEq ι] (h : Holds m keys owner addr want done cells)
    (hm : 0 < m) (hnear : ∀ j, done j ≤ done i + m)
    (hother : ∀ b < m, b ≠ done i % m → cells' b = cells b)
    (hown : ∀ k ∈ keys, owner k = i → cells' (done i % m) (addr (done i) k) = want (done i) k)
    (hrest : ∀ k ∈ keys, owner k ≠ i →
      cells' (done i % m) (addr (done i) k) = cells (done i % m) (addr (done i) k)) :
    Holds m keys owner addr want (Function.update done i (done i + 1)) cells' := by
  intro g k hk hlt hle
  have hgi : done i + 1 ≤ g + m := by simpa using hle i
  have hle' : ∀ j, done j ≤ g + m := by
    intro j
    rcases eq_or_ne j i with rfl | hne
    · omega
    · simpa [hne] using hle j
  have hlt' : g < done (owner k) ∨ owner k = i ∧ g = done i := by
    rcases eq_or_ne (owner k) i with heq | hne
    · rw [heq, Function.update_self] at hlt
      rw [heq]
      exact (Nat.lt_succ_iff_lt_or_eq.1 hlt).imp_right fun h => ⟨rfl, h⟩
    · rw [Function.update_of_ne hne] at hlt
      exact .inl hlt
  by_cases hbuf : g % m = done i % m
  · -- in the buffer written: an earlier generation is overwritten, a later one not yet begun
    have hgen : g = done i := by
      rcases lt_trichotomy g (done i) with hlow | heq | hhigh
      · have hstep := Nat.ModEq.add_le_of_lt (show g ≡ done i [MOD m] from hbuf) hlow
        omega
      · exact heq
      · have hstep := Nat.ModEq.add_le_of_lt (show done i ≡ g [MOD m] from hbuf.symm) hhigh
        have hown := hnear (owner k)
        omega
    subst hgen
    by_cases hi : owner k = i
    · exact hown k hk hi
    · rw [hrest k hk hi]
      exact h _ k hk (hlt'.resolve_right fun h => hi h.1) hle'
  · rw [hother _ (Nat.mod_lt g hm) hbuf]
    refine h g k hk (hlt'.resolve_right ?_) hle'
    rintro ⟨-, rfl⟩
    exact hbuf rfl

end SharedBuffer
