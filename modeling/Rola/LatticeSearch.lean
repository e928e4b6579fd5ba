import Rola.AtomRectangle
import Mathlib.Data.Prod.Lex

/-!
# The lattice a topology takes

`rola/ops/lattice.py`, `derive_lattice`: of the admissible boxes of span at most `_MAX_SPAN_K`, one that
no other outranks. The `(1, 1)` box is always among them.
-/

namespace Rola

open MixedRadix Finset

variable {D k m : ℕ} {w s : ℕ → ℕ}

/-! ### Ranks -/

/-- Python's comparison of rank tuples. -/
def Rank.key (r : Rank) : ℕ ×ₗ ℤ ×ₗ ℕ := toLex (r.bc, toLex (r.negLevels, r.k))

theorem Rank.lt_iff (r r' : Rank) : r.lt r' = true ↔ r.key < r'.key := by
  unfold Rank.lt Rank.key
  simp [Prod.Lex.toLex_lt_toLex]

/-! ### The search -/

/-- A box of the search, if admissible. -/
def candidate (D : ℕ) (w : ℕ → ℕ) (i : ℕ × ℕ) : Option Best :=
  (admissible D w (2 ^ i.1) (2 ^ i.2)).map fun s => ⟨rankOf D s (2 ^ i.1), 2 ^ i.1, 2 ^ i.2⟩

/-- Keep the leader or take the box that outranks it. -/
def lead (D : ℕ) (w : ℕ → ℕ) (best : Best) (i : ℕ × ℕ) : Best :=
  match candidate D w i with
  | none => best
  | some b => if best.rank.lt b.rank then b else best

def searched (D : ℕ) (w : ℕ → ℕ) : List (ℕ × ℕ) :=
  (exponentsUpTo maxSpanK).flatMap fun kappa => (exponentsUpTo (size w D)).map fun j => (kappa, j)

theorem tryBox_eq (best : Best) (kappa j : ℕ) : tryBox D w (2 ^ kappa) best j = lead D w best (kappa, j) := by
  unfold tryBox lead candidate
  cases admissible D w (2 ^ kappa) (2 ^ j) <;> rfl

theorem deriveLattice_eq : deriveLattice D w =
    (((searched D w).foldl (lead D w) Best.floor).k, ((searched D w).foldl (lead D w) Best.floor).m) := by
  have hstep : ∀ kappa, tryBox D w (2 ^ kappa) = fun best j => lead D w best (kappa, j) := fun kappa =>
    funext₂ fun best j => tryBox_eq best kappa j
  unfold deriveLattice searched
  rw [List.foldl_flatMap]
  simp only [List.foldl_map, hstep]

/-- The leader is the floor or a box searched, and none of them outranks it. -/
theorem foldl_lead (l : List (ℕ × ℕ)) (best : Best) :
    (l.foldl (lead D w) best = best ∨ ∃ i ∈ l, candidate D w i = some (l.foldl (lead D w) best)) ∧
      best.rank.key ≤ (l.foldl (lead D w) best).rank.key ∧
      ∀ i ∈ l, ∀ b ∈ candidate D w i, b.rank.key ≤ (l.foldl (lead D w) best).rank.key := by
  induction l generalizing best with
  | nil => simp
  | cons i l ih =>
    obtain ⟨hfrom, hle, hmax⟩ := ih (lead D w best i)
    have hstep : (lead D w best i = best ∨ candidate D w i = some (lead D w best i)) ∧
        best.rank.key ≤ (lead D w best i).rank.key ∧
        ∀ b ∈ candidate D w i, b.rank.key ≤ (lead D w best i).rank.key := by
      unfold lead
      rcases candidate D w i with _ | b
      · simp
      · dsimp only
        split
        · rename_i hlt
          exact ⟨.inr rfl, ((Rank.lt_iff _ _).1 hlt).le, by simp⟩
        · rename_i hlt
          rw [Rank.lt_iff, not_lt] at hlt
          exact ⟨.inl rfl, le_rfl, by simpa using hlt⟩
    obtain ⟨hstep1, hstep2, hstep3⟩ := hstep
    rw [List.foldl_cons]
    refine ⟨?_, hstep2.trans hle, fun j hj b hb => ?_⟩
    · rcases hfrom with heq | ⟨j, hj, hcand⟩
      · rcases hstep1 with hbest | hcand
        · exact .inl (heq.trans hbest)
        · exact .inr ⟨i, List.mem_cons_self, by rw [heq, hcand]⟩
      · exact .inr ⟨j, List.mem_cons_of_mem _ hj, hcand⟩
    · rcases List.mem_cons.1 hj with rfl | hj
      · exact (hstep3 b hb).trans hle
      · exact hmax j hj b hb

/-! ### What is searched -/

/-- `(1, 1)` is admissible on any topology. -/
theorem admissible_one (D : ℕ) (w : ℕ → ℕ) : (admissible D w 1 1).isSome := by
  have hbits : ∀ l < D, boxBits D w 1 0 0 l = 0 := fun l hl => Nat.le_zero.1 (boxBits_le hl)
  obtain ⟨b, hb⟩ := (@boxShape_isOk_iff D 0 0 w).2 ⟨sum_eq_zero fun l hl => hbits l (mem_range.1 hl), fun l hl => by
    rw [pow_zero, hbits l hl]
    exact one_dvd _⟩
  have hb' : boxShape D w 1 1 = .ok b := hb
  obtain ⟨j, kappa, hm, hk, -, hs, -⟩ := boxShape_ok hb'
  obtain rfl := Nat.pow_right_injective le_rfl (hm.symm.trans (pow_zero 2).symm)
  obtain rfl := Nat.pow_right_injective le_rfl (hk.symm.trans (pow_zero 2).symm)
  have hbc : b.bc = 1 := by rw [boxShape_bc hb', one_pow, one_mul]
  have hspan : ¬ (List.range D).any (fun l => maxSpan < b.s l) := by
    simp only [List.any_eq_true, List.mem_range, decide_eq_true_eq, not_exists, not_and, not_lt]
    intro l hl
    rw [hs]
    dsimp only
    rw [hbits l hl]
    decide
  rw [admissible, hb']
  dsimp only
  rw [if_neg (not_or.2 ⟨by rw [hbc]; decide, hspan⟩)]
  rfl

/-- What an admissible pair's box is. -/
theorem admissible_eq_some_iff : admissible D w k m = some s ↔
    ∃ b, boxShape D w k m = .ok b ∧ b.s = s ∧ b.bc ≤ latticeCapBC ∧ ∀ l < D, s l ≤ maxSpan := by
  unfold admissible
  split
  · rename_i herr
    simp [herr]
  · rename_i b hb
    rw [hb]
    split
    · rename_i hcap
      refine ⟨(nomatch ·), ?_⟩
      rintro ⟨_, ⟨⟩, rfl, hle, hspan⟩
      rcases hcap with hcap | hany
      · omega
      · obtain ⟨l, hl, hlt⟩ := List.any_eq_true.1 hany
        have := hspan l (List.mem_range.1 hl)
        simp only [decide_eq_true_eq] at hlt
        omega
    · rename_i hcap
      rw [not_or, not_lt] at hcap
      constructor
      · rintro ⟨rfl⟩
        refine ⟨b, rfl, rfl, hcap.1, fun l hl => ?_⟩
        have := hcap.2
        simp only [List.any_eq_true, List.mem_range, decide_eq_true_eq, not_exists, not_and, not_lt] at this
        exact this l hl
      · rintro ⟨_, ⟨⟩, rfl, -⟩
        rfl

theorem mem_exponentsUpTo {n j : ℕ} (h : 2 ^ j ≤ n) : j ∈ exponentsUpTo n := by
  have hpos : n ≠ 0 := fun h0 => by
    rw [h0] at h
    exact absurd h (by simp)
  rw [exponentsUpTo, if_neg hpos, List.mem_range, Nat.lt_succ_iff]
  exact (Nat.le_log2 hpos).2 h

/-- Every admissible pair of a small span is searched. -/
theorem mem_searched (hw : ∀ l < D, 0 < w l) (h : admissible D w k m = some s) (hk : k ≤ maxSpanK) :
    ∃ i ∈ searched D w, candidate D w i = some ⟨rankOf D s k, k, m⟩ := by
  obtain ⟨b, hb, rfl, -⟩ := admissible_eq_some_iff.1 h
  have htiles := boxShape_tiles hw hb
  have hbc := boxShape_bc hb
  obtain ⟨j, kappa, rfl, rfl, -⟩ := boxShape_ok hb
  have hm : 2 ^ j ≤ size w D := by
    have hle : b.bc ≤ size w D := by
      rw [← htiles.size_eq]
      exact Nat.le_mul_of_pos_left _ (size_pos fun l hl => htiles.grid_pos hl)
    rw [hbc] at hle
    exact (Nat.le_mul_of_pos_left _ (by positivity)).trans hle
  refine ⟨(kappa, j), List.mem_flatMap.2 ⟨kappa, mem_exponentsUpTo hk, List.mem_map.2 ⟨j, mem_exponentsUpTo hm, rfl⟩⟩, ?_⟩
  rw [candidate, h]
  rfl

/-- The pair is admissible, and no admissible pair of a span the search reaches outranks it. -/
theorem deriveLattice_best (hw : ∀ l < D, 0 < w l) :
    ∃ s, admissible D w (deriveLattice D w).1 (deriveLattice D w).2 = some s ∧ ∀ k ≤ maxSpanK, ∀ m s',
      admissible D w k m = some s' → (rankOf D s (deriveLattice D w).1).lt (rankOf D s' k) = false := by
  obtain ⟨hfrom, -, hmax⟩ := @foldl_lead D w (searched D w) Best.floor
  rw [deriveLattice_eq]
  set best := (searched D w).foldl (lead D w) Best.floor with hbest
  obtain ⟨s₁, hs₁⟩ := Option.isSome_iff_exists.1 (admissible_one D w)
  obtain ⟨i₁, hi₁, hcand₁⟩ := mem_searched hw hs₁ (by decide)
  have hone := hmax i₁ hi₁ _ hcand₁
  rcases hfrom with hfloor | ⟨i, hi, hcand⟩
  · -- the floor is outranked by the box of one leaf
    rw [hfloor] at hone
    have hbc : 0 < (rankOf D s₁ 1).bc := by
      obtain ⟨b, hb, rfl, -⟩ := admissible_eq_some_iff.1 hs₁
      exact size_pos (boxShape_tiles hw hb).span_pos
    have hlt : Best.floor.rank.lt (rankOf D s₁ 1) = true := by
      simp [Rank.lt, Best.floor, hbc]
    exact absurd hone (not_le.2 ((Rank.lt_iff _ _).1 hlt))
  · obtain ⟨s, hs, hbest'⟩ := Option.map_eq_some_iff.1 hcand
    refine ⟨s, ?_, fun k hk m s' hs' => ?_⟩
    · rw [← hbest']
      exact hs
    · obtain ⟨i', hi', hcand'⟩ := mem_searched hw hs' hk
      have hle := hmax i' hi' _ hcand'
      rw [← Bool.not_eq_true, Rank.lt_iff, not_lt]
      rw [← hbest'] at hle ⊢
      exact hle

/-! ### The lattice's law -/

/-- The order of an accepted box: a bijection that moves bits, crossed both ways by the conversions, whose
atoms are digit rectangles where an owner holds one. -/
structure LatticeLaw (D : ℕ) (w : ℕ → ℕ) (b : Box) : Prop where
  bijective : Set.BijOn (b.permutation D w) {x | x < size w D} {x | x < size w D}
  bits : ∃ n, size w D = 2 ^ n ∧ ∃ rho : ℕ → ℕ, Set.BijOn rho {j | j < n} {j | j < n} ∧
    ∀ x < size w D, ∀ j < n, (b.permutation D w x).testBit (rho j) = x.testBit j
  canonical : ∀ {α : Type} (out plane : ℕ → α), ∀ x < size w D,
    toCanonical (b.permutation D w) (toLattice (b.permutation D w) (size w D) out plane) x = plane x
  lattice : ∀ {α : Type} (out plane : ℕ → α), ∀ x < size w D,
    toLattice (b.permutation D w) (size w D) out (toCanonical (b.permutation D w) plane) x = plane x
  atoms : mmaKQuantum ≤ b.bc → ∀ a, a * mmaKQuantum < size w D → ∃ lo : ℕ → ℕ,
    (∀ l < D, atomSide D b.s l ∣ lo l) ∧ ∀ x < size w D, b.permutation D w x / mmaKQuantum = a ↔
      ∀ l < D, lo l ≤ digit w D x l ∧ digit w D x l < lo l + atomSide D b.s l

theorem boxShape_latticeLaw (hw : ∀ l < D, ∃ e, w l = 2 ^ e) {b : Box} (hb : boxShape D w k m = .ok b) :
    LatticeLaw D w b := by
  have hpos : ∀ l < D, 0 < w l := fun l hl => by
    obtain ⟨e, he⟩ := hw l hl
    rw [he]
    positivity
  have htiles := boxShape_tiles hpos hb
  obtain ⟨j, kappa, -, rfl, -, hs, -⟩ := boxShape_ok hb
  have hspan : ∀ l < D, b.s l = 2 ^ (kappa + boxBits D w (2 ^ kappa) kappa j l) := fun l _ => by rw [hs, pow_add]
  have he : ∀ l < D, w l = 2 ^ Nat.log2 (w l) := fun l hl => by
    obtain ⟨e, he⟩ := hw l hl
    rw [he, Nat.log2_two_pow]
  have hle : ∀ l < D, kappa + boxBits D w (2 ^ kappa) kappa j l ≤ Nat.log2 (w l) := fun l hl => by
    have hdvd : b.s l ∣ w l := Dvd.intro _ (htiles.width l hl)
    rw [hspan l hl, he l hl] at hdvd
    exact (Nat.pow_dvd_pow_iff_le_right (by omega)).1 hdvd
  have hinj := htiles.permutation_injOn
  refine ⟨htiles.permutation_bijOn, ⟨_, size_two_pow he, _, bitOrder_bijOn hle, fun x _ j hj =>
    htiles.permutation_testBit he hspan hle x hj⟩, fun out plane x hx => toLattice_apply hinj out plane hx,
    fun out plane x hx => ?_, fun hatom a ha => ?_⟩
  · obtain ⟨y, hy, rfl⟩ := htiles.permutation_bijOn.surjOn hx
    exact toLattice_apply hinj out _ hy
  · rw [htiles.bc] at hatom
    exact atom_rectangle htiles (atomSides hspan hatom) ha

/-- The lattice is a permutation whose atoms are rectangles, and the search ends on the best admissible box of
the spans it reaches. -/
theorem lattice_law (D : ℕ) (w : ℕ → ℕ) (hw : ∀ l < D, ∃ e, w l = 2 ^ e) :
    (∀ k m b, boxShape D w k m = .ok b → LatticeLaw D w b) ∧
    ∃ s, admissible D w (deriveLattice D w).1 (deriveLattice D w).2 = some s ∧
      (size s D ≤ latticeCapBC ∧ ∀ l < D, s l ≤ maxSpan) ∧
      ∀ k ≤ maxSpanK, ∀ m s', admissible D w k m = some s' →
        (rankOf D s (deriveLattice D w).1).lt (rankOf D s' k) = false := by
  have hpos : ∀ l < D, 0 < w l := fun l hl => by
    obtain ⟨e, he⟩ := hw l hl
    rw [he]
    positivity
  obtain ⟨s, hs, hbest⟩ := deriveLattice_best hpos
  obtain ⟨b, hb, rfl, hbc, hspan⟩ := admissible_eq_some_iff.1 hs
  refine ⟨fun k m b hb => boxShape_latticeLaw hw hb, b.s, hs, ⟨?_, hspan⟩, hbest⟩
  rw [← (boxShape_tiles hpos hb).bc]
  exact hbc

theorem lattice_law_64 : ∃ b, boxShape 2 (fun _ => 64) 4 8 = .ok b ∧ LatticeLaw 2 (fun _ => 64) b :=
  ⟨_, rfl, (lattice_law 2 (fun _ => 64) fun _ _ => ⟨6, rfl⟩).1 4 8 _ rfl⟩

/-- An owner of one leaf holds no atom, and a span past the search's can outrank its choice. -/
theorem lattice_law_limits : (∃ b, boxShape 2 (fun _ => 64) 1 1 = .ok b ∧ (admissible 2 (fun _ => 64) 1 1).isSome ∧
      ¬ ∃ lo : ℕ → ℕ, ∀ x < size (fun _ => 64) 2, b.permutation 2 (fun _ => 64) x / mmaKQuantum = 0 ↔
        ∀ l < 2, lo l ≤ digit (fun _ => 64) 2 x l ∧ digit (fun _ => 64) 2 x l < lo l + atomSide 2 b.s l) ∧
    ∃ s s', deriveLattice 1 (fun _ => 16) = (4, 4) ∧ admissible 1 (fun _ => 16) 4 4 = some s ∧
      admissible 1 (fun _ => 16) 16 1 = some s' ∧ (rankOf 1 s 4).lt (rankOf 1 s' 16) = true := by
  refine ⟨⟨_, rfl, by decide +kernel, ?_⟩, _, _, by decide +kernel, rfl, rfl, by decide +kernel⟩
  rintro ⟨lo, h⟩
  have h0 := ((h 0 (by decide)).1 (by decide +kernel) 1 (by decide)).1
  have h1 := ((h 1 (by decide)).1 (by decide +kernel) 1 (by decide)).2
  have hzero : digit (fun _ => 64) 2 0 1 = 0 := by decide
  have hone : digit (fun _ => 64) 2 1 1 = 1 := by decide
  have hside : atomSide 2 (fun l => 1 * 2 ^ boxBits 2 (fun _ => 64) 1 0 0 l) 1 = 1 := by decide +kernel
  rw [hzero] at h0
  rw [hone] at h1
  change 1 < lo 1 + atomSide 2 (fun l => 1 * 2 ^ boxBits 2 (fun _ => 64) 1 0 0 l) 1 at h1
  omega

end Rola
