import Rola.DecodeLattice

/-!
# The host's box and the kernel's

`box_shape` and `fill_lattice` spread the capacity by one law, so where both accept they have one shape.
The kernel alone holds a span to 32 digits and an owner grid to its threads; the host alone asks that the
levels carry the whole capacity, which they always do past depth one.
-/

namespace Rola

open Finset

variable {D j kappa aInner k m N rows l : ℕ} {w : ℕ → ℕ} {b : Box} {p : DecodeParams}

/-! ### The capacity's bits -/

theorem sum_spread {n r : ℕ} (q : ℕ) (hr : r ≤ n) : ∑ l ∈ range n, (q + if n - r ≤ l then 1 else 0) = n * q + r := by
  rw [sum_add_distrib, sum_const, card_range, nsmul_eq_mul, Nat.cast_id, ← card_filter]
  congr 1
  have hIco : (range n).filter (fun l => n - r ≤ l) = Ico (n - r) n := by
    ext l
    simp
    omega
  rw [hIco, Nat.card_Ico]
  omega

/-- From depth two on the outer levels take what the innermost leaves. -/
theorem sum_levelBits (hD : 2 ≤ D) (h : aInner ≤ j) : ∑ l ∈ range D, levelBits D j aInner l = j := by
  obtain ⟨n, rfl⟩ : ∃ n, D = n + 1 := ⟨D - 1, by omega⟩
  have hmod : (j - aInner) % n < n := Nat.mod_lt _ (by omega)
  have houter : ∑ l ∈ range n, levelBits (n + 1) j aInner l = n * ((j - aInner) / n) + (j - aInner) % n := by
    rw [← sum_spread _ hmod.le]
    refine sum_congr rfl fun l hl => ?_
    have hlt := mem_range.1 hl
    unfold levelBits
    rw [if_neg (by omega), Nat.add_sub_cancel]
  rw [sum_range_succ, houter, Nat.div_add_mod, levelBits, if_pos (by omega)]
  omega

theorem innerBits_le (D j floor ceil : ℕ) : innerBits D j floor ceil ≤ j := Nat.min_le_right _ _

/-- The one level of depth one takes its width's ceiling at most. -/
theorem boxBits_one (w : ℕ → ℕ) (k kappa j : ℕ) : boxBits 1 w k kappa j 0 = min (ceilInner k (w 0)) j := by
  have hshare : j / 1 + (if j % 1 = 0 then 0 else 1) = j := by
    rw [Nat.mod_one, if_pos rfl, Nat.div_one, Nat.add_zero]
  unfold boxBits levelBits innerBits
  rw [if_pos rfl, hshare, Nat.sub_self]
  omega

theorem sum_boxBits (hD : 2 ≤ D) : ∑ l ∈ range D, boxBits D w k kappa j l = j := sum_levelBits hD (innerBits_le ..)

/-- Each level's share is within the capacity. -/
theorem boxBits_le (hl : l < D) : boxBits D w k kappa j l ≤ j := by
  rcases Nat.lt_or_ge D 2 with h1 | h2
  · obtain rfl : D = 1 := by omega
    obtain rfl : l = 0 := by omega
    rw [boxBits_one]
    exact Nat.min_le_right _ _
  · calc boxBits D w k kappa j l ≤ ∑ l ∈ range D, boxBits D w k kappa j l :=
          single_le_sum (f := boxBits D w k kappa j) (fun _ _ => Nat.zero_le _) (mem_range.2 hl)
      _ = j := sum_boxBits h2

/-! ### What each side accepts -/

theorem boxShape_isOk_iff : (∃ b, boxShape D w (2 ^ kappa) (2 ^ j) = .ok b) ↔
    ∑ l ∈ range D, boxBits D w (2 ^ kappa) kappa j l = j ∧
      ∀ l < D, 2 ^ kappa * 2 ^ boxBits D w (2 ^ kappa) kappa j l ∣ w l := by
  constructor
  · rintro ⟨b, hb⟩
    obtain ⟨j', kappa', hm, hk, hsum, hs, -, hmod⟩ := boxShape_ok hb
    obtain rfl := Nat.pow_right_injective le_rfl hm
    obtain rfl := Nat.pow_right_injective le_rfl hk
    refine ⟨hsum, fun l hl => ?_⟩
    have hdvd := Nat.dvd_of_mod_eq_zero (hmod l hl)
    rwa [hs] at hdvd
  · rintro ⟨hsum, hdvd⟩
    have hnone : (List.range D).find?
        (fun l => w l % (2 ^ kappa * 2 ^ boxBits D w (2 ^ kappa) kappa j l) ≠ 0) = none := by
      refine List.find?_eq_none.2 fun l hl => ?_
      simpa using Nat.mod_eq_zero_of_dvd (hdvd l (List.mem_range.1 hl))
    unfold boxShape
    rw [ilog2Exact_two_pow, ilog2Exact_two_pow]
    dsimp only
    rw [if_neg (not_not.2 hsum), hnone]
    exact ⟨_, rfl⟩

theorem boxShape_grid (h : boxShape D w k m = .ok b) : b.g = fun l => w l / b.s l := by
  unfold boxShape at h
  split at h
  · cases h
  · cases h
  dsimp only at h
  split at h
  · cases h
  split at h
  · cases h
  cases h
  rfl

/-- The kernel's own check of the leaf count is of widths it has already divided. -/
theorem size_grid_spans {s : ℕ → ℕ} (h : ∀ l < D, s l ∣ w l) :
    MixedRadix.size (fun l => w l / s l) D * MixedRadix.size s D = MixedRadix.size w D := by
  rw [← MixedRadix.size_mul]
  exact prod_congr rfl fun l hl => Nat.div_mul_cancel (h l (mem_range.1 hl))

theorem spanRefusal_eq_none {s : ℕ → ℕ} : spanRefusal w s l = none ↔ s l ≤ maxSpan ∧ s l ∣ w l := by
  unfold spanRefusal
  split
  · rename_i hlt
    simp [not_le.2 hlt]
  · rename_i hle
    rw [not_lt] at hle
    split
    · rename_i hmod
      simp [Nat.dvd_iff_mod_eq_zero, hmod]
    · rename_i hmod
      simp [Nat.dvd_iff_mod_eq_zero, not_not.1 hmod, hle]

theorem fillLattice_grid_le (h : fillLattice D w rows k m N = .ok p) (hl : l < D) : p.latG l ≤ decodeThreads := by
  unfold fillLattice at h
  split at h
  · cases h
  · cases h
  split at h
  · cases h
  dsimp only at h
  split at h
  · cases h
  split at h
  · cases h
  split at h
  · cases h
  · rename_i hnone
    cases h
    simpa using List.find?_eq_none.1 hnone l (List.mem_range.2 hl)

theorem fillLattice_isOk_iff (hD : 0 < D) (hN : MixedRadix.size w D = N) :
    (∃ p, fillLattice D w rows (2 ^ kappa) (2 ^ j) N = .ok p) ↔
      ∀ l < D, 2 ^ kappa * 2 ^ boxBits D w (2 ^ kappa) kappa j l ≤ maxSpan ∧
        2 ^ kappa * 2 ^ boxBits D w (2 ^ kappa) kappa j l ∣ w l ∧
        w l / (2 ^ kappa * 2 ^ boxBits D w (2 ^ kappa) kappa j l) ≤ decodeThreads := by
  constructor
  · rintro ⟨p, hp⟩ l hl
    obtain ⟨j', kappa', hm, hk, -, -, -, hs, hg, hspan, hdvd, -⟩ := fillLattice_ok hp
    obtain rfl := Nat.pow_right_injective le_rfl hm
    obtain rfl := Nat.pow_right_injective le_rfl hk
    have hgrid := fillLattice_grid_le hp hl
    have hle := hspan l hl
    have hd := hdvd l hl
    rw [hg] at hgrid
    rw [hs] at hgrid hle hd
    exact ⟨hle, hd, hgrid⟩
  · intro h
    have hk : ¬ maxSpan < 2 ^ kappa := by
      have hle := (h 0 hD).1
      have hpos : 0 < 2 ^ boxBits D w (2 ^ kappa) kappa j 0 := by positivity
      have := Nat.le_mul_of_pos_right (2 ^ kappa) hpos
      omega
    have hspan : (List.range D).findSome?
        (spanRefusal w fun l => 2 ^ kappa * 2 ^ boxBits D w (2 ^ kappa) kappa j l) = none := by
      refine List.findSome?_eq_none_iff.2 fun l hl => ?_
      have hl' := h l (List.mem_range.1 hl)
      exact spanRefusal_eq_none.2 ⟨hl'.1, hl'.2.1⟩
    have hsize := size_grid_spans fun l hl => (h l hl).2.1
    have hgrid : (List.range D).find? (fun l => decodeThreads <
        w l / (2 ^ kappa * 2 ^ boxBits D w (2 ^ kappa) kappa j l)) = none := by
      refine List.find?_eq_none.2 fun l hl => ?_
      simpa using (h l (List.mem_range.1 hl)).2.2
    unfold fillLattice
    rw [ilog2Exact_two_pow, ilog2Exact_two_pow]
    dsimp only
    rw [if_neg hk, hspan]
    dsimp only
    rw [hsize, hN, if_neg (not_not.2 rfl), hgrid]
    exact ⟨_, rfl⟩

/-! ### The agreement -/

theorem boxBits_one_two_pow {e : ℕ} (hw : w 0 = 2 ^ e) (h : kappa ≤ e) :
    boxBits 1 w (2 ^ kappa) kappa j 0 = min (e - kappa) j := by
  rw [boxBits_one, hw, ceilInner_two_pow h]

/-- At depth one a capacity past the width is cut to it, and the kernel takes the cut box where it fits a span. -/
theorem sum_boxBits_of_spans (hD : 1 ≤ D) (hw : ∀ l < D, ∃ e, w l = 2 ^ e)
    (hcarry : D = 1 → 2 ^ kappa ≤ w 0 → w 0 ≤ maxSpan → 2 ^ kappa * 2 ^ j ≤ w 0)
    (hspan : ∀ l < D, 2 ^ kappa * 2 ^ boxBits D w (2 ^ kappa) kappa j l ≤ maxSpan ∧
      2 ^ kappa * 2 ^ boxBits D w (2 ^ kappa) kappa j l ∣ w l) :
    ∑ l ∈ range D, boxBits D w (2 ^ kappa) kappa j l = j := by
  rcases Nat.lt_or_ge D 2 with h1 | h2
  · obtain rfl : D = 1 := by omega
    obtain ⟨e, he⟩ := hw 0 Nat.one_pos
    obtain ⟨hle, hdvd⟩ := hspan 0 Nat.one_pos
    have hkappa : kappa ≤ e := by
      rw [he] at hdvd
      exact (Nat.pow_dvd_pow_iff_le_right (by omega)).1 ((Dvd.intro _ rfl).trans hdvd)
    rw [sum_range_one, boxBits_one_two_pow he hkappa, min_eq_right]
    rcases Nat.le_total j (e - kappa) with hj | hj
    · exact hj
    · rw [boxBits_one_two_pow he hkappa, min_eq_left hj, ← pow_add, Nat.add_sub_cancel' hkappa, ← he] at hle
      have hfit := hcarry rfl (he ▸ Nat.pow_le_pow_right (by omega) hkappa) hle
      rw [he, ← pow_add] at hfit
      have := (Nat.pow_le_pow_iff_right (by omega)).1 hfit
      omega
  · exact sum_boxBits h2

/-- A box's spans make up its leaves, its spans and grids its widths. -/
structure BoxLaw (D : ℕ) (w : ℕ → ℕ) (k m : ℕ) (b : Box) : Prop where
  leaves : MixedRadix.size b.s D = k ^ D * m
  width : ∀ l < D, b.s l * b.g l = w l

theorem boxShape_law (h : boxShape D w k m = .ok b) : BoxLaw D w k m b := by
  obtain ⟨j, kappa, hm, hk, hsum, hs, hbc, hmod⟩ := boxShape_ok h
  refine ⟨?_, fun l hl => ?_⟩
  · rw [← hbc]
    exact boxShape_bc h
  · rw [boxShape_grid h]
    exact Nat.mul_div_cancel' (Nat.dvd_of_mod_eq_zero (hmod l hl))

/-- The kernel's shape is the host's. -/
structure SameBox (D : ℕ) (b : Box) (p : DecodeParams) : Prop where
  spans : ∀ l < D, p.latS l = b.s l
  grids : ∀ l < D, p.latG l = b.g l

theorem sameBox (hb : boxShape D w k m = .ok b) (hp : fillLattice D w rows k m N = .ok p) : SameBox D b p := by
  obtain ⟨j, kappa, rfl, rfl, -, hs, -, -⟩ := boxShape_ok hb
  obtain ⟨j', kappa', hm, hk, -, -, -, hs', hg', -⟩ := fillLattice_ok hp
  obtain rfl := Nat.pow_right_injective le_rfl hm
  obtain rfl := Nat.pow_right_injective le_rfl hk
  refine ⟨fun l _ => by rw [hs, hs'], fun l _ => ?_⟩
  rw [hg', hs', boxShape_grid hb, hs]

/-- At depth one the kernel cuts a capacity past the width, which the host refuses. -/
example : (boxShape 1 (fun _ => 16) 1 32).isOk = false ∧ (fillLattice 1 (fun _ => 16) 16 1 32 16).isOk = true := by
  decide +kernel

end Rola
