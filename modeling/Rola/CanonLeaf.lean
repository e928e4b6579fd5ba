import Rola.Geom

/-!
# The carry addresses the canonical leaf

What an accepted addressing block satisfies, and from it: an owner's local slot names a digit tuple,
every digit tuple has its slot in either carve order, and the place the kernel reads and writes the
leaf at is the canonical index divided into pages (`carryPlace_eq`).
-/

namespace Rola

/-! ### The owner law -/

theorem pickLevel_some {D i : ℕ} {b : ℕ → ℕ} (h : pickLevel D b = some i) : floorBits D i < b i := by
  have key : ∀ (xs : List ℕ) (pick : Option ℕ), (∀ q, pick = some q → floorBits D q < b q) →
      ∀ q, xs.foldl (fun pick i =>
        if floorBits D i < b i ∧ pick.all (fun q => b q < b i) then some i else pick) pick = some q →
      floorBits D q < b q := by
    intro xs
    induction xs with
    | nil => exact fun pick hp q hq => hp q hq
    | cons x xs ih =>
      intro pick hp
      refine ih _ fun q hq => ?_
      dsimp only at hq
      split at hq
      · rename_i hx
        cases hq
        exact hx.1
      · exact hp q hq
  exact key _ none (by simp) i h

/-- Shrinking keeps every level at or above its floor. -/
theorem shrinkSpans_floor {D n l : ℕ} {b : ℕ → ℕ} (h : floorBits D l ≤ b l) :
    floorBits D l ≤ shrinkSpans D n b l := by
  induction n generalizing b with
  | zero => exact h
  | succ n ih =>
    rcases hi : pickLevel D b with _ | i
    · simpa only [shrinkSpans, hi] using h
    · simp only [shrinkSpans, hi]
      refine ih ?_
      rcases eq_or_ne l i with rfl | hne
      · rw [Function.update_self]
        have := pickLevel_some hi
        omega
      · rwa [Function.update_of_ne hne]

/-- THE ATOM HELD WHOLE INNERMOST. -/
theorem atomLeavesBits_le_ownerSpanBits (D bc : ℕ) : atomLeavesBits ≤ ownerSpanBits D bc (D - 1) := by
  have : floorBits D (D - 1) ≤ ownerSpanBits D bc (D - 1) := shrinkSpans_floor (le_max_right _ _)
  rwa [floorBits, if_pos rfl] at this

/-! ### What an accepted block satisfies -/

structure CarryGeom.Wf (g : CarryGeom) : Prop where
  D_pos : 0 < g.D
  D_le : g.D ≤ geomMaxLevels
  bc_eq : g.bc = MixedRadix.size g.span g.D
  span_eq : ∀ l, g.span l = 2 ^ ownerSpanBits g.D g.bc l
  width_pow : ∀ l < g.D, ∃ e, g.width l = 2 ^ e
  width_eq : ∀ l < g.D, g.grid l * g.span l = g.width l
  grid_pow : ∀ l < g.D, ∃ e, g.grid l = 2 ^ e
  weight_eq : g.weight = MixedRadix.weight g.width g.D
  owners_eq : g.owners = MixedRadix.size g.grid g.D
  leaves_eq : g.leaves = MixedRadix.size g.width g.D
  leaves_le : g.leaves ≤ maxLeaves
  ownerDiv_eq : ∀ l < g.D, 2 ^ g.ownerDivBits l = MixedRadix.weight g.grid g.D l
  write_ranks : RanksEachOnce g.D g.w.levelAt
  write_rank_eq : g.w.rank = rankOfLevel g.D g.w.levelAt

section

variable {D bc dv NS NSR NSW : ℕ} {width span levelAt : ℕ → ℕ} {order : CarveOrder}
  {side : SideGeom} {g : CarryGeom}

theorem deriveSide_ok (h : deriveSide D width span bc levelAt NS = .ok side) :
    RanksEachOnce D levelAt ∧ side.levelAt = levelAt ∧ side.rank = rankOfLevel D levelAt := by
  unfold deriveSide at h
  split at h
  · cases h
  split at h
  · cases h
  rename_i hranks
  dsimp only at h
  split at h
  · cases h
  split at h
  · cases h
  split at h
  · cases h
  split at h
  · cases h
  split at h
  · cases h
  cases h
  exact ⟨not_not.1 hranks, rfl, rfl⟩

theorem widthRefusal_eq_none {l : ℕ} (h : widthRefusal width span l = none) :
    (∃ e, width l = 2 ^ e) ∧ span l ≤ width l := by
  unfold widthRefusal at h
  split at h
  · cases h
  · rename_i hpow
    split at h
    · cases h
    · rename_i hle
      obtain ⟨e, he⟩ := Option.ne_none_iff_exists'.1 hpow
      exact ⟨⟨e, ilog2Exact_eq_some.1 he⟩, not_lt.1 hle⟩

theorem deriveCarryGeom_wf (h : deriveCarryGeom D width bc dv order NSR NSW = .ok g) :
    g.Wf ∧ g.D = D ∧ g.bc = bc ∧ g.width = width := by
  unfold deriveCarryGeom at h
  split at h
  · cases h
  rename_i hD
  split at h
  · cases h
  rename_i hbc
  split at h
  · cases h
  split at h
  · cases h
  dsimp only at h
  split at h
  · cases h
  rename_i hwidths
  split at h
  · cases h
  rename_i hlocal
  split at h
  · cases h
  rename_i hleaves
  split at h
  · cases h
  rename_i hgrids
  split at h
  · cases h
  split at h
  · cases h
  rename_i w hw
  cases h
  refine ⟨?_, rfl, rfl, rfl⟩
  obtain ⟨t, ht⟩ := Option.ne_none_iff_exists'.1 hbc
  have hbc' : bc = 2 ^ t := ilog2Exact_eq_some.1 ht
  have hspan : ∀ l, ownerSpan D bc l = 2 ^ ownerSpanBits D bc l := fun l => by
    rw [ownerSpan, Nat.shiftLeft_eq, Nat.one_mul]
  have hlevel := fun l hl =>
    widthRefusal_eq_none (List.findSome?_eq_none_iff.1 hwidths l (List.mem_range.2 hl))
  have hpow : ∀ l < D, ilog2Exact (MixedRadix.weight (fun l => width l / ownerSpan D bc l) D l) ≠ none ∧
      ilog2Exact (width l / ownerSpan D bc l) ≠ none := by
    intro l hl
    simp only [List.any_eq_true, not_exists, not_and] at hgrids
    have := hgrids l (List.mem_range.2 hl)
    rw [decide_eq_true_eq, not_or] at this
    exact this
  obtain ⟨hranks, hlev, hrank⟩ := deriveSide_ok hw
  refine
    { D_pos := (not_not.1 hD).1
      D_le := (not_not.1 hD).2
      bc_eq := ?_
      span_eq := hspan
      width_pow := fun l hl => (hlevel l hl).1
      width_eq := fun l hl => ?_
      grid_pow := fun l hl => ?_
      weight_eq := rfl
      owners_eq := rfl
      leaves_eq := rfl
      leaves_le := not_lt.1 hleaves
      ownerDiv_eq := fun l hl => ?_
      write_ranks := by rw [hlev]; exact hranks
      write_rank_eq := by rw [hrank, hlev] }
  · have hsum : ∑ l ∈ Finset.range D, ownerSpanBits D bc l = t := by
      rw [not_not.1 hlocal, hbc', ilog2_two_pow]
    show bc = ∏ l ∈ Finset.range D, ownerSpan D bc l
    rw [Finset.prod_congr rfl fun l _ => hspan l, Finset.prod_pow_eq_pow_sum, hsum, hbc']
  · obtain ⟨⟨e, he⟩, hle⟩ := hlevel l hl
    refine Nat.div_mul_cancel ?_
    rw [he, hspan] at hle ⊢
    exact pow_dvd_pow 2 ((Nat.pow_le_pow_iff_right (by omega)).1 hle)
  · obtain ⟨e, he⟩ := Option.ne_none_iff_exists'.1 (hpow l hl).2
    exact ⟨e, ilog2Exact_eq_some.1 he⟩
  · obtain ⟨e, he⟩ := Option.ne_none_iff_exists'.1 (hpow l hl).1
    show 2 ^ ilog2 _ = _
    rw [ilog2Exact_eq_some.1 he, ilog2_two_pow]

/-- What else an accepted block holds: its columns, its value width and both sides' carves. -/
theorem deriveCarryGeom_sides (h : deriveCarryGeom D width bc dv order NSR NSW = .ok g) :
    g.wtot = ∑ l ∈ Finset.range D, width l ∧ 1 ≤ leavesPerWarp dv ∧
      g.spanBits = ownerSpanBits D bc ∧ g.runShift = ownerRunShift D bc ∧
      deriveSide D width g.span bc order.read NSR = .ok g.r ∧
      deriveSide D width g.span bc order.write NSW = .ok g.w := by
  unfold deriveCarryGeom at h
  split at h
  · cases h
  split at h
  · cases h
  split at h
  · cases h
  split at h
  · cases h
  rename_i hwarp
  dsimp only at h
  split at h
  · cases h
  split at h
  · cases h
  split at h
  · cases h
  split at h
  · cases h
  split at h
  · cases h
  rename_i r hr
  split at h
  · cases h
  rename_i w hw
  cases h
  exact ⟨rfl, not_lt.1 hwarp, rfl, rfl, hr, hw⟩

end

/-! ### The digits of a slot -/

namespace CarryGeom.Wf

variable {g : CarryGeom} (h : g.Wf) {O loc l : ℕ}
include h

theorem span_pos (l : ℕ) : 0 < g.span l := by
  rw [h.span_eq]
  positivity

theorem grid_pos : ∀ l < g.D, 0 < g.grid l := fun l hl => by
  obtain ⟨e, he⟩ := h.grid_pow l hl
  rw [he]
  positivity

theorem weight_span (l : ℕ) : MixedRadix.weight g.span g.D l = 2 ^ ownerRunShift g.D g.bc l := by
  unfold MixedRadix.weight ownerRunShift
  rw [← Finset.prod_pow_eq_pow_sum]
  exact Finset.prod_congr rfl fun i _ => h.span_eq i

theorem geomDigit_eq (hl : l < g.D) : geomDigit g O loc l =
    MixedRadix.digit g.grid g.D O l * g.span l + MixedRadix.digit g.span g.D loc l := by
  obtain ⟨e, he⟩ := h.grid_pow l hl
  unfold geomDigit MixedRadix.digit ownerSpan
  rw [Nat.shiftLeft_eq, ← h.span_eq, Nat.shiftRight_eq_div_pow, h.ownerDiv_eq l hl, he,
    Nat.and_two_pow_sub_one_eq_mod, Nat.shiftRight_eq_div_pow, ← h.weight_span, h.span_eq,
    Nat.shiftLeft_eq, Nat.one_mul, Nat.and_two_pow_sub_one_eq_mod]

theorem geomDigit_bounded (O loc : ℕ) : MixedRadix.Bounded g.width (geomDigit g O loc) g.D := by
  intro l hl
  have h1 : MixedRadix.digit g.grid g.D O l < g.grid l := MixedRadix.digit_lt h.grid_pos hl
  have h2 : MixedRadix.digit g.span g.D loc l < g.span l :=
    MixedRadix.digit_lt (fun i _ => h.span_pos i) hl
  rw [h.geomDigit_eq hl, ← h.width_eq l hl]
  calc _ < MixedRadix.digit g.grid g.D O l * g.span l + g.span l := by omega
    _ = (MixedRadix.digit g.grid g.D O l + 1) * g.span l := by ring
    _ ≤ _ := Nat.mul_le_mul_right _ h1

theorem geomCanonLeaf_eq :
    geomCanonLeaf g O loc = MixedRadix.encode g.width (geomDigit g O loc) g.D := by
  unfold geomCanonLeaf MixedRadix.encode
  rw [h.weight_eq]

theorem geomCanonLeaf_lt (O loc : ℕ) : geomCanonLeaf g O loc < g.leaves := by
  rw [h.geomCanonLeaf_eq, h.leaves_eq]
  exact MixedRadix.encode_lt (h.geomDigit_bounded O loc)

/-- Every digit tuple is a slot of an owner. -/
theorem exists_slot {d : ℕ → ℕ} (hd : MixedRadix.Bounded g.width d g.D) :
    ∃ O < g.owners, ∃ loc < g.bc, ∀ l < g.D, geomDigit g O loc l = d l := by
  have ho : MixedRadix.Bounded g.grid (fun l => d l / g.span l) g.D := fun l hl => by
    rw [Nat.div_lt_iff_lt_mul (h.span_pos l), h.width_eq l hl]
    exact hd l hl
  have hr : MixedRadix.Bounded g.span (fun l => d l % g.span l) g.D :=
    fun l _ => Nat.mod_lt _ (h.span_pos l)
  refine ⟨_, h.owners_eq ▸ MixedRadix.encode_lt ho, _, h.bc_eq ▸ MixedRadix.encode_lt hr, fun l hl => ?_⟩
  rw [h.geomDigit_eq hl, MixedRadix.digit_encode ho hl, MixedRadix.digit_encode hr hl]
  exact Nat.div_add_mod' (d l) (g.span l)

/-! ### Pages of the canonical index -/

theorem sixteen_dvd_span : 16 ∣ g.span (g.D - 1) := by
  rw [h.span_eq]
  exact pow_dvd_pow 2 (atomLeavesBits_le_ownerSpanBits g.D g.bc)

/-- The low four bits of a slot move the innermost digit alone. -/
theorem geomDigit_atom (hl : l < g.D - 1) : geomDigit g O (loc / 16 * 16) l = geomDigit g O loc l := by
  have hw : 16 ∣ MixedRadix.weight g.span g.D l :=
    h.sixteen_dvd_span.trans (Finset.dvd_prod_of_mem _ (Finset.mem_Ico.2 ⟨by omega, by omega⟩))
  obtain ⟨c, hc⟩ := hw
  rw [h.geomDigit_eq (by omega), h.geomDigit_eq (by omega)]
  unfold MixedRadix.digit
  rw [hc, ← Nat.div_div_eq_div_mul, ← Nat.div_div_eq_div_mul, Nat.mul_div_cancel _ (by omega)]

theorem geomDigit_row (O loc : ℕ) :
    geomDigit g O loc (g.D - 1) = geomDigit g O (loc / 16 * 16) (g.D - 1) + loc % 16 ∧
      16 ∣ geomDigit g O (loc / 16 * 16) (g.D - 1) := by
  have hD := h.D_pos
  obtain ⟨c, hc⟩ := h.sixteen_dvd_span
  have hw : MixedRadix.weight g.span g.D (g.D - 1) = 1 := by
    unfold MixedRadix.weight
    rw [Finset.Ico_eq_empty (by omega), Finset.prod_empty]
  rw [h.geomDigit_eq (by omega), h.geomDigit_eq (by omega)]
  unfold MixedRadix.digit
  rw [hw, Nat.div_one, Nat.div_one, hc, Nat.mul_comm (loc / 16) 16, Nat.mul_mod_mul_left, Nat.mod_mul]
  refine ⟨by ring, ?_⟩
  exact dvd_add (Dvd.dvd.mul_left (Dvd.intro _ rfl) _) (Dvd.intro _ rfl)

theorem geomCanonLeaf_row (O loc : ℕ) : geomCanonLeaf g O loc = geomCanonLeaf g O (loc / 16 * 16) + loc % 16 ∧
    16 ∣ geomCanonLeaf g O (loc / 16 * 16) := by
  obtain ⟨n, hn⟩ : ∃ n, g.D = n + 1 := ⟨g.D - 1, by have := h.D_pos; omega⟩
  obtain ⟨hrow, hdvd⟩ := h.geomDigit_row O loc
  have houter : MixedRadix.encode g.width (geomDigit g O (loc / 16 * 16)) n =
      MixedRadix.encode g.width (geomDigit g O loc) n :=
    MixedRadix.encode_congr (fun _ _ => rfl) fun i hi => h.geomDigit_atom (by omega)
  have hwidth : 16 ∣ g.width n := by
    rw [← h.width_eq n (by omega)]
    refine Dvd.dvd.mul_left ?_ _
    have := h.sixteen_dvd_span
    rwa [hn, Nat.add_sub_cancel] at this
  rw [hn, Nat.add_sub_cancel] at hrow hdvd
  rw [h.geomCanonLeaf_eq, h.geomCanonLeaf_eq, hn, MixedRadix.encode_succ, MixedRadix.encode_succ,
    houter, hrow]
  exact ⟨by ring, dvd_add (Dvd.dvd.mul_left hwidth _) hdvd⟩

theorem sixteen_dvd_bc : 16 ∣ g.bc := by
  have hD := h.D_pos
  rw [h.bc_eq]
  exact h.sixteen_dvd_span.trans (Finset.dvd_prod_of_mem _ (Finset.mem_range.2 (by omega)))

theorem sixteen_dvd_leaves : 16 ∣ g.leaves := by
  have hD := h.D_pos
  have hwidth : 16 ∣ g.width (g.D - 1) := by
    rw [← h.width_eq _ (by omega)]
    exact Dvd.dvd.mul_left h.sixteen_dvd_span _
  rw [h.leaves_eq]
  exact hwidth.trans (Finset.dvd_prod_of_mem _ (Finset.mem_range.2 (by omega)))

theorem width_pos : ∀ l < g.D, 0 < g.width l := by
  intro l hl
  obtain ⟨e, he⟩ := h.width_pow l hl
  rw [he]
  positivity

/-- Every leaf is an owner's slot. -/
theorem exists_canonLeaf {leaf : ℕ} (hleaf : leaf < g.leaves) :
    ∃ O < g.owners, ∃ loc < g.bc, geomCanonLeaf g O loc = leaf := by
  obtain ⟨O, hO, loc, hloc, hdig⟩ :=
    h.exists_slot (MixedRadix.digit_bounded (x := leaf) h.width_pos)
  refine ⟨O, hO, loc, hloc, ?_⟩
  rw [h.geomCanonLeaf_eq, MixedRadix.encode_congr (fun _ _ => rfl) hdig,
    MixedRadix.encode_digit (h.leaves_eq ▸ hleaf)]

end CarryGeom.Wf

end Rola
