import Rola.CarryCall
import Rola.PaddingExact
import Rola.Prefill
import Rola.RadixSums

/-!
# Prefill is the recurrence

A CTA's slots hold the writes of the windows before, so its readout misses its own window's up to each
token, which are the intra kernel's; and the owners' boxes are the leaves, each once.
-/

namespace Rola.Prefill

open Finset Intra

variable {K : Type} [Field K] {arm : Arm} {p : IntraParams K} {g : CarryGeom} {state : ℕ → Padding.State K} {bh owner : ℕ}

/-! ### A CTA -/

/-- What the tokens before `n` add to a slot. -/
def deposits (arm : Arm) (p : IntraParams K) (g : CarryGeom) (bh owner n loc col : ℕ) : K :=
  ∑ s ∈ range n, gainAt p bh s * slotWeight arm p g 1 bh s owner loc * column p bh s col

theorem foldSlots_eq (win : ℕ) (st : ℕ → ℕ → K) (loc col : ℕ) : foldSlots arm p g bh owner win st loc col =
    st loc col + ∑ i ∈ range (lenOf arm p win), gainAt p bh (win * arm.W + i) *
      slotWeight arm p g 1 bh (win * arm.W + i) owner loc * column p bh (win * arm.W + i) col := by
  unfold foldSlots
  generalize lenOf arm p win = n
  induction n with
  | zero => simp
  | succ n ih => rw [List.range_succ, List.foldl_append, List.foldl_cons, List.foldl_nil, foldToken, ih, sum_range_succ, add_assoc]

omit [Field K] in
theorem lenOf_full (hL : p.L % arm.W = 0) {win : ℕ} (hwin : win < p.L / arm.W) : lenOf arm p win = arm.W := by
  obtain ⟨m, hm⟩ := Nat.dvd_of_mod_eq_zero hL
  have hW : 0 < arm.W := by
    rcases Nat.eq_zero_or_pos arm.W with hzero | hpos
    · rw [hzero, Nat.div_zero] at hwin
      omega
    · exact hpos
  rw [hm, Nat.mul_div_cancel_left _ hW] at hwin
  have hle : win * arm.W + arm.W ≤ m * arm.W := by
    rw [← Nat.succ_mul]
    exact Nat.mul_le_mul_right _ hwin
  rw [lenOf, hm, Nat.mul_comm arm.W m]
  omega

omit [Field K] in
theorem nWindows_eq (hL : p.L % arm.W = 0) : nWindows arm p = p.L / arm.W := by
  have hW := arm.tiles_pos
  have hWeq := arm.tiles
  have hpos : 0 < arm.W := by
    rw [← hWeq]
    exact Nat.mul_pos hW (by decide)
  obtain ⟨m, hm⟩ := Nat.dvd_of_mod_eq_zero hL
  rw [nWindows, hm, Nat.mul_div_cancel_left _ hpos, Nat.add_sub_assoc hpos, Nat.mul_add_div hpos, Nat.div_eq_of_lt (by omega), Nat.add_zero]

/-- After `n` windows a slot holds their writes. -/
theorem cta_state (hL : p.L % arm.W = 0) {n : ℕ} (hn : n ≤ p.L / arm.W) (c : Cta K) (loc col : ℕ) :
    ((List.range n).foldl (fun cta win => window arm p g bh owner win cta) c).state loc col =
      c.state loc col + deposits arm p g bh owner (n * arm.W) loc col := by
  induction n with
  | zero => simp [deposits]
  | succ n ih =>
    rw [List.range_succ, List.foldl_append, List.foldl_cons, List.foldl_nil, window]
    dsimp only
    rw [foldSlots_eq, ih (by omega), lenOf_full hL hn, deposits, deposits, Nat.succ_mul, sum_range_add, add_assoc]

/-- A token's readout of a CTA's slots. -/
def ctaReadout (arm : Arm) (p : IntraParams K) (g : CarryGeom) (state : ℕ → Padding.State K) (bh owner t col : ℕ) : K :=
  ∑ loc ∈ range g.bc, slotWeight arm p g 0 bh t owner loc *
    (state bh (geomCanonLeaf g owner loc) col + deposits arm p g bh owner (t / arm.W * arm.W) loc col)

theorem window_pos (arm : Arm) : 0 < arm.W := by
  rw [← arm.tiles]
  exact Nat.mul_pos arm.tiles_pos (by decide)

theorem width_pos (arm : Arm) : 0 < arm.B := by
  obtain ⟨e, he⟩ := arm.width
  rw [he]
  exact Nat.mul_pos (Nat.two_pow_pos e) (by decide)

theorem hits_cta (hL : p.L % arm.W = 0) (addr : ℕ) :
    hits addr (cta arm p g state bh owner).num = (∑ t ∈ range p.L, ∑ ch ∈ range kValueWidth,
      if (bh * p.L + t) * kValueWidth + ch = addr then ctaReadout arm p g state bh owner t ch else 0) ∧
    hits addr (cta arm p g state bh owner).den = ∑ t ∈ range p.L,
      if bh * p.L + t = addr then ctaReadout arm p g state bh owner t kValueWidth else 0 := by
  have hdiv : ∀ win, ∀ i < arm.W, (win * arm.W + i) / arm.W = win := fun win i hi => by
    rw [Nat.add_comm, Nat.add_mul_div_right _ _ (window_pos arm), Nat.div_eq_of_lt hi, Nat.zero_add]
  have hwhole : p.L / arm.W * arm.W = p.L := Nat.div_mul_cancel (Nat.dvd_of_mod_eq_zero hL)
  have hwindows : ∀ n ≤ p.L / arm.W,
      hits addr ((List.range n).foldl (fun cta win => window arm p g bh owner win cta)
        ⟨[], [], fun loc col => state bh (geomCanonLeaf g owner loc) col⟩).num = (∑ win ∈ range n, ∑ i ∈ range arm.W, ∑ ch ∈ range kValueWidth,
          if (bh * p.L + (win * arm.W + i)) * kValueWidth + ch = addr then ctaReadout arm p g state bh owner (win * arm.W + i) ch else 0) ∧
      hits addr ((List.range n).foldl (fun cta win => window arm p g bh owner win cta)
        ⟨[], [], fun loc col => state bh (geomCanonLeaf g owner loc) col⟩).den = ∑ win ∈ range n, ∑ i ∈ range arm.W,
          if bh * p.L + (win * arm.W + i) = addr then ctaReadout arm p g state bh owner (win * arm.W + i) kValueWidth else 0 := by
    intro n hn
    induction n with
    | zero => exact ⟨rfl, rfl⟩
    | succ n ih =>
      obtain ⟨hnum, hden⟩ := ih (by omega)
      have hstate := fun loc col => @cta_state _ _ _ _ g bh owner hL _ (Nat.le_of_succ_le hn)
        ⟨[], [], fun loc col => state bh (geomCanonLeaf g owner loc) col⟩ loc col
      rw [List.range_succ, List.foldl_append, List.foldl_cons, List.foldl_nil, window]
      dsimp only at hstate ⊢
      refine ⟨?_, ?_⟩
      · rw [hits_append, hnum, sum_range_succ _ n, readNum, lenOf_full hL hn, hits_range]
        refine congrArg _ (sum_congr rfl fun i hi => (hits_map _ _ _).trans (sum_congr rfl fun ch _ => ?_))
        simp only [hstate, ctaReadout, hdiv n i (mem_range.1 hi)]
      · rw [hits_append, hden, sum_range_succ _ n, readDen, lenOf_full hL hn, hits_map]
        refine congrArg _ (sum_congr rfl fun i hi => ?_)
        simp only [hstate, ctaReadout, hdiv n i (mem_range.1 hi)]
  have hall := hwindows _ le_rfl
  rw [cta, nWindows_eq hL, hall.1, hall.2]
  have hnum := sum_blocks (fun t => ∑ ch ∈ range kValueWidth,
    if (bh * p.L + t) * kValueWidth + ch = addr then ctaReadout arm p g state bh owner t ch else 0) (p.L / arm.W) arm.W
  have hden := sum_blocks (fun t => if bh * p.L + t = addr then ctaReadout arm p g state bh owner t kValueWidth else 0) (p.L / arm.W) arm.W
  rw [hwhole] at hnum hden
  exact ⟨hnum.symm, hden.symm⟩

/-! ### The owners -/

/-- A call's levels, carved. -/
structure Carved (arm : Arm) (g : CarryGeom) : Prop where
  wf : g.Wf
  levels : g.D = arm.D
  width : ∀ l < arm.D, g.width l = arm.B

/-- A token's amplitudes' product at a leaf. -/
def leafWeight (arm : Arm) (p : IntraParams K) (side bh t leaf : ℕ) : K :=
  ∏ l ∈ range arm.D, amplitude arm p side bh t l (MixedRadix.digit (fun _ => arm.B) arm.D leaf l)

section Carved

variable (h : Carved arm g)
include h

theorem Carved.encode (d : ℕ → ℕ) : MixedRadix.encode g.width d g.D = MixedRadix.encode (fun _ => arm.B) d arm.D := by
  rw [h.levels]
  exact MixedRadix.encode_congr h.width fun _ _ => rfl

theorem Carved.leaves_eq : g.leaves = MixedRadix.size (fun _ => arm.B) arm.D := by
  rw [h.wf.leaves_eq, h.levels]
  exact prod_congr rfl fun l hl => h.width l (mem_range.1 hl)

theorem Carved.leafWeight_slot (side t loc : ℕ) : leafWeight arm p side bh t (geomCanonLeaf g owner loc) =
    slotWeight arm p g side bh t owner loc := by
  have hbounded : MixedRadix.Bounded (fun _ => arm.B) (geomDigit g owner loc) arm.D := fun l hl =>
    h.width l hl ▸ h.wf.geomDigit_bounded owner loc l (h.levels ▸ hl)
  rw [leafWeight, slotWeight, h.levels, h.wf.geomCanonLeaf_eq, h.encode]
  exact prod_congr rfl fun l hl => by rw [MixedRadix.digit_encode hbounded (mem_range.1 hl)]

/-- A sum over the leaves, box by box. -/
theorem Carved.sum_slots (f : ℕ → K) : ∑ o ∈ range g.owners, ∑ loc ∈ range g.bc, f (geomCanonLeaf g o loc) = ∑ leaf ∈ range g.leaves, f leaf := by
  have hsum := MixedRadix.sum_nested (fun l hl => (h.wf.width_eq l hl).symm) h.wf.grid_pos (fun l _ => h.wf.span_pos l) f
  rw [h.wf.owners_eq, h.wf.bc_eq, h.wf.leaves_eq, ← hsum]
  refine sum_congr rfl fun o _ => sum_congr rfl fun loc _ => congrArg f ?_
  rw [h.wf.geomCanonLeaf_eq]
  exact MixedRadix.encode_congr (fun _ _ => rfl) fun l hl => h.wf.geomDigit_eq hl

end Carved

/-- What the tokens before `n` add to a leaf. -/
def leafDeposits (arm : Arm) (p : IntraParams K) (bh n leaf col : ℕ) : K :=
  ∑ s ∈ range n, gainAt p bh s * leafWeight arm p 1 bh s leaf * column p bh s col

/-- The owners' readouts together are every leaf's. -/
theorem sum_ctaReadout (h : Carved arm g) (t col : ℕ) : ∑ o ∈ range g.owners, ctaReadout arm p g state bh o t col =
    ∑ leaf ∈ range g.leaves, leafWeight arm p 0 bh t leaf * (state bh leaf col + leafDeposits arm p bh (t / arm.W * arm.W) leaf col) := by
  rw [← h.sum_slots]
  unfold ctaReadout deposits leafDeposits
  simp only [h.leafWeight_slot]

/-! ### The recurrence -/

theorem radix_replicate {n B l : ℕ} (hl : l < n) : Padding.radix (List.replicate n B) l = B := by
  rw [Padding.radix, List.getD_eq_getElem _ _ (by simpa using hl), List.getElem_replicate]

theorem leafProduct_eq (side t leaf : ℕ) :
    Padding.leafProduct ((List.range arm.D).map fun l => (List.range arm.B).map (amplitude arm p side bh t l))
      (Padding.radixStrides (List.replicate arm.D arm.B)) leaf = leafWeight arm p side bh t leaf := by
  have hwidths : ((List.range arm.D).map fun l => (List.range arm.B).map (amplitude arm p side bh t l)).map List.length =
      List.replicate arm.D arm.B := by
    rw [List.map_map, List.eq_replicate_iff]
    simp
  rw [Padding.leafProduct_eq hwidths, List.length_replicate, leafWeight]
  refine prod_congr rfl fun l hl => ?_
  rw [mem_range] at hl
  have hdigit : MixedRadix.digit (Padding.radix (List.replicate arm.D arm.B)) arm.D leaf l = MixedRadix.digit (fun _ => arm.B) arm.D leaf l := by
    unfold MixedRadix.digit
    rw [radix_replicate hl, MixedRadix.weight_congr fun i hi => radix_replicate hi]
  have hlt : MixedRadix.digit (fun _ => arm.B) arm.D leaf l < arm.B := Nat.mod_lt _ (width_pos arm)
  have hrow : ((List.range arm.D).map fun l => (List.range arm.B).map (amplitude arm p side bh t l)).getD l [] =
      (List.range arm.B).map (amplitude arm p side bh t l) := by
    rw [List.getD_eq_getElem _ _ (by simpa using hl), List.getElem_map, List.getElem_range]
  rw [hdigit, Padding.amplitudeAt, hrow, List.getD_eq_getElem _ _ (by simpa using hlt), List.getElem_map, List.getElem_range]

theorem value_getD (t col : ℕ) (hcol : col ≤ kValueWidth) :
    ((List.range kValueWidth).map (valueAt p bh t) ++ [1]).getD col 0 = column p bh t col := by
  have hlen : ((List.range kValueWidth).map (valueAt p bh t)).length = kValueWidth := by rw [List.length_map, List.length_range]
  unfold column
  split
  · rename_i hlt
    rw [List.getD_append _ _ _ _ (by rwa [hlen]), List.getD_eq_getElem _ _ (by rwa [hlen]), List.getElem_map, List.getElem_range]
  · rename_i hge
    obtain rfl : col = kValueWidth := by omega
    rw [List.getD_append_right _ _ _ _ hlen.le, hlen, Nat.sub_self]
    rfl

/-- The recurrence's state: what it began with, and the writes. -/
theorem naiveState_eq (n leaf : ℕ) {col : ℕ} (hcol : col ≤ kValueWidth) :
    naiveState arm p state bh n leaf col = state bh leaf col + leafDeposits arm p bh n leaf col := by
  induction n with
  | zero => simp [naiveState, leafDeposits]
  | succ n ih =>
    unfold naiveState at ih ⊢
    rw [List.range_succ, List.foldl_append, List.foldl_cons, List.foldl_nil, Padding.update, ih, Padding.keep, one_mul, add_assoc,
      leafDeposits, leafDeposits, sum_range_succ]
    refine congrArg (_ + ·) (congrArg (_ + ·) ?_)
    rw [operands, leafProduct_eq, value_getD n col hcol]

theorem naiveReadout_eq (h : Carved arm g) (t : ℕ) {col : ℕ} (hcol : col ≤ kValueWidth) : naiveReadout arm p state bh t col =
    ∑ leaf ∈ range g.leaves, leafWeight arm p 0 bh t leaf * (state bh leaf col + leafDeposits arm p bh (t + 1) leaf col) := by
  have hcapacity : Padding.leafCapacity (List.replicate arm.D arm.B) = g.leaves := by
    rw [Padding.leafCapacity_eq, List.length_replicate, h.leaves_eq]
    exact prod_congr rfl fun l hl => radix_replicate (mem_range.1 hl)
  rw [naiveReadout, Padding.readout, hcapacity]
  refine sum_congr rfl fun leaf _ => ?_
  rw [naiveState_eq _ _ hcol, operands, leafProduct_eq]

/-! ### A token's own window -/

/-- Two tokens' amplitudes at the leaves, as the product of their levels'. -/
theorem sum_leafWeight (h : Carved arm g) (t s : ℕ) : gainAt p bh s *
    ∑ leaf ∈ range g.leaves, leafWeight arm p 0 bh t leaf * leafWeight arm p 1 bh s leaf = pairWeight arm p bh t s := by
  have hsum := MixedRadix.sum_prod_digit (b := fun _ => arm.B) (D := arm.D) fun l d => amplitude arm p 0 bh t l d * amplitude arm p 1 bh s l d
  rw [pairWeight, h.leaves_eq]
  unfold leafWeight Intra.inner
  simp only [← prod_mul_distrib]
  exact congrArg (gainAt p bh s * ·) hsum

omit [Field K] in
theorem within_eq {t : ℕ} (ht : t < p.L) : within arm p t = Ico (t / arm.W * arm.W) (t + 1) := by
  ext s
  have hdiv := Nat.div_add_mod' t arm.W
  have hmod := Nat.mod_lt t (window_pos arm)
  simp only [within, mem_filter, mem_range, mem_Ico]
  constructor
  · rintro ⟨-, hle, heq⟩
    have hs := Nat.div_mul_le_self s arm.W
    rw [heq] at hs
    omega
  · rintro ⟨hlo, hhi⟩
    refine ⟨by omega, by omega, ?_⟩
    exact Nat.div_eq_of_lt_le hlo (by rw [Nat.succ_mul]; omega)

/-- What a token reads of its own window's writes. -/
theorem sum_own (h : Carved arm g) {t : ℕ} (ht : t < p.L) (col : ℕ) :
    ∑ leaf ∈ range g.leaves, leafWeight arm p 0 bh t leaf *
        (leafDeposits arm p bh (t + 1) leaf col - leafDeposits arm p bh (t / arm.W * arm.W) leaf col) =
      ∑ s ∈ within arm p t, pairWeight arm p bh t s * column p bh s col := by
  have hle : t / arm.W * arm.W ≤ t + 1 := (Nat.div_mul_le_self _ _).trans (Nat.le_succ _)
  have hsub : ∀ leaf, leafDeposits arm p bh (t + 1) leaf col - leafDeposits arm p bh (t / arm.W * arm.W) leaf col =
      ∑ s ∈ Ico (t / arm.W * arm.W) (t + 1), gainAt p bh s * leafWeight arm p 1 bh s leaf * column p bh s col := by
    intro leaf
    rw [leafDeposits, leafDeposits, ← sum_Ico_eq_sub _ hle]
  rw [within_eq ht]
  simp only [hsub, mul_sum]
  rw [sum_comm]
  refine sum_congr rfl fun s _ => ?_
  rw [← sum_leafWeight h, mul_sum, sum_mul]
  exact sum_congr rfl fun leaf _ => by ring

/-- A token's readout of the state at its window's start, and of its window's writes, is the recurrence's. -/
theorem readout_split (h : Carved arm g) {t : ℕ} (ht : t < p.L) {col : ℕ} (hcol : col ≤ kValueWidth) :
    (∑ o ∈ range g.owners, ctaReadout arm p g state bh o t col) + ∑ s ∈ within arm p t, pairWeight arm p bh t s * column p bh s col =
      naiveReadout arm p state bh t col := by
  rw [sum_ctaReadout h, ← sum_own h ht, ← sum_add_distrib, naiveReadout_eq h t hcol]
  exact sum_congr rfl fun leaf _ => by ring

/-! ### The call -/

section Call

variable {BH : ℕ}

theorem hits_carry (hL : p.L % arm.W = 0) (addr : ℕ) :
    hits addr (carryNum arm p g state BH) = (∑ bh ∈ range BH, ∑ t ∈ range p.L, ∑ ch ∈ range kValueWidth,
      if (bh * p.L + t) * kValueWidth + ch = addr then ∑ o ∈ range g.owners, ctaReadout arm p g state bh o t ch else 0) ∧
    hits addr (carryDen arm p g state BH) = ∑ bh ∈ range BH, ∑ t ∈ range p.L,
      if bh * p.L + t = addr then ∑ o ∈ range g.owners, ctaReadout arm p g state bh o t kValueWidth else 0 := by
  have hif : ∀ (c : Prop) [Decidable c] (f : ℕ → K), (∑ o ∈ range g.owners, if c then f o else 0) =
      if c then ∑ o ∈ range g.owners, f o else 0 := by
    intro c _ f
    split
    · rfl
    · exact sum_const_zero
  refine ⟨?_, ?_⟩
  · rw [carryNum, hits_range]
    refine sum_congr rfl fun bh _ => ?_
    rw [hits_range, sum_congr rfl fun o _ => (hits_cta hL addr).1, sum_comm]
    refine sum_congr rfl fun t _ => ?_
    rw [sum_comm]
    exact sum_congr rfl fun ch _ => hif _ _
  · rw [carryDen, hits_range]
    refine sum_congr rfl fun bh _ => ?_
    rw [hits_range, sum_congr rfl fun o _ => (hits_cta hL addr).2, sum_comm]
    exact sum_congr rfl fun t _ => hif _ _

/-- The sum at one entry of a plane of rows. -/
theorem sum_entry {m n bh t : ℕ} (f : ℕ → ℕ → K) (hbh : bh < m) (ht : t < n) :
    ∑ bh' ∈ range m, ∑ t' ∈ range n, (if bh' * n + t' = bh * n + t then f bh' t' else 0) = f bh t := by
  have hpos : 0 < n := Nat.zero_lt_of_lt ht
  have hrow : bh * n + t < m * n := by
    calc bh * n + t < (bh + 1) * n := by rw [Nat.succ_mul]; omega
      _ ≤ m * n := Nat.mul_le_mul_right _ hbh
  rw [sum_site f m hpos, if_pos hrow, Nat.mul_add_mod', Nat.mod_eq_of_lt ht, Nat.add_comm, Nat.add_mul_div_right _ _ hpos,
    Nat.div_eq_of_lt ht, Nat.zero_add]

theorem sum_cell {m n k bh t ch : ℕ} (f : ℕ → ℕ → ℕ → K) (hbh : bh < m) (ht : t < n) (hch : ch < k) :
    ∑ bh' ∈ range m, ∑ t' ∈ range n, ∑ ch' ∈ range k, (if (bh' * n + t') * k + ch' = (bh * n + t) * k + ch then f bh' t' ch' else 0) =
      f bh t ch := by
  rw [← sum_entry (fun bh t => f bh t ch) hbh ht]
  refine sum_congr rfl fun bh' _ => sum_congr rfl fun t' _ => ?_
  rw [sum_eq_single ch]
  · refine if_congr ⟨fun heq => (MixedRadix.mul_add_inj hch hch heq).1, fun heq => by rw [heq]⟩ rfl rfl
  · intro ch' hch' hne
    exact if_neg fun heq => hne (MixedRadix.mul_add_inj (mem_range.1 hch') hch heq).2
  · intro hout
    exact absurd (mem_range.2 hch) hout

end Call

/-- Two windows of one head and one level of two boxes, everything one, over a state of fives. -/
def onesParams : IntraParams ℚ where
  pread _ := 1
  pwrite _ := 1
  gwrite _ := 1
  v _ := 1
  sread _ := 0
  swrite _ := 0
  L := 128
  heads := 1
  modes := 0

def onesDevice : Device ℚ where
  found _ _ _ _ := 0
  smem := ⟨fun _ _ _ => 7, fun _ _ _ => 7, fun _ _ => 7, fun _ => 7⟩
  landings _ _ _ := ⟨fun a _ => a, fun _ _ _ _ _ => .inl rfl, fun _ _ _ _ _ => .inl rfl, fun _ _ _ _ => .inl rfl, fun _ _ _ => .inl rfl⟩
  scratch _ := ⟨fun _ _ _ => 9, fun _ _ _ => 9, fun _ _ => 9, fun _ => 9⟩

end Rola.Prefill
