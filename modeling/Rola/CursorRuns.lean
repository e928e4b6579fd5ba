import Rola.PoolCursor

/-!
# Any run of bumps

The pool's cursor keeps its fills and takes in one word, the ring's its uses. However many bumps of
whichever bytes, in whatever order, a byte has its count's parity and a fill byte is zero only before the
first fill: each bump moves one byte and leaves the others.
-/

namespace Rola

/-- A bump of one byte of a cursor's word. -/
structure Bump where
  place : Fin 4
  fill : Bool

/-- The word after the bumps. -/
def bumped (bumps : List Bump) (word : BitVec 32) : BitVec 32 :=
  bumps.foldl (fun word b => bumpByte word (8 * b.place) b.fill) word

/-- A bump of the pool's cursor: of a slot's fills or of its takes. -/
structure PoolBump where
  slot : Fin kPoolSlots
  fill : Bool
deriving DecidableEq

/-- `PoolCursor`, after its bumps. -/
def poolUses (bumps : List PoolBump) : BitVec 32 :=
  bumps.foldl (fun uses b => if b.fill then cursorFilled uses b.slot else cursorUsed uses b.slot) 0

/-- `RingCursor::n_of`. -/
def ringUsesOf (uses : BitVec 32) (r : ℕ) : ℕ := byteOf uses (8 * r)

/-- `RingCursor`, after its slots were used. -/
def ringUses (slots : List (Fin 4)) : BitVec 32 := slots.foldl (fun uses (r : Fin 4) => bumpByte uses (8 * r) false) 0

namespace Bump

theorem byteOf_other (word : BitVec 32) (b : Bump) {j : Fin 4} (h : j ≠ b.place) :
    byteOf (bumpByte word (8 * b.place) b.fill) (8 * j) = byteOf word (8 * j) := by
  rw [byteOf_bumpByte b.place.isLt j.isLt, if_neg]
  intro heq
  exact h (Fin.ext heq)

theorem byteOf_self (word : BitVec 32) (b : Bump) : byteOf (bumpByte word (8 * b.place) b.fill) (8 * b.place) =
    if b.fill = true ∧ byteOf word (8 * b.place) = 255 then 2 else (byteOf word (8 * b.place) + 1) % 256 := by
  rw [byteOf_bumpByte b.place.isLt b.place.isLt, if_pos rfl]

end Bump

theorem bumped_snoc (bumps : List Bump) (b : Bump) (word : BitVec 32) :
    bumped (bumps ++ [b]) word = bumpByte (bumped bumps word) (8 * b.place) b.fill := by
  rw [bumped, List.foldl_append]
  rfl

theorem byteOf_zero (shift : ℕ) : byteOf 0 shift = 0 := by simp [byteOf]

/-- A byte has the parity of its bumps. -/
theorem bumped_parity (bumps : List Bump) (j : Fin 4) :
    byteOf (bumped bumps 0) (8 * j) % 2 = bumps.countP (fun b => b.place = j) % 2 := by
  induction bumps using List.reverseRecOn with
  | nil => rw [bumped, List.foldl_nil, byteOf_zero, List.countP_nil]
  | append_singleton bumps b ih =>
    rw [bumped_snoc, List.countP_append, List.countP_singleton]
    by_cases hj : j = b.place
    · subst hj
      have hlt := CursorOk.byteOf_lt (bumped bumps 0) (8 * b.place)
      rw [b.byteOf_self]
      simp only [decide_true, if_true]
      -- a fill's wrap to two is even, as the count it stands for
      split <;> omega
    · rw [b.byteOf_other _ hj, ih, if_neg (by simpa using Ne.symm hj), Nat.add_zero]

/-- A byte that only fills bump is zero before the first of them only. -/
theorem bumped_zero (bumps : List Bump) (j : Fin 4) (hfill : ∀ b ∈ bumps, b.place = j → b.fill = true) :
    byteOf (bumped bumps 0) (8 * j) = 0 ↔ ∀ b ∈ bumps, b.place ≠ j := by
  induction bumps using List.reverseRecOn with
  | nil => exact ⟨fun _ b hb => absurd hb List.not_mem_nil, fun _ => byteOf_zero _⟩
  | append_singleton bumps b ih =>
    have ih := ih fun b' hb' => hfill b' (List.mem_append_left _ hb')
    rw [bumped_snoc]
    by_cases hj : j = b.place
    · subst hj
      have hf := hfill b (by simp) rfl
      rw [b.byteOf_self, hf]
      constructor
      · intro hzero
        split at hzero
        · cases hzero
        · rename_i hfull
          have hlt := CursorOk.byteOf_lt (bumped bumps 0) (8 * b.place)
          simp only [true_and] at hfull
          omega
      · intro hnone
        exact absurd rfl (hnone b (by simp))
    · rw [b.byteOf_other _ hj, ih]
      constructor
      · intro hnone b' hb'
        rcases List.mem_append.1 hb' with hmem | hmem
        · exact hnone b' hmem
        · rw [List.mem_singleton.1 hmem]
          exact Ne.symm hj
      · intro hnone b' hb'
        exact hnone b' (List.mem_append_left _ hb')

/-! ### The cursors -/

/-- The byte a pool bump is of. -/
def PoolBump.toBump (b : PoolBump) : Bump :=
  ⟨⟨if b.fill then b.slot else 2 + b.slot, by have := b.slot.isLt; unfold kPoolSlots at this; split <;> omega⟩, b.fill⟩

theorem poolUses_eq (bumps : List PoolBump) : poolUses bumps = bumped (bumps.map PoolBump.toBump) 0 := by
  rw [poolUses, bumped, List.foldl_map]
  congr 1
  funext uses b
  unfold PoolBump.toBump cursorFilled cursorUsed
  rcases b with ⟨s, _ | _⟩
  · rw [if_neg (by simp)]
    dsimp only
    rw [if_neg (by simp), Nat.mul_add]
  · rfl

theorem ringUses_eq (slots : List (Fin 4)) : ringUses slots = bumped (slots.map fun r => (⟨r, false⟩ : Bump)) 0 := by
  rw [ringUses, bumped, List.foldl_map]

theorem PoolBump.place_inj {b b' : PoolBump} (h : b.toBump.place = b'.toBump.place) : b = b' := by
  have hval := congrArg Fin.val h
  have hs := b.slot.isLt
  have hs' := b'.slot.isLt
  unfold kPoolSlots at hs hs'
  rcases b with ⟨s, _ | _⟩ <;> rcases b' with ⟨s', _ | _⟩ <;>
    simp only [PoolBump.toBump, if_true, if_false, Bool.false_eq_true] at hval hs hs'
  · rw [Fin.ext (Nat.add_left_cancel hval)]
  · omega
  · omega
  · rw [Fin.ext hval]

/-- A pool byte's bumps are its slot's. -/
theorem poolUses_count (bumps : List PoolBump) (b : PoolBump) :
    (bumps.map PoolBump.toBump).countP (fun x => x.place = b.toBump.place) = bumps.count b := by
  rw [List.countP_map, List.count]
  refine List.countP_congr fun b' _ => ?_
  simp only [Function.comp, decide_eq_true_eq, beq_iff_eq]
  constructor
  · exact PoolBump.place_inj
  · rintro rfl
    rfl

/-- Counts keep their parity and a fill count its history, through any bumps in any order; and a bump is
of its own byte. -/
theorem cursor_bumps_exact :
    (∀ (bumps : List PoolBump) (s : Fin kPoolSlots),
      fillsOf (poolUses bumps) s % 2 = bumps.count ⟨s, true⟩ % 2 ∧
      takesOf (poolUses bumps) s % 2 = bumps.count ⟨s, false⟩ % 2 ∧
      (fillsOf (poolUses bumps) s = 0 ↔ (⟨s, true⟩ : PoolBump) ∉ bumps)) ∧
    (∀ (slots : List (Fin 4)) (r : Fin 4), ringUsesOf (ringUses slots) r % 2 = slots.count r % 2) ∧
    ∀ (word : BitVec 32) (b : Bump) (j : Fin 4), j ≠ b.place →
      byteOf (bumpByte word (8 * b.place) b.fill) (8 * j) = byteOf word (8 * j) := by
  refine ⟨fun bumps s => ?_, fun slots r => ?_, fun word b j h => b.byteOf_other word h⟩
  · have hfill := bumped_parity (bumps.map PoolBump.toBump) (PoolBump.toBump ⟨s, true⟩).place
    have htake := bumped_parity (bumps.map PoolBump.toBump) (PoolBump.toBump ⟨s, false⟩).place
    have htakes : takesOf (poolUses bumps) s =
        byteOf (bumped (bumps.map PoolBump.toBump) 0) (8 * (PoolBump.toBump ⟨s, false⟩).place) := by
      rw [takesOf, poolUses_eq]
      refine congrArg _ ?_
      change 16 + 8 * (s : ℕ) = 8 * (2 + s)
      omega
    rw [poolUses_count] at hfill htake
    refine ⟨?_, ?_, ?_⟩
    · rw [fillsOf, poolUses_eq]
      exact hfill
    · rw [htakes]
      exact htake
    · have hzero := bumped_zero (bumps.map PoolBump.toBump) (PoolBump.toBump ⟨s, true⟩).place ?_
      · rw [fillsOf, poolUses_eq]
        refine hzero.trans ?_
        constructor
        · intro hnone hmem
          exact hnone _ (List.mem_map_of_mem hmem) rfl
        · intro hmem b hb heq
          obtain ⟨b', hb', rfl⟩ := List.mem_map.1 hb
          rw [PoolBump.place_inj heq] at hb'
          exact hmem hb'
      · intro b hb heq
        obtain ⟨b', -, rfl⟩ := List.mem_map.1 hb
        rw [PoolBump.place_inj heq]
        rfl
  · have h := bumped_parity (slots.map fun r => (⟨r, false⟩ : Bump)) r
    rw [ringUsesOf, ringUses_eq, h, List.countP_map]
    refine congrArg (· % 2) (List.countP_congr fun r' _ => ?_)
    simp

end Rola
