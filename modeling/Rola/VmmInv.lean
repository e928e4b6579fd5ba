import Mathlib.Algebra.BigOperators.Group.List.Basic
import Mathlib.Data.Finset.Card
import Mathlib.Order.Interval.Finset.Nat
import Mathlib.Algebra.Order.Ring.Nat
import Rola.VmmOwner

/-!
# What the owner's list keeps

A mapped extent the owner reaches is the rounding of the whole pages it holds, and every chunk adds
a page: so a capacity names the extent that reported it.
-/

namespace Rola.Vmm

/-! ### Rounding -/

section Rounding

variable {value alignment m n : ℕ}

theorem roundUp_eq_ok : roundUp value alignment = .ok m ↔ alignment ≠ 0 ∧
    value ≤ sizeMax - (alignment - 1) ∧ (value + alignment - 1) / alignment * alignment = m := by
  unfold roundUp
  split
  · rename_i h
    simp [h]
  · rename_i h
    simp only [reduceCtorEq, false_iff]
    exact fun ⟨h0, hle, _⟩ => h ⟨h0, hle⟩

theorem le_of_roundUp (h : roundUp value alignment = .ok m) : value ≤ m := by
  obtain ⟨h0, -, rfl⟩ := roundUp_eq_ok.1 h
  have hmod := Nat.div_add_mod (value + alignment - 1) alignment
  have hlt := Nat.mod_lt (value + alignment - 1) (Nat.pos_of_ne_zero h0)
  rw [Nat.mul_comm] at hmod
  omega

theorem roundUp_le_sizeMax (h : roundUp value alignment = .ok m) : m ≤ sizeMax := by
  obtain ⟨h0, hle, rfl⟩ := roundUp_eq_ok.1 h
  have := Nat.div_mul_le_self (value + alignment - 1) alignment
  rcases le_or_gt (alignment - 1) sizeMax with hle' | hgt
  · omega
  · obtain rfl : value = 0 := by omega
    rw [Nat.div_eq_of_lt (by omega), Nat.zero_mul]
    exact Nat.zero_le _

theorem dvd_of_roundUp (h : roundUp value alignment = .ok m) : alignment ∣ m := by
  obtain ⟨-, -, rfl⟩ := roundUp_eq_ok.1 h
  exact Nat.dvd_mul_left ..

theorem roundUp_le_of_dvd (h : roundUp value alignment = .ok m) (hle : value ≤ n) (hdvd : alignment ∣ n) :
    m ≤ n := by
  obtain ⟨h0, -, rfl⟩ := roundUp_eq_ok.1 h
  obtain ⟨k, rfl⟩ := hdvd
  rw [Nat.mul_comm alignment k]
  refine Nat.mul_le_mul_right _ (Nat.lt_succ_iff.1 ((Nat.div_lt_iff_lt_mul (by omega)).2 ?_))
  rw [Nat.succ_mul, Nat.mul_comm k]
  omega

end Rounding

theorem checkedMul_of_le {lhs rhs : ℕ} {what : String} (h : lhs * rhs ≤ sizeMax) :
    checkedMul lhs rhs what = .ok (lhs * rhs) := by
  unfold checkedMul
  rcases Nat.eq_zero_or_pos rhs with rfl | hpos
  · simp
  · rw [if_pos (.inr ((Nat.le_div_iff_mul_le hpos).2 h))]

theorem checkedMul_eq_ok {lhs rhs m : ℕ} {what : String} (h : checkedMul lhs rhs what = .ok m) :
    m = lhs * rhs := by
  unfold checkedMul at h
  split at h
  · exact (Except.ok.inj h).symm
  · cases h

theorem checkedSize_eq_ok {value m : ℕ} {what : String} : checkedSize value what = .ok m ↔
    value ≤ sizeMax ∧ value = m := by
  unfold checkedSize
  split <;> simp_all

/-! ### Capacity -/

/-- What `create` has checked of a geometry. -/
structure Geometry.Valid (g : Geometry) : Prop where
  pageBytes_pos : 0 < g.pageBytes
  chunkPages_pos : 0 < g.chunkPages
  chunkPages_le : g.chunkPages ≤ g.denseLimitPages
  virtual : roundUp (g.pageBytes * g.denseLimitPages) g.granularity = .ok g.virtualBytes

namespace Geometry

variable {g : Geometry} {m n pages : ℕ}

theorem capacity_eq (g : Geometry) (m : ℕ) : g.capacity m = min (m / g.pageBytes) g.denseLimitPages := by
  unfold capacity
  split
  · rename_i h
    simp [h]
  · rfl

theorem capacity_le (g : Geometry) (m : ℕ) : g.capacity m ≤ g.denseLimitPages := by
  simp [capacity_eq]

theorem capacity_mono (h : m ≤ n) : g.capacity m ≤ g.capacity n := by
  rw [capacity_eq, capacity_eq]
  exact min_le_min_right _ (Nat.div_le_div_right h)

theorem capacity_mul_le (g : Geometry) (m : ℕ) : g.capacity m * g.pageBytes ≤ m := by
  rw [capacity_eq]
  exact (Nat.mul_le_mul_right _ (min_le_left ..)).trans (Nat.div_mul_le_self ..)

namespace Valid

variable (hg : g.Valid)
include hg

theorem le_capacity (hpages : pages ≤ g.denseLimitPages) (h : pages * g.pageBytes ≤ m) :
    pages ≤ g.capacity m := by
  rw [capacity_eq]
  exact le_min ((Nat.le_div_iff_mul_le hg.pageBytes_pos).2 h) hpages

theorem payload_le (hpages : pages ≤ g.denseLimitPages) :
    pages * g.pageBytes ≤ sizeMax - (g.granularity - 1) := by
  obtain ⟨-, hle, -⟩ := roundUp_eq_ok.1 hg.virtual
  rw [Nat.mul_comm] at hle
  exact (Nat.mul_le_mul_right _ hpages).trans hle

/-- An extent reached by rounding some pages up is the rounding of the pages it holds. -/
theorem roundUp_capacity (hpages : pages ≤ g.denseLimitPages)
    (h : roundUp (pages * g.pageBytes) g.granularity = .ok m) :
    roundUp (g.capacity m * g.pageBytes) g.granularity = .ok m := by
  have hle : pages * g.pageBytes ≤ g.capacity m * g.pageBytes :=
    Nat.mul_le_mul_right _ (hg.le_capacity hpages (le_of_roundUp h))
  have h0 := (roundUp_eq_ok.1 h).1
  refine roundUp_eq_ok.2 ⟨h0, hg.payload_le (capacity_le ..), ?_⟩
  refine le_antisymm (roundUp_le_of_dvd (roundUp_eq_ok.2 ⟨h0, hg.payload_le (capacity_le g m), rfl⟩)
    (capacity_mul_le ..) (dvd_of_roundUp h)) ?_
  refine roundUp_le_of_dvd h (hle.trans ?_) (Nat.dvd_mul_left ..)
  exact le_of_roundUp (roundUp_eq_ok.2 ⟨h0, hg.payload_le (capacity_le g m), rfl⟩)

/-- The whole pages an extent holds. -/
theorem capacity_card (m : ℕ) : g.capacity m =
    ((Finset.range g.denseLimitPages).filter fun page => (page + 1) * g.pageBytes ≤ m).card := by
  have hfilter : ((Finset.range g.denseLimitPages).filter fun page => (page + 1) * g.pageBytes ≤ m) =
      Finset.range (g.capacity m) := by
    ext page
    rw [capacity_eq]
    simp only [Finset.mem_filter, Finset.mem_range, lt_min_iff]
    rw [← Nat.le_div_iff_mul_le hg.pageBytes_pos]
    exact and_comm
  simp [hfilter]

end Valid
end Geometry

/-! ### The chunk list -/

def extent (chunks : List Chunk) : ℕ := (chunks.map Chunk.bytes).sum

@[simp] theorem extent_nil : extent [] = 0 := rfl

@[simp] theorem extent_cons (c : Chunk) (chunks : List Chunk) : extent (c :: chunks) = c.bytes + extent chunks := by
  simp [extent]

@[simp] theorem extent_append (xs ys : List Chunk) : extent (xs ++ ys) = extent xs + extent ys := by
  simp [extent]

/-- The chunks lie end to end from `address`. -/
def Tiles : ℕ → List Chunk → Prop
  | _, [] => True
  | address, c :: chunks => c.address = address ∧ Tiles (address + c.bytes) chunks

/-- The bookkeeping a caller relies on: the list tiles the mapped prefix, is what the driver holds
mapped, and every counter is read off it. -/
structure Good (g : Geometry) (s : State) : Prop where
  tiles : Tiles g.address s.chunks
  regions : s.regions = s.chunks.map Chunk.region
  mapped : s.mappedBytes = extent s.chunks
  committed : s.committedBytes = extent s.chunks
  capacity : g.capacity s.mappedBytes = ((Finset.range g.denseLimitPages).filter fun page =>
    (page + 1) * g.pageBytes ≤ extent s.chunks).card

/-- Above an extent `m`, every chunk starts where the last ended, adds a page, and ends at the
rounding of the pages held there. -/
def Stacked (g : Geometry) : ℕ → List Chunk → Prop
  | _, [] => True
  | m, c :: chunks => c.address = g.address + m ∧ g.capacity m < g.capacity (m + c.bytes) ∧
    roundUp (g.capacity (m + c.bytes) * g.pageBytes) g.granularity = .ok (m + c.bytes) ∧
    Stacked g (m + c.bytes) chunks

variable {g : Geometry} {m : ℕ} {xs ys : List Chunk} {c : Chunk}

theorem stacked_append : Stacked g m (xs ++ ys) ↔ Stacked g m xs ∧ Stacked g (m + extent xs) ys := by
  induction xs generalizing m with
  | nil => simp [Stacked]
  | cons x xs ih => simp [Stacked, ih, Nat.add_assoc, and_assoc]

theorem Stacked.tiles (h : Stacked g m xs) : Tiles (g.address + m) xs := by
  induction xs generalizing m with
  | nil => trivial
  | cons x xs ih => exact ⟨h.1, by rw [Nat.add_assoc]; exact ih h.2.2.2⟩

theorem Stacked.bytes_pos (h : Stacked g m (c :: xs)) : 0 < c.bytes := by
  rcases Nat.eq_zero_or_pos c.bytes with h0 | hpos
  · have := h.2.1
    rw [h0] at this
    exact absurd this (lt_irrefl _)
  · exact hpos

theorem Stacked.extent_pos (h : Stacked g m xs) (hne : xs ≠ []) : 0 < extent xs := by
  cases xs with
  | nil => exact absurd rfl hne
  | cons x xs =>
    have := h.bytes_pos
    simp only [extent_cons]
    omega

theorem Stacked.capacity_lt (h : Stacked g m xs) (hne : xs ≠ []) : g.capacity m < g.capacity (m + extent xs) := by
  cases xs with
  | nil => exact absurd rfl hne
  | cons x xs =>
    refine lt_of_lt_of_le h.2.1 (Geometry.capacity_mono ?_)
    simp only [extent_cons]
    omega

/-- The end of a nonempty stack is the rounding of the pages it holds. -/
theorem Stacked.roundUp_extent (h : Stacked g m xs) (hne : xs ≠ []) :
    roundUp (g.capacity (m + extent xs) * g.pageBytes) g.granularity = .ok (m + extent xs) := by
  induction xs generalizing m with
  | nil => exact absurd rfl hne
  | cons x xs ih =>
    rcases eq_or_ne xs [] with rfl | hxs
    · simpa using h.2.2.1
    · simpa [Nat.add_assoc] using ih h.2.2.2 hxs

theorem Stacked.region_notMem (h : Stacked g m (xs ++ [c])) : c.region ∉ xs.map Chunk.region := by
  obtain ⟨hxs, hc⟩ := stacked_append.1 h
  intro hmem
  obtain ⟨x, hx, hregion⟩ := List.mem_map.1 hmem
  obtain ⟨front, back, rfl⟩ := List.append_of_mem hx
  have haddress : x.address = c.address := congrArg Prod.fst hregion
  have hx' := (stacked_append.1 hxs).2
  have hpos := hx'.bytes_pos
  rw [hx'.1, hc.1] at haddress
  simp only [extent_append, extent_cons] at haddress
  omega

/-- What every owner's state keeps, the committed bytes apart. -/
structure Held (g : Geometry) (s : State) : Prop where
  stacked : Stacked g 0 s.chunks
  regions : s.regions = s.chunks.map Chunk.region
  mapped : s.mappedBytes = extent s.chunks

structure Settled (g : Geometry) (s : State) : Prop extends Held g s where
  committed : s.committedBytes = extent s.chunks

/-- A created owner keeps its initial chunk. -/
structure Inv (g : Geometry) (s : State) : Prop extends Settled g s where
  nonempty : s.chunks ≠ []

theorem Settled.good (hg : g.Valid) {s : State} (h : Settled g s) : Good g s where
  tiles := h.stacked.tiles
  regions := h.regions
  mapped := h.mapped
  committed := h.committed
  capacity := by rw [← h.mapped]; exact hg.capacity_card _

end Rola.Vmm
