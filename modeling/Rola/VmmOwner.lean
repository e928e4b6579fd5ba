import Mathlib.Data.List.Basic
import Mathlib.Tactic.Linarith
import Rola.Seams

/-!
# The page arena's driver backing

`csrc/rola/src/paging/vmm_owner.cu`: one virtual reservation and a mapped prefix of it that `grow`
extends by a chunk and `rollback_to` cuts back, chunk by chunk. What the driver answers to each call
is an argument, and the state keeps the regions the driver holds mapped beside the owner's own list.
-/

namespace Rola.Vmm

def sizeMax : ℕ := 2 ^ 64 - 1

/-- A driver call's result: its error, or what it returns. -/
abbrev Answer := Except String

/-- `check`. -/
def check {α : Type} (answer : Answer α) (operation : String) : Except String α :=
  answer.mapError fun text => s!"CUDA VMM {operation} failed: {text}"

def roundUp (value alignment : ℕ) : Except String ℕ :=
  if alignment ≠ 0 ∧ value ≤ sizeMax - (alignment - 1) then
    .ok ((value + alignment - 1) / alignment * alignment)
  else .error "CUDA VMM size overflows size_t"

def checkedMul (lhs rhs : ℕ) (what : String) : Except String ℕ :=
  if rhs = 0 ∨ lhs ≤ sizeMax / rhs then .ok (lhs * rhs)
  else .error s!"CUDA VMM {what} overflows uint64"

def checkedSize (value : ℕ) (what : String) : Except String ℕ :=
  if value ≤ sizeMax then .ok value else .error s!"CUDA VMM {what} exceeds host size_t"

structure Chunk where
  address : ℕ
  bytes : ℕ
  handle : ℕ
deriving DecidableEq, Repr

/-- What the constructor and the reservation fix. -/
structure Geometry where
  address : ℕ
  denseLimitPages : ℕ
  pageBytes : ℕ
  granularity : ℕ
  chunkPages : ℕ
  virtualBytes : ℕ
deriving DecidableEq, Repr

/-- The owner's list and counters, and the regions the driver holds mapped. -/
structure State where
  chunks : List Chunk
  mappedBytes : ℕ
  committedBytes : ℕ
  regions : List (ℕ × ℕ)
deriving DecidableEq, Repr

def Chunk.region (c : Chunk) : ℕ × ℕ := (c.address, c.bytes)

namespace Geometry

variable (g : Geometry)

/-- `mapped_capacity_pages`. -/
def capacity (mappedBytes : ℕ) : ℕ :=
  let pages := if g.pageBytes = 0 then 0 else mappedBytes / g.pageBytes
  min pages g.denseLimitPages

/-! ### `grow` -/

/-- What the driver answers while a chunk is mapped. -/
structure GrowAnswers where
  create : Answer ℕ
  map : Answer Unit
  access : Answer Unit
  unmap : Answer Unit

/-- The mapped extent `grow` works towards, or none where it returns at once. -/
def growth (s : State) (requiredPages : ℤ) : Except String (Option ℕ) := do
  if requiredPages < 0 ∨ (g.denseLimitPages : ℤ) < requiredPages then
    .error "CUDA VMM required page count exceeds the reserved maximum"
  else if requiredPages ≤ g.capacity s.mappedBytes then .ok none
  else
    let maxChunks := (g.denseLimitPages + g.chunkPages - 1) / g.chunkPages
    let requiredChunks := (requiredPages.toNat + g.chunkPages - 1) / g.chunkPages
    let targetChunks :=
      if g.capacity s.mappedBytes = 0 ∨ maxChunks ≤ requiredChunks then requiredChunks
      else requiredChunks + 1
    let targetPages := min g.denseLimitPages (targetChunks * g.chunkPages)
    let extent ← checkedMul targetPages g.pageBytes "growth extent"
    let targetBytes ← roundUp (← checkedSize extent "growth extent") g.granularity
    if targetBytes ≤ s.mappedBytes then .ok none
    else if g.virtualBytes < targetBytes then
      .error "CUDA VMM growth exceeds reserved virtual extent"
    else .ok (some targetBytes)

/-- `cuMemUnmap`: on success the region is no longer mapped. -/
def unmapRegion (regions : List (ℕ × ℕ)) (region : ℕ × ℕ) : Answer Unit → List (ℕ × ℕ)
  | .ok () => regions.erase region
  | .error _ => regions

/-- The chunk's driver calls, in order; a failure after the mapping unmaps it, whatever the driver
answers, and rethrows. -/
def mapChunk (s : State) (targetBytes : ℕ) (d : GrowAnswers) : Except String Unit × State :=
  let bytes := targetBytes - s.mappedBytes
  let address := g.address + s.mappedBytes
  match check d.create "cuMemCreate" with
  | .error e => (.error e, s)
  | .ok handle =>
    if sizeMax - g.address < s.mappedBytes then
      (.error "CUDA VMM mapped address overflows CUdeviceptr", s)
    else
      match check d.map "cuMemMap" with
      | .error e => (.error e, s)
      | .ok () =>
        let held := s.regions ++ [(address, bytes)]
        match check d.access "cuMemSetAccess" with
        | .error e => (.error e, { s with regions := unmapRegion held (address, bytes) d.unmap })
        | .ok () =>
          (.ok (), ⟨s.chunks ++ [⟨address, bytes, handle⟩], targetBytes, targetBytes, held⟩)

def grow (requiredPages : ℤ) (d : GrowAnswers) (s : State) : Except String Unit × State :=
  match g.growth s requiredPages with
  | .error e => (.error e, s)
  | .ok none => (.ok (), s)
  | .ok (some targetBytes) => g.mapChunk s targetBytes d

/-! ### `rollback_to` -/

/-- What the driver answers to a rollback: the device's synchronisation, and each removal's calls. -/
structure RollbackAnswers where
  synchronize : Answer Unit
  unmap : ℕ → Answer Unit
  release : ℕ → Answer Unit

def removeLatestChunk (unmap release : Answer Unit) (s : State) : Except String Unit × State :=
  match s.chunks.getLast? with
  | none => (.error "CUDA VMM rollback has no committed growth chunk", s)
  | some chunk =>
    if chunk.address + chunk.bytes ≠ g.address + s.mappedBytes then
      (.error "CUDA VMM rollback chunk does not end at the mapped extent", s)
    else
      match check unmap "rollback cuMemUnmap" with
      | .error e => (.error e, s)
      | .ok () =>
        let unmapped := { s with regions := s.regions.erase chunk.region }
        match check release "rollback cuMemRelease" with
        | .error e => (.error e, unmapped)
        | .ok () =>
          (.ok (), { unmapped with
            chunks := s.chunks.dropLast
            mappedBytes := s.mappedBytes - chunk.bytes })

/-- Whether a chunk ends at `target`, as the loop over the list accumulates it. -/
def findBoundary (target : ℕ) : List Chunk → ℕ → Bool → Except String Bool
  | [], _, found => .ok found
  | chunk :: chunks, boundary, found =>
    if sizeMax - chunk.bytes < boundary then .error "CUDA VMM rollback boundary overflows size_t"
    else findBoundary target chunks (boundary + chunk.bytes)
      (found || boundary + chunk.bytes == target)

/-- `rollback_to` up to its removals: the extent to cut back to, or none where it returns at once. -/
def rollbackTarget (s : State) (targetPages : ℤ) (synchronize : Answer Unit) :
    Except String (Option ℕ) := do
  if targetPages < 0 ∨ (g.capacity s.mappedBytes : ℤ) < targetPages then
    .error "CUDA VMM rollback capacity is outside the mapped extent"
  else if !synchronize.isOk then .error "CUDA VMM rollback could not quiesce the device"
  else if targetPages = g.capacity s.mappedBytes then .ok none
  else
    let extent ← checkedMul targetPages.toNat g.pageBytes "rollback extent"
    let target ← roundUp (← checkedSize extent "rollback extent") g.granularity
    if s.mappedBytes < target then .error "CUDA VMM rollback target exceeds mapped extent"
    else if g.pageBytes = 0 ∨ (min (target / g.pageBytes) g.denseLimitPages : ℕ) ≠ targetPages then
      .error (s!"CUDA VMM rollback target is not a committed chunk boundary: {targetPages} pages " ++
        s!"rounds up to a mapping of {target / g.pageBytes} pages")
    else
      let found ← findBoundary target s.chunks 0 (target == 0)
      if !found then .error "CUDA VMM rollback target is not a committed chunk boundary"
      else
        match s.chunks.head? with
        | none => .error "CUDA VMM rollback cannot remove the initial headroom chunk"
        | some first =>
          if target < first.bytes then
            .error "CUDA VMM rollback cannot remove the initial headroom chunk"
          else .ok (some target)

/-- `while (mapped_bytes_ > target) remove_latest_chunk()`: every turn that goes on drops a chunk, and
one that finds none throws, so the chunks bound the turns. -/
def removeDown (target : ℕ) (d : RollbackAnswers) : ℕ → ℕ → State → Except String Unit × State
  | 0, removed, s =>
    if target < s.mappedBytes then g.removeLatestChunk (d.unmap removed) (d.release removed) s
    else (.ok (), s)
  | turns + 1, removed, s =>
    if target < s.mappedBytes then
      match g.removeLatestChunk (d.unmap removed) (d.release removed) s with
      | (.error e, s') => (.error e, s')
      | (.ok (), s') => removeDown target d turns (removed + 1) s'
    else (.ok (), s)

def rollbackTo (targetPages : ℤ) (d : RollbackAnswers) (s : State) : Except String Unit × State :=
  match g.rollbackTarget s targetPages d.synchronize with
  | .error e => (.error e, s)
  | .ok none => (.ok (), s)
  | .ok (some target) =>
    match g.removeDown target d s.chunks.length 0 s with
    | (.error e, s') => (.error e, s')
    | (.ok (), s') =>
      if s'.mappedBytes ≠ target then
        (.error "CUDA VMM rollback did not restore the plane exactly", s')
      else if (g.capacity s'.mappedBytes : ℤ) ≠ targetPages then
        (.error "CUDA VMM rollback did not restore the requested prior capacity", s')
      else (.ok (), { s' with committedBytes := s'.mappedBytes })

end Geometry

/-! ### `create` -/

open Geometry in
/-- The constructor, the reservation and the initial chunk, on a device whose probe answered
`granularity`. -/
def create (denseLimitPages pageRows pageCols targetChunkBytes : ℤ) (granularity : ℕ)
    (reserve : Answer ℕ) (d : GrowAnswers) : Except String (Geometry × State) := do
  require (0 < denseLimitPages ∧ 0 < pageRows ∧ 0 < pageCols)
    "CUDA VMM page geometry must be positive"
  require (granularity ≠ 0) ("the RoLA page arena's VMM backing requires CUDA virtual memory " ++
    "management; driver returned zero allocation granularity")
  require (0 < targetChunkBytes) "CUDA VMM target_chunk_bytes must be positive"
  let elements ← checkedMul pageRows.toNat pageCols.toNat "page element count"
  let bytes ← checkedMul elements 4 "page byte count"
  let pageBytes ← checkedSize bytes "page byte count"
  let payload ← checkedMul pageBytes denseLimitPages.toNat "virtual extent"
  let virtualBytes ← roundUp (← checkedSize payload "virtual extent") granularity
  let address ← check reserve "cuMemAddressReserve"
  let g : Geometry :=
    { address, denseLimitPages := denseLimitPages.toNat, pageBytes, granularity
      chunkPages := min denseLimitPages.toNat (max 1 (targetChunkBytes.toNat / bytes))
      virtualBytes }
  match g.grow (min g.denseLimitPages g.chunkPages : ℕ) d ⟨[], 0, 0, []⟩ with
  | (.error e, _) => .error e
  | (.ok (), s) => .ok (g, s)

end Rola.Vmm
