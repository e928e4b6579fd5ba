import Rola.PhasedBarrier
import Rola.PoolCursor
import Rola.ReadOrder

/-!
# The readout stream

`window_loop`, `head` and `ReadoutStream` as the warps run them: a window's tiles are dealt by a shared
counter, a tile taken a tile ahead and staged in one of the warp's two ring slots, the first of a window
under the last window's fold. The read order, its tile masks and the counter are kept by the window's
parity. A warp sees the others only at a rendezvous.
-/

namespace Rola

open PhasedBarrier

/-- The windows of a call, each with its read side. -/
structure ReadRun where
  plan : ReadPlan
  windows : ℕ
  words : ℕ → ReadWords

namespace ReadRun

variable (R : ReadRun)

def live (win : ℕ) : ℕ := (R.words win).live R.plan

/-- `tiles`. -/
def tiles (win : ℕ) : ℕ := (R.live win + kTile - 1) / kTile

/-- The tokens a warp's round groups scatter. -/
def share (v : ℕ) : List ℕ :=
  (List.range (rounds / R.plan.warps)).flatMap fun g =>
    (List.range 32).map fun lane => (g * R.plan.warps + v) * 32 + lane

/-- The tiles whose masks a warp's passes or. -/
def tileShare (v : ℕ) : List ℕ :=
  (List.range (kTiles / (2 * R.plan.warps))).flatMap fun pass =>
    (List.range 2).map fun half => pass * 2 * R.plan.warps + v * 2 + half

/-- A tile's tokens in an order, the ranks below the live count. -/
def tileTokens (win : ℕ) (order : ℕ → BitVec 16) (k : ℕ) : List ℕ :=
  ((List.range kTile).filter fun i => k * kTile + i < R.live win).map fun i => (order (k * kTile + i)).toNat

end ReadRun

inductive ReadPc where
  /-- The counter reset and the head of window `head`, then its readout primed. -/
  | reset
  | counts
  | scans
  | scatter
  | order
  | tiles
  | prime
  /-- `win < nWindows`, and the window's edge. -/
  | top
  | edge
  | begin
  /-- `while (!rs.done)`. -/
  | loop
  | step
  | take
  | wait
  | endEdge
  | finished
deriving DecidableEq

/-- A warp's registers: `window` is the stream's, `passed` counts the rendezvous behind it. -/
structure Reader where
  pc : ReadPc
  head : ℕ
  win : ℕ
  window : ℕ
  k : ℕ
  knext : ℕ
  n : ℕ
  done : Bool
  uses : BitVec 32
  passed : ℕ
deriving DecidableEq

/-- What a warp sees: the counters, its ring's barriers by parity, and whether the others have come. -/
structure ReadSeen where
  counter : ℕ → ℕ
  full : ℕ → ℕ → Bool
  met : Bool

inductive ReadEffect where
  | quiet
  | reset (parity : ℕ)
  | scatter (win : ℕ)
  | tiles (win : ℕ)
  /-- A tile of `win` taken, and issued into ring slot `r` if there is one. -/
  | take (win r : ℕ)
  /-- Tile `k` of `win` read out of ring slot `r`. -/
  | read (win k r : ℕ)
deriving DecidableEq

namespace Reader

def start : Reader :=
  { pc := .reset, head := 0, win := 0, window := 0, k := 0, knext := 0, n := 0, done := true, uses := 0
    passed := 0 }

/-- `full_now`, and what `wait_full` waits for. -/
def fullNow (x : Reader) (v : ReadSeen) (r : ℕ) : Bool := v.full r (byteOf x.uses (8 * r) % 2)

/-- `prime`, its tile taken; window 0's head comes before the loop, a later one's in the window before. -/
def prime (R : ReadRun) (x : Reader) (k : ℕ) : Reader :=
  { x with pc := if x.head = x.win then .top else .endEdge, window := x.head, k := k, done := R.tiles x.head ≤ k }

/-- A warp's next action, or `none` where it waits. -/
def next (R : ReadRun) (v : ReadSeen) (x : Reader) : Option (Reader × ReadEffect) :=
  match x.pc with
  | .reset => some ({ x with pc := .counts }, .reset (x.head % 2))
  | .counts => if v.met then some ({ x with pc := .scans, passed := x.passed + 1 }, .quiet) else none
  | .scans => if v.met then some ({ x with pc := .scatter, passed := x.passed + 1 }, .quiet) else none
  | .scatter => some ({ x with pc := .order }, .scatter x.head)
  | .order => if v.met then some ({ x with pc := .tiles, passed := x.passed + 1 }, .quiet) else none
  | .tiles => some ({ x with pc := .prime }, .tiles x.head)
  | .prime => some (x.prime R (v.counter (x.head % 2)), .take x.head (x.n % 2))
  | .top => some ({ x with pc := if x.win < R.windows then .edge else .finished }, .quiet)
  | .edge => if v.met then some ({ x with pc := .begin, passed := x.passed + 1 }, .quiet) else none
  | .begin =>
    if x.done then some ({ x with pc := .loop }, .quiet)
    else some ({ x with pc := .loop, knext := v.counter (x.window % 2) }, .take x.window ((x.n + 1) % 2))
  | .loop =>
    if x.done then
      if x.win + 1 < R.windows then some ({ x with pc := .reset, head := x.win + 1 }, .quiet)
      else some ({ x with pc := .endEdge }, .quiet)
    else some ({ x with pc := .step }, .quiet)
  | .step =>
    if x.fullNow v (x.n % 2) then
      some ({ x with
        pc := if R.tiles x.window ≤ x.knext then .loop else .take
        uses := bumpByte x.uses (8 * (x.n % 2)) false
        n := x.n + 1
        k := x.knext
        done := R.tiles x.window ≤ x.knext }, .read x.window x.k (x.n % 2))
    else some ({ x with pc := .wait }, .quiet)
  | .take =>
    -- into the slot the tile just read has left
    some ({ x with pc := .loop, knext := v.counter (x.window % 2) }, .take x.window ((x.n + 1) % 2))
  | .wait => if x.fullNow v (x.n % 2) then some ({ x with pc := .loop }, .quiet) else none
  | .endEdge =>
    if v.met then some ({ x with pc := .top, win := x.win + 1, passed := x.passed + 1 }, .quiet) else none
  | .finished => none

/-- At a rendezvous. -/
def waiting (x : Reader) : Bool :=
  match x.pc with
  | .counts | .scans | .order | .edge | .endEdge => true
  | _ => false

/-- The rendezvous a warp has come to. -/
def arrived (x : Reader) : ℕ := x.passed + if x.waiting then 1 else 0

end Reader

/-! ### The warps together -/

/-- The rows a slot's copies come from: a window's tokens. -/
structure TileCopy where
  win : ℕ
  tokens : List ℕ
deriving DecidableEq

/-- A warp's ring slot; its taker is the warp that fills it, so its uses empty it. -/
abbrev RingSlot := Slot Unit (Fin 32) TileCopy

/-- A tile read out: by whom, with which mask, to which tokens, and what its lanes had staged. -/
structure TileRead (W : ℕ) where
  warp : Fin W
  tile : ℕ
  mask : BitVec 16
  tokens : List ℕ
  staged : Fin 32 → Option TileCopy

/-- The warps and what they share; `deals` and `reads` remember a window's takes and its tiles read. -/
structure Readers (W : ℕ) where
  warp : Fin W → Reader
  ring : Fin W → ℕ → RingSlot
  counter : ℕ → ℕ
  order : ℕ → ℕ → BitVec 16
  masks : ℕ → BitVec 16
  tilemask : ℕ → ℕ → BitVec 16
  deals : ℕ → List (Fin W × ℕ)
  reads : ℕ → List (TileRead W)

namespace Readers

/-- Before the first head, over whatever the shared memory holds. -/
def start {W : ℕ} (counter : ℕ → ℕ) (order tilemask : ℕ → ℕ → BitVec 16) (masks : ℕ → BitVec 16) : Readers W :=
  { warp := fun _ => .start, ring := fun _ _ => .fresh _ _ _, counter := counter, order := order, masks := masks
    tilemask := tilemask, deals := fun _ => [], reads := fun _ => [] }

variable {R : ReadRun}

/-- The warps of a run. -/
abbrev Of (R : ReadRun) := Readers R.plan.warps

def seen (σ : Of R) (w : Fin R.plan.warps) : ReadSeen :=
  { counter := σ.counter
    full := fun r parity => (σ.ring w r).full.test parity
    met := ∀ w', (σ.warp w).passed < (σ.warp w').arrived }

/-- A warp's scatter of window `win`. -/
def scatterOrder (R : ReadRun) (win : ℕ) (tokens : List ℕ) (order : ℕ → BitVec 16) : ℕ → BitVec 16 :=
  tokens.foldl (fun order t => Function.update order ((R.words win).rank R.plan t) (BitVec.ofNat 16 t)) order

def scatterMasks (R : ReadRun) (win : ℕ) (tokens : List ℕ) (masks : ℕ → BitVec 16) : ℕ → BitVec 16 :=
  tokens.foldl (fun masks t => Function.update masks ((R.words win).rank R.plan t)
    (((R.words win).mask R.plan (t / 32) (t % 32)).setWidth 16)) masks

/-- A warp's tile masks, off the shared masks. -/
def orTiles (R : ReadRun) (tiles : List ℕ) (masks : ℕ → BitVec 16) (tilemask : ℕ → BitVec 16) : ℕ → BitVec 16 :=
  tiles.foldl (fun tilemask tile => Function.update tilemask tile
    (ReadWords.orTile R.plan masks (tile / (2 * R.plan.warps)) (tile % (2 * R.plan.warps) / 2) (tile % 2)))
    tilemask

/-- `ReadoutStream::take`, and `readout_issue` of the tile taken. -/
def takeTile (σ : Of R) (w : Fin R.plan.warps) (win r : ℕ) : Of R :=
  let k := σ.counter (win % 2)
  { σ with
    counter := Function.update σ.counter (win % 2) (k + 1)
    deals := Function.update σ.deals win (σ.deals win ++ [(w, k)])
    ring := if k < R.tiles win then
      Function.update σ.ring w (Function.update (σ.ring w) r
        ((σ.ring w r).issue () ⟨win, R.tileTokens win (σ.order (win % 2)) k⟩))
    else σ.ring }

/-- `readout_tile`, the slot's copies used. -/
def readTile (σ : Of R) (w : Fin R.plan.warps) (win k r : ℕ) : Of R :=
  { σ with
    ring := Function.update σ.ring w (Function.update (σ.ring w) r ((σ.ring w r).release ()))
    reads := Function.update σ.reads win (σ.reads win ++
      [⟨w, k, σ.tilemask (win % 2) k, R.tileTokens win (σ.order (win % 2)) k, (σ.ring w r).cell ()⟩]) }

def effect (σ : Of R) (w : Fin R.plan.warps) : ReadEffect → Of R
  | .quiet => σ
  | .reset parity => if w.val = 0 then { σ with counter := Function.update σ.counter parity 0 } else σ
  | .scatter win =>
    { σ with
      order := Function.update σ.order (win % 2) (scatterOrder R win (R.share w) (σ.order (win % 2)))
      masks := scatterMasks R win (R.share w) σ.masks }
  | .tiles win =>
    { σ with
      tilemask := Function.update σ.tilemask (win % 2)
        (orTiles R (R.tileShare w) σ.masks (σ.tilemask (win % 2))) }
  | .take win r => σ.takeTile w win r
  | .read win k r => σ.readTile w win k r

def perform (σ : Of R) (w : Fin R.plan.warps) (x : Reader) (e : ReadEffect) : Of R :=
  { σ.effect w e with warp := Function.update σ.warp w x }

/-- A lane of `w` has copies in flight into ring slot `r`. -/
def InFlight (σ : Of R) (w : Fin R.plan.warps) (lane : Fin 32) (r : ℕ) : Prop :=
  (σ.ring w r).landed () lane < ((σ.ring w r).filled ()).length

/-- Warp `w` moves: its next action, or the landing of copies it issued. -/
inductive Step (σ : Of R) (w : Fin R.plan.warps) : Of R → Prop
  | act {x : Reader} {e : ReadEffect} (h : (σ.warp w).next R (σ.seen w) = some (x, e)) :
      Step σ w (σ.perform w x e)
  | land {lane : Fin 32} {r : ℕ} (hr : r < 2) (h : σ.InFlight w lane r) :
      Step σ w { σ with
        ring := Function.update σ.ring w (Function.update (σ.ring w) r ((σ.ring w r).land () lane)) }

/-- Any warp moves next. -/
inductive Reachable : Of R → Prop
  | start (counter : ℕ → ℕ) (order tilemask : ℕ → ℕ → BitVec 16) (masks : ℕ → BitVec 16) :
      Reachable (start counter order tilemask masks)
  | step {σ σ' : Of R} {w : Fin R.plan.warps} (h : Reachable σ) (hstep : Step σ w σ') : Reachable σ'

end Readers

end Rola
