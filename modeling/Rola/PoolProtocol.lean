import Rola.PhasedBarrier
import Rola.PoolCursor

/-!
# The pool's fills and takes

`window_loop` and `FoldStream`: the warps share two slots. A warp fills its part of a window's first
chunks, meets the others in the next window's head, then takes the chunks in turn and refills the
slots it finds empty. It sees a barrier through the parity of its own counts and the other warps only
at a rendezvous. Its copies land when they will, lane by lane.
-/

namespace Rola

open PhasedBarrier

/-- A window's chunks, and the rendezvous between its first fills and its fold. -/
structure PoolRun where
  windows : ℕ
  chunks : ℕ → ℕ
  heads : ℕ → ℕ

inductive PoolPc where
  /-- `win < nWindows`. -/
  | top
  | edge
  /-- The constructor at slot `k`, and its fill. -/
  | ctor (k : ℕ)
  | ctorFill (k : ℕ)
  | head (j : ℕ)
  | headWait (j : ℕ)
  /-- `while (!fs.done)`. -/
  | loop
  /-- `step`: the fill poll, its fill, the take. -/
  | poll
  | fill
  | take
  /-- The chunk's first fragments, the second poll and its fill, the others and the release. -/
  | burst
  | latePoll
  | lateFill
  | release
  /-- `wait`. -/
  | wait
  | waitEmpty
  | waitFill
  | waitFull
  | endEdge
  | finished
deriving DecidableEq

/-- A warp's registers; `passed` counts the rendezvous behind it. -/
structure PoolWarp where
  pc : PoolPc
  win : ℕ
  c : ℕ
  s : ℕ
  fillC : Option ℕ
  takenSlot : Bool
  done : Bool
  uses : BitVec 32
  passed : ℕ
deriving DecidableEq

/-- What a warp can ask: a slot's barriers by parity, and whether the others have come. -/
structure PoolSeen where
  empty : ℕ → ℕ → Bool
  full : ℕ → ℕ → Bool
  met : Bool

inductive PoolEffect where
  | quiet
  | fill (s chunk : ℕ)
  | release (s : ℕ)
deriving DecidableEq

namespace PoolWarp

def start : PoolWarp :=
  { pc := .top, win := 0, c := 0, s := 0, fillC := none, takenSlot := false, done := false, uses := 0
    passed := 0 }

/-- `slot_empty`, and what `wait_empty` waits for. -/
def slotEmpty (r : PoolWarp) (v : PoolSeen) (s : ℕ) : Bool :=
  fillsOf r.uses s = 0 ∨ v.empty s ((fillsOf r.uses s - 1) % 2)

/-- `slot_full`, and what `wait_full` waits for. -/
def slotFull (r : PoolWarp) (v : PoolSeen) (s : ℕ) : Bool := v.full s (takesOf r.uses s % 2)

/-- `fill_now`. -/
def fillNow (P : PoolRun) (r : PoolWarp) (after : PoolPc) : Option (PoolWarp × PoolEffect) :=
  r.fillC.map fun k =>
    ({ r with
        uses := cursorFilled r.uses (k % kPoolSlots)
        fillC := if k + 1 < P.chunks r.win then some (k + 1) else none
        pc := after }, .fill (k % kPoolSlots) k)

/-- `fill_c >= 0 && slot_empty(..)`. -/
def owesEmpty (r : PoolWarp) (v : PoolSeen) : Bool :=
  match r.fillC with
  | some k => r.slotEmpty v (k % kPoolSlots)
  | none => false

/-- A warp's next action, or `none` where it waits. -/
def next (P : PoolRun) (v : PoolSeen) (r : PoolWarp) : Option (PoolWarp × PoolEffect) :=
  let n := P.chunks r.win
  match r.pc with
  | .top => some ({ r with pc := if r.win < P.windows then .edge else .finished }, .quiet)
  | .edge =>
    if v.met then
      some ({ r with
        pc := .ctor 0, c := 0, s := 0, fillC := none, takenSlot := false, done := false
        passed := r.passed + 1 }, .quiet)
    else none
  | .ctor k =>
    if k < kPoolSlots ∧ k < n then
      if r.slotEmpty v k then some ({ r with pc := .ctorFill k }, .quiet) else none
    else
      some ({ r with
        pc := .head 0, fillC := if kPoolSlots < n then some kPoolSlots else none, done := n = 0 }, .quiet)
  | .ctorFill k => some ({ r with pc := .ctor (k + 1), uses := cursorFilled r.uses k }, .fill k k)
  | .head j => some ({ r with pc := if j < P.heads r.win then .headWait j else .loop }, .quiet)
  | .headWait j =>
    if v.met then some ({ r with pc := .head (j + 1), passed := r.passed + 1 }, .quiet) else none
  | .loop => some ({ r with pc := if r.done then .endEdge else .poll }, .quiet)
  | .poll => some ({ r with pc := if r.owesEmpty v then .fill else .take }, .quiet)
  | .fill => r.fillNow P .take
  | .take =>
    if n ≤ r.c then some ({ r with pc := .wait, done := r.fillC = none }, .quiet)
    else if r.takenSlot ∨ r.slotFull v r.s then some ({ r with pc := .burst, takenSlot := true }, .quiet)
    else some ({ r with pc := .wait }, .quiet)
  | .burst => some ({ r with pc := .latePoll }, .quiet)
  | .latePoll => some ({ r with pc := if r.owesEmpty v then .lateFill else .release }, .quiet)
  | .lateFill => r.fillNow P .release
  | .release =>
    some ({ r with
      pc := .loop, uses := cursorUsed r.uses r.s, c := r.c + 1, s := (r.c + 1) % kPoolSlots
      takenSlot := false, done := n ≤ r.c + 1 ∧ r.fillC = none }, .release r.s)
  | .wait =>
    some ({ r with
      pc := if r.fillC ≠ none ∧ (n ≤ r.c ∨ r.fillC = some r.c) then .waitEmpty
        else if r.c < n ∧ r.takenSlot = false then .waitFull else .loop }, .quiet)
  | .waitEmpty => if r.owesEmpty v then some ({ r with pc := .waitFill }, .quiet) else none
  | .waitFill => r.fillNow P .loop
  | .waitFull => if r.slotFull v r.s then some ({ r with pc := .loop }, .quiet) else none
  | .endEdge =>
    if v.met then some ({ r with pc := .top, win := r.win + 1, passed := r.passed + 1 }, .quiet) else none
  | .finished => none

/-- At a rendezvous. -/
def waiting (r : PoolWarp) : Bool :=
  match r.pc with
  | .edge | .headWait _ | .endEdge => true
  | _ => false

/-- The rendezvous a warp has come to. -/
def arrived (r : PoolWarp) : ℕ := r.passed + if r.waiting then 1 else 0

end PoolWarp

/-! ### The warps together -/

/-- A fill is named by its window and chunk. -/
abbrev PoolSlot (W : ℕ) := Slot (Fin W) (Fin 32) (ℕ × ℕ)

structure Pool (W : ℕ) where
  warp : Fin W → PoolWarp
  slot : ℕ → PoolSlot W

namespace Pool

variable {W : ℕ}

def start (W : ℕ) : Pool W := { warp := fun _ => .start, slot := fun _ => .fresh _ _ _ }

def seen (σ : Pool W) (w : Fin W) : PoolSeen :=
  { empty := fun s parity => (σ.slot s).empty.test parity
    full := fun s parity => (σ.slot s).full.test parity
    met := ∀ w', (σ.warp w).passed < (σ.warp w').arrived }

def perform (σ : Pool W) (w : Fin W) (r : PoolWarp) (e : PoolEffect) : Pool W :=
  { warp := Function.update σ.warp w r
    slot := match e with
      | .quiet => σ.slot
      | .fill s chunk => Function.update σ.slot s ((σ.slot s).issue w ((σ.warp w).win, chunk))
      | .release s => Function.update σ.slot s ((σ.slot s).release w) }

/-- A lane of `w` has copies in flight into slot `s`. -/
def InFlight (σ : Pool W) (w : Fin W) (lane : Fin 32) (s : ℕ) : Prop :=
  (σ.slot s).landed w lane < ((σ.slot s).filled w).length

/-- Warp `w` moves: its next action, or the landing of copies it issued. -/
inductive Step (P : PoolRun) (σ : Pool W) (w : Fin W) : Pool W → Prop
  | act {r : PoolWarp} {e : PoolEffect} (h : (σ.warp w).next P (σ.seen w) = some (r, e)) :
      Step P σ w (σ.perform w r e)
  | land {lane : Fin 32} {s : ℕ} (hs : s < kPoolSlots) (h : σ.InFlight w lane s) :
      Step P σ w { σ with slot := Function.update σ.slot s ((σ.slot s).land w lane) }

/-- Any warp moves next. -/
inductive Reachable (P : PoolRun) : Pool W → Prop
  | start : Reachable P (Pool.start W)
  | step {σ σ' : Pool W} {w : Fin W} (h : Reachable P σ) (hstep : Step P σ w σ') : Reachable P σ'

end Pool

end Rola
