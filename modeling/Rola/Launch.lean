import Rola.Arrivals
import Rola.DecodeLattice
import Rola.DecodeWalk
import Rola.Machine

/-!
# A launch of the decode step, CTA by CTA

`decode_step_kernel`: the admission question each CTA of a batch-head asks, its claim, the walk of its
warps, the two combines, and the publication by the last arrivers. A batch-head's CTAs share its row of
the page table, of the shadow row and of the workspace; the launch's batch-heads share the storage and
the growth verdict. An event is one party's next action, and any party may act next.
-/

namespace Rola

/-- One leaf of a warp's walk: what its update makes of the row, and what its read adds. -/
structure LeafVisit (R P : Type) where
  leaf : ℕ
  inW : Bool
  upd : R → R
  read : P → R → P

/-- A launch, as one batch-head's CTAs are handed it. -/
structure HeadCall (R P O : Type) where
  nSplit : ℕ
  umax : ℕ
  paged : Bool
  denseBase : ℕ
  poolCap : ℕ
  poolSlots : ℕ → ℕ
  cand : List ℕ
  visits : ℕ → ℕ → List (LeafVisit R P)
  zero : P
  add : P → P → P
  out : P → O

/-- `done`, `claimed` and `needy`. -/
structure Ask where
  done : Bool
  claimed : Bool
  needy : Bool
deriving DecidableEq

structure Cta (R P : Type) where
  /-- `none` until the prologue has asked. -/
  ask : Option Ask
  /-- Claims the prologue has still to write. -/
  claims : List (ℕ × ℕ)
  todo : ℕ → List (LeafVisit R P)
  acc : ℕ → P
  /-- `fold` and `s_arrive`. -/
  fold : Board P
  /-- What the last warp summed. -/
  part : Option P

inductive HeadPc where
  | walking
  | elected (seg : ℕ)
  | read (seg : ℕ)
  | published
deriving DecidableEq

structure HeadState (R P O : Type) where
  table : ℕ → Option ℕ
  shadow : ℕ → Option ℕ
  cursor : ℕ
  done : Bool
  atomBits : ℕ → Bool
  /-- `ws` and `ctr`. -/
  ws : Board P
  y : O
  cta : ℕ → Cta R P
  pc : HeadPc

/-- The rows of the storage, by slot. -/
abbrev Storage (R : Type) := ℕ → ℕ → R

inductive HeadEvent where
  | start (seg : ℕ)
  | claim (seg : ℕ)
  | visit (seg warp : ℕ)
  | deposit (seg warp : ℕ)
  | arrive (seg warp : ℕ)
  | store (seg : ℕ)
  | bump (seg : ℕ)
  | alone (seg : ℕ)
  | readout
  | publish
deriving DecidableEq

/-- `ceil_div_int` in 32 bits. -/
def ceilDivInt (n d : ℕ) : ℤ := (int32 (n + d - 1)).tdiv d

variable {R P O : Type}

namespace HeadState

def setCta (h : HeadState R P O) (seg : ℕ) (k : Cta R P) : HeadState R P O :=
  { h with cta := Function.update h.cta seg k }

/-- The page table's fold: the shadow row fills what the table does not map. -/
def foldTable (h : HeadState R P O) (ask : Ask) (a : ℕ) : Option ℕ :=
  if ask.claimed then (h.table a).or (h.shadow a) else h.table a

def folded (h : HeadState R P O) (atoms : ℕ) : ℕ :=
  (List.range atoms).countP fun a => (h.shadow a).isSome && (h.table a).isNone

/-- A batch-head's publication, but for its verdict. -/
def publish (h : HeadState R P O) (ask : Ask) (atoms : ℕ) : HeadState R P O :=
  { h with
    table := fun a => if a < atoms then h.foldTable ask a else h.table a
    cursor := h.cursor + if ask.claimed then h.folded atoms else 0
    done := if ask.needy then h.done else true
    pc := .published }

end HeadState

namespace HeadCall

variable (C : HeadCall R P O)

/-- A CTA past the realized work exits before it asks anything. -/
@[irreducible] def retired (seg : ℕ) : Bool := decide (0 < seg ∧ (C.umax : ℤ) ≤ int32 (seg * unitBlockWarps))

/-- `n_live`. -/
@[irreducible] def nLive : ℕ :=
  let want := ceilDivInt C.umax unitBlockWarps
  if want < 1 then 1 else if (C.nSplit : ℤ) < want then C.nSplit else want.toNat

/-! ### The prologue -/

def wanted (h : HeadState R P O) : List ℕ := C.cand.filter fun a => (h.table a).isNone

def poolCursor (h : HeadState R P O) : ℕ := if 0 < C.poolCap then h.cursor else 0

/-- The admission question. -/
def askOf (h : HeadState R P O) : Ask :=
  let done := C.paged && h.done
  let demand := (C.wanted h).length
  let claimed := (C.paged && !done) && (decide (0 < demand) && decide (C.poolCursor h + demand ≤ C.poolCap))
  ⟨done, claimed, (C.paged && !done) && (decide (0 < demand) && !claimed)⟩

/-- The claim: the wanted atoms, each with the pool slot of its rank. -/
def claimsOf (h : HeadState R P O) : List (ℕ × ℕ) :=
  if (C.askOf h).claimed then (C.wanted h).zipIdx.map fun x => (x.1, C.poolSlots (C.poolCursor h + x.2)) else []

/-! ### The walk -/

/-- An atom's slot: the table's, or the claim's where this batch-head claimed. -/
def slotOf (h : HeadState R P O) (ask : Ask) (atom : ℕ) : Option ℕ :=
  if C.paged then (h.table atom).or (if ask.claimed then h.shadow atom else none) else some (C.denseBase + atom)

/-- One visit: the storage it leaves, and the row it reads. -/
def visitLeaf [Zero R] (h : HeadState R P O) (ask : Ask) (mem : Storage R) (v : LeafVisit R P) : Storage R × R :=
  match C.slotOf h ask (v.leaf / 16) with
  | none => (mem, 0)
  | some slot =>
    if v.inW && !ask.done then
      (Function.update mem slot (Function.update (mem slot) (v.leaf % 16) (v.upd (mem slot (v.leaf % 16)))),
        v.upd (mem slot (v.leaf % 16)))
    else (mem, mem slot (v.leaf % 16))

/-- The warps' partials, summed in warp order. -/
def warpSum (part : ℕ → P) : P := (List.range decodeWarps).foldl (fun acc warp => C.add acc (part warp)) C.zero

/-- The live segments' parts, summed in segment order. -/
def segSum (part : ℕ → P) : P := (List.range C.nLive).foldl (fun acc seg => C.add acc (part seg)) C.zero

/-! ### The events of a batch-head -/

/-- The CTA a prologue leaves. -/
def asked (h : HeadState R P O) (seg : ℕ) : Cta R P :=
  { h.cta seg with
    ask := some (C.askOf h)
    claims := C.claimsOf h
    todo := if (C.askOf h).needy then fun _ => [] else C.visits seg
    acc := fun _ => C.zero }

def start (h : HeadState R P O) (seg : ℕ) : HeadState R P O :=
  { h.setCta seg (C.asked h seg) with
    atomBits := if C.paged && seg == 0 then fun a => decide (a ∈ C.cand) else h.atomBits }

/-- The readout's part: over the live segments, or the CTA's own. -/
def readPart (h : HeadState R P O) (part : P) : P := if 1 < C.nLive then C.segSum h.ws.slot else part

def readout (h : HeadState R P O) (seg : ℕ) (ask : Ask) (part : P) : HeadState R P O :=
  { h with
    y := if ask.needy then h.y else C.out (C.readPart h part)
    ws := { h.ws with count := if 1 < C.nLive then 0 else h.ws.count }
    pc := .read seg }

@[simp] theorem readout_table (h : HeadState R P O) (seg : ℕ) (ask : Ask) (part : P) :
    (C.readout h seg ask part).table = h.table := by
  unfold readout
  rfl

@[simp] theorem readout_cursor (h : HeadState R P O) (seg : ℕ) (ask : Ask) (part : P) :
    (C.readout h seg ask part).cursor = h.cursor := by
  unfold readout
  rfl

@[simp] theorem readout_done (h : HeadState R P O) (seg : ℕ) (ask : Ask) (part : P) :
    (C.readout h seg ask part).done = h.done := by
  unfold readout
  rfl

@[simp] theorem readout_shadow (h : HeadState R P O) (seg : ℕ) (ask : Ask) (part : P) :
    (C.readout h seg ask part).shadow = h.shadow := by
  unfold readout
  rfl

@[simp] theorem readout_atomBits (h : HeadState R P O) (seg : ℕ) (ask : Ask) (part : P) :
    (C.readout h seg ask part).atomBits = h.atomBits := by
  unfold readout
  rfl

@[simp] theorem readout_cta (h : HeadState R P O) (seg : ℕ) (ask : Ask) (part : P) :
    (C.readout h seg ask part).cta = h.cta := by
  unfold readout
  rfl

@[simp] theorem readout_pc (h : HeadState R P O) (seg : ℕ) (ask : Ask) (part : P) :
    (C.readout h seg ask part).pc = .read seg := by
  unfold readout
  rfl

def step [Zero R] (atoms : ℕ) (h : HeadState R P O) (mem : Storage R) : HeadEvent → Option (HeadState R P O × Storage R)
  | .start seg =>
    if seg < C.nSplit ∧ C.retired seg = false ∧ (h.cta seg).ask = none then some (C.start h seg, mem) else none
  | .claim seg =>
    match (h.cta seg).claims with
    | [] => none
    | (a, slot) :: rest =>
      some ({ h.setCta seg { h.cta seg with claims := rest } with shadow := Function.update h.shadow a (some slot) }, mem)
  | .visit seg warp =>
    match (h.cta seg).ask, (h.cta seg).claims, (h.cta seg).todo warp with
    | some ask, [], v :: rest =>
      if warp < decodeWarps then
        let r := C.visitLeaf h ask mem v
        some (h.setCta seg { h.cta seg with
          todo := Function.update (h.cta seg).todo warp rest
          acc := Function.update (h.cta seg).acc warp (v.read ((h.cta seg).acc warp) r.2) }, r.1)
      else none
    | _, _, _ => none
  | .deposit seg warp =>
    match (h.cta seg).ask, (h.cta seg).claims, (h.cta seg).todo warp with
    | some _, [], [] =>
      if warp < decodeWarps ∧ (h.cta seg).fold.phase warp = .working then
        some (h.setCta seg { h.cta seg with fold := (h.cta seg).fold.store warp ((h.cta seg).acc warp) }, mem)
      else none
    | _, _, _ => none
  | .arrive seg warp =>
    if warp < decodeWarps ∧ (h.cta seg).fold.phase warp = .stored then
      some (h.setCta seg { h.cta seg with
        fold := (h.cta seg).fold.arrive warp
        part := if (h.cta seg).fold.count = decodeWarps - 1 then some (C.warpSum (h.cta seg).fold.slot)
          else (h.cta seg).part }, mem)
    else none
  | .store seg =>
    match (h.cta seg).ask, (h.cta seg).part with
    | some ask, some part =>
      if 1 < C.nLive ∧ h.ws.phase seg = .working then
        some ({ h with ws := if ask.needy then h.ws.skip seg else h.ws.store seg part }, mem)
      else none
    | _, _ => none
  | .bump seg =>
    if h.ws.phase seg = .stored then
      some ({ h with ws := h.ws.arrive seg, pc := if h.ws.count = C.nLive - 1 then .elected seg else h.pc }, mem)
    else none
  | .alone seg =>
    match (h.cta seg).part with
    | some _ =>
      if ¬1 < C.nLive ∧ h.ws.phase seg = .working then some ({ h with ws := h.ws.leave seg, pc := .elected seg }, mem)
      else none
    | none => none
  | .readout =>
    match h.pc with
    | .elected seg =>
      match (h.cta seg).ask, (h.cta seg).part with
      | some ask, some part => some (C.readout h seg ask part, mem)
      | _, _ => none
    | _ => none
  | .publish =>
    match h.pc with
    | .read seg =>
      match (h.cta seg).ask with
      | some ask => if C.paged then some (h.publish ask atoms, mem) else none
      | none => none
    | _ => none

end HeadCall

/-! ### The launch -/

inductive Closing where
  | open
  | last
  | closed
deriving DecidableEq

structure LaunchState (R P O : Type) where
  heads : ℕ → HeadState R P O
  mem : Storage R
  /-- `growth` and `growth_ctr`. -/
  growth : Board Bool
  growthAny : Bool
  closing : Closing

inductive LaunchEvent where
  | head (bh : ℕ) (e : HeadEvent)
  | report (bh : ℕ)
  | finish
deriving DecidableEq

/-- A launch over `BH` batch-heads of `atoms` atoms each. -/
structure Launch (R P O : Type) where
  BH : ℕ
  atoms : ℕ
  call : ℕ → HeadCall R P O

namespace Launch

variable (L : Launch R P O)

/-- The verdict of the CTA that published. -/
def verdict (h : HeadState R P O) : Bool :=
  match h.pc with
  | .read seg => ((h.cta seg).ask.map Ask.needy).getD false
  | _ => false

/-- The verdict a batch-head's publication leaves on the launch's board. -/
def growthAfter (s : LaunchState R P O) (bh : ℕ) : HeadEvent → Board Bool
  | .publish => s.growth.store bh (verdict (s.heads bh))
  | _ => s.growth

/-- `any_needy`. -/
def anyNeedy (s : LaunchState R P O) : Bool := (List.range L.BH).any s.growth.slot

def step [Zero R] (s : LaunchState R P O) : LaunchEvent → Option (LaunchState R P O)
  | .head bh e =>
    if bh < L.BH then
      ((L.call bh).step L.atoms (s.heads bh) s.mem e).map fun r =>
        { s with heads := Function.update s.heads bh r.1, mem := r.2, growth := growthAfter s bh e }
    else none
  | .report bh =>
    if bh < L.BH ∧ s.growth.phase bh = .stored then
      some { s with
        growth := s.growth.arrive bh
        closing := if s.growth.count = L.BH - 1 then .last else s.closing }
    else none
  | .finish =>
    if s.closing = .last then
      some { s with
        heads := fun bh => { s.heads bh with
          done := if bh < L.BH ∧ L.anyNeedy s = false then false else (s.heads bh).done }
        growth := { s.growth with count := 0 }
        growthAny := L.anyNeedy s
        closing := .closed }
    else none

/-- No party has anything left to do. -/
def Ended [Zero R] (s : LaunchState R P O) : Prop := ∀ e, L.step s e = none

end Launch

end Rola
