import Rola.Burst
import Rola.ByteMemory
import Rola.FoldOnce
import Rola.Warp

/-!
# A fragment of the fold

`csrc/rola/src/carry/carry_kernel.cuh`: `frag_load` gathers sixteen ring entries' operands off a pool slot,
`frag_mma` issues a fragment's products with the next fragment's gather in pieces between them, and a chunk's
fragments run as two bursts. The products of halves are `hmul`, `val` a half's value; a slot is memory by
halves, a ring its entries.
-/

namespace Rola

open Warp

/-- The arm `frag_mma` is laid out for. -/
structure FragPlan extends FoldPlan where
  dealt_eq : dealt = 2
  vChunks_ge : 8 ≤ vChunks

namespace FragPlan

variable (P : FragPlan)

/-- `kNT`, `kVRowBytes` and `kPoolRows`. -/
def kNT : ℕ := P.vChunks

def vRowBytes : ℕ := P.vChunks * 16

def poolRows : ℕ := P.poolTok + 1

def row32Off (row chunk : ℕ) : ℕ := row * 32 + (chunk ^^^ ((row >>> 2) &&& 1)) * 16

def chanRowOff (row chunk : ℕ) : ℕ :=
  let groups := if P.vChunks < 8 then P.vChunks else 8
  let shift := if P.vChunks < 8 then if P.vChunks = 4 then 1 else 0 else 0
  let swz := ((row >>> shift) ^^^ (row >>> (shift + 4))) &&& (groups - 1)
  row * P.vRowBytes + (chunk ^^^ swz) * 16

def poolVOff (row chunk : ℕ) : ℕ := P.chanRowOff row chunk

def poolInnerOff (row chunk : ℕ) : ℕ := P.poolRows * P.vRowBytes + row32Off row chunk

def poolOuterOff (row chunk : ℕ) : ℕ := P.poolRows * P.vRowBytes + P.poolRows * 32 + row32Off row chunk

/-- Where a part of a pool row lies in the slot. -/
def partOff (row : ℕ) : PoolPart → ℕ
  | .v c => P.poolVOff row c
  | .inner h => P.poolInnerOff row h
  | .outer h => P.poolOuterOff row h

end FragPlan

/-- `mul_bf16x2`. -/
def mulPair (hmul : BitVec 16 → BitVec 16 → BitVec 16) (x y : BitVec 32) : BitVec 32 :=
  hmul (half 1 x) (half 1 y) ++ hmul (half 0 x) (half 0 y)

/-- `burst::after`. -/
def after (x y : BitVec 32) : BitVec 32 := ByteMemory.bytePerm x y 0x3210

/-- `dealt_box`. -/
def dealtBox (warp bi warps : ℕ) : ℕ := warp + bi * warps

def runLaneRow (lane : ℕ) : ℕ := (lane &&& 7) + 8 * (lane >>> 4)

def vLaneRow (lane : ℕ) : ℕ := (lane &&& 7) + 8 * ((lane >>> 3) &&& 1)

/-- `FragOperands`: a box's scaled A registers, and the V tiles'. -/
structure FragOperands where
  ab : ℕ → ℕ → Reg
  v : ℕ → Reg

/-- A warp's accumulators, a box's n-tiles and its mass. -/
structure FoldState (K : Type) where
  c : ℕ → ℕ → ℕ → ℕ → K
  m : ℕ → ℕ → ℕ → K

section Fragment

variable (P : FragPlan) (hmul : BitVec 16 → BitVec 16 → BitVec 16) (mem : ℕ → BitVec 16) (slot : ℕ) (ring : ℕ → BitVec 32) (warp : ℕ)

/-- `rows`: a fragment's entries. -/
def fragRow (n e : ℕ) : BitVec 32 := ring (n * 16 + e)

def rrow (n : ℕ) : ℕ → ℕ := fun lane => FoldTables.entryRow (fragRow ring n (runLaneRow lane))

def vrow (n : ℕ) : ℕ → ℕ := fun lane => FoldTables.entryRow (fragRow ring n (vLaneRow lane))

/-- `e`: the gain words of a lane's tokens. -/
def gainWord (n h i : ℕ) : Reg := fun lane => fragRow ring n (2 * (lane &&& 3) + 8 * h + i)

def loadInner (row : ℕ → ℕ) : ℕ → Reg :=
  ldmatrixTrans mem fun lane => slot + P.poolInnerOff (row lane) ((lane >>> 3) &&& 1)

def loadOuter (row : ℕ → ℕ) : ℕ → Reg :=
  ldmatrixTrans mem fun lane => slot + P.poolOuterOff (row lane) ((lane >>> 3) &&& 1)

def loadV (row : ℕ → ℕ) (x : ℕ) : Reg :=
  ldmatrixTrans mem (fun lane => slot + P.poolVOff (row lane) (2 * (x / 4) + (lane >>> 4))) (x % 4)

/-- `src`: the lane a box's pair is shuffled from. -/
def srcLane (b lane : ℕ) : ℕ := ((b &&& 7) <<< 2) ||| (lane &&& 3)

/-- `frag_load`. -/
def fragLoad (n : ℕ) (f : FragOperands) : FragOperands :=
  let a := loadInner P mem slot (rrow ring n)
  let sp := loadOuter P mem slot (rrow ring n)
  let gp (h : ℕ) : Reg := fun lane => ByteMemory.bytePerm (gainWord ring n h 0 lane) (gainWord ring n h 1 lane) 0x7632
  let sp (e : ℕ) : Reg := fun lane => mulPair hmul (sp e lane) (gp (if e < 2 then 0 else 1) lane)
  { ab := fun bi => if bi < P.dealt then
        let b := dealtBox warp bi P.warps
        let s0 := shfl (sp (if b < 8 then 0 else 1)) (srcLane b)
        let s1 := shfl (sp (if b < 8 then 2 else 3)) (srcLane b)
        fun e lane => mulPair hmul (a e lane) ((if e < 2 then s0 else s1) lane)
      else f.ab bi
    v := fun x => if x < 2 * P.kNT then loadV P mem slot (vrow ring n) x else f.v x }

/-! ### The burst -/

variable {K : Type} [Semiring K] (val : BitVec 16 → K) (bits : K → BitVec 32)

/-- The registers of a burst: the fragment's, the next one's, the shuffled pairs, and the accumulators. -/
structure Gathering (K : Type) where
  f : FragOperands
  next : FragOperands
  s : ℕ → ℕ → Reg
  st : FoldState K

namespace Gathering

/-- `res`: the word of an accumulator. -/
def res (x : Gathering K) (bi j : ℕ) : Reg := fun lane => bits (x.st.c bi j lane 0)

/-- The operand loads: A into the first box's registers, the outer pairs into the second's, V. -/
def loads (n : ℕ) (x : Gathering K) : Gathering K :=
  let rr := fun lane => (after (BitVec.ofNat 32 (rrow ring n lane)) (x.res bits 0 0 lane)).toNat
  { x with next :=
    { ab := Function.update (Function.update x.next.ab 0 (loadInner P mem slot rr)) 1 (loadOuter P mem slot rr)
      v := fun y => if y < 2 * P.kNT then loadV P mem slot (vrow ring n) y else x.next.v y } }

/-- The outer pairs scaled by the gains. -/
def gains (n : ℕ) (x : Gathering K) : Gathering K :=
  let gp0 : Reg := fun lane => after (ByteMemory.bytePerm (gainWord ring n 0 0 lane) (gainWord ring n 0 1 lane) 0x7632) (x.res bits 0 2 lane)
  let gp1 : Reg := fun lane => ByteMemory.bytePerm (gainWord ring n 1 0 lane) (gainWord ring n 1 1 lane) 0x7632
  let scaled (e : ℕ) : Reg := fun lane => mulPair hmul (x.next.ab 1 e lane) ((if e < 2 then gp0 else gp1) lane)
  { x with next := { x.next with ab := Function.update x.next.ab 1 scaled } }

/-- The pairs to the lanes of each dealt box, by a mask for the upper boxes. -/
def shuffles (x : Gathering K) : Gathering K :=
  let sp0 : Reg := fun lane => after (x.next.ab 1 0 lane) (x.res bits 0 4 lane)
  { x with s := fun b2 h =>
      let b := dealtBox warp b2 P.warps
      let hi : BitVec 32 := 0#32 - (if 8 ≤ b then 1#32 else 0#32)
      let p0 : Reg := fun lane => sp0 lane ^^^ ((sp0 lane ^^^ x.next.ab 1 1 lane) &&& hi)
      let p1 : Reg := fun lane => x.next.ab 1 2 lane ^^^ ((x.next.ab 1 2 lane ^^^ x.next.ab 1 3 lane) &&& hi)
      if h = 0 then shfl p0 (srcLane b) else shfl p1 (srcLane b) }

/-- An operand register hooked after another. -/
def hook (j : ℕ) (y : Gathering K → Reg) (x : Gathering K) : Gathering K :=
  { x with f := { x.f with v := Function.update x.f.v (2 * j) fun lane => after (x.f.v (2 * j) lane) (y x lane) } }

/-- The products: the second box's over the outer pairs, then the first's over A. -/
def products (x : Gathering K) : Gathering K :=
  let a0 : Reg := fun lane => after (x.next.ab 0 0 lane) (x.res bits 1 1 lane)
  let a (e : ℕ) : Reg := if e = 0 then a0 else x.next.ab 0 e
  let scaled (b2 e : ℕ) : Reg := fun lane => mulPair hmul (a e lane) (x.s b2 (if e < 2 then 0 else 1) lane)
  { x with next := { x.next with ab := Function.update (Function.update x.next.ab 1 (scaled 1)) 0 (scaled 0) } }

/-- The words the hooks wait on. -/
def loadsDone (x : Gathering K) : Reg := fun lane =>
  after ((List.range (P.kNT / 2)).foldl (fun w i => w ^^^ x.next.v (4 * i + 3) lane) (x.next.ab 0 3 lane)) (x.res bits 0 5 lane)

def shufflesDone (x : Gathering K) : Reg := fun lane =>
  after (x.s 0 0 lane ^^^ x.s 0 1 lane ^^^ x.s 1 0 lane ^^^ x.s 1 1 lane) (x.res bits 0 7 lane)

def productsDone (x : Gathering K) : Reg := fun lane =>
  after (x.next.ab 0 3 lane ^^^ x.next.ab 1 3 lane) (x.res bits 1 3 lane)

/-- The piece before product `k`, the `j`-th of its box. -/
def piece (n k j : ℕ) (x : Gathering K) : Gathering K :=
  if k = 2 then x.loads P mem slot ring bits n
  else if k = 4 then x.gains hmul ring bits n
  else if k = 6 then x.shuffles P warp bits
  else if k = 7 then x.hook j (loadsDone P bits)
  else if k = P.kNT + 1 then x.hook j (shufflesDone bits)
  else if k = P.kNT + 3 then x.products hmul bits
  else if k = P.kNT + 6 then x.hook j (productsDone bits)
  else x

/-- The `j`-th product of a box. -/
def product (bi j : ℕ) (x : Gathering K) : Gathering K :=
  { x with st := { x.st with c := Function.update x.st.c bi (Function.update (x.st.c bi) j
      (mma val (x.st.c bi j) (x.f.ab bi) fun r => x.f.v (2 * j + r))) } }

/-- A box's mass: the ones column. -/
def mass (bi : ℕ) (x : Gathering K) : Gathering K :=
  let ones : Reg := fun lane => if lane >>> 2 = 0 then 0x3F803F80#32 else 0#32
  { x with st := { x.st with m := Function.update x.st.m bi (mma val (x.st.m bi) (x.f.ab bi) fun _ => ones) } }

/-- A box's products and its mass, the pieces between where there is a next fragment. -/
def box (next : Option ℕ) (bi : ℕ) (x : Gathering K) : Gathering K :=
  ((List.range P.kNT).foldl (fun x j =>
    (next.elim x fun n => x.piece P hmul mem slot ring warp bits n (bi * (P.kNT + 1) + j) j).product val bi j) x).mass val bi

end Gathering

/-- `frag_mma`: with a next fragment to gather, or without. -/
def fragMma (next : Option ℕ) (f g : FragOperands) (st : FoldState K) : Gathering K :=
  (List.range P.dealt).foldl (fun x bi => x.box P hmul mem slot ring warp val bits next bi) ⟨f, g, fun _ _ _ => 0#32, st⟩

/-- The steps of a chunk's bursts. -/
def fragSteps : Burst.Steps FragOperands (FoldState K) where
  gather n f st := (fragLoad P hmul mem slot ring warp n f, st)
  mma f g n st :=
    let x := fragMma P hmul mem slot ring warp val bits (some n) f g st
    (x.f, x.next, x.st)
  last f g st :=
    let x := fragMma P hmul mem slot ring warp val bits none f g st
    (x.f, x.next, x.st)

/-- A chunk's fragments: two bursts, a half each. -/
def foldChunk (nfrag : ℕ) (a b a' b' : FragOperands) (st : FoldState K) : FoldState K :=
  let steps := fragSteps P hmul mem slot ring warp val bits
  let mid := (nfrag + 1) / 2
  steps.run mid (nfrag - mid) a' b' (steps.run 0 mid a b st)

end Fragment

end Rola
