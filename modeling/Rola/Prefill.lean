import Rola.CanonLeaf
import Rola.IntraExact
import Rola.Padding

/-!
# Prefill by windows

`rola/ops/prefill.py`: the carry kernel's CTAs (`window_loop` in
`csrc/rola/src/carry/carry_kernel.cuh`) each hold one owner box of leaves, read every window's tokens out
of the state as the window found it and then fold the window's writes into it; the intra kernel adds the
writes of a token's own window, on the same planes.
-/

namespace Rola.Prefill

open Finset Intra

variable {K : Type} [Field K] (arm : Arm) (p : IntraParams K) (g : CarryGeom)

/-! ### A CTA -/

/-- `len_of`. -/
def lenOf (win : ℕ) : ℕ := min arm.W (p.L - win * arm.W)

def nWindows : ℕ := (p.L + arm.W - 1) / arm.W

/-- A token's amplitudes at an owner's slot, one a level. -/
def slotWeight (side bh t owner loc : ℕ) : K := ∏ l ∈ range g.D, amplitude arm p side bh t l (geomDigit g owner loc l)

/-- A token's value columns, and the mass's one after them. -/
def column (bh t col : ℕ) : K := if col < kValueWidth then valueAt p bh t col else 1

/-- What a CTA has reduced, and its slots' state. -/
structure Cta (K : Type) where
  num : List (Intra.Add K)
  den : List (Intra.Add K)
  state : ℕ → ℕ → K

section Window

variable (bh owner win : ℕ)

/-- The window's tokens read out of the state, a slot a term. -/
def readNum (state : ℕ → ℕ → K) : List (Intra.Add K) :=
  (List.range (lenOf arm p win)).flatMap fun i => (List.range kValueWidth).map fun ch =>
    ⟨(bh * p.L + (win * arm.W + i)) * kValueWidth + ch,
      ∑ loc ∈ range g.bc, slotWeight arm p g 0 bh (win * arm.W + i) owner loc * state loc ch⟩

def readDen (state : ℕ → ℕ → K) : List (Intra.Add K) :=
  (List.range (lenOf arm p win)).map fun i =>
    ⟨bh * p.L + (win * arm.W + i),
      ∑ loc ∈ range g.bc, slotWeight arm p g 0 bh (win * arm.W + i) owner loc * state loc kValueWidth⟩

/-- A token's write folded into the slots. -/
def foldToken (t : ℕ) (state : ℕ → ℕ → K) : ℕ → ℕ → K := fun loc col =>
  state loc col + gainAt p bh t * slotWeight arm p g 1 bh t owner loc * column p bh t col

def foldSlots (state : ℕ → ℕ → K) : ℕ → ℕ → K :=
  (List.range (lenOf arm p win)).foldl (fun state i => foldToken arm p g bh owner (win * arm.W + i) state) state

/-- A window: the readout, then the fold. -/
def window (cta : Cta K) : Cta K :=
  ⟨cta.num ++ readNum arm p g bh owner win cta.state, cta.den ++ readDen arm p g bh owner win cta.state,
    foldSlots arm p g bh owner win cta.state⟩

end Window

/-- The CTA of a batch-head and an owner, over the state it was handed. -/
def cta (state : ℕ → Padding.State K) (bh owner : ℕ) : Cta K :=
  (List.range (nWindows arm p)).foldl (fun cta win => window arm p g bh owner win cta)
    ⟨[], [], fun loc col => state bh (geomCanonLeaf g owner loc) col⟩

/-! ### The call -/

def carryNum (state : ℕ → Padding.State K) (BH : ℕ) : List (Intra.Add K) :=
  (List.range BH).flatMap fun bh => (List.range g.owners).flatMap fun owner => (cta arm p g state bh owner).num

def carryDen (state : ℕ → Padding.State K) (BH : ℕ) : List (Intra.Add K) :=
  (List.range BH).flatMap fun bh => (List.range g.owners).flatMap fun owner => (cta arm p g state bh owner).den

/-- `prefill`: both kernels' reductions into planes of zeros. -/
def prefillNum (state : ℕ → Padding.State K) (devs : ℕ → ℕ → Device K) (BH : ℕ) : ℕ → K :=
  reduced (reduced (fun _ => 0) (carryNum arm p g state BH)) (launch arm p devs BH).1

def prefillDen (state : ℕ → Padding.State K) (devs : ℕ → ℕ → Device K) (BH : ℕ) : ℕ → K :=
  reduced (reduced (fun _ => 0) (carryDen arm p g state BH)) (launch arm p devs BH).2

/-! ### The recurrence -/

/-- A token's operands, as the packed planes hold them. -/
def operands (bh t : ℕ) : Padding.Operands K where
  read := (List.range arm.D).map fun l => (List.range arm.B).map (amplitude arm p 0 bh t l)
  write := (List.range arm.D).map fun l => (List.range arm.B).map (amplitude arm p 1 bh t l)
  gain := gainAt p bh t
  value := (List.range kValueWidth).map (valueAt p bh t)

/-- The state `naive_rola` leaves after the first `n` tokens, without decay. -/
def naiveState (state : ℕ → Padding.State K) (bh n : ℕ) : Padding.State K :=
  (List.range n).foldl (fun state t => Padding.update (fun x _ => x) none (List.replicate arm.D arm.B) (operands arm p bh t) state) (state bh)

/-- A column of its readout at a token. -/
def naiveReadout (state : ℕ → Padding.State K) (bh t col : ℕ) : K :=
  Padding.readout (List.replicate arm.D arm.B) (operands arm p bh t) (naiveState arm p state bh (t + 1)) col

end Rola.Prefill
