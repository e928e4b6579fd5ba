import Rola.ArenaContents
import Rola.Candidates
import Rola.Scatter
import Mathlib.Algebra.Module.Pi
import Mathlib.Algebra.Module.Prod

/-!
# One decode step

The walk of `decode_step_kernel`, its two combines and the readout, on exact numbers: a leaf visited is
updated first and read after, and a batch-head's readout is the ratio of what its warps summed. The hi
plane of a page is read as the whole of it, and the decay factor of a leaf is any number.
-/

namespace Rola

variable {dv : ℕ}

/-- A leaf's value columns and its mass. -/
abbrev Row (dv : ℕ) := (Fin dv → ℚ) × ℚ

/-- The sixteen rows of a page. -/
abbrev StatePage (dv : ℕ) := ℕ → Row dv

/-- One batch-head's operands of one token: its staged amplitudes, gain and value, and the decay factor
of each leaf. -/
structure Token (dv : ℕ) where
  saR : ℕ → ℕ → ℚ
  saW : ℕ → ℕ → ℚ
  sw : ℚ
  vTok : Fin dv → ℚ
  keep : ℕ → ℚ

namespace Token

/-- `build_digit_mask` of both sides. -/
def masks (tok : Token dv) : Masks := ⟨fun l d => decide (tok.saR l d ≠ 0), fun l d => decide (tok.saW l d ≠ 0)⟩

/-- The value with the column of ones that carries the mass. -/
def deposit (tok : Token dv) : Row dv := (tok.vTok, 1)

end Token

namespace DecodeParams

variable (p : DecodeParams) (tok : Token dv) (slotOf : ℕ → Option ℕ) (nSplit : ℕ)

/-- A side's amplitude at a visit. -/
def amplitude (sa : ℕ → ℕ → ℚ) (d : ℕ → ℕ) : ℚ := ∏ l ∈ Finset.range p.D, sa l (d l)

/-- One visit. The page is resolved through the table and the claim row, an absent atom reads zero and is
not written, and a leaf is read as its update left it. -/
def visitLeaf (deposit : Bool) (st : (ℕ → StatePage dv) × Row dv) (v : Visit) : (ℕ → StatePage dv) × Row dv :=
  let prow := v.leaf &&& 15
  let keep := tok.keep v.leaf
  let wv := p.amplitude tok.saW v.digit * tok.sw
  match slotOf (v.leaf >>> atomShift) with
  | none => (st.1, if v.inR then st.2 + p.amplitude tok.saR v.digit • (0 : Row dv) else st.2)
  | some slot =>
    let sv := if v.inW && deposit then keep • st.1 slot prow + wv • tok.deposit else st.1 slot prow
    (if v.inW && deposit then Function.update st.1 slot (Function.update (st.1 slot) prow sv) else st.1,
      if v.inR then st.2 + p.amplitude tok.saR v.digit • sv else st.2)

/-- One warp: its visits in order, from an empty partial. -/
def walkWarp (deposit : Bool) (pages : ℕ → StatePage dv) (seg warp : ℕ) : Option ((ℕ → StatePage dv) × Row dv) :=
  (p.warpVisits tok.masks nSplit seg warp).map fun vs => vs.foldl (p.visitLeaf tok slotOf deposit) (pages, 0)

/-- One CTA: its warps, and their partials summed in warp order. -/
def walkCta (deposit : Bool) (pages : ℕ → StatePage dv) (seg : ℕ) : Option ((ℕ → StatePage dv) × Row dv) :=
  ((List.range decodeWarps).foldlM (fun (st : (ℕ → StatePage dv) × List (Row dv)) warp =>
    (p.walkWarp tok slotOf nSplit deposit st.1 seg warp).map fun r => (r.1, st.2 ++ [r.2])) (pages, [])).map fun st =>
      (st.1, st.2.foldl (· + ·) 0)

/-- `n_live`. -/
def nLive (m : Masks) : ℕ :=
  let want := (p.umax m + unitBlockWarps - 1) / unitBlockWarps
  if want < 1 then 1 else if nSplit < want then nSplit else want

/-- A batch-head's launch: the pages it leaves, and its readout. `ws` is what the workspace held. -/
def walkHead (eps : ℚ) (deposit : Bool) (ws : ℕ → Row dv) (pages : ℕ → StatePage dv) :
    Option ((ℕ → StatePage dv) × (Fin dv → ℚ)) :=
  if p.Published tok.masks then
    ((List.range nSplit).foldlM (fun (st : (ℕ → StatePage dv) × (ℕ → Row dv)) seg =>
      if intCeiling ≤ seg * unitBlockWarps then none
      else if p.retired tok.masks seg then some st
      else (p.walkCta tok slotOf nSplit deposit st.1 seg).map fun r => (r.1, Function.update st.2 seg r.2))
      (pages, ws)).map fun st =>
        let part := if 1 < p.nLive nSplit tok.masks then
            (List.range (p.nLive nSplit tok.masks)).foldl (fun acc sl => acc + st.2 sl) 0
          else st.2 0
        (st.1, fun col => part.1 col / (part.2 + eps))
  else none

end DecodeParams

/-! ### The two backings -/

/-- A dense plane is the same page sequence with every page resident. -/
def denseSlot (atomsPerBh bh atom : ℕ) : Option ℕ := some (bh * atomsPerBh + atom)

namespace DecodeParams

variable (p : DecodeParams) (nSplit : ℕ) (eps : ℚ) (ws : ℕ → ℕ → Row dv)

/-- A step over a dense plane. `y` is what the readout's storage held. -/
def denseStep (BH : ℕ) (toks : ℕ → Token dv) (plane : ℕ → StatePage dv) (y : ℕ → Fin dv → ℚ) :
    Option ((ℕ → StatePage dv) × (ℕ → Fin dv → ℚ)) :=
  (List.range BH).foldlM (fun st bh =>
    (p.walkHead (toks bh) (denseSlot (p.N / 16) bh) nSplit eps true (ws bh) st.1).map fun r =>
      (r.1, Function.update st.2 bh r.2)) (plane, y)

/-- A step's arena call: the candidates are its tokens'. -/
structure StepCall (c : ArenaConfig) (dv : ℕ) extends DecodeCall c (StatePage dv) where
  toks : ℕ → Token dv
  cand_eq : ∀ bh < c.BH, cand bh = p.candidates (toks bh).masks

variable {p} {c : ArenaConfig}

/-- A step over an arena: a needy batch-head walks nothing, a done one deposits nothing, and the table is
the one the last arrivers leave. -/
def pagedStep (call : p.StepCall c dv) (s : PageArena (StatePage dv)) (y : ℕ → Fin dv → ℚ) :
    Option (PageArena (StatePage dv) × (ℕ → Fin dv → ℚ)) :=
  ((List.range c.BH).foldlM (fun st bh =>
    if s.needy call.toDecodeCall bh then some st
    else (p.walkHead (call.toks bh) (s.foldRow call.toDecodeCall bh) nSplit eps (!call.done bh) (ws bh) st.1).map fun r =>
      (r.1, Function.update st.2 bh r.2)) (s.valueBase, y)).map fun st =>
    ({ s.decodeStep call.toDecodeCall with valueBase := st.1 }, st.2)

end DecodeParams

/-! ### The oracle -/

/-- `_leaf_product`: the product of the levels' factors at a canonical leaf's digits. -/
def leafProduct (D : ℕ) (widths : ℕ → ℕ) (levels : ℕ → ℕ → ℚ) (leaf : ℕ) : ℚ :=
  ∏ l ∈ Finset.range D, levels l (MixedRadix.digit widths D leaf l)

/-- One token of `naive_rola`: the state it leaves and its readout. -/
def naiveRola (D : ℕ) (widths : ℕ → ℕ) (tok : Token dv) (keep : ℕ → ℚ) (eps : ℚ) (state : ℕ → Row dv) :
    (ℕ → Row dv) × (Fin dv → ℚ) :=
  let next := fun leaf => keep leaf • state leaf + (tok.sw * leafProduct D widths tok.saW leaf) • tok.deposit
  let out := ∑ leaf ∈ Finset.range (MixedRadix.size widths D), leafProduct D widths tok.saR leaf • next leaf
  (next, fun col => out.1 col / (out.2 + eps))

/-- `permutation`: a canonical leaf's lattice index. -/
def Box.permutation (D : ℕ) (widths : ℕ → ℕ) (b : Box) (leaf : ℕ) : ℕ :=
  (∑ l ∈ Finset.range D, MixedRadix.digit widths D leaf l / b.s l * MixedRadix.weight b.g D l) * b.bc +
    ∑ l ∈ Finset.range D, MixedRadix.digit widths D leaf l % b.s l * MixedRadix.weight b.s D l

end Rola
