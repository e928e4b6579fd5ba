import Mathlib.Data.List.Range

/-!
# A pipelined loop

A counted loop over units, two operand sets alternating: each unit's operands are fetched under the use of
the unit before it. Where a step on a unit is its use and the fetch of the next, the loop is the plain one
that fetches each unit and uses it.
-/

namespace Burst

variable {Ops σ : Type*}

/-- Fetch a unit into a set; use a set, fetching a unit into the other; use the last set. -/
structure Steps (Ops σ : Type*) where
  gather : ℕ → Ops → σ → Ops × σ
  mma : Ops → Ops → ℕ → σ → Ops × Ops × σ
  last : Ops → Ops → σ → Ops × Ops × σ

namespace Steps

variable (steps : Steps Ops σ)

/-- The loop's pairs: the unit reached, the two sets and the state. -/
def pairs (finish i : ℕ) (a b : Ops) (s : σ) : ℕ × Ops × Ops × σ :=
  if i + 2 < finish then
    let r := steps.mma a b (i + 1) s
    let r' := steps.mma r.2.1 r.1 (i + 2) r.2.2
    pairs finish (i + 2) r'.2.1 r'.1 r'.2.2
  else (i, a, b, s)
termination_by finish - i

/-- The units `first .. first + count - 1`. -/
def run (first count : ℕ) (a b : Ops) (s : σ) : σ :=
  if count = 0 then s
  else
    let g := steps.gather first a s
    let p := steps.pairs (first + count) first g.1 b g.2
    if p.1 + 1 < first + count then
      let r := steps.mma p.2.1 p.2.2.1 (p.1 + 1) p.2.2.2
      (steps.last r.2.1 r.1 r.2.2).2.2
    else (steps.last p.2.1 p.2.2.1 p.2.2.2).2.2

/-- What the steps do: a set holds the unit gathered into it whatever it held, and the state is fetched into
and used. -/
structure Pipelined (holds : ℕ → Ops → Prop) (fetch use : ℕ → σ → σ) : Prop where
  gather : ∀ i x s, holds i (steps.gather i x s).1 ∧ (steps.gather i x s).2 = fetch i s
  mma : ∀ i x y j s, holds i x → holds j (steps.mma x y j s).2.1 ∧ (steps.mma x y j s).2.2 = fetch j (use i s)
  last : ∀ i x y s, holds i x → (steps.last x y s).2.2 = use i s

end Steps

/-- The plain loop. -/
def plain (fetch use : ℕ → σ → σ) (first count : ℕ) (s : σ) : σ :=
  (List.range' first count).foldl (fun s i => use i (fetch i s)) s

section Plain

variable {fetch use : ℕ → σ → σ}

theorem plain_add (first count more : ℕ) (s : σ) : plain fetch use first (count + more) s =
    plain fetch use (first + count) more (plain fetch use first count s) := by
  unfold plain
  rw [← List.range'_append_1, List.foldl_append]

theorem plain_succ (first count : ℕ) (s : σ) : plain fetch use first (count + 1) s =
    use (first + count) (fetch (first + count) (plain fetch use first count s)) := by
  rw [plain_add]
  rfl

theorem use_plain (fetch use : ℕ → σ → σ) {first i : ℕ} (hi : first ≤ i) (s : σ) :
    use i (fetch i (plain fetch use first (i - first) s)) = plain fetch use first (i + 1 - first) s := by
  rw [show i + 1 - first = i - first + 1 by omega, plain_succ, show first + (i - first) = i by omega]

end Plain

namespace Steps.Pipelined

variable {steps : Steps Ops σ} {holds : ℕ → Ops → Prop} {fetch use : ℕ → σ → σ}

/-- Past the pairs one set holds the unit reached, the last or the one before it, and all before are used. -/
theorem pairs (h : steps.Pipelined holds fetch use) {first count i : ℕ} (hi : first ≤ i) (hlt : i < first + count) {a : Ops}
    (ha : holds i a) (b : Ops) (s : σ) : ∃ j a' b', holds j a' ∧
      steps.pairs (first + count) i a b (fetch i (plain fetch use first (i - first) s)) =
        (j, a', b', fetch j (plain fetch use first (j - first) s)) ∧
      first ≤ j ∧ j < first + count ∧ first + count ≤ j + 2 := by
  induction hn : first + count - i using Nat.strong_induction_on generalizing i a b with
  | _ n ih =>
    rw [Steps.pairs]
    split
    · rename_i hmore
      obtain ⟨hnext, hstate⟩ := h.mma i a b (i + 1) (fetch i (plain fetch use first (i - first) s)) ha
      rw [use_plain fetch use hi] at hstate
      generalize steps.mma a b (i + 1) (fetch i (plain fetch use first (i - first) s)) = r at *
      obtain ⟨hthen, hstate'⟩ := h.mma (i + 1) r.2.1 r.1 (i + 2) r.2.2 hnext
      rw [hstate, use_plain fetch use (by omega)] at hstate'
      dsimp only
      rw [hstate] at hthen ⊢
      rw [hstate']
      exact ih _ (by omega) (by omega) (by omega) hthen _ rfl
    · exact ⟨i, a, b, ha, rfl, hi, hlt, by omega⟩

/-- The pipelined loop is the plain loop: each unit fetched and used once, in order. -/
theorem run_eq (h : steps.Pipelined holds fetch use) (first count : ℕ) (a b : Ops) (s : σ) :
    steps.run first count a b s = plain fetch use first count s := by
  unfold Steps.run
  split
  · rename_i hzero
    rw [hzero]
    rfl
  · have hstart : plain fetch use first (first - first) s = s := by
      rw [Nat.sub_self]
      rfl
    obtain ⟨hfirst, hgather⟩ := h.gather first a s
    obtain ⟨j, a', b', hholds, hpairs, hle, hlt, hend⟩ := @pairs _ _ _ _ _ _ h first count first le_rfl (by omega) _ hfirst b s
    rw [hstart] at hpairs
    dsimp only
    rw [hgather, hpairs]
    dsimp only
    split
    · obtain ⟨hnext, hstate⟩ := h.mma j a' b' (j + 1) (fetch j (plain fetch use first (j - first) s)) hholds
      rw [use_plain fetch use hle] at hstate
      rw [h.last (j + 1) _ _ _ hnext, hstate, use_plain fetch use (by omega)]
      exact congrArg (plain fetch use first · s) (by omega)
    · rw [h.last j _ _ _ hholds, use_plain fetch use hle]
      exact congrArg (plain fetch use first · s) (by omega)

end Steps.Pipelined

end Burst
