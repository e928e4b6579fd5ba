import Rola.PoolSafety
import Mathlib.Tactic.Push

/-!
# The pool is never stuck

Warps that can do nothing have passed the same rendezvous, with every copy landed. Of those the warp
least far through its chunks finds its slot emptied by all, or filled by all.
-/

namespace Rola

open PhasedBarrier

namespace PoolWarp

variable {P : PoolRun} {r : PoolWarp} {v : PoolSeen}

/-- Where a warp waits: a rendezvous, or one of three barrier tests. -/
theorem next_none (hat : r.At P) (hn : r.next P v = none) :
    r.pc = .finished ∨ r.waiting = true ∧ v.met = false ∨
    (∃ k, r.pc = .ctor k ∧ k < kPoolSlots ∧ r.slotEmpty v k = false) ∨
    r.pc = .waitEmpty ∧ r.slotEmpty v (r.c % kPoolSlots) = false ∨
    r.pc = .waitFull ∧ r.slotFull v r.s = false := by
  have hfill : ∀ after, r.fillNow P after = none → r.fillC ≠ none → False := by
    intro after hnone hne
    rw [fillNow, Option.map_eq_none_iff] at hnone
    exact hne hnone
  cases hpc : r.pc <;> simp only [next, hpc] at hn <;> simp only [At, hpc] at hat
  case finished => exact .inl rfl
  case fill => exact (hfill _ hn hat.2.2.2).elim
  case lateFill => exact (hfill _ hn hat.2.2.2).elim
  case waitFill => exact (hfill _ hn (by simp [hat.2.2.2])).elim
  case edge => exact .inr (.inl ⟨by simp [waiting, hpc], by simpa using hn⟩)
  case headWait => exact .inr (.inl ⟨by simp [waiting, hpc], by simpa using hn⟩)
  case endEdge => exact .inr (.inl ⟨by simp [waiting, hpc], by simpa using hn⟩)
  case ctor k =>
    split at hn
    · rename_i hk
      exact .inr (.inr (.inl ⟨k, rfl, hk.1, by simpa using hn⟩))
    · cases hn
  case waitEmpty =>
    refine .inr (.inr (.inr (.inl ⟨rfl, ?_⟩)))
    simpa [owesEmpty, hat.2.2.2] using hn
  case waitFull => exact .inr (.inr (.inr (.inr ⟨rfl, by simpa using hn⟩)))
  case take =>
    split at hn
    · cases hn
    · split at hn <;> cases hn
  all_goals cases hn

theorem interval_lt (hat : r.At P) : r.interval P < 2 + P.heads r.win := by
  unfold interval
  cases hpc : r.pc <;> simp only [At, hpc] at hat <;> dsimp only
  case head => omega
  case headWait => omega
  all_goals omega

variable {filled filled' : ℕ → List (ℕ × ℕ)} {released released' E E' F F' : ℕ → ℕ} {r' : PoolWarp}

namespace Ok

variable (h : r.Ok P filled released E F)
include h

theorem passed_lt : r.passed < P.edges (r.win + 1) := by
  rw [h.passed, PoolRun.edges_succ, Nat.add_assoc]
  have hlt := interval_lt h.at_
  omega

theorem arrived_le : r.arrived ≤ P.edges P.windows := by
  have hat := h.at_
  have hpassed := h.passed
  have hlt := h.passed_lt
  cases hpc : r.pc <;> simp only [At, hpc] at hat
  case top =>
    simp only [arrived, waiting, hpc, hpassed, interval]
    exact PoolRun.edges_le hat.2
  case finished =>
    simp only [arrived, waiting, hpc, hpassed, interval]
    exact PoolRun.edges_le hat.2.le
  case edge =>
    have hnext := PoolRun.edges_succ_le (P := P) hat.2
    have harr : r.arrived = r.passed + 1 := by simp [arrived, waiting, hpc]
    omega
  all_goals
    have hnext := PoolRun.edges_succ_le (P := P) hat.1
    have harr : r.arrived ≤ r.passed + 1 := by
      unfold arrived
      split <;> omega
    omega

theorem arrived_of_finished (hpc : r.pc = .finished) : r.arrived = P.edges P.windows := by
  have hat := h.at_
  simp only [At, hpc] at hat
  simp [arrived, waiting, hpc, h.passed, interval, hat.2]

/-- Warps past the same rendezvous are in one window. -/
theorem win_eq (h' : r'.Ok P filled' released' E' F') (heq : r.passed = r'.passed) : r.win = r'.win := by
  have hle : ∀ {q q' : PoolWarp}, q.passed < P.edges (q.win + 1) → P.edges q'.win ≤ q'.passed →
      q.passed = q'.passed → ¬ q.win < q'.win := by
    intro q q' hlt hge heq hwin
    have := PoolRun.edges_succ_le (P := P) hwin
    omega
  have hge : P.edges r.win ≤ r.passed := by
    rw [h.passed]
    exact Nat.le_add_right _ _
  have hge' : P.edges r'.win ≤ r'.passed := by
    rw [h'.passed]
    exact Nat.le_add_right _ _
  have h1 := hle h.passed_lt hge' heq
  have h2 := hle h'.passed_lt hge heq.symm
  omega

end Ok

end PoolWarp

theorem PoolRun.into_ctor {P : PoolRun} {win k : ℕ} (hk : k < kPoolSlots) : P.into k win k = P.into k win 0 := by
  unfold kPoolSlots at hk
  interval_cases k
  · rfl
  · simp [PoolRun.into, chunksTo, kPoolSlots]

namespace Pool

variable {W : ℕ} {P : PoolRun} {σ : Pool W} {w w' : Fin W}

namespace Inv

variable (h : σ.Inv P)
include h

/-- A slot every warp has released is empty for its next fill. -/
theorem released_lt {s : ℕ} (hs : s < kPoolSlots) (hfull : (σ.warp w).slotEmpty (σ.seen w) s = false) :
    ∃ w', (σ.slot s).released w' < ((σ.slot s).filled w).length := by
  by_contra hall
  push Not at hall
  have hE := (h.slot s hs).empty.le_phase hall
  rw [(h.slotEmpty_iff w hs).2 hE] at hfull
  cases hfull

/-- A window's first fills never wait. -/
theorem ctor_moves {k : ℕ} (hwin : ∀ w', (σ.warp w').win = (σ.warp w).win)
    (hpc : (σ.warp w).pc = .ctor k) (hk : k < kPoolSlots) :
    (σ.warp w).slotEmpty (σ.seen w) k = true := by
  by_contra hnot
  rw [Bool.not_eq_true] at hnot
  obtain ⟨w', hlt⟩ := h.released_lt hk hnot
  have hfilled := (h.warp w).filled_eq k hk
  have hreleased := (h.warp w').released_eq k hk
  simp only [PoolWarp.filledTo, hpc, PoolRun.into_ctor hk] at hfilled
  rw [hwin w'] at hreleased
  have hlen := @PoolRun.into_length_le P k (σ.warp w).win _ _ (Nat.zero_le (σ.warp w').takenTo)
  rw [hfilled, hreleased] at hlt
  omega

/-- A warp waiting to refill is ahead of some warp. -/
theorem ahead_of_waitEmpty {win : ℕ} (hwin : ∀ w', (σ.warp w').win = win)
    (htaken : ∀ w', (σ.warp w').takenTo = (σ.warp w').c) (hpc : (σ.warp w).pc = .waitEmpty)
    (hno : (σ.warp w).slotEmpty (σ.seen w) ((σ.warp w).c % kPoolSlots) = false) :
    ∃ w', (σ.warp w').c < (σ.warp w).c := by
  have hs : (σ.warp w).c % kPoolSlots < kPoolSlots := Nat.mod_lt _ (by decide)
  obtain ⟨w', hlt⟩ := h.released_lt hs hno
  have hat := (h.warp w).at_
  simp only [PoolWarp.At, hpc] at hat
  have hfilled := (h.warp w).filled_eq _ hs
  have hreleased := (h.warp w').released_eq _ hs
  simp only [PoolWarp.filledTo, hpc, hat.2.2.2, Option.getD_some, hwin w] at hfilled
  rw [htaken w', hwin w'] at hreleased
  refine ⟨w', ?_⟩
  by_contra hle
  have hlen := @PoolRun.into_length_le P ((σ.warp w).c % kPoolSlots) win _ _ (not_lt.1 hle)
  rw [hfilled, hreleased] at hlt
  omega

end Inv

/-- No warp can move. -/
structure Stuck (P : PoolRun) (σ : Pool W) : Prop where
  next : ∀ w, (σ.warp w).next P (σ.seen w) = none
  landed : ∀ s < kPoolSlots, ∀ w lane, (σ.slot s).landed w lane = ((σ.slot s).filled w).length

theorem Inv.stuck (h : σ.Inv P) (hno : ¬ ∃ w σ', Step P σ w σ') : σ.Stuck P where
  next w := by
    by_contra hne
    obtain ⟨⟨r, e⟩, hn⟩ := Option.ne_none_iff_exists'.1 hne
    exact hno ⟨w, _, .act hn⟩
  landed s hs w lane := by
    by_contra hne
    exact hno ⟨w, _, .land hs (lt_of_le_of_ne ((h.slot s hs).landed_le w lane) hne)⟩

namespace Stuck

variable (hst : σ.Stuck P) (h : σ.Inv P)
include hst h

/-- A rendezvous all have come to is passed. -/
theorem not_waiting (hall : ∀ w', (σ.warp w).arrived ≤ (σ.warp w').arrived) :
    (σ.warp w).waiting = false := by
  by_contra hwait
  rw [Bool.not_eq_false] at hwait
  have hmet : (σ.seen w).met = true := by
    simp only [seen, decide_eq_true_eq]
    intro w'
    have := hall w'
    rw [PoolWarp.arrived, hwait, if_pos rfl] at this
    omega
  have hwaits := (PoolWarp.next_none (h.warp w).at_ (hst.next w))
  rcases hwaits with hpc | ⟨-, hnot⟩ | ⟨k, hpc, -⟩ | ⟨hpc, -⟩ | ⟨hpc, -⟩
  · simp [PoolWarp.waiting, hpc] at hwait
  · rw [hmet] at hnot
    cases hnot
  all_goals simp [PoolWarp.waiting, hpc] at hwait

/-- A slot every warp has filled is full for its next take. -/
theorem filled_le {s : ℕ} (hs : s < kPoolSlots) (hempty : (σ.warp w).slotFull (σ.seen w) s = false) :
    ∃ w', ((σ.slot s).filled w').length ≤ (σ.slot s).released w := by
  by_contra hall
  push Not at hall
  have hF := (h.slot s hs).full.le_phase (n := (σ.slot s).released w + 1) fun x => by
    rw [hst.landed s hs]
    exact hall x.1
  rw [(h.slotFull_iff w hs).2 hF] at hempty
  cases hempty

/-- The warps have passed the same rendezvous, and one of them is past none to come. -/
theorem same_passed (hw : (σ.warp w).pc ≠ .finished) : ∃ w₀, (σ.warp w₀).pc ≠ .finished ∧
    (σ.warp w₀).waiting = false ∧ ∀ w', (σ.warp w').passed = (σ.warp w₀).passed := by
  obtain ⟨w₀, hmem, hmin⟩ := Finset.exists_min_image
    (Finset.univ.filter fun w => (σ.warp w).pc ≠ .finished) (fun w => (σ.warp w).arrived)
    ⟨w, Finset.mem_filter.2 ⟨Finset.mem_univ w, hw⟩⟩
  have hpc := (Finset.mem_filter.1 hmem).2
  have hall : ∀ w', (σ.warp w₀).arrived ≤ (σ.warp w').arrived := by
    intro w'
    by_cases hfin : (σ.warp w').pc = .finished
    · rw [(h.warp w').arrived_of_finished hfin]
      exact (h.warp w₀).arrived_le
    · exact hmin w' (Finset.mem_filter.2 ⟨Finset.mem_univ w', hfin⟩)
  have hwait := hst.not_waiting h hall
  have harr : (σ.warp w₀).arrived = (σ.warp w₀).passed := by simp [PoolWarp.arrived, hwait]
  refine ⟨w₀, hpc, hwait, fun w' => ?_⟩
  have hle := h.met w' w₀
  have hge := hall w'
  by_contra hne
  -- a warp one short is at the rendezvous the others have passed
  have hlate : (σ.warp w').waiting = true := by
    by_contra hnot
    have harr' : (σ.warp w').arrived = (σ.warp w').passed := by simp [PoolWarp.arrived, hnot]
    omega
  have harr' : (σ.warp w').arrived = (σ.warp w').passed + 1 := by simp [PoolWarp.arrived, hlate]
  have hnot := hst.not_waiting h (w := w') fun w'' => by
    have := hall w''
    omega
  rw [hlate] at hnot
  cases hnot

/-- Where stuck warps are: in one window, at its fold's end or at one of the fold's waits. -/
theorem placed (hw : (σ.warp w).pc ≠ .finished) : ∃ win w₀, (σ.warp w₀).pc ≠ .endEdge ∧
    ∀ w', (σ.warp w').win = win ∧
      ((σ.warp w').pc = .endEdge ∨
        (σ.warp w').pc = .waitEmpty ∧
          (σ.warp w').slotEmpty (σ.seen w') ((σ.warp w').c % kPoolSlots) = false ∨
        (σ.warp w').pc = .waitFull ∧
          (σ.warp w').slotFull (σ.seen w') (σ.warp w').s = false) := by
  obtain ⟨w₀, hfin, hwait, hpassed⟩ := hst.same_passed h hw
  have hwin : ∀ w', (σ.warp w').win = (σ.warp w₀).win := fun w' =>
    (h.warp w').win_eq (h.warp w₀) (hpassed w')
  have hctor : ∀ w' k, (σ.warp w').pc = .ctor k → k < kPoolSlots →
      (σ.warp w').slotEmpty (σ.seen w') k = false → False := by
    intro w' k hpc hk hnot
    rw [h.ctor_moves (fun w'' => (hwin w'').trans (hwin w').symm) hpc hk] at hnot
    cases hnot
  have hpc₀ : ((σ.warp w₀).pc = .waitEmpty ∨ (σ.warp w₀).pc = .waitFull) := by
    rcases PoolWarp.next_none (h.warp w₀).at_ (hst.next w₀) with hpc | ⟨hnot, -⟩ | ⟨k, hpc, hk, hno⟩ |
        ⟨hpc, -⟩ | ⟨hpc, -⟩
    · exact absurd hpc hfin
    · rw [hwait] at hnot
      cases hnot
    · exact (hctor w₀ k hpc hk hno).elim
    · exact .inl hpc
    · exact .inr hpc
  have hint₀ : (σ.warp w₀).passed = P.edges (σ.warp w₀).win + (1 + P.heads (σ.warp w₀).win) ∧
      (σ.warp w₀).win < P.windows := by
    have hp := (h.warp w₀).passed
    have hat := (h.warp w₀).at_
    rcases hpc₀ with hpc | hpc <;> simp only [PoolWarp.interval, PoolWarp.At, hpc] at hp hat
    · exact ⟨hp, hat.1⟩
    · exact ⟨hp, hat.1⟩
  refine ⟨(σ.warp w₀).win, w₀, ?_, fun w' => ⟨hwin w', ?_⟩⟩
  · rcases hpc₀ with hpc | hpc <;> simp [hpc]
  have hp := (h.warp w').passed
  have hat := (h.warp w').at_
  rw [hpassed w', hwin w', hint₀.1] at hp
  rcases PoolWarp.next_none (h.warp w').at_ (hst.next w') with hpc | ⟨hnot, -⟩ | ⟨k, hpc, hk, hno⟩ |
      hpc | hpc
  · simp only [PoolWarp.At, hpc, hwin w'] at hat
    omega
  · -- of the rendezvous only the fold's end is this far into the window
    cases hpc : (σ.warp w').pc <;> simp only [PoolWarp.waiting, hpc] at hnot
    case endEdge => exact .inl rfl
    case edge =>
      simp only [PoolWarp.interval, hpc] at hp
      omega
    case headWait =>
      simp only [PoolWarp.interval, PoolWarp.At, hpc, hwin w'] at hp hat
      omega
    all_goals cases hnot
  · exact (hctor w' k hpc hk hno).elim
  · exact .inr (.inl hpc)
  · exact .inr (.inr hpc)

/-- A warp waiting to take has some warp's fill before it. -/
theorem filledTo_of_waitFull {win : ℕ} (hwin : ∀ w', (σ.warp w').win = win)
    (hpc : (σ.warp w).pc = .waitFull) (hno : (σ.warp w).slotFull (σ.seen w) (σ.warp w).s = false) :
    ∃ w', (σ.warp w').filledTo P ≤ (σ.warp w).c := by
  have hat := (h.warp w).at_
  simp only [PoolWarp.At, hpc] at hat
  obtain ⟨-, hstream, -⟩ := hat
  have hs : (σ.warp w).s < kPoolSlots := hstream.s_eq ▸ Nat.mod_lt _ (by decide)
  obtain ⟨w', hle⟩ := hst.filled_le h hs hno
  have hfilled := (h.warp w').filled_eq _ hs
  have hreleased := (h.warp w).released_eq _ hs
  simp only [PoolWarp.takenTo, hpc, hwin w] at hreleased
  rw [hwin w'] at hfilled
  refine ⟨w', ?_⟩
  by_contra hlt
  have hlen := @PoolRun.into_length_le P (σ.warp w).s win _ _ (Nat.succ_le_of_lt (not_le.1 hlt))
  rw [hstream.s_eq, Nat.succ_eq_add_one, PoolRun.into_length_succ, ← hstream.s_eq] at hlen
  rw [hfilled, hreleased] at hle
  omega

end Stuck

/-- While a warp is not finished, some warp can move. -/
theorem Inv.progress (h : σ.Inv P) (hw : (σ.warp w).pc ≠ .finished) : ∃ w' σ', Step P σ w' σ' := by
  by_contra hno
  have hst := h.stuck hno
  obtain ⟨win, w₀, hpc₀, hplaced⟩ := hst.placed h hw
  have hwin : ∀ w', (σ.warp w').win = win := fun w' => (hplaced w').1
  have htaken : ∀ w', (σ.warp w').takenTo = (σ.warp w').c := by
    intro w'
    rcases (hplaced w').2 with hpc | ⟨hpc, -⟩ | ⟨hpc, -⟩ <;> simp [PoolWarp.takenTo, hpc]
  have hbelow : ∀ w', (σ.warp w').pc ≠ .endEdge → (σ.warp w').c < P.chunks win := by
    intro w' hne
    have hat := (h.warp w').at_
    rcases (hplaced w').2 with hpc | ⟨hpc, -⟩ | ⟨hpc, -⟩
    · exact absurd hpc hne
    · simp only [PoolWarp.At, hpc, hwin w'] at hat
      obtain ⟨-, hstream, -, hfc⟩ := hat
      exact hwin w' ▸ (hstream.owes _ hfc).2
    · simp only [PoolWarp.At, hpc, hwin w'] at hat
      exact hat.2.2.2.1
  -- the warp least far through the window's chunks
  obtain ⟨z, -, hmin⟩ := Finset.exists_min_image Finset.univ (fun w => (σ.warp w).c)
    ⟨w, Finset.mem_univ w⟩
  have hle : ∀ w', (σ.warp z).c ≤ (σ.warp w').c := fun w' => hmin w' (Finset.mem_univ w')
  have hrefill : ∀ w', (σ.warp w').pc = .waitEmpty → (σ.warp z).c < (σ.warp w').c := by
    intro w' hpc
    have hno : (σ.warp w').slotEmpty (σ.seen w') ((σ.warp w').c % kPoolSlots) = false := by
      rcases (hplaced w').2 with hpc' | ⟨-, hno⟩ | ⟨hpc', -⟩
      · rw [hpc] at hpc'
        cases hpc'
      · exact hno
      · rw [hpc] at hpc'
        cases hpc'
    obtain ⟨w'', hlt⟩ := h.ahead_of_waitEmpty hwin htaken hpc hno
    exact (hle w'').trans_lt hlt
  rcases (hplaced z).2 with hpc | ⟨hpc, -⟩ | ⟨hpc, hnotfull⟩
  · have hat := (h.warp z).at_
    simp only [PoolWarp.At, hpc, hwin z] at hat
    have h1 := hbelow w₀ hpc₀
    have h2 := hle w₀
    omega
  · exact lt_irrefl _ (hrefill z hpc)
  · obtain ⟨w', hshort⟩ := hst.filledTo_of_waitFull h hwin hpc hnotfull
    have hz := hbelow z (by simp [hpc])
    have hat := (h.warp w').at_
    have hzle := hle w'
    rcases (hplaced w').2 with hpc' | ⟨hpc', -⟩ | ⟨hpc', -⟩
    · simp only [PoolWarp.At, hpc'] at hat
      simp only [PoolWarp.filledTo, hpc', hat.2.2.2.2, Option.getD_none, hwin w'] at hshort
      omega
    · simp only [PoolWarp.At, hpc'] at hat
      simp only [PoolWarp.filledTo, hpc', hat.2.2.2, Option.getD_some] at hshort
      have := hrefill w' hpc'
      omega
    · simp only [PoolWarp.At, hpc'] at hat
      obtain ⟨-, hstream, -, hlt, hne⟩ := hat
      simp only [PoolWarp.filledTo, hpc'] at hshort
      rcases hfc : (σ.warp w').fillC with _ | k
      · rw [hfc, Option.getD_none] at hshort
        omega
      · rw [hfc, Option.getD_some] at hshort
        have hk := (hstream.owes k hfc).1
        have hkne : k ≠ (σ.warp w').c := fun heq => hne (heq ▸ hfc)
        omega

/-! ### The protocol -/

/-- The pool in one state: what a holder sees, what no fill touches, what the parities say, and a move. -/
structure Safe (P : PoolRun) (σ : Pool W) : Prop where
  sees : ∀ w, (σ.warp w).takenSlot = true → ∀ w' lane,
    (σ.slot (σ.warp w).s).cell w' lane = some ((σ.warp w).win, (σ.warp w).c) ∧
      ((σ.slot (σ.warp w).s).filled w')[(σ.slot (σ.warp w).s).released w]? =
        some ((σ.warp w).win, (σ.warp w).c)
  untouched : ∀ w, (σ.warp w).takenSlot = true → ∀ w',
    (∀ lane, ¬ σ.InFlight w' lane (σ.warp w).s) ∧
      ∀ r s k, (σ.warp w').next P (σ.seen w') = some (r, .fill s k) → s ≠ (σ.warp w).s
  empty_test : ∀ w, ∀ s < kPoolSlots, (σ.warp w).slotEmpty (σ.seen w) s = true ↔
    ((σ.slot s).filled w).length ≤ (σ.slot s).empty.phase
  full_test : ∀ w, ∀ s < kPoolSlots, (σ.warp w).slotFull (σ.seen w) s = true ↔
    (σ.slot s).released w < (σ.slot s).full.phase
  live : (∃ w, (σ.warp w).pc ≠ .finished) → ∃ w σ', Step P σ w σ'

theorem Inv.holds (h : σ.Inv P) (ht : (σ.warp w).takenSlot = true) : (σ.warp w).s < kPoolSlots ∧
    (P.into (σ.warp w).s (σ.warp w).win ((σ.warp w).c + 1)) =
      P.into (σ.warp w).s (σ.warp w).win (σ.warp w).c ++ [((σ.warp w).win, (σ.warp w).c)] ∧
    (σ.slot (σ.warp w).s).released w = (P.into (σ.warp w).s (σ.warp w).win (σ.warp w).c).length ∧
    (σ.warp w).c < P.chunks (σ.warp w).win := by
  have hat := (h.warp w).at_
  have hreleased := (h.warp w).released_eq
  have hheld : (σ.warp w).Stream P ∧ (σ.warp w).c < P.chunks (σ.warp w).win ∧
      (σ.warp w).takenTo = (σ.warp w).c := by
    cases hpc : (σ.warp w).pc <;> simp only [PoolWarp.At, hpc, PoolWarp.Fresh, ht] at hat
    case burst => exact ⟨hat.2.1, hat.2.2.2.1, by simp [PoolWarp.takenTo, hpc]⟩
    case latePoll => exact ⟨hat.2.1, hat.2.2.2.1, by simp [PoolWarp.takenTo, hpc]⟩
    case release => exact ⟨hat.2.1, hat.2.2.2.1, by simp [PoolWarp.takenTo, hpc]⟩
    case lateFill => exact ⟨hat.2.1, hat.2.2.1.2.1, by simp [PoolWarp.takenTo, hpc]⟩
    all_goals simp at hat
  obtain ⟨hstream, hc, htaken⟩ := hheld
  have hs : (σ.warp w).s < kPoolSlots := hstream.s_eq ▸ Nat.mod_lt _ (by decide)
  refine ⟨hs, ?_, ?_, hc⟩
  · rw [PoolRun.into_succ, if_pos hstream.s_eq.symm]
  · rw [hreleased _ hs, htaken]

theorem filledTo_le {r : PoolWarp} (hat : r.At P) : r.filledTo P ≤ P.chunks r.win := by
  have hstream : r.Stream P → r.fillC.getD (P.chunks r.win) ≤ P.chunks r.win := by
    intro hstream
    rcases hfc : r.fillC with _ | k
    · exact le_rfl
    · exact (hstream.owes k hfc).2.le
  cases hpc : r.pc <;> simp only [PoolWarp.At, hpc] at hat <;> simp only [PoolWarp.filledTo, hpc]
  case top => exact Nat.zero_le _
  case edge => exact Nat.zero_le _
  case finished => exact Nat.zero_le _
  case ctor => exact hat.2.2.2
  case ctorFill => exact hat.2.2.2.le
  all_goals exact hstream hat.2.1

theorem Inv.safe (h : σ.Inv P) : σ.Safe P where
  sees w ht w' lane := by
    obtain ⟨hs, hinto, hreleased, hc⟩ := h.holds ht
    have htaken := (h.warp w).taken ht
    obtain ⟨-, hlen, -⟩ := (h.slot _ hs).filled_of_taken htaken w' lane
    -- the two warps' chunks of the slot are as many, so they are the same
    have hfilled := (h.warp w').filled_eq _ hs
    have heq : (σ.slot (σ.warp w).s).filled w' =
        P.into (σ.warp w).s (σ.warp w).win ((σ.warp w).c + 1) := by
      have hlen' : ((σ.slot (σ.warp w).s).filled w').length =
          (P.into (σ.warp w).s (σ.warp w).win ((σ.warp w).c + 1)).length := by
        rw [hlen, hreleased, hinto, List.length_append, List.length_singleton]
      rw [hfilled] at hlen' ⊢
      rcases PoolRun.into_comparable (P := P) (s := (σ.warp w).s) (filledTo_le (h.warp w').at_)
          (Nat.succ_le_of_lt hc) with hpre | hpre
      · exact hpre.eq_of_length hlen'
      · exact (hpre.eq_of_length hlen'.symm).symm
    have hget : ((σ.slot (σ.warp w).s).filled w')[(σ.slot (σ.warp w).s).released w]? =
        some ((σ.warp w).win, (σ.warp w).c) := by
      rw [heq, hinto, hreleased, List.getElem?_append_right le_rfl, Nat.sub_self]
      rfl
    exact ⟨((h.slot _ hs).cell_of_taken htaken w' lane).trans hget, hget⟩
  untouched w ht w' := by
    obtain ⟨hs, -⟩ := h.holds ht
    have htaken := (h.warp w).taken ht
    have hfilled := fun lane => (h.slot _ hs).filled_of_taken htaken w' lane
    refine ⟨fun lane => (hfilled lane).1.not_lt, fun r s k hn heq => ?_⟩
    have hleft := (h.warp w').step (fun s hs => (h.slotEmpty_iff w' hs).1)
      (fun s hs => (h.slotFull_iff w' hs).1) (fun s hs => (h.slot s hs).full_le_filled w') hn
    obtain ⟨-, hE, -⟩ := hleft
    have hlt := (hfilled 0).2.2
    rw [heq] at hE
    exact absurd hE (not_le.2 hlt)
  empty_test w _ hs := h.slotEmpty_iff w hs
  full_test w _ hs := h.slotFull_iff w hs
  live := fun ⟨_, hw⟩ => h.progress hw

/-- The pool's protocol is safe and never stuck, over every order of the warps' moves. -/
theorem pool_safe (P : PoolRun) (σ : Pool W) (h : Reachable P σ) : σ.Safe P := by
  rcases isEmpty_or_nonempty (Fin W) with hW | hW
  · exact ⟨fun w => isEmptyElim w, fun w => isEmptyElim w, fun w => isEmptyElim w,
      fun w => isEmptyElim w, fun ⟨w, _⟩ => isEmptyElim w⟩
  · exact h.inv.safe

/-- `w`'s next action, where it has one. -/
def act (P : PoolRun) (σ : Pool W) (w : Fin W) : Pool W :=
  match (σ.warp w).next P (σ.seen w) with
  | some (r, e) => σ.perform w r e
  | none => σ

theorem Reachable.acts (h : Reachable P σ) (ws : List (Fin W)) : Reachable P (ws.foldl (act P) σ) := by
  induction ws generalizing σ with
  | nil => exact h
  | cons w ws ih =>
    refine ih ?_
    unfold act
    split
    · exact .step h (.act ‹_›)
    · exact h

/-- Two warps over one window of three chunks, the first having issued two fills. -/
theorem pool_safe_two : ∃ σ : Pool 2, ((σ.slot 1).filled 0 = [(0, 1)] ∧ (σ.warp 0).pc = .ctor 2) ∧
    σ.Safe ⟨1, fun _ => 3, fun _ => 0⟩ :=
  ⟨[0, 1, 0, 0, 0, 0, 0].foldl (act ⟨1, fun _ => 3, fun _ => 0⟩) (start 2), by decide +kernel,
    pool_safe _ _ (Reachable.start.acts _)⟩

end Pool

end Rola
