import Rola.PoolProtocol

/-!
# What a warp keeps of the pool

A warp's fills of a slot are the chunks its window's progress names, in order, window after window, and
so are its takes; what it is about to fill it has found empty, what it holds it has found full.
-/

namespace Rola

open PhasedBarrier

/-! ### The chunks of a slot -/

/-- The chunks below `k` that go to slot `s`. -/
def chunksTo (s k : ℕ) : List ℕ := (List.range k).filter fun c => c % kPoolSlots = s

namespace PoolRun

variable {P : PoolRun} {s win win' k k' : ℕ}

/-- What goes to slot `s` before chunk `k` of window `win`. -/
def into (P : PoolRun) (s win k : ℕ) : List (ℕ × ℕ) :=
  (List.range win).flatMap (fun i => (chunksTo s (P.chunks i)).map fun c => (i, c)) ++
    (chunksTo s k).map fun c => (win, c)

theorem into_succ (P : PoolRun) (s win k : ℕ) :
    P.into s win (k + 1) = P.into s win k ++ if k % kPoolSlots = s then [(win, k)] else [] := by
  unfold into chunksTo
  rw [List.range_succ, List.filter_append, List.map_append, List.append_assoc]
  congr 2
  by_cases hk : k % kPoolSlots = s <;> simp [hk]

theorem into_zero (P : PoolRun) (s win : ℕ) : P.into s (win + 1) 0 = P.into s win (P.chunks win) := by
  simp [into, chunksTo, List.range_succ]

theorem into_prefix_chunk (h : k ≤ k') : P.into s win k <+: P.into s win k' := by
  induction k', h using Nat.le_induction with
  | base => exact List.prefix_rfl
  | succ k' _ ih =>
    rw [into_succ]
    exact ih.trans (List.prefix_append _ _)

theorem into_prefix_window (h : win < win') (hk : k ≤ P.chunks win) :
    P.into s win k <+: P.into s win' k' := by
  refine List.IsPrefix.trans ?_ (into_prefix_chunk (Nat.zero_le k'))
  induction win', h using Nat.le_induction with
  | base =>
    rw [into_zero]
    exact into_prefix_chunk hk
  | succ win' _ ih =>
    rw [into_zero]
    exact ih.trans (into_prefix_chunk (Nat.zero_le _))

/-- Two warps' progress through a slot's chunks are comparable. -/
theorem into_comparable (hk : k ≤ P.chunks win) (hk' : k' ≤ P.chunks win') :
    P.into s win k <+: P.into s win' k' ∨ P.into s win' k' <+: P.into s win k := by
  rcases lt_trichotomy win win' with hlt | rfl | hgt
  · exact .inl (into_prefix_window hlt hk)
  · exact (le_total k k').imp into_prefix_chunk into_prefix_chunk
  · exact .inr (into_prefix_window hgt hk')

theorem into_length_le (h : k ≤ k') : (P.into s win k).length ≤ (P.into s win k').length :=
  (into_prefix_chunk h).length_le

theorem into_length_succ (P : PoolRun) (win k : ℕ) :
    (P.into (k % kPoolSlots) win (k + 1)).length = (P.into (k % kPoolSlots) win k).length + 1 := by
  rw [into_succ, if_pos rfl, List.length_append, List.length_singleton]

/-- The rendezvous before window `win`. -/
def edges (P : PoolRun) (win : ℕ) : ℕ := ∑ i ∈ Finset.range win, (2 + P.heads i)

theorem edges_succ (P : PoolRun) (win : ℕ) : P.edges (win + 1) = P.edges win + 2 + P.heads win := by
  rw [edges, Finset.sum_range_succ, edges, Nat.add_assoc]

theorem edges_le (h : win ≤ win') : P.edges win ≤ P.edges win' :=
  Finset.sum_le_sum_of_subset (Finset.range_mono h)

theorem edges_succ_le (h : win < win') : P.edges (win + 1) ≤ P.edges win' := edges_le h

end PoolRun

/-! ### A warp's progress -/

namespace PoolWarp

variable {P : PoolRun} {r r' : PoolWarp}

/-- The window's chunks the warp has filled its part of. -/
def filledTo (P : PoolRun) (r : PoolWarp) : ℕ :=
  match r.pc with
  | .top | .edge | .finished => 0
  | .ctor k | .ctorFill k => k
  | _ => r.fillC.getD (P.chunks r.win)

def takenTo (r : PoolWarp) : ℕ :=
  match r.pc with
  | .top | .edge | .finished => 0
  | _ => r.c

/-- The chunk whose fill has been found free to start. -/
def filling (r : PoolWarp) : Option ℕ :=
  match r.pc with
  | .ctorFill k => some k
  | .fill | .lateFill | .waitFill => r.fillC
  | _ => none

/-- The rendezvous of its window behind the warp. -/
def interval (P : PoolRun) (r : PoolWarp) : ℕ :=
  match r.pc with
  | .top | .edge | .finished => 0
  | .ctor _ | .ctorFill _ => 1
  | .head j | .headWait j => 1 + j
  | _ => 1 + P.heads r.win

/-- The stream under way. -/
structure Stream (P : PoolRun) (r : PoolWarp) : Prop where
  c_le : r.c ≤ P.chunks r.win
  s_eq : r.s = r.c % kPoolSlots
  owes : ∀ k, r.fillC = some k → r.c ≤ k ∧ k < P.chunks r.win
  done : r.done = true → P.chunks r.win ≤ r.c ∧ r.fillC = none

/-- Before the fold, no chunk taken. -/
def Fresh (r : PoolWarp) : Prop := r.c = 0 ∧ r.s = 0 ∧ r.takenSlot = false

/-- A slot held. -/
def Held (P : PoolRun) (r : PoolWarp) : Prop :=
  r.takenSlot = true ∧ r.c < P.chunks r.win ∧ r.fillC ≠ some r.c

/-- What the registers are at each point of the loop. -/
def At (P : PoolRun) (r : PoolWarp) : Prop :=
  match r.pc with
  | .top => r.takenSlot = false ∧ r.win ≤ P.windows
  | .edge => r.takenSlot = false ∧ r.win < P.windows
  | .finished => r.takenSlot = false ∧ r.win = P.windows
  | .ctor k => r.win < P.windows ∧ r.Fresh ∧ k ≤ kPoolSlots ∧ k ≤ P.chunks r.win
  | .ctorFill k => r.win < P.windows ∧ r.Fresh ∧ k < kPoolSlots ∧ k < P.chunks r.win
  | .head j => r.win < P.windows ∧ r.Stream P ∧ r.takenSlot = false ∧ j ≤ P.heads r.win
  | .headWait j => r.win < P.windows ∧ r.Stream P ∧ r.takenSlot = false ∧ j < P.heads r.win
  | .loop | .poll | .take | .wait => r.win < P.windows ∧ r.Stream P ∧ r.takenSlot = false
  | .fill => r.win < P.windows ∧ r.Stream P ∧ r.takenSlot = false ∧ r.fillC ≠ none
  | .burst | .latePoll | .release => r.win < P.windows ∧ r.Stream P ∧ r.Held P
  | .lateFill => r.win < P.windows ∧ r.Stream P ∧ r.Held P ∧ r.fillC ≠ none
  | .waitEmpty | .waitFill =>
    r.win < P.windows ∧ r.Stream P ∧ r.takenSlot = false ∧ r.fillC = some r.c
  | .waitFull =>
    r.win < P.windows ∧ r.Stream P ∧ r.takenSlot = false ∧ r.c < P.chunks r.win ∧ r.fillC ≠ some r.c
  | .endEdge =>
    r.win < P.windows ∧ r.Stream P ∧ r.takenSlot = false ∧ P.chunks r.win ≤ r.c ∧ r.fillC = none

/-- A warp beside what it has filled and released, and the phases its slots have reached. -/
structure Ok (P : PoolRun) (r : PoolWarp) (filled : ℕ → List (ℕ × ℕ)) (released E F : ℕ → ℕ) : Prop where
  cursor : CursorOk r.uses (fun s => (filled s).length) released
  filled_eq : ∀ s < kPoolSlots, filled s = P.into s r.win (r.filledTo P)
  released_eq : ∀ s < kPoolSlots, released s = (P.into s r.win r.takenTo).length
  at_ : r.At P
  emptied : ∀ k, r.filling = some k → (filled (k % kPoolSlots)).length ≤ E (k % kPoolSlots)
  taken : r.takenSlot = true → released r.s < F r.s
  passed : r.passed = P.edges r.win + r.interval P

variable {filled : ℕ → List (ℕ × ℕ)} {released E F E' F' : ℕ → ℕ} {v : PoolSeen}

namespace Ok

theorem start : PoolWarp.start.Ok P (fun _ => []) (fun _ => 0) (fun _ => 0) fun _ => 0 where
  cursor := CursorOk.zero
  filled_eq s _ := by simp [PoolWarp.start, filledTo, PoolRun.into, chunksTo]
  released_eq s _ := by simp [PoolWarp.start, takenTo, PoolRun.into, chunksTo]
  at_ := ⟨rfl, Nat.zero_le _⟩
  emptied k hk := nomatch hk
  taken ht := nomatch ht
  passed := by simp [PoolWarp.start, interval, PoolRun.edges]

/-- Phases only grow. -/
theorem mono (h : r.Ok P filled released E F) (hE : ∀ s, E s ≤ E' s) (hF : ∀ s, F s ≤ F' s) :
    r.Ok P filled released E' F' :=
  { h with
    emptied := fun k hk => (h.emptied k hk).trans (hE _)
    taken := fun ht => (h.taken ht).trans_le (hF _) }

/-- A move that neither fills nor releases. -/
theorem move (h : r.Ok P filled released E F) (huses : r'.uses = r.uses)
    (hfill : ∀ s, P.into s r'.win (r'.filledTo P) = P.into s r.win (r.filledTo P))
    (htake : ∀ s, P.into s r'.win r'.takenTo = P.into s r.win r.takenTo) (hat : r'.At P)
    (hem : ∀ k, r'.filling = some k → (filled (k % kPoolSlots)).length ≤ E (k % kPoolSlots))
    (htaken : r'.takenSlot = true → released r'.s < F r'.s)
    (hpassed : r'.passed = P.edges r'.win + r'.interval P) : r'.Ok P filled released E F where
  cursor := huses ▸ h.cursor
  filled_eq s hs := (h.filled_eq s hs).trans (hfill s).symm
  released_eq s hs := by rw [h.released_eq s hs, htake s]
  at_ := hat
  emptied := hem
  taken := htaken
  passed := hpassed

/-- The fill of the chunk found free. -/
theorem fills {k : ℕ} (h : r.Ok P filled released E F) (hk : r.filledTo P = k)
    (huses : r'.uses = cursorFilled r.uses (k % kPoolSlots)) (hwin : r'.win = r.win)
    (hk' : r'.filledTo P = k + 1) (htake : r'.takenTo = r.takenTo) (hat : r'.At P)
    (hem : r'.filling = none) (htaken : r'.takenSlot = r.takenSlot) (hs : r'.s = r.s)
    (hpassed : r'.passed = P.edges r'.win + r'.interval P) :
    r'.Ok P (Function.update filled (k % kPoolSlots) (filled (k % kPoolSlots) ++ [(r.win, k)]))
      released E F where
  cursor := by
    have hcur := h.cursor.filled (s := k % kPoolSlots) (Nat.mod_lt _ (by decide))
    rw [huses]
    refine ⟨fun s hs => ?_, fun s hs => ?_, hcur.takes_mod⟩
    · rw [hcur.fills_mod s hs]
      rcases eq_or_ne s (k % kPoolSlots) with rfl | hne
      · simp
      · simp [hne]
    · rw [hcur.fills_zero s hs]
      rcases eq_or_ne s (k % kPoolSlots) with rfl | hne
      · simp
      · simp [hne]
  filled_eq s hs := by
    rw [hwin, hk', PoolRun.into_succ, ← hk, ← h.filled_eq s hs, hk]
    rcases eq_or_ne s (k % kPoolSlots) with rfl | hne
    · simp
    · simp [hne, hne.symm]
  released_eq s hs := by rw [h.released_eq s hs, hwin, htake]
  at_ := hat
  emptied j hj := by
    rw [hem] at hj
    cases hj
  taken ht := by
    rw [hs]
    exact h.taken (htaken ▸ ht)
  passed := hpassed

/-- The release of the chunk held. -/
theorem releases (h : r.Ok P filled released E F) (hs : r.s = r.c % kPoolSlots) (hc : r.takenTo = r.c)
    (huses : r'.uses = cursorUsed r.uses r.s) (hwin : r'.win = r.win)
    (hfill : r'.filledTo P = r.filledTo P) (htake : r'.takenTo = r.c + 1) (hat : r'.At P)
    (hem : r'.filling = none) (htaken : r'.takenSlot = false)
    (hpassed : r'.passed = P.edges r'.win + r'.interval P) :
    r'.Ok P filled (Function.update released r.s (released r.s + 1)) E F where
  cursor := by
    rw [huses]
    exact h.cursor.used (hs ▸ Nat.mod_lt _ (by decide))
  filled_eq s hs := by rw [h.filled_eq s hs, hwin, hfill]
  released_eq s hs' := by
    rw [hwin, htake]
    rcases eq_or_ne s r.s with rfl | hne
    · rw [Function.update_self, h.released_eq _ hs', hc, hs, PoolRun.into_length_succ]
    · rw [Function.update_of_ne hne, h.released_eq _ hs', hc, PoolRun.into_succ,
        if_neg fun heq => hne (hs ▸ heq.symm), List.append_nil]
  at_ := hat
  emptied j hj := by
    rw [hem] at hj
    cases hj
  taken ht := by
    rw [htaken] at ht
    cases ht
  passed := hpassed

end Ok

/-! ### A warp's step -/

/-- What an action leaves. -/
def Left (P : PoolRun) (r r' : PoolWarp) (filled : ℕ → List (ℕ × ℕ)) (released E F : ℕ → ℕ) :
    PoolEffect → Prop
  | .quiet => r'.Ok P filled released E F
  | .fill s k => s < kPoolSlots ∧ (filled s).length ≤ E s ∧
      r'.Ok P (Function.update filled s (filled s ++ [(r.win, k)])) released E F
  | .release s => s < kPoolSlots ∧ released s < F s ∧
      r'.Ok P filled (Function.update released s (released s + 1)) E F

/-- A chunk whose slot is full has been filled by the warp itself. -/
theorem Ok.lt_filledTo (h : r.Ok P filled released E F) (hs : r.s = r.c % kPoolSlots)
    (hc : r.takenTo = r.c) (hF : F r.s ≤ (filled r.s).length) (hfull : released r.s < F r.s) :
    r.c < r.filledTo P := by
  have hslot : r.s < kPoolSlots := hs ▸ Nat.mod_lt _ (by decide)
  by_contra hle
  have hlen := @PoolRun.into_length_le P r.s r.win _ _ (not_lt.1 hle)
  have hfilled := h.filled_eq r.s hslot
  have hreleased := h.released_eq r.s hslot
  rw [hc] at hreleased
  rw [← hfilled, ← hreleased] at hlen
  omega

/-- The fill a warp owes next. -/
def nextFill (P : PoolRun) (r : PoolWarp) (k : ℕ) : Option ℕ :=
  if k + 1 < P.chunks r.win then some (k + 1) else none

theorem nextFill_getD {k : ℕ} (hk : k < P.chunks r.win) :
    (r.nextFill P k).getD (P.chunks r.win) = k + 1 := by
  unfold nextFill
  split
  · rfl
  · simp only [Option.getD_none]
    omega

theorem nextFill_ne {k c : ℕ} (hc : c ≤ k) : r.nextFill P k ≠ some c := by
  unfold nextFill
  split
  · intro heq
    have := Option.some_inj.1 heq
    omega
  · exact fun heq => nomatch heq

/-- `fill_now`, where the fill it owes is one past what it has filled. -/
theorem Ok.fillNow {e : PoolEffect} {after : PoolPc} (h : r.Ok P filled released E F)
    (hfilling : r.filling = r.fillC) (hto : r.filledTo P = r.fillC.getD (P.chunks r.win))
    (hstream : r.Stream P) (hn : r.fillNow P after = some (r', e))
    (hafter : ∀ k, r.fillC = some k → ∀ q : PoolWarp, q.pc = after → q.win = r.win → q.c = r.c →
      q.s = r.s → q.takenSlot = r.takenSlot → q.fillC = r.nextFill P k → q.Stream P →
      q.filledTo P = q.fillC.getD (P.chunks q.win) ∧ q.takenTo = r.takenTo ∧ q.filling = none ∧
        q.interval P = r.interval P ∧ q.At P) : Left P r r' filled released E F e := by
  rcases hfc : r.fillC with _ | k
  · rw [PoolWarp.fillNow, hfc] at hn
    cases hn
  rw [PoolWarp.fillNow, hfc] at hn
  cases hn
  obtain ⟨hck, hkn⟩ := hstream.owes k hfc
  rw [hfc] at hto
  obtain ⟨hto', htake, hnone, hint, hat⟩ := hafter k hfc
    { r with
      uses := cursorFilled r.uses (k % kPoolSlots)
      fillC := r.nextFill P k
      pc := after } rfl rfl rfl rfl rfl rfl
    { c_le := hstream.c_le
      s_eq := hstream.s_eq
      owes := fun j hj => by
        dsimp only [nextFill] at hj
        split at hj
        · cases hj
          exact ⟨hck.trans (Nat.le_succ k), ‹_›⟩
        · cases hj
      done := fun hd => by
        have hnone := (hstream.done hd).2
        rw [hfc] at hnone
        cases hnone }
  refine ⟨Nat.mod_lt _ (by decide), h.emptied k (hfilling.trans hfc), ?_⟩
  refine h.fills hto rfl rfl (hto'.trans (nextFill_getD hkn)) htake hat hnone rfl rfl ?_
  exact h.passed.trans (congrArg (P.edges r.win + ·) hint.symm)

/-- Every action of a warp keeps what it keeps. -/
theorem Ok.step {e : PoolEffect} (h : r.Ok P filled released E F)
    (hempty : ∀ s < kPoolSlots, r.slotEmpty v s = true → (filled s).length ≤ E s)
    (hfull : ∀ s < kPoolSlots, r.slotFull v s = true → released s < F s)
    (hF : ∀ s < kPoolSlots, F s ≤ (filled s).length) (hn : r.next P v = some (r', e)) :
    Left P r r' filled released E F e := by
  have hat := h.at_
  have hpassed := h.passed
  have howes : ∀ k, r.owesEmpty v = true → r.fillC = some k →
      (filled (k % kPoolSlots)).length ≤ E (k % kPoolSlots) := by
    intro k ho hk
    rw [owesEmpty, hk] at ho
    exact hempty _ (Nat.mod_lt _ (by decide)) ho
  cases hpc : r.pc with
  | top =>
    simp only [next, hpc] at hn
    simp only [At, hpc] at hat
    cases hn
    obtain ⟨htaken, hwin⟩ := hat
    simp only [interval, hpc] at hpassed
    refine h.move rfl ?_ ?_ ?_ ?_ ?_ ?_
    · intro s
      split <;> simp [filledTo, hpc]
    · intro s
      split <;> simp [takenTo, hpc]
    · split
      · exact ⟨htaken, ‹_›⟩
      · exact ⟨htaken, by dsimp only; omega⟩
    · split <;> simp [filling]
    · simp [htaken]
    · split <;> simpa [interval] using hpassed
  | edge =>
    simp only [next, hpc] at hn
    simp only [At, hpc] at hat
    simp only [interval, hpc] at hpassed
    split at hn
    · cases hn
      refine h.move rfl ?_ ?_ ?_ ?_ ?_ ?_
      · simp [filledTo, hpc]
      · simp [takenTo, hpc]
      · exact ⟨hat.2, ⟨rfl, rfl, rfl⟩, Nat.zero_le _, Nat.zero_le _⟩
      · simp [filling]
      · simp
      · simp [interval, hpassed]
    · cases hn
  | ctor k =>
    simp only [next, hpc] at hn
    simp only [At, hpc] at hat
    simp only [interval, hpc] at hpassed
    obtain ⟨hwin, ⟨hc, hs, htaken⟩, hk, hkn⟩ := hat
    by_cases hlt : k < kPoolSlots ∧ k < P.chunks r.win
    · rw [if_pos hlt] at hn
      split at hn
      swap
      · cases hn
      rename_i hempt
      cases hn
      refine h.move rfl ?_ ?_ ?_ ?_ ?_ ?_
      · simp [filledTo, hpc]
      · simp [takenTo, hpc]
      · exact ⟨hwin, ⟨hc, hs, htaken⟩, hlt.1, hlt.2⟩
      · intro j hj
        cases hj
        rw [Nat.mod_eq_of_lt hlt.1]
        exact hempty k hlt.1 hempt
      · simp [htaken]
      · exact hpassed
    · rw [if_neg hlt] at hn
      cases hn
      -- every slot a chunk of the window goes to first is filled
      have hto : (if kPoolSlots < P.chunks r.win then some kPoolSlots else none : Option ℕ).getD
          (P.chunks r.win) = k := by
        split
        · simp only [Option.getD_some]
          omega
        · simp only [Option.getD_none]
          omega
      refine h.move rfl ?_ ?_ ?_ ?_ ?_ ?_
      · intro s
        simp only [filledTo, hpc, hto]
      · simp [takenTo, hpc]
      · refine ⟨hwin, ⟨?_, ?_, ?_, ?_⟩, htaken, Nat.zero_le _⟩
        · simp [hc]
        · simp [hc, hs]
        · intro j hj
          dsimp only at hj
          split at hj
          · cases hj
            exact ⟨by simp [hc], ‹_›⟩
          · cases hj
        · intro hd
          have hzero : P.chunks r.win = 0 := by simpa using hd
          simp [hzero]
      · simp [filling]
      · simp [htaken]
      · simpa [interval] using hpassed
  | ctorFill k =>
    simp only [next, hpc] at hn
    simp only [At, hpc] at hat
    simp only [interval, hpc] at hpassed
    obtain ⟨hwin, hfresh, hk, hkn⟩ := hat
    cases hn
    have hmod := Nat.mod_eq_of_lt hk
    have hem := h.emptied k (by simp [filling, hpc])
    refine ⟨hk, hmod ▸ hem, ?_⟩
    have hfills := @PoolWarp.Ok.fills _ _ ({ r with pc := .ctor (k + 1), uses := cursorFilled r.uses k }) _ _ _ _ k h (by simp [filledTo, hpc]) (by rw [hmod]) rfl rfl (by simp [takenTo, hpc]) ⟨hwin, hfresh, hk, hkn⟩ rfl rfl rfl hpassed
    rwa [hmod] at hfills
  | head j =>
    simp only [next, hpc] at hn
    simp only [At, hpc] at hat
    simp only [interval, hpc] at hpassed
    obtain ⟨hwin, hstream, htaken, hj⟩ := hat
    cases hn
    have hstream' : ∀ q : PoolPc, Stream P { r with pc := q } := fun q =>
      ⟨hstream.c_le, hstream.s_eq, hstream.owes, hstream.done⟩
    refine h.move rfl ?_ ?_ ?_ ?_ ?_ ?_
    · intro s
      split <;> simp [filledTo, hpc]
    · intro s
      split <;> simp [takenTo, hpc]
    · split
      · exact ⟨hwin, hstream' _, htaken, ‹_›⟩
      · exact ⟨hwin, hstream' _, htaken⟩
    · split <;> simp [filling]
    · simp [htaken]
    · split
      · exact hpassed
      · have hjeq : j = P.heads r.win := by omega
        simpa [interval, hjeq] using hpassed
  | headWait j =>
    simp only [next, hpc] at hn
    simp only [At, hpc] at hat
    simp only [interval, hpc] at hpassed
    obtain ⟨hwin, hstream, htaken, hj⟩ := hat
    split at hn
    · cases hn
      refine h.move rfl ?_ ?_ ?_ ?_ ?_ ?_
      · simp [filledTo, hpc]
      · simp [takenTo, hpc]
      · exact ⟨hwin, ⟨hstream.c_le, hstream.s_eq, hstream.owes, hstream.done⟩, htaken, hj⟩
      · simp [filling]
      · simp [htaken]
      · simp only [interval, hpassed]
        omega
    · cases hn
  | loop =>
    simp only [next, hpc] at hn
    simp only [At, hpc] at hat
    simp only [interval, hpc] at hpassed
    obtain ⟨hwin, hstream, htaken⟩ := hat
    cases hn
    refine h.move rfl ?_ ?_ ?_ ?_ ?_ ?_
    · intro s
      split <;> simp [filledTo, hpc]
    · intro s
      split <;> simp [takenTo, hpc]
    · split
      · exact ⟨hwin, ⟨hstream.c_le, hstream.s_eq, hstream.owes, hstream.done⟩, htaken, hstream.done ‹_›⟩
      · exact ⟨hwin, ⟨hstream.c_le, hstream.s_eq, hstream.owes, hstream.done⟩, htaken⟩
    · split <;> simp [filling]
    · simp [htaken]
    · split <;> simpa [interval] using hpassed
  | poll =>
    simp only [next, hpc] at hn
    simp only [At, hpc] at hat
    simp only [interval, hpc] at hpassed
    obtain ⟨hwin, hstream, htaken⟩ := hat
    cases hn
    refine h.move rfl ?_ ?_ ?_ ?_ ?_ ?_
    · intro s
      split <;> simp [filledTo, hpc]
    · intro s
      split <;> simp [takenTo, hpc]
    · split
      · rename_i ho
        refine ⟨hwin, ⟨hstream.c_le, hstream.s_eq, hstream.owes, hstream.done⟩, htaken, fun hnone => ?_⟩
        dsimp only at hnone
        rw [owesEmpty, hnone] at ho
        cases ho
      · exact ⟨hwin, ⟨hstream.c_le, hstream.s_eq, hstream.owes, hstream.done⟩, htaken⟩
    · split
      · exact fun k hk => howes k ‹_› hk
      · simp [filling]
    · simp [htaken]
    · split <;> simpa [interval] using hpassed
  | fill =>
    simp only [next, hpc] at hn
    simp only [At, hpc] at hat
    obtain ⟨hwin, hstream, htaken, -⟩ := hat
    refine h.fillNow (by simp [filling, hpc]) (by simp [filledTo, hpc]) hstream hn ?_
    intro k hk q hq hqwin hqc hqs hqtaken hqfill hqstream
    refine ⟨by simp [filledTo, hq], by simp [takenTo, hq, hpc, hqc], by simp [filling, hq],
      by simp [interval, hq, hpc, hqwin], ?_⟩
    simp only [At, hq]
    exact ⟨hqwin ▸ hwin, hqstream, hqtaken.trans htaken⟩
  | take =>
    simp only [next, hpc] at hn
    simp only [At, hpc] at hat
    simp only [interval, hpc] at hpassed
    obtain ⟨hwin, hstream, htaken⟩ := hat
    split_ifs at hn with hc hfull'
    · cases hn
      refine h.move rfl ?_ ?_ ?_ ?_ ?_ ?_
      · simp [filledTo, hpc]
      · simp [takenTo, hpc]
      · refine ⟨hwin, ⟨hstream.c_le, hstream.s_eq, hstream.owes, fun hd => ?_⟩, htaken⟩
        exact ⟨hc, by simpa using hd⟩
      · simp [filling]
      · simp [htaken]
      · exact hpassed
    · cases hn
      rw [htaken] at hfull'
      have hslot : r.s < kPoolSlots := hstream.s_eq ▸ Nat.mod_lt _ (by decide)
      have htest := hfull r.s hslot (by simpa using hfull')
      have hlt := h.lt_filledTo hstream.s_eq (by simp [takenTo, hpc]) (hF r.s hslot) htest
      refine h.move rfl ?_ ?_ ?_ ?_ ?_ ?_
      · simp [filledTo, hpc]
      · simp [takenTo, hpc]
      · refine ⟨hwin, ⟨hstream.c_le, hstream.s_eq, hstream.owes, hstream.done⟩, rfl, not_le.1 hc,
          fun heq => ?_⟩
        dsimp only at heq
        simp [filledTo, hpc, heq] at hlt
      · simp [filling]
      · exact fun _ => htest
      · exact hpassed
    · cases hn
      refine h.move rfl ?_ ?_ ?_ ?_ ?_ ?_
      · simp [filledTo, hpc]
      · simp [takenTo, hpc]
      · exact ⟨hwin, ⟨hstream.c_le, hstream.s_eq, hstream.owes, hstream.done⟩, htaken⟩
      · simp [filling]
      · simp [htaken]
      · exact hpassed
  | burst =>
    simp only [next, hpc] at hn
    simp only [At, hpc] at hat
    simp only [interval, hpc] at hpassed
    obtain ⟨hwin, hstream, hheld⟩ := hat
    cases hn
    refine h.move rfl ?_ ?_ ?_ ?_ ?_ ?_
    · simp [filledTo, hpc]
    · simp [takenTo, hpc]
    · exact ⟨hwin, ⟨hstream.c_le, hstream.s_eq, hstream.owes, hstream.done⟩, hheld⟩
    · simp [filling]
    · exact h.taken
    · exact hpassed
  | latePoll =>
    simp only [next, hpc] at hn
    simp only [At, hpc] at hat
    simp only [interval, hpc] at hpassed
    obtain ⟨hwin, hstream, hheld⟩ := hat
    cases hn
    refine h.move rfl ?_ ?_ ?_ ?_ ?_ ?_
    · intro s
      split <;> simp [filledTo, hpc]
    · intro s
      split <;> simp [takenTo, hpc]
    · split
      · rename_i ho
        refine ⟨hwin, ⟨hstream.c_le, hstream.s_eq, hstream.owes, hstream.done⟩, hheld, fun hnone => ?_⟩
        dsimp only at hnone
        rw [owesEmpty, hnone] at ho
        cases ho
      · exact ⟨hwin, ⟨hstream.c_le, hstream.s_eq, hstream.owes, hstream.done⟩, hheld⟩
    · split
      · exact fun k hk => howes k ‹_› hk
      · simp [filling]
    · exact h.taken
    · split <;> simpa [interval] using hpassed
  | lateFill =>
    simp only [next, hpc] at hn
    simp only [At, hpc] at hat
    obtain ⟨hwin, hstream, ⟨htaken, hc, -⟩, -⟩ := hat
    refine h.fillNow (by simp [filling, hpc]) (by simp [filledTo, hpc]) hstream hn ?_
    intro k hk q hq hqwin hqc hqs hqtaken hqfill hqstream
    refine ⟨by simp [filledTo, hq], by simp [takenTo, hq, hpc, hqc], by simp [filling, hq],
      by simp [interval, hq, hpc, hqwin], ?_⟩
    simp only [At, hq]
    refine ⟨hqwin ▸ hwin, hqstream, hqtaken.trans htaken, by rwa [hqwin, hqc], ?_⟩
    rw [hqfill, hqc]
    exact nextFill_ne (hstream.owes k hk).1
  | release =>
    simp only [next, hpc] at hn
    simp only [At, hpc] at hat
    simp only [interval, hpc] at hpassed
    obtain ⟨hwin, hstream, htaken, hc, hne⟩ := hat
    cases hn
    refine ⟨hstream.s_eq ▸ Nat.mod_lt _ (by decide), h.taken htaken, ?_⟩
    refine h.releases hstream.s_eq (by simp [takenTo, hpc]) rfl rfl (by simp [filledTo, hpc]) rfl
      ⟨hwin, ⟨hc, rfl, fun k hk => ?_, fun hd => ?_⟩, rfl⟩ rfl rfl hpassed
    · obtain ⟨hck, hkn⟩ := hstream.owes k hk
      refine ⟨lt_of_le_of_ne hck fun heq => hne ?_, hkn⟩
      exact heq ▸ hk
    · simpa using hd
  | wait =>
    simp only [next, hpc] at hn
    simp only [At, hpc] at hat
    simp only [interval, hpc] at hpassed
    obtain ⟨hwin, hstream, htaken⟩ := hat
    cases hn
    have hstream' : ∀ q : PoolPc, Stream P { r with pc := q } := fun q =>
      ⟨hstream.c_le, hstream.s_eq, hstream.owes, hstream.done⟩
    refine h.move rfl ?_ ?_ ?_ ?_ ?_ ?_
    · intro s
      split_ifs <;> simp [filledTo, hpc]
    · intro s
      split_ifs <;> simp [takenTo, hpc]
    · split_ifs with howe hlt
      · refine ⟨hwin, hstream' _, htaken, ?_⟩
        obtain ⟨k, hk⟩ := Option.ne_none_iff_exists'.1 howe.1
        obtain ⟨hck, hkn⟩ := hstream.owes k hk
        rcases howe.2 with hle | heq
        · omega
        · exact heq
      · refine ⟨hwin, hstream' _, htaken, hlt.1, fun heq => howe ⟨?_, .inr heq⟩⟩
        exact fun hnone => by simp only [hnone] at heq; cases heq
      · exact ⟨hwin, hstream' _, htaken⟩
    · split_ifs <;> simp [filling]
    · simp [htaken]
    · split_ifs <;> simpa [interval] using hpassed
  | waitEmpty =>
    simp only [next, hpc] at hn
    simp only [At, hpc] at hat
    simp only [interval, hpc] at hpassed
    obtain ⟨hwin, hstream, htaken, hfc⟩ := hat
    split at hn
    · rename_i ho
      cases hn
      refine h.move rfl ?_ ?_ ?_ ?_ ?_ ?_
      · simp [filledTo, hpc]
      · simp [takenTo, hpc]
      · exact ⟨hwin, ⟨hstream.c_le, hstream.s_eq, hstream.owes, hstream.done⟩, htaken, hfc⟩
      · exact fun k hk => howes k ho hk
      · simp [htaken]
      · exact hpassed
    · cases hn
  | waitFill =>
    simp only [next, hpc] at hn
    simp only [At, hpc] at hat
    obtain ⟨hwin, hstream, htaken, -⟩ := hat
    refine h.fillNow (by simp [filling, hpc]) (by simp [filledTo, hpc]) hstream hn ?_
    intro k hk q hq hqwin hqc hqs hqtaken hqfill hqstream
    refine ⟨by simp [filledTo, hq], by simp [takenTo, hq, hpc, hqc], by simp [filling, hq],
      by simp [interval, hq, hpc, hqwin], ?_⟩
    simp only [At, hq]
    exact ⟨hqwin ▸ hwin, hqstream, hqtaken.trans htaken⟩
  | waitFull =>
    simp only [next, hpc] at hn
    simp only [At, hpc] at hat
    simp only [interval, hpc] at hpassed
    obtain ⟨hwin, hstream, htaken, -⟩ := hat
    split at hn
    · cases hn
      refine h.move rfl ?_ ?_ ?_ ?_ ?_ ?_
      · simp [filledTo, hpc]
      · simp [takenTo, hpc]
      · exact ⟨hwin, ⟨hstream.c_le, hstream.s_eq, hstream.owes, hstream.done⟩, htaken⟩
      · simp [filling]
      · simp [htaken]
      · exact hpassed
    · cases hn
  | endEdge =>
    simp only [next, hpc] at hn
    simp only [At, hpc] at hat
    simp only [interval, hpc] at hpassed
    obtain ⟨hwin, hstream, htaken, hle, hnone⟩ := hat
    split at hn
    · cases hn
      refine h.move rfl ?_ ?_ ?_ ?_ ?_ ?_
      · intro s
        simp only [filledTo, hpc, hnone, Option.getD_none]
        exact PoolRun.into_zero P s r.win
      · intro s
        simp only [takenTo, hpc, le_antisymm hstream.c_le hle]
        exact PoolRun.into_zero P s r.win
      · exact ⟨htaken, hwin⟩
      · simp [filling]
      · simp [htaken]
      · simp only [interval, hpassed, PoolRun.edges_succ]
        omega
    · cases hn
  | finished =>
    simp only [next, hpc] at hn
    cases hn

end PoolWarp

end Rola
