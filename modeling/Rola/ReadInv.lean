import Rola.ReadTables
import Mathlib.Tactic.Push

/-!
# What a reader keeps

A warp's rendezvous place it in its window; its two ring slots hold the tiles it has taken and not read,
each with the tokens of the window's order.
-/

namespace Rola

open PhasedBarrier

namespace Reader

variable {R : ReadRun} {x x' : Reader} {v : ReadSeen} {e : ReadEffect}

/-- In the head of a window, the last one's tiles read. -/
def InHead (R : ReadRun) (x : Reader) : Prop :=
  x.done = true ∧ (x.head = 0 ∧ x.win = 0 ∨ x.head = x.win + 1 ∧ x.head < R.windows)

/-- The stream holds its first tile, or is past the last. -/
def Dealt (R : ReadRun) (x : Reader) : Prop :=
  x.window = x.head ∧ (x.done = true ↔ R.tiles x.window ≤ x.k)

/-- In a window's readout. -/
def InWindow (R : ReadRun) (x : Reader) : Prop := x.Dealt R ∧ x.head = x.win ∧ x.win < R.windows

/-- Past every window. -/
def Past (R : ReadRun) (x : Reader) : Prop :=
  x.Dealt R ∧ x.win = R.windows ∧ x.head = x.win - 1 ∧ x.passed = max (5 * x.win) 3 ∧ (0 < x.win → x.done = true)

/-- Where a warp's registers and its rendezvous are at each point. -/
def At (R : ReadRun) (x : Reader) : Prop :=
  match x.pc with
  | .reset | .counts => x.InHead R ∧ x.passed = 5 * x.head - 1
  | .scans => x.InHead R ∧ x.passed = 5 * x.head - 1 + 1
  | .scatter | .order => x.InHead R ∧ x.passed = 5 * x.head - 1 + 2
  | .tiles | .prime => x.InHead R ∧ x.passed = 5 * x.head - 1 + 3
  | .top => x.InWindow R ∧ x.passed = 5 * x.win + 3 ∨ x.Past R
  | .edge => x.InWindow R ∧ x.passed = 5 * x.win + 3
  | .begin | .loop => x.InWindow R ∧ x.passed = 5 * x.win + 4
  | .step | .take | .wait => x.InWindow R ∧ x.passed = 5 * x.win + 4 ∧ x.done = false
  | .endEdge =>
    x.Dealt R ∧ (x.head = x.win + 1 ∧ x.head < R.windows ∧ x.passed = 5 * x.win + 7 ∨
      x.head = x.win ∧ x.win + 1 = R.windows ∧ x.passed = 5 * x.win + 4 ∧ x.done = true)
  | .finished => x.Past R

/-- The windows whose counter is reset, whose order and tile masks are written, that are primed. -/
def resets (x : Reader) : ℕ := if x.pc = .reset then x.head else x.head + 1

def scattered (x : Reader) : ℕ :=
  match x.pc with
  | .reset | .counts | .scans | .scatter => x.head
  | _ => x.head + 1

def tiled (x : Reader) : ℕ :=
  match x.pc with
  | .reset | .counts | .scans | .scatter | .order | .tiles => x.head
  | _ => x.head + 1

def primed (x : Reader) : ℕ :=
  match x.pc with
  | .reset | .counts | .scans | .scatter | .order | .tiles | .prime => x.head
  | _ => x.head + 1

/-- The next tile is taken. -/
def ahead (x : Reader) : Bool :=
  match x.pc with
  | .loop | .step | .wait => true
  | _ => false

/-- The tiles taken of the stream's window and not yet read. -/
def holding (x : Reader) (win : ℕ) : List ℕ :=
  if x.window = win ∧ x.done = false then x.k :: if x.ahead then [x.knext] else [] else []

/-- The tile staged in ring slot `r`. -/
def slotTile (R : ReadRun) (x : Reader) (r : ℕ) : Option ℕ :=
  if x.done then none
  else if r = x.n % 2 then some x.k
  else if x.ahead ∧ x.knext < R.tiles x.window then some x.knext
  else none

/-- A slot's fills and uses: equal, or one copy ahead. -/
def SlotOk (R : ReadRun) (win : ℕ) (tile : Option ℕ) (filled : List TileCopy) (released : ℕ) : Prop :=
  match tile with
  | none => filled.length = released
  | some k => filled.length = released + 1 ∧ filled[released]? = some ⟨win, R.tileTokens win (R.orderOf win) k⟩

structure Ok (R : ReadRun) (x : Reader) (filled : ℕ → List TileCopy) (released dealt : ℕ → ℕ) : Prop where
  at_ : x.At R
  cursor : ∀ r < 2, byteOf x.uses (8 * r) % 2 = released r % 2
  slot : ∀ r < 2, SlotOk R x.window (x.slotTile R r) (filled r) (released r)
  spent : ∀ win < x.primed, win < x.window ∨ x.done = true → R.tiles win < dealt win
  next : x.done = false → x.ahead = true → x.knext < dealt x.window

/-! ### The rendezvous behind a warp -/

section Bounds

variable {h : ℕ} (hat : x.At R)
include hat

theorem passed_of_resets (hlt : h < x.resets) : 5 * h - 1 ≤ x.passed := by
  cases hpc : x.pc <;>
    simp [resets, At, InHead, InWindow, Dealt, Past, hpc] at hat hlt ⊢ <;>
    omega

theorem arrived_of_resets (hh : h < R.windows ∨ h = 0) (hle : x.resets ≤ h) : x.arrived ≤ 5 * h - 1 := by
  cases hpc : x.pc <;>
    simp [resets, arrived, waiting, At, InHead, InWindow, Dealt, Past, hpc] at hat hle hh ⊢ <;>
    omega

theorem passed_of_scattered (hlt : h < x.scattered) : 5 * h - 1 + 2 ≤ x.passed := by
  cases hpc : x.pc <;>
    simp [scattered, At, InHead, InWindow, Dealt, Past, hpc] at hat hlt ⊢ <;>
    omega

theorem arrived_of_scattered (hle : x.scattered ≤ h) : x.arrived ≤ 5 * h - 1 + 2 := by
  cases hpc : x.pc <;>
    simp [scattered, arrived, waiting, At, InHead, InWindow, Dealt, Past, hpc] at hat hle ⊢ <;>
    omega

theorem passed_of_tiled (hlt : h < x.tiled) : 5 * h - 1 + 3 ≤ x.passed := by
  cases hpc : x.pc <;>
    simp [tiled, At, InHead, InWindow, Dealt, Past, hpc] at hat hlt ⊢ <;>
    omega

theorem arrived_of_tiled (hle : x.tiled ≤ h) : x.arrived ≤ 5 * h - 1 + 3 := by
  cases hpc : x.pc <;>
    simp [tiled, arrived, waiting, At, InHead, InWindow, Dealt, Past, hpc] at hat hle ⊢ <;>
    omega

end Bounds

/-! ### A warp's actions -/

/-- What an action that touches nothing shared keeps. -/
structure Same (x x' : Reader) : Prop where
  window : x'.window = x.window
  k : x'.k = x.k
  knext : x'.knext = x.knext
  n : x'.n = x.n
  done : x'.done = x.done
  uses : x'.uses = x.uses
  resets : x'.resets = x.resets
  scattered : x'.scattered = x.scattered
  tiled : x'.tiled = x.tiled
  primed : x'.primed = x.primed
  ahead : x.done = true ∨ x'.ahead = x.ahead

theorem At.quiet (hat : x.At R) (hn : x.next R v = some (x', .quiet)) : x'.At R ∧ Same x x' := by
  cases hpc : x.pc <;> simp [next, hpc] at hn <;> simp [At, InHead, InWindow, Dealt, Past, hpc] at hat
  case counts | scans | order =>
    obtain ⟨-, rfl⟩ := hn
    exact ⟨by simpa [At, InHead] using hat,
      by constructor <;> simp [resets, scattered, tiled, primed, ahead, hpc]⟩
  case edge =>
    obtain ⟨-, rfl⟩ := hn
    exact ⟨by simpa [At, InWindow, Dealt] using hat,
      by constructor <;> simp [resets, scattered, tiled, primed, ahead, hpc]⟩
  case wait =>
    obtain ⟨-, rfl⟩ := hn
    refine ⟨by simpa [At, InWindow, Dealt] using ⟨hat.1, hat.2.1⟩,
      by constructor <;> simp [resets, scattered, tiled, primed, ahead, hpc]⟩
  case step =>
    obtain ⟨-, rfl⟩ : x.fullNow v (x.n % 2) = false ∧ x' = { x with pc := .wait } := by
      split at hn <;> simp_all
    exact ⟨by simpa [At, InWindow, Dealt] using hat,
      by constructor <;> simp [resets, scattered, tiled, primed, ahead, hpc]⟩
  case top =>
    subst hn
    by_cases hwin : x.win < R.windows
    · refine ⟨?_, by constructor <;> simp [resets, scattered, tiled, primed, ahead, hpc, hwin]⟩
      obtain hat | hat := hat
      · simpa [At, InWindow, Dealt, hwin] using hat
      · omega
    · refine ⟨?_, by constructor <;> simp [resets, scattered, tiled, primed, ahead, hpc, hwin]⟩
      obtain hat | hat := hat
      · omega
      · simpa [At, Past, Dealt, hwin] using hat
  case begin =>
    obtain ⟨hdone, rfl⟩ : x.done = true ∧ x' = { x with pc := .loop } := by
      split at hn <;> simp_all
    exact ⟨by simpa [At, InWindow, Dealt] using hat,
      by constructor <;> simp [resets, scattered, tiled, primed, ahead, hpc, hdone]⟩
  case loop =>
    split at hn
    · rename_i hdone
      split at hn
      · rename_i hwin
        simp only [Option.some.injEq, Prod.mk.injEq, and_true] at hn
        subst hn
        refine ⟨?_, by constructor <;> simp [resets, scattered, tiled, primed, ahead, hpc, hdone, hat.1.2.1]⟩
        simp [At, InHead, hdone, hwin]
        omega
      · simp only [Option.some.injEq, Prod.mk.injEq, and_true] at hn
        subst hn
        refine ⟨?_, by constructor <;> simp [resets, scattered, tiled, primed, ahead, hpc, hdone]⟩
        simp only [At, Dealt]
        refine ⟨hat.1.1, .inr ⟨hat.1.2.1, ?_, hat.2, hdone⟩⟩
        omega
    · rename_i hdone
      simp only [Option.some.injEq, Prod.mk.injEq, and_true] at hn
      subst hn
      refine ⟨?_, by constructor <;> simp [resets, scattered, tiled, primed, ahead, hpc]⟩
      simpa [At, InWindow, Dealt] using ⟨hat.1, hat.2, by simpa using hdone⟩
  case endEdge =>
    obtain ⟨-, rfl⟩ := hn
    refine ⟨?_, by constructor <;> simp [resets, scattered, tiled, primed, ahead, hpc]⟩
    obtain ⟨hdealt, ⟨hhead, hwin, hpassed⟩ | ⟨hhead, hwin, hpassed, hdone⟩⟩ := hat
    · refine .inl ⟨⟨hdealt, hhead, ?_⟩, ?_⟩ <;> dsimp only <;> omega
    · refine .inr ⟨hdealt, hwin, ?_, ?_, fun _ => hdone⟩ <;> dsimp only <;> omega

/-- What a warp's action does to what the warps share. -/
inductive Acts (R : ReadRun) (v : ReadSeen) (x : Reader) : Reader → ReadEffect → Prop
  | quiet {x' : Reader} : Acts R v x x' .quiet
  | reset (hpc : x.pc = .reset) : Acts R v x { x with pc := .counts } (.reset (x.head % 2))
  | scatter (hpc : x.pc = .scatter) : Acts R v x { x with pc := .order } (.scatter x.head)
  | tiles (hpc : x.pc = .tiles) : Acts R v x { x with pc := .prime } (.tiles x.head)
  | prime (hpc : x.pc = .prime) :
    Acts R v x (x.prime R (v.counter (x.head % 2))) (.take x.head (x.n % 2))
  | ahead (hpc : x.pc = .begin ∧ x.done = false ∨ x.pc = .take) :
    Acts R v x { x with pc := .loop, knext := v.counter (x.window % 2) } (.take x.window ((x.n + 1) % 2))
  | read (hpc : x.pc = .step) (hfull : x.fullNow v (x.n % 2) = true) :
    Acts R v x
      { x with
        pc := if R.tiles x.window ≤ x.knext then .loop else .take
        uses := bumpByte x.uses (8 * (x.n % 2)) false
        n := x.n + 1
        k := x.knext
        done := R.tiles x.window ≤ x.knext } (.read x.window x.k (x.n % 2))

theorem acts (hn : x.next R v = some (x', e)) : Acts R v x x' e := by
  cases hpc : x.pc <;> simp only [next, hpc] at hn
  case reset =>
    cases hn
    exact .reset hpc
  case scatter =>
    cases hn
    exact .scatter hpc
  case tiles =>
    cases hn
    exact .tiles hpc
  case prime =>
    cases hn
    exact .prime hpc
  case begin =>
    split at hn <;> cases hn
    · exact .quiet
    · rename_i hdone
      exact .ahead (.inl ⟨hpc, by simpa using hdone⟩)
  case take =>
    cases hn
    exact .ahead (.inr hpc)
  case step =>
    split at hn <;> cases hn
    · exact .read hpc (by assumption)
    · exact .quiet
  all_goals
    first
    | cases hn <;> exact .quiet
    | split at hn <;>
        first
        | cases hn <;> exact .quiet
        | split at hn <;> cases hn <;> exact .quiet

/-! ### What each keeps -/

variable {filled : ℕ → List TileCopy} {released dealt : ℕ → ℕ}

theorem holding_congr (hs : Same x x') (win : ℕ) : x'.holding win = x.holding win := by
  unfold holding
  rw [hs.window, hs.done, hs.k, hs.knext]
  obtain hdone | hahead := hs.ahead
  · simp [hdone]
  · rw [hahead]

theorem slotTile_congr (hs : Same x x') (r : ℕ) : x'.slotTile R r = x.slotTile R r := by
  unfold slotTile
  rw [hs.window, hs.done, hs.k, hs.knext, hs.n]
  obtain hdone | hahead := hs.ahead
  · simp [hdone]
  · rw [hahead]

/-- An action that keeps the stream. -/
theorem Ok.same (h : x.Ok R filled released dealt) (hat : x'.At R) (hs : Same x x') :
    x'.Ok R filled released dealt where
  at_ := hat
  cursor := by rw [hs.uses]; exact h.cursor
  slot r hr := by
    rw [hs.window, slotTile_congr hs]
    exact h.slot r hr
  spent := by
    rw [hs.primed, hs.window, hs.done]
    exact h.spent
  next hdone hahead := by
    rw [hs.done] at hdone
    rw [hs.window, hs.knext]
    refine h.next hdone ?_
    obtain hd | ha := hs.ahead
    · exact absurd hd (by simp [hdone])
    · rwa [ha] at hahead

/-- The slot a tile is issued into, holding none. -/
theorem SlotOk.issue {win k : ℕ} {fills : List TileCopy} {uses : ℕ} (h : SlotOk R win none fills uses) :
    SlotOk R win (some k) (fills ++ [⟨win, R.tileTokens win (R.orderOf win) k⟩]) uses := by
  have hlen : fills.length = uses := h
  subst hlen
  simp [SlotOk]

theorem SlotOk.use {win win' k : ℕ} {fills : List TileCopy} {uses : ℕ} (h : SlotOk R win (some k) fills uses) :
    SlotOk R win' none fills (uses + 1) := h.1

/-- The slots after a tile is taken: one more holds it, if it is a tile. -/
theorem slots_take {win k r : ℕ} {tile tile' : ℕ → Option ℕ} {copy : TileCopy}
    (hslot : ∀ s < 2, SlotOk R win (tile s) (filled s) (released s)) (hr : tile r = none)
    (hcopy : k < R.tiles win → copy = ⟨win, R.tileTokens win (R.orderOf win) k⟩)
    (htile : ∀ s < 2, tile' s = if s = r ∧ k < R.tiles win then some k else tile s) :
    ∀ s < 2, SlotOk R win (tile' s)
      ((if k < R.tiles win then Function.update filled r (filled r ++ [copy]) else filled) s) (released s) := by
  intro s hs
  rw [htile s hs]
  by_cases hk : k < R.tiles win
  · rcases eq_or_ne s r with rfl | hne
    · simp only [hk, and_self, if_true, Function.update_self, hcopy hk]
      exact SlotOk.issue (hr ▸ hslot s hs)
    · simpa [hk, hne] using hslot s hs
  · simpa [hk] using hslot s hs

@[simp] theorem prime_ahead (k : ℕ) : (x.prime R k).ahead = false := by
  unfold prime ahead
  dsimp only
  split_ifs <;> rfl

@[simp] theorem prime_primed (k : ℕ) : (x.prime R k).primed = x.head + 1 := by
  unfold prime primed
  dsimp only
  split_ifs <;> rfl

theorem prime_at (k : ℕ) (hhead : x.InHead R) (hpassed : x.passed = 5 * x.head - 1 + 3) : (x.prime R k).At R := by
  have hdealt : (x.prime R k).Dealt R := ⟨rfl, by simp [prime]⟩
  obtain ⟨hzero, hwin⟩ | ⟨hhead, hlt⟩ := hhead.2
  · have hpc : (x.prime R k).pc = .top := if_pos (by omega)
    simp only [At, hpc]
    by_cases hwindows : 0 < R.windows
    · refine .inl ⟨⟨hdealt, ?_, ?_⟩, ?_⟩ <;> dsimp only [prime] <;> omega
    · refine .inr ⟨hdealt, ?_, ?_, ?_, fun hpos => ?_⟩ <;> dsimp only [prime] at * <;> omega
  · have hpc : (x.prime R k).pc = .endEdge := if_neg (by omega)
    simp only [At, hpc]
    refine ⟨hdealt, .inl ⟨?_, hlt, ?_⟩⟩ <;> dsimp only [prime] <;> omega

/-- A tile is taken in the window's readout, or at its priming, into a slot that holds none. -/
theorem At.take {win r : ℕ} (hat : x.At R) (hacts : Acts R v x x' (.take win r)) :
    r < 2 ∧ x.slotTile R r = none ∧ (win < R.windows ∨ win = 0) ∧ 5 * win - 1 + 3 ≤ x.passed ∧
      x.arrived ≤ 5 * win + 4 := by
  cases hacts with
  | prime hpc =>
    simp only [At, InHead, hpc] at hat
    have harr : x.arrived = x.passed := by simp [arrived, waiting, hpc]
    exact ⟨Nat.mod_lt _ (by norm_num), by simp [slotTile, hat.1.1], by omega, by omega, by omega⟩
  | ahead hpc =>
    have harr : x.arrived = x.passed := by
      obtain ⟨hpc, -⟩ | hpc := hpc <;> simp [arrived, waiting, hpc]
    have hnext : x.ahead = false := by
      obtain ⟨hpc, -⟩ | hpc := hpc <;> simp [ahead, hpc]
    have hne : (x.n + 1) % 2 ≠ x.n % 2 := by omega
    obtain ⟨⟨⟨hwindow, -⟩, hhead, hwin⟩, hpassed⟩ : x.InWindow R ∧ x.passed = 5 * x.win + 4 := by
      obtain ⟨hpc, -⟩ | hpc := hpc <;> simp only [At, hpc] at hat
      · exact hat
      · exact ⟨hat.1, hat.2.1⟩
    refine ⟨Nat.mod_lt _ (by norm_num), ?_, by omega, by omega, by omega⟩
    simp only [slotTile, hne, hnext, if_false, Bool.false_eq_true, false_and, ite_self]

theorem Ok.mono {dealt' : ℕ → ℕ} (h : x.Ok R filled released dealt) (hle : ∀ win, dealt win ≤ dealt' win) :
    x.Ok R filled released dealt' where
  at_ := h.at_
  cursor := h.cursor
  slot := h.slot
  spent win hwin hpast := (h.spent win hwin hpast).trans_le (hle win)
  next hdone hahead := (h.next hdone hahead).trans_le (hle _)

/-- A tile taken and, if it is one, issued. -/
theorem Ok.take {win r : ℕ} (h : x.Ok R filled released dealt) (hacts : Acts R v x x' (.take win r))
    (hk : v.counter (win % 2) = dealt win) {copy : TileCopy}
    (hcopy : dealt win < R.tiles win → copy = ⟨win, R.tileTokens win (R.orderOf win) (dealt win)⟩) :
    x'.Ok R (if dealt win < R.tiles win then Function.update filled r (filled r ++ [copy]) else filled) released
      (Function.update dealt win (dealt win + 1)) := by
  have hnone := (h.at_.take hacts).2.1
  have hmono : ∀ i, dealt i ≤ Function.update dealt win (dealt win + 1) i := by
    intro i
    rcases eq_or_ne i win with rfl | hne <;> simp [*]
  cases hacts with
  | prime hpc =>
    have hat := h.at_
    simp only [At, hpc] at hat
    obtain ⟨hhead, hpassed⟩ := hat
    rw [hk]
    refine ⟨prime_at _ hhead hpassed, h.cursor, ?_, fun i hi hpast => ?_, fun _ hahead => ?_⟩
    · refine @Reader.slots_take _ _ _ _ _ _ (fun _ => none) _ _ (fun s hs => ?_) rfl hcopy fun s hs => ?_
      · have hslot := h.slot s hs
        simpa [slotTile, hhead.1, SlotOk] using hslot
      · simp only [slotTile, prime_ahead]
        by_cases hlt : dealt x.head < R.tiles x.head
        · simp [prime, hlt, Nat.not_le.2 hlt]
        · simp [prime, Nat.not_lt.1 hlt]
    · rw [prime_primed] at hi
      rcases Nat.lt_succ_iff_lt_or_eq.1 hi with hlt | rfl
      · exact (h.spent i (by simpa [primed, hpc] using hlt) (.inr hhead.1)).trans_le (hmono i)
      · rw [Function.update_self]
        have htiles : R.tiles x.head ≤ dealt x.head := by simpa [prime] using hpast
        omega
    · simp at hahead
  | ahead hpc =>
    have hat : x.InWindow R ∧ x.passed = 5 * x.win + 4 ∧ x.done = false := by
      have hat := h.at_
      obtain ⟨hpc, hdone⟩ | hpc := hpc
      · simp only [At, hpc] at hat
        exact ⟨hat.1, hat.2, hdone⟩
      · simpa only [At, hpc] using hat
    obtain ⟨hwin, hpassed, hdone⟩ := hat
    have hnext : x.ahead = false := by
      obtain ⟨hpc, -⟩ | hpc := hpc <;> simp [ahead, hpc]
    have hprimed : x.primed = x.head + 1 := by
      obtain ⟨hpc, -⟩ | hpc := hpc <;> simp [primed, hpc]
    rw [hk]
    refine ⟨⟨hwin, hpassed⟩, h.cursor, slots_take h.slot hnone hcopy fun s hs => ?_, fun i hi hpast => ?_, fun _ _ => ?_⟩
    · simp only [slotTile, hdone, hnext, Bool.false_eq_true, if_false, false_and]
      rcases eq_or_ne s (x.n % 2) with rfl | hne
      · rw [if_pos rfl, if_neg (by omega), if_pos rfl]
      · have heq : s = (x.n + 1) % 2 := by omega
        rw [if_neg hne, if_neg hne]
        simp [ahead, heq]
    · exact (h.spent i (by rw [hprimed]; exact hi) hpast).trans_le (hmono i)
    · simp

/-- A tile read out. -/
theorem Ok.read {win k r : ℕ} (h : x.Ok R filled released dealt) (hacts : Acts R v x x' (.read win k r)) :
    x.slotTile R r = some k ∧ r < 2 ∧ k < R.tiles win ∧
      x'.Ok R filled (Function.update released r (released r + 1)) dealt := by
  cases hacts with
  | read hpc hfull =>
    have hat := h.at_
    simp only [At, hpc] at hat
    obtain ⟨⟨hdealt, hhead, hwin⟩, hpassed, hdone⟩ := hat
    have hk : x.k < R.tiles x.window := by
      rw [← Nat.not_le, ← hdealt.2]
      simp [hdone]
    have hr : x.n % 2 < 2 := Nat.mod_lt _ (by norm_num)
    have htile : x.slotTile R (x.n % 2) = some x.k := by simp [slotTile, hdone]
    have hslot := h.slot _ hr
    rw [htile] at hslot
    refine ⟨htile, hr, hk, ?_, fun s hs => ?_, fun s hs => ?_, fun i hi hpast => ?_, fun hd ha => ?_⟩
    · by_cases hlast : R.tiles x.window ≤ x.knext
      · simp only [At, hlast, if_true]
        exact ⟨⟨⟨hdealt.1, by simp [hlast]⟩, hhead, hwin⟩, hpassed⟩
      · simp only [At, hlast, if_false]
        exact ⟨⟨⟨hdealt.1, by simp [hlast]⟩, hhead, hwin⟩, hpassed, by simp⟩
    · rw [byteOf_bumpByte (by omega) (by omega)]
      have hcursor := h.cursor s hs
      rcases eq_or_ne s (x.n % 2) with rfl | hne
      · simp only [if_true, Bool.false_eq_true, false_and, if_false, Function.update_self]
        omega
      · rw [if_neg hne, Function.update_of_ne hne, hcursor]
    · have hother := h.slot s hs
      have hahead : x.ahead = true := by simp [ahead, hpc]
      simp only [slotTile, hdone, hahead, Bool.false_eq_true, if_false, true_and] at hother
      rcases eq_or_ne s (x.n % 2) with rfl | hne
      · rw [Function.update_self]
        have hne : x.n % 2 ≠ (x.n + 1) % 2 := by omega
        by_cases hlast : R.tiles x.window ≤ x.knext
        · simpa [slotTile, hlast] using hslot.use
        · simpa [slotTile, hlast, hne, ahead] using hslot.use
      · rw [Function.update_of_ne hne]
        rw [if_neg hne] at hother
        have heq : s = (x.n + 1) % 2 := by omega
        by_cases hlast : R.tiles x.window ≤ x.knext
        · simpa [slotTile, hlast, Nat.not_lt.2 hlast] using hother
        · simpa [slotTile, hlast, heq, Nat.not_le.1 hlast] using hother
    · by_cases hlast : R.tiles x.window ≤ x.knext
      · have hi' : i ≤ x.window := by
          rw [hdealt.1]
          simpa [primed, hlast, Nat.lt_succ_iff] using hi
        rcases hi'.lt_or_eq with hlt | rfl
        · exact h.spent i (by simp only [primed, hpc]; rw [← hdealt.1]; omega) (.inl hlt)
        · exact hlast.trans_lt (h.next hdone (by simp [ahead, hpc]))
      · have hlt : i < x.window := by simpa [hlast] using hpast
        exact h.spent i (by simp only [primed, hpc]; rw [← hdealt.1]; omega) (.inl hlt)
    · by_cases hlast : R.tiles x.window ≤ x.knext
      · simp [hlast] at hd
      · simp [ahead, hlast] at ha

end Reader

end Rola
