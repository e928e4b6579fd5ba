import Rola.ReadEnd

/-!
# The snapshot at the window's edge

`head`, `window_loop` and `snapshot_publish` in `csrc/rola/src/carry/carry_kernel.cuh`: a head's last pass
ors its tiles' masks into `read_boxes`, and at the window's edge a warp writes its rows of the boxes it
finds there. A row, in the read order, is what the warp that owns its leaf holds of it.
-/

namespace Rola

open Readers

namespace Reader

/-- The windows whose edge a warp has published for. -/
def shown (x : Reader) : ℕ :=
  match x.pc with
  | .edge | .begin | .loop | .step | .take | .wait | .endEdge => x.win + 1
  | .top | .finished => x.win
  | .reset | .counts | .scans | .scatter | .order | .tiles | .prime => x.head

end Reader

/-- The masks of some tiles, or-ed. -/
def orBoxes (R : ReadRun) (tiles : List ℕ) (masks : ℕ → BitVec 16) (boxes : BitVec 32) : BitVec 32 :=
  tiles.foldl (fun boxes tile => boxes ||| (ReadWords.orTile R.plan masks (tile / (2 * R.plan.warps))
    (tile % (2 * R.plan.warps) / 2) (tile % 2)).setWidth 32) boxes

/-- Whose the snapshot's rows are, and what they are at a window's edge. -/
structure SnapRows (R : ReadRun) (α : Type) where
  owner : ℕ → Fin R.plan.warps
  held : ℕ → ℕ → α

/-- The readers over `read_boxes` and the snapshot; `sent` remembers the boxes a warp published a window by, `views`
what a tile was read against. -/
structure Snapshots (R : ReadRun) (α : Type) where
  readers : Of R
  boxes : ℕ → BitVec 32
  snap : ℕ → α
  sent : Fin R.plan.warps → ℕ → Option (BitVec 32)
  views : ℕ → List (ℕ × (ℕ → α))

namespace Snapshots

variable {R : ReadRun} {α : Type}

/-- Over whatever the shared memory holds. -/
def start (counter : ℕ → ℕ) (order tilemask : ℕ → ℕ → BitVec 16) (masks : ℕ → BitVec 16) (boxes : ℕ → BitVec 32)
    (snap : ℕ → α) : Snapshots R α :=
  ⟨.start counter order tilemask masks, boxes, snap, fun _ _ => none, fun _ => []⟩

variable (S : SnapRows R α)

/-- `snapshot_publish`, a warp's rows of the boxes in `read_boxes`. -/
def publish (π : Snapshots R α) (w : Fin R.plan.warps) (win : ℕ) : Snapshots R α :=
  let boxes := π.boxes (win % 2)
  { π with
    snap := fun row => if S.owner row = w ∧ boxes.getLsbD (row / 16) = true then S.held win row else π.snap row
    sent := Function.update π.sent w (Function.update (π.sent w) win (some boxes)) }

def effect (π : Snapshots R α) (w : Fin R.plan.warps) : ReadEffect → Snapshots R α
  | .quiet =>
    let x := π.readers.warp w
    if x.pc = .top ∧ x.win < R.windows ∧ 0 < R.live x.win then π.publish S w x.win else π
  | .reset parity => if w.val = 0 then { π with boxes := Function.update π.boxes parity 0#32 } else π
  | .scatter _ => π
  | .tiles win =>
    { π with boxes := Function.update π.boxes (win % 2) (orBoxes R (R.tileShare w) π.readers.masks (π.boxes (win % 2))) }
  | .take _ _ => π
  | .read win k _ => { π with views := Function.update π.views win (π.views win ++ [(k, π.snap)]) }

def perform (π : Snapshots R α) (w : Fin R.plan.warps) (x : Reader) (e : ReadEffect) : Snapshots R α :=
  { π.effect S w e with readers := π.readers.perform w x e }

/-- Warp `w` moves. -/
inductive Step (π : Snapshots R α) (w : Fin R.plan.warps) : Snapshots R α → Prop
  | act {x : Reader} {e : ReadEffect} (h : (π.readers.warp w).next R (π.readers.seen w) = some (x, e)) :
      Step π w (π.perform S w x e)
  | land {lane : Fin 32} {r : ℕ} (hr : r < 2) (h : π.readers.InFlight w lane r) :
      Step π w { π with
        readers := { π.readers with
          ring := Function.update π.readers.ring w (Function.update (π.readers.ring w) r ((π.readers.ring w r).land () lane)) } }

inductive Reachable (init : ℕ → α) : Snapshots R α → Prop
  | start (counter : ℕ → ℕ) (order tilemask : ℕ → ℕ → BitVec 16) (masks : ℕ → BitVec 16) (boxes : ℕ → BitVec 32) :
      Reachable init (start counter order tilemask masks boxes init)
  | step {π π' : Snapshots R α} {w : Fin R.plan.warps} (h : Reachable init π) (hstep : Step S π w π') : Reachable init π'

/-- A row once its owner has published `n` windows by the boxes in `sent`. -/
def rowAt (init : ℕ → α) (sent : ℕ → Option (BitVec 32)) (row : ℕ) : ℕ → α
  | 0 => init row
  | n + 1 => if (sent n).any fun boxes => boxes.getLsbD (row / 16) then S.held n row else rowAt init sent row n

end Snapshots

namespace ReadRun

/-- A box some tile of the window reads. -/
def ReadsBox (R : ReadRun) (win b : ℕ) : Prop := ∃ k < kTiles, (R.maskOf win k).getLsbD b = true

end ReadRun

/-! ### A reader's edges -/

namespace Reader

variable {R : ReadRun} {x x' : Reader} {v : ReadSeen} {e : ReadEffect} {h : ℕ}

theorem passed_of_shown (hat : x.At R) (hlt : h < x.shown) : 5 * h + 3 ≤ x.passed ∧ 5 * h + 4 ≤ x.arrived := by
  cases hpc : x.pc <;>
    simp [shown, arrived, waiting, At, InHead, InWindow, Dealt, Past, hpc] at hat hlt ⊢ <;>
    omega

theorem arrived_of_shown (hat : x.At R) (hle : x.shown ≤ h) : x.arrived ≤ 5 * h + 3 := by
  cases hpc : x.pc <;>
    simp [shown, arrived, waiting, At, InHead, InWindow, Dealt, Past, hpc] at hat hle ⊢ <;>
    omega

/-- An edge is published for at the window's top. -/
theorem next_shown (hat : x.At R) (hn : x.next R v = some (x', e)) :
    x'.shown = if x.pc = .top ∧ x.win < R.windows then x.shown + 1 else x.shown := by
  cases hpc : x.pc <;> simp only [next, hpc] at hn <;> simp only [At, InHead, InWindow, Dealt, Past, hpc] at hat
  case top =>
    cases hn
    by_cases hwin : x.win < R.windows <;> simp [shown, hpc, hwin]
  case loop =>
    split at hn
    · split at hn <;> cases hn <;> simp [shown, hpc]
    · cases hn
      simp [shown, hpc]
  case prime =>
    cases hn
    obtain ⟨-, hhead | hhead⟩ := hat.1 <;> simp [shown, hpc, prime, hhead]
  case finished => cases hn
  case step =>
    split at hn <;> cases hn
    · simp only [shown, hpc]
      split_ifs <;> simp_all
    · simp [shown, hpc]
  all_goals
    first
    | cases hn
      simp [shown, hpc]
    | split at hn <;> cases hn
      all_goals simp_all [shown]

/-- The tile masks and the counter's resets move at their own steps. -/
theorem next_tiled (hat : x.At R) (hn : x.next R v = some (x', e)) : x'.tiled = if x.pc = .tiles then x.tiled + 1 else x.tiled := by
  cases hpc : x.pc <;> simp only [next, hpc] at hn <;> simp only [At, InHead, InWindow, Dealt, Past, hpc] at hat
  case top =>
    cases hn
    by_cases hwin : x.win < R.windows <;> simp [tiled, hpc, hwin]
  case loop =>
    split at hn
    · split at hn <;> cases hn <;> simp [tiled, hpc, hat.1.2.1]
    · cases hn
      simp [tiled, hpc]
  case prime =>
    cases hn
    obtain ⟨-, hhead | hhead⟩ := hat.1 <;> simp [tiled, hpc, prime, hhead]
  case finished => cases hn
  case step =>
    split at hn <;> cases hn
    · simp only [tiled, hpc]
      split_ifs <;> simp_all
    · simp [tiled, hpc]
  all_goals
    first
    | cases hn
      simp [tiled, hpc]
    | split at hn <;> cases hn
      all_goals simp_all [tiled]

theorem next_resets (hat : x.At R) (hn : x.next R v = some (x', e)) :
    x'.resets = if x.pc = .reset then x.resets + 1 else x.resets := by
  cases hpc : x.pc <;> simp only [next, hpc] at hn <;> simp only [At, InHead, InWindow, Dealt, Past, hpc] at hat
  case top =>
    cases hn
    by_cases hwin : x.win < R.windows <;> simp [resets, hpc, hwin]
  case loop =>
    split at hn
    · split at hn <;> cases hn <;> simp [resets, hpc, hat.1.2.1]
    · cases hn
      simp [resets, hpc]
  case prime =>
    cases hn
    obtain ⟨-, hhead | hhead⟩ := hat.1 <;> simp [resets, hpc, prime, hhead]
  case finished => cases hn
  case step =>
    split at hn <;> cases hn
    · simp only [resets, hpc]
      split_ifs <;> simp_all
    · simp [resets, hpc]
  all_goals
    first
    | cases hn
      simp [resets, hpc]
    | split at hn <;> cases hn
      all_goals simp_all [resets]

end Reader

namespace Snapshots

variable {R : ReadRun} {α : Type} {S : SnapRows R α} {init : ℕ → α} {π π' : Snapshots R α} {w : Fin R.plan.warps} {win : ℕ}

/-! ### The boxes -/

theorem orBoxes_getLsbD (tiles : List ℕ) (masks : ℕ → BitVec 16) (boxes : BitVec 32) (b : ℕ) :
    (orBoxes R tiles masks boxes).getLsbD b = true ↔ boxes.getLsbD b = true ∨ ∃ k ∈ tiles, (ReadWords.orTile R.plan masks
      (k / (2 * R.plan.warps)) (k % (2 * R.plan.warps) / 2) (k % 2)).getLsbD b = true := by
  unfold orBoxes
  induction tiles generalizing boxes with
  | nil => simp
  | cons k tiles ih =>
    have hwide : ∀ m : BitVec 16, (m.setWidth 32).getLsbD b = true ↔ m.getLsbD b = true := by
      intro m
      rw [BitVec.getLsbD_setWidth, Bool.and_eq_true, decide_eq_true_eq]
      exact and_iff_right_of_imp fun h => (BitVec.lt_of_getLsbD h).trans (by decide)
    rw [List.foldl_cons, ih, BitVec.getLsbD_or, Bool.or_eq_true, hwide]
    simp [or_assoc]

/-- Published by the same boxes. -/
theorem rowAt_congr {sent sent' : ℕ → Option (BitVec 32)} {row n : ℕ} (h : ∀ i < n, sent' i = sent i) :
    rowAt S init sent' row n = rowAt S init sent row n := by
  induction n with
  | zero => rfl
  | succ n ih => rw [rowAt, rowAt, h n (Nat.lt_succ_self n), ih fun i hi => h i (Nat.lt_succ_of_lt hi)]

/-- What a warp published a window by: some of the boxes read, its own tiles' among them; past the first window all. -/
structure Sent (R : ReadRun) (w : Fin R.plan.warps) (win : ℕ) (boxes : BitVec 32) : Prop where
  read : ∀ b, boxes.getLsbD b = true → R.ReadsBox win b
  own : ∀ k < kTiles, R.tileOwner k = w → ∀ b, (R.maskOf win k).getLsbD b = true → boxes.getLsbD b = true
  later : 0 < win → ∀ b, R.ReadsBox win b → boxes.getLsbD b = true

/-- The snapshot as the tiles of window `win` are read against it. -/
def viewOf (S : SnapRows R α) (init : ℕ → α) (π : Snapshots R α) (win : ℕ) : ℕ → α := fun row =>
  rowAt S init (π.sent (S.owner row)) row (win + 1)

structure Inv (S : SnapRows R α) (init : ℕ → α) (π : Snapshots R α) : Prop where
  readers : π.readers.Inv
  boxes : ∀ w, w.val = 0 → ∀ win, win < (π.readers.warp w).resets → (π.readers.warp w).resets ≤ win + 2 → ∀ b,
    (π.boxes (win % 2)).getLsbD b = true ↔
      ∃ k < kTiles, win < (π.readers.warp (R.tileOwner k)).tiled ∧ (R.maskOf win k).getLsbD b = true
  snap : ∀ row, π.snap row = rowAt S init (π.sent (S.owner row)) row (π.readers.warp (S.owner row)).shown
  sent : ∀ w win, win < (π.readers.warp w).shown → 0 < R.live win → ∃ boxes, π.sent w win = some boxes ∧ Sent R w win boxes
  unsent : ∀ w win, (π.readers.warp w).shown ≤ win ∨ R.live win = 0 → π.sent w win = none
  tiles : ∀ win, (π.views win).map Prod.fst = (π.readers.reads win).map TileRead.tile
  views : ∀ win, ∀ v ∈ π.views win, (∀ w, win < (π.readers.warp w).shown) ∧ v.2 = viewOf S init π win

theorem Inv.start (counter : ℕ → ℕ) (order tilemask : ℕ → ℕ → BitVec 16) (masks : ℕ → BitVec 16) (boxes : ℕ → BitVec 32) :
    (start counter order tilemask masks boxes init : Snapshots R α).Inv S init where
  readers := .start counter order tilemask masks
  boxes w _ win hlt := by simp [Snapshots.start, Readers.start, Reader.start, Reader.resets] at hlt
  snap _ := rfl
  sent w win hlt := by simp [Snapshots.start, Readers.start, Reader.start, Reader.shown] at hlt
  unsent _ _ _ := rfl
  tiles _ := rfl
  views win v hv := by simp [Snapshots.start] at hv

/-- A step that moves none of the marks. -/
theorem Inv.frame (h : π.Inv S init) {σ : Of R} (hinv : σ.Inv) (hshown : ∀ w, (σ.warp w).shown = (π.readers.warp w).shown)
    (htiled : ∀ w, (σ.warp w).tiled = (π.readers.warp w).tiled)
    (hresets : ∀ w, w.val = 0 → (σ.warp w).resets = (π.readers.warp w).resets) (hreads : σ.reads = π.readers.reads) :
    ({ π with readers := σ } : Snapshots R α).Inv S init where
  readers := hinv
  boxes w hw win := by
    dsimp only
    rw [hresets w hw]
    simp only [htiled]
    exact h.boxes w hw win
  snap row := by
    dsimp only
    rw [hshown]
    exact h.snap row
  sent w win := by
    dsimp only
    rw [hshown]
    exact h.sent w win
  unsent w win := by
    dsimp only
    rw [hshown]
    exact h.unsent w win
  tiles win := by
    dsimp only
    rw [hreads]
    exact h.tiles win
  views win v hv := by
    dsimp only
    simp only [hshown]
    exact h.views win v hv

/-- A mark a warp's action leaves. -/
theorem mark_same {x : Reader} {e : ReadEffect} {f : Reader → ℕ} (hf : f x = f (π.readers.warp w)) (w' : Fin R.plan.warps) :
    f ((π.readers.perform w x e).warp w') = f (π.readers.warp w') :=
  congrFun (@update_same R π.readers w ℕ f x hf) w'

theorem mark_other {x : Reader} {e : ReadEffect} {w' : Fin R.plan.warps} (hne : w' ≠ w) :
    (π.readers.perform w x e).warp w' = π.readers.warp w' := Function.update_of_ne hne _ _

theorem mark_self {x : Reader} {e : ReadEffect} : (π.readers.perform w x e).warp w = x := Function.update_self _ _ _

section Act

variable {x : Reader} {e : ReadEffect} (h : π.Inv S init) (hn : (π.readers.warp w).next R (π.readers.seen w) = some (x, e))
include h hn

theorem Inv.act_readers : (π.readers.perform w x e).Inv := h.readers.step (.act hn)

/-- An action on the order, the ring or nothing. -/
theorem Inv.still (heffect : π.effect S w e = π) (he : ∀ win k r, e ≠ .read win k r)
    (htop : ¬ ((π.readers.warp w).pc = .top ∧ (π.readers.warp w).win < R.windows)) (htiles : (π.readers.warp w).pc ≠ .tiles)
    (hreset : w.val = 0 → (π.readers.warp w).pc ≠ .reset) : (π.perform S w x e).Inv S init := by
  have hat := (h.readers.warp w).at_
  have hshown := Reader.next_shown hat hn
  have htiled := Reader.next_tiled hat hn
  have hresets := Reader.next_resets hat hn
  rw [if_neg htop] at hshown
  rw [if_neg htiles] at htiled
  rw [perform, heffect]
  refine h.frame (h.act_readers hn) (mark_same hshown) (mark_same htiled) (fun w' hw' => ?_) (unread_effect hn he).reads
  rcases eq_or_ne w' w with rfl | hne
  · rw [if_neg (hreset hw')] at hresets
    exact mark_same hresets w'
  · rw [mark_other hne]

omit hn in
/-- At a window's edge the boxes are those its tiles had or-ed by then. -/
theorem Inv.boxes_top (hpc : (π.readers.warp w).pc = .top) (hwin : (π.readers.warp w).win < R.windows) :
    Sent R w (π.readers.warp w).win (π.boxes ((π.readers.warp w).win % 2)) := by
  have hat := (h.readers.warp w).at_
  have harr : (π.readers.warp w).arrived = (π.readers.warp w).passed := by simp [Reader.arrived, Reader.waiting, hpc]
  obtain ⟨hin, hpassed⟩ : (π.readers.warp w).InWindow R ∧ (π.readers.warp w).passed = 5 * (π.readers.warp w).win + 3 := by
    simp only [Reader.At, hpc] at hat
    refine hat.resolve_right fun hpast => ?_
    have := hpast.2.1
    omega
  have hown : (π.readers.warp w).tiled = (π.readers.warp w).win + 1 := by
    have := hin.2.1
    simp [Reader.tiled, hpc, this]
  obtain ⟨hlow, hhigh⟩ := h.readers.resets_near (w := w) (.inl hwin) (by omega) (by omega) ⟨0, R.plan.warps_pos⟩
  have hboxes := h.boxes ⟨0, R.plan.warps_pos⟩ rfl _ hlow hhigh
  refine ⟨fun b hb => ?_, fun k hk hkw b hb => ?_, fun hpos b hb => ?_⟩
  · obtain ⟨k, hk, -, hmask⟩ := (hboxes b).1 hb
    exact ⟨k, hk, hmask⟩
  · refine (hboxes b).2 ⟨k, hk, ?_, hb⟩
    rw [hkw]
    omega
  · obtain ⟨k, hk, hmask⟩ := hb
    exact (hboxes b).2 ⟨k, hk, (h.readers.tiled_near (w := w) (by omega) (by omega) _).1, hmask⟩

/-- A warp at a window's top, past the last or not. -/
theorem Inv.top (hpc : (π.readers.warp w).pc = .top) (hwin : (π.readers.warp w).win < R.windows) :
    (π.perform S w x e).Inv S init := by
  have hat := (h.readers.warp w).at_
  have hshown := Reader.next_shown hat hn
  have htiled := Reader.next_tiled hat hn
  have hresets := Reader.next_resets hat hn
  have hold : (π.readers.warp w).shown = (π.readers.warp w).win := by simp [Reader.shown, hpc]
  rw [if_pos ⟨hpc, hwin⟩, hold] at hshown
  rw [if_neg (by simp [hpc])] at htiled hresets
  obtain rfl : e = .quiet := by
    simp only [Reader.next, hpc] at hn
    cases hn
    rfl
  have hshow : ∀ w', ((π.readers.perform w x .quiet).warp w').shown =
      if w' = w then (π.readers.warp w).win + 1 else (π.readers.warp w').shown := by
    intro w'
    rcases eq_or_ne w' w with rfl | hne
    · rw [mark_self, hshown, if_pos rfl]
    · rw [mark_other hne, if_neg hne]
  obtain ⟨sent', hsent', heffect⟩ : ∃ sent', (∀ w' i, sent' w' i = if w' = w ∧ i = (π.readers.warp w).win ∧ 0 < R.live i then
        some (π.boxes ((π.readers.warp w).win % 2)) else π.sent w' i) ∧
      π.perform S w x .quiet = { π with
        readers := π.readers.perform w x .quiet
        snap := fun row => if S.owner row = w ∧ 0 < R.live (π.readers.warp w).win ∧
            (π.boxes ((π.readers.warp w).win % 2)).getLsbD (row / 16) = true then S.held (π.readers.warp w).win row else π.snap row
        sent := sent' } := by
    by_cases hlive : 0 < R.live (π.readers.warp w).win
    · refine ⟨Function.update π.sent w (Function.update (π.sent w) (π.readers.warp w).win
        (some (π.boxes ((π.readers.warp w).win % 2)))), fun w' i => ?_, ?_⟩
      · rcases eq_or_ne w' w with rfl | hne
        · rcases eq_or_ne i (π.readers.warp w').win with rfl | hi
          · simp [hlive]
          · simp [hi]
        · simp [hne]
      · simp [perform, effect, publish, hpc, hwin, hlive]
    · refine ⟨π.sent, fun w' i => ?_, ?_⟩
      · rw [if_neg]
        rintro ⟨-, rfl, hpos⟩
        exact hlive hpos
      · simp [perform, effect, hlive]
  have hbefore : ∀ w' i, i < (π.readers.warp w').shown → sent' w' i = π.sent w' i := by
    intro w' i hi
    rw [hsent', if_neg]
    rintro ⟨rfl, rfl, -⟩
    omega
  rw [heffect]
  refine ⟨h.act_readers hn, fun w' hw' win => ?_, fun row => ?_, fun w' win hlt hlive => ?_, fun w' win hle => ?_, h.tiles,
    fun win v hv => ?_⟩
  · dsimp only
    simp only [mark_same htiled, mark_same hresets]
    exact h.boxes w' hw' win
  · dsimp only
    rw [hshow]
    by_cases hrow : S.owner row = w
    · rw [if_pos hrow, rowAt, hrow, hsent']
      have hrest := h.snap row
      rw [hrow, hold] at hrest
      rw [rowAt_congr fun i hi => hbefore w i (by omega), ← hrest]
      by_cases hlive : 0 < R.live (π.readers.warp w).win
      · simp [hlive]
      · have hnone := h.unsent w (π.readers.warp w).win (.inl hold.le)
        simp [hlive, hnone]
    · rw [if_neg fun hin => hrow hin.1, if_neg hrow, rowAt_congr fun i hi => hbefore _ i hi]
      exact h.snap row
  · dsimp only at hlt ⊢
    rw [hshow] at hlt
    rw [hsent']
    split
    · rename_i hin
      obtain ⟨rfl, rfl, -⟩ := hin
      exact ⟨_, rfl, h.boxes_top hpc hwin⟩
    · rename_i hout
      refine h.sent w' win ?_ hlive
      split at hlt
      · rename_i heq
        subst heq
        have hne : win ≠ (π.readers.warp w').win := fun hwin => hout ⟨rfl, hwin, hlive⟩
        omega
      · exact hlt
  · dsimp only at hle ⊢
    rw [hshow] at hle
    rw [hsent', if_neg]
    · refine h.unsent w' win (hle.imp_left fun hle => ?_)
      split at hle
      · rename_i heq
        subst heq
        omega
      · exact hle
    · rintro ⟨rfl, rfl, hlive⟩
      rw [if_pos rfl] at hle
      omega
  · obtain ⟨hall, hview⟩ := h.views win v hv
    refine ⟨fun w' => ?_, hview.trans (funext fun row => ?_)⟩
    · dsimp only
      rw [hshow]
      split
      · rename_i heq
        subst heq
        exact (hall w').trans (by omega)
      · exact hall w'
    · exact (rowAt_congr fun i hi => hbefore _ i (by have := hall (S.owner row); omega)).symm

end Act

end Snapshots

end Rola
