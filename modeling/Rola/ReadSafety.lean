import Rola.ReadInv
import Rola.SharedBuffer

/-!
# The readout stream is safe

Over every order of the warps' moves: a window's order and tile masks stand from its head's edge to its
readout's end, its counter deals each number once, and a tile taken is held by one warp until that warp
reads it, off the copies of that tile.
-/

namespace Rola

open PhasedBarrier SharedBuffer

namespace Reader

variable {R : ReadRun} {x x' : Reader} {v : ReadSeen} {e : ReadEffect}

/-- A warp passes a rendezvous it has come to when all have. -/
theorem next_passed (hn : x.next R v = some (x', e)) : x.arrived ≤ x'.arrived ∧
    (x'.passed = x.passed ∨ v.met = true ∧ x.waiting = true ∧ x'.passed = x.passed + 1) := by
  cases hpc : x.pc <;> simp only [next, hpc] at hn
  case loop =>
    split at hn
    · split at hn <;> cases hn <;> simp [arrived, waiting, hpc]
    · cases hn
      simp [arrived, waiting, hpc]
  case prime =>
    cases hn
    simp [arrived, waiting, hpc, prime]
  case finished => cases hn
  all_goals
    first
    | cases hn
      simp [arrived, waiting, hpc]
    | split at hn <;> cases hn
      all_goals simp_all [arrived, waiting]

/-! ### The tiles held -/

variable {filled : ℕ → List TileCopy} {released dealt : ℕ → ℕ} {i t : ℕ}

theorem prime_holding (k : ℕ) :
    (x.prime R k).holding i = if x.head = i ∧ k < R.tiles x.head then [k] else [] := by
  rw [holding, prime_ahead]
  simp [prime]

theorem Ok.holding_take {win r : ℕ} (h : x.Ok R filled released dealt) (hacts : Acts R v x x' (.take win r))
    (ht : t < R.tiles i) :
    (x'.holding i).count t =
      (x.holding i).count t + if win = i ∧ v.counter (win % 2) = t then 1 else 0 := by
  have hat := h.at_
  cases hacts with
  | prime hpc =>
    simp only [At, hpc] at hat
    have hnone : x.holding i = [] := by simp [holding, hat.1.1]
    rw [hnone, prime_holding]
    rcases eq_or_ne x.head i with rfl | hne
    · rcases eq_or_ne (v.counter (x.head % 2)) t with rfl | hne
      · simp [ht]
      · by_cases hlt : v.counter (x.head % 2) < R.tiles x.head <;> simp [hlt, hne]
    · simp [hne]
  | ahead hpc =>
    have hold : x.done = false ∧ x.ahead = false := by
      obtain ⟨hpc, hdone⟩ | hpc := hpc
      · exact ⟨hdone, by simp [ahead, hpc]⟩
      · simp only [At, hpc] at hat
        exact ⟨hat.2.2, by simp [ahead, hpc]⟩
    rcases eq_or_ne x.window i with rfl | hne
    · simp only [holding, hold.1, hold.2, and_self, if_true, Bool.false_eq_true, if_false]
      simp [ahead, List.count_cons, Nat.add_comm]
    · simp [holding, hne]

theorem holding_read {win k r : ℕ} (hat : x.At R) (hacts : Acts R v x x' (.read win k r)) (ht : t < R.tiles i) :
    (x.holding i).count t = (x'.holding i).count t + if win = i ∧ k = t then 1 else 0 := by
  cases hacts with
  | read hpc hfull =>
    simp only [At, hpc] at hat
    rcases eq_or_ne x.window i with rfl | hne
    · by_cases hlast : R.tiles x.window ≤ x.knext
      · have hne : x.knext ≠ t := by omega
        simp [holding, hat.2.2, ahead, hpc, hlast, List.count_cons, hne]
      · simp [holding, hat.2.2, ahead, hpc, hlast, List.count_cons]
    · simp [holding, hne]

end Reader

namespace ReadRun

/-- The warp of a token and of a tile. -/
def owner (R : ReadRun) (t : ℕ) : Fin R.plan.warps := ⟨t / 32 % R.plan.warps, Nat.mod_lt _ R.plan.warps_pos⟩

def tileOwner (R : ReadRun) (k : ℕ) : Fin R.plan.warps :=
  ⟨k % (2 * R.plan.warps) / 2, by
    have := Nat.mod_lt k (show 0 < 2 * R.plan.warps from Nat.mul_pos two_pos R.plan.warps_pos)
    omega⟩

end ReadRun

namespace Readers

variable {R : ReadRun} {σ σ' : Of R} {w : Fin R.plan.warps}

/-- A window's tile as one warp read it. -/
structure ReadOk (R : ReadRun) (win : ℕ) (e : TileRead R.plan.warps) : Prop where
  tile : e.tile < R.tiles win
  mask : e.mask = R.maskOf win e.tile
  tokens : e.tokens = R.tileTokens win (R.orderOf win) e.tile
  staged : ∀ lane, e.staged lane = some ⟨win, e.tokens⟩

structure Inv (σ : Of R) : Prop where
  slot : ∀ w, ∀ r < 2, (σ.ring w r).Inv
  warp : ∀ w, (σ.warp w).Ok R (fun r => (σ.ring w r).filled ()) (fun r => (σ.ring w r).released ())
    fun win => (σ.deals win).length
  met : ∀ w w', (σ.warp w).passed ≤ (σ.warp w').arrived
  order : Holds 2 {t | t < window} R.owner (fun win t => (R.words win).rank R.plan t) (fun _ t => BitVec.ofNat 16 t)
    (fun w => (σ.warp w).scattered) σ.order
  masks : Holds 1 {t | t < window} R.owner (fun win t => (R.words win).rank R.plan t)
    (fun win t => ((R.words win).mask R.plan (t / 32) (t % 32)).setWidth 16)
    (fun w => (σ.warp w).scattered) fun _ => σ.masks
  tilemask : Holds 2 {k | k < kTiles} R.tileOwner (fun _ k => k) R.maskOf (fun w => (σ.warp w).tiled) σ.tilemask
  counter : ∀ w, w.val = 0 → ∀ win, win < (σ.warp w).resets → (σ.warp w).resets ≤ win + 2 →
    σ.counter (win % 2) = (σ.deals win).length
  undealt : ∀ w, w.val = 0 → ∀ win, (σ.warp w).resets ≤ win → σ.deals win = []
  dealt : ∀ win, (σ.deals win).map Prod.snd = List.range (σ.deals win).length
  held : ∀ win w, ∀ t < R.tiles win, (σ.deals win).count (w, t) =
    ((σ.reads win).map fun e => (e.warp, e.tile)).count (w, t) + ((σ.warp w).holding win).count t
  reads : ∀ win, ∀ e ∈ σ.reads win, ReadOk R win e

theorem Inv.start (counter : ℕ → ℕ) (order tilemask : ℕ → ℕ → BitVec 16) (masks : ℕ → BitVec 16) :
    (start counter order tilemask masks : Of R).Inv where
  slot _ _ _ := Slot.Inv.fresh
  warp _ := by
    refine ⟨?_, fun r hr => ?_, fun r hr => ?_, fun win hwin => ?_, fun hdone => ?_⟩
    · simp [Readers.start, Reader.start, Reader.At, Reader.InHead]
    · obtain rfl | rfl : r = 0 ∨ r = 1 := by omega
      all_goals
        change byteOf 0 _ % 2 = 0
        decide
    · simp [Readers.start, Reader.start, Reader.slotTile, Reader.SlotOk, Slot.fresh]
    · simp [Readers.start, Reader.start, Reader.primed] at hwin
    · simp [Readers.start, Reader.start] at hdone
  met _ _ := le_rfl
  order := .start fun _ => rfl
  masks := .start fun _ => rfl
  tilemask := .start fun _ => rfl
  counter _ _ win hlt := by simp [Readers.start, Reader.start, Reader.resets] at hlt
  undealt _ _ _ _ := rfl
  dealt _ := rfl
  held _ _ _ _ := by simp [Readers.start, Reader.start, Reader.holding]
  reads _ e he := by simp [Readers.start] at he

/-! ### Where the others are -/

namespace Inv

variable (h : σ.Inv)
include h

/-- From its head's order to its readout's end, a window is every warp's last but one at most. -/
theorem scattered_near {win : ℕ} (hlow : 5 * win - 1 + 3 ≤ (σ.warp w).passed)
    (hhigh : (σ.warp w).arrived ≤ 5 * win + 4) (w' : Fin R.plan.warps) :
    win < (σ.warp w').scattered ∧ (σ.warp w').scattered ≤ win + 2 := by
  have hpassed := h.met w w'
  have harr := h.met w' w
  constructor
  · by_contra hle
    have := Reader.arrived_of_scattered (h.warp w').at_ (Nat.not_lt.1 hle)
    omega
  · by_contra hlt
    have := Reader.passed_of_scattered (h.warp w').at_ (Nat.not_le.1 hlt)
    omega

theorem tiled_near {win : ℕ} (hlow : 5 * win - 1 + 4 ≤ (σ.warp w).passed)
    (hhigh : (σ.warp w).arrived ≤ 5 * win + 4) (w' : Fin R.plan.warps) :
    win < (σ.warp w').tiled ∧ (σ.warp w').tiled ≤ win + 2 := by
  have hpassed := h.met w w'
  have harr := h.met w' w
  constructor
  · by_contra hle
    have := Reader.arrived_of_tiled (h.warp w').at_ (Nat.not_lt.1 hle)
    omega
  · by_contra hlt
    have := Reader.passed_of_tiled (h.warp w').at_ (Nat.not_le.1 hlt)
    omega

theorem resets_near {win : ℕ} (hwin : win < R.windows ∨ win = 0) (hlow : 5 * win - 1 + 3 ≤ (σ.warp w).passed)
    (hhigh : (σ.warp w).arrived ≤ 5 * win + 4) (w' : Fin R.plan.warps) :
    win < (σ.warp w').resets ∧ (σ.warp w').resets ≤ win + 2 := by
  have hpassed := h.met w w'
  have harr := h.met w' w
  constructor
  · by_contra hle
    have := Reader.arrived_of_resets (h.warp w').at_ hwin (Nat.not_lt.1 hle)
    omega
  · by_contra hlt
    have := Reader.passed_of_resets (h.warp w').at_ (Nat.not_le.1 hlt)
    omega

/-- The order a window's tiles are read in. -/
theorem order_eq {win : ℕ} (hlow : 5 * win - 1 + 3 ≤ (σ.warp w).passed)
    (hhigh : (σ.warp w).arrived ≤ 5 * win + 4) {r : ℕ} (hr : r < window) :
    σ.order (win % 2) r = R.orderOf win r :=
  R.orderOf_eq (fun _ ht => h.order.whole (fun w' => (h.scattered_near hlow hhigh w').1)
    (fun w' => (h.scattered_near hlow hhigh w').2) ht) hr

theorem tilemask_eq {win k : ℕ} (hlow : 5 * win - 1 + 4 ≤ (σ.warp w).passed)
    (hhigh : (σ.warp w).arrived ≤ 5 * win + 4) (hk : k < kTiles) : σ.tilemask (win % 2) k = R.maskOf win k :=
  h.tilemask.whole (fun w' => (h.tiled_near hlow hhigh w').1) (fun w' => (h.tiled_near hlow hhigh w').2) hk

theorem counter_eq {win : ℕ} (hwin : win < R.windows ∨ win = 0) (hlow : 5 * win - 1 + 3 ≤ (σ.warp w).passed)
    (hhigh : (σ.warp w).arrived ≤ 5 * win + 4) : σ.counter (win % 2) = (σ.deals win).length := by
  have hnear := h.resets_near hwin hlow hhigh ⟨0, R.plan.warps_pos⟩
  exact h.counter _ rfl win hnear.1 hnear.2

/-- The masks the tile masks are or-ed from. -/
theorem masks_eq (hpc : (σ.warp w).pc = .tiles) {r : ℕ} (hr : r < window) :
    σ.masks r = R.masksOf (σ.warp w).head r := by
  have hat := (h.warp w).at_
  simp only [Reader.At, hpc] at hat
  have harr : (σ.warp w).arrived = (σ.warp w).passed := by simp [Reader.arrived, Reader.waiting, hpc]
  have hnear : ∀ w', (σ.warp w).head < (σ.warp w').scattered ∧ (σ.warp w').scattered ≤ (σ.warp w).head + 1 := by
    intro w'
    refine ⟨(h.scattered_near (w := w) (by omega) (by omega) w').1, ?_⟩
    by_contra hlt
    have := Reader.passed_of_scattered (h.warp w').at_ (Nat.not_le.1 hlt)
    have := h.met w' w
    omega
  obtain ⟨t, ht, rfl⟩ := R.exists_rank (σ.warp w).head hr
  rw [ReadRun.masksOf_rank ht]
  exact h.masks.whole (fun w' => (hnear w').1) (fun w' => (hnear w').2) ht

end Inv

/-! ### The steps -/

theorem orTiles_apply (tiles : List ℕ) (masks tilemask : ℕ → BitVec 16) (k : ℕ) :
    orTiles R tiles masks tilemask k = if k ∈ tiles then
      ReadWords.orTile R.plan masks (k / (2 * R.plan.warps)) (k % (2 * R.plan.warps) / 2) (k % 2)
    else tilemask k := by
  unfold orTiles
  induction tiles generalizing tilemask with
  | nil => simp
  | cons tile tiles ih =>
    rw [List.foldl_cons, ih]
    by_cases hmem : k ∈ tiles
    · simp [hmem]
    · rcases eq_or_ne k tile with rfl | hne
      · simp [hmem]
      · simp [hmem, hne]

/-- A warp's action leaves every warp short of the rendezvous others have come to. -/
theorem Inv.met_update (h : σ.Inv) {x : Reader} {e : ReadEffect}
    (hn : (σ.warp w).next R (σ.seen w) = some (x, e)) (w₁ w₂ : Fin R.plan.warps) :
    (Function.update σ.warp w x w₁).passed ≤ (Function.update σ.warp w x w₂).arrived := by
  obtain ⟨harr, hpassed⟩ := Reader.next_passed hn
  have hright : ∀ n, n ≤ (σ.warp w₂).arrived → n ≤ (Function.update σ.warp w x w₂).arrived := by
    intro n hle
    rcases eq_or_ne w₂ w with rfl | hne
    · simpa using hle.trans harr
    · simpa [hne] using hle
  refine hright _ ?_
  rcases eq_or_ne w₁ w with rfl | hne
  · rw [Function.update_self]
    rcases hpassed with heq | ⟨hmet, -, heq⟩
    · exact heq ▸ h.met w₁ w₂
    · have hall : ∀ w', (σ.warp w₁).passed < (σ.warp w').arrived := by simpa [seen] using hmet
      exact heq ▸ hall w₂
  · simpa [hne] using h.met w₁ w₂

/-- A field of one warp, the others' as they were. -/
theorem update_comp {α : Type} (f : Reader → α) (x : Reader) :
    (fun w' => f (Function.update σ.warp w x w')) = Function.update (fun w' => f (σ.warp w')) w (f x) := by
  funext w'
  rcases eq_or_ne w' w with rfl | hne
  · simp
  · simp [hne]

/-- A warp moves, and keeps the marks the shared buffers go by. -/
theorem update_same {α : Type} (f : Reader → α) {x : Reader} (hx : f x = f (σ.warp w)) :
    (fun w' => f (Function.update σ.warp w x w')) = fun w' => f (σ.warp w') := by
  rw [update_comp, hx, Function.update_eq_self w fun w' => f (σ.warp w')]

/-- The rings after a take: one fill more in the taker's slot, if a tile is issued. -/
theorem ring_take (w : Fin R.plan.warps) (issued : Prop) [Decidable issued] (r : ℕ) (copy : TileCopy) :
    (fun s => ((if issued then Function.update σ.ring w (Function.update (σ.ring w) r
        ((σ.ring w r).issue () copy)) else σ.ring) w s).filled ()) =
      (if issued then Function.update (fun s => (σ.ring w s).filled ()) r ((σ.ring w r).filled () ++ [copy])
        else fun s => (σ.ring w s).filled ()) ∧
    (fun s => ((if issued then Function.update σ.ring w (Function.update (σ.ring w) r
        ((σ.ring w r).issue () copy)) else σ.ring) w s).released ()) =
      (fun s => (σ.ring w s).released ()) ∧
    ∀ w' ≠ w, (if issued then Function.update σ.ring w (Function.update (σ.ring w) r
        ((σ.ring w r).issue () copy)) else σ.ring) w' = σ.ring w' := by
  by_cases hissued : issued
  · simp only [hissued, if_true, Function.update_self]
    refine ⟨funext fun s => ?_, funext fun s => ?_, fun w' hne => Function.update_of_ne hne _ _⟩
    · rcases eq_or_ne s r with rfl | hne
      · simp [Slot.issue]
      · simp [hne]
    · rcases eq_or_ne s r with rfl | hne
      · simp [Slot.issue]
      · simp [hne]
  · simp [hissued]

namespace Inv

variable (h : σ.Inv) {x : Reader}
include h

theorem order_same (hx : x.scattered = (σ.warp w).scattered) :
    Holds 2 {t | t < window} R.owner (fun win t => (R.words win).rank R.plan t) (fun _ t => BitVec.ofNat 16 t)
      (fun w' => (Function.update σ.warp w x w').scattered) σ.order := by
  rw [update_same Reader.scattered hx]
  exact h.order

theorem masks_same (hx : x.scattered = (σ.warp w).scattered) :
    Holds 1 {t | t < window} R.owner (fun win t => (R.words win).rank R.plan t)
      (fun win t => ((R.words win).mask R.plan (t / 32) (t % 32)).setWidth 16)
      (fun w' => (Function.update σ.warp w x w').scattered) fun _ => σ.masks := by
  rw [update_same Reader.scattered hx]
  exact h.masks

theorem tilemask_same (hx : x.tiled = (σ.warp w).tiled) :
    Holds 2 {k | k < kTiles} R.tileOwner (fun _ k => k) R.maskOf
      (fun w' => (Function.update σ.warp w x w').tiled) σ.tilemask := by
  rw [update_same Reader.tiled hx]
  exact h.tilemask

theorem counter_same (hx : x.resets = (σ.warp w).resets) (w' : Fin R.plan.warps) (hw' : w'.val = 0) (win : ℕ) :
    win < (Function.update σ.warp w x w').resets → (Function.update σ.warp w x w').resets ≤ win + 2 →
      σ.counter (win % 2) = (σ.deals win).length := by
  have hw := congrFun (update_same (w := w) Reader.resets hx) w'
  rw [hw]
  exact h.counter w' hw' win

theorem undealt_same (hx : x.resets = (σ.warp w).resets) (w' : Fin R.plan.warps) (hw' : w'.val = 0) (win : ℕ) :
    (Function.update σ.warp w x w').resets ≤ win → σ.deals win = [] := by
  have hw := congrFun (update_same (w := w) Reader.resets hx) w'
  rw [hw]
  exact h.undealt w' hw' win

theorem held_same (hx : ∀ win, x.holding win = (σ.warp w).holding win) (win : ℕ) (w' : Fin R.plan.warps) :
    ∀ t < R.tiles win, (σ.deals win).count (w', t) =
      ((σ.reads win).map fun e => (e.warp, e.tile)).count (w', t) +
        ((Function.update σ.warp w x w').holding win).count t := by
  have hw := congrFun (update_same (w := w) (fun y => y.holding win) (hx win)) w'
  rw [hw]
  exact h.held win w'

theorem warp_update (hx : x.Ok R (fun r => (σ.ring w r).filled ()) (fun r => (σ.ring w r).released ())
    fun win => (σ.deals win).length) (w' : Fin R.plan.warps) :
    (Function.update σ.warp w x w').Ok R (fun r => (σ.ring w' r).filled ()) (fun r => (σ.ring w' r).released ())
      fun win => (σ.deals win).length := by
  rcases eq_or_ne w' w with rfl | hne
  · simpa using hx
  · simpa [hne] using h.warp w'

theorem quiet (hn : (σ.warp w).next R (σ.seen w) = some (x, .quiet)) : (σ.perform w x .quiet).Inv := by
  obtain ⟨hat, hsame⟩ := (h.warp w).at_.quiet hn
  exact ⟨h.slot, h.warp_update ((h.warp w).same hat hsame), h.met_update hn, h.order_same hsame.scattered,
    h.masks_same hsame.scattered, h.tilemask_same hsame.tiled, h.counter_same hsame.resets,
    h.undealt_same hsame.resets, h.dealt, h.held_same (Reader.holding_congr hsame), h.reads⟩

/-- A head's write keeps the stream. -/
theorem head_ok {pc : ReadPc} (hdone : (σ.warp w).done = true) (hat : ({ σ.warp w with pc := pc } : Reader).At R)
    (hprimed : ({ σ.warp w with pc := pc } : Reader).primed = (σ.warp w).primed) :
    ({ σ.warp w with pc := pc } : Reader).Ok R (fun r => (σ.ring w r).filled ()) (fun r => (σ.ring w r).released ())
      fun win => (σ.deals win).length where
  at_ := hat
  cursor := (h.warp w).cursor
  slot r hr := by
    have hslot := (h.warp w).slot r hr
    simpa [Reader.slotTile, hdone] using hslot
  spent win hwin := by
    rw [hprimed] at hwin
    exact (h.warp w).spent win hwin
  next hd := by simp [hdone] at hd

theorem reset (hpc : (σ.warp w).pc = .reset)
    (hn : (σ.warp w).next R (σ.seen w) = some ({ σ.warp w with pc := .counts }, .reset ((σ.warp w).head % 2))) :
    (σ.perform w { σ.warp w with pc := .counts } (.reset ((σ.warp w).head % 2))).Inv := by
  have hat := (h.warp w).at_
  simp only [Reader.At, hpc] at hat
  have hholding : ∀ win, Reader.holding { σ.warp w with pc := .counts } win = (σ.warp w).holding win := by
    simp [Reader.holding, hat.1.1]
  have hok := @Readers.Inv.head_ok _ _ _ h .counts hat.1.1 (by simpa [Reader.At, Reader.InHead] using hat) (by simp [Reader.primed, hpc])
  have hold : (σ.warp w).resets = (σ.warp w).head := by simp [Reader.resets, hpc]
  by_cases hw : w.val = 0
  · have hperform : σ.perform w { σ.warp w with pc := .counts } (.reset ((σ.warp w).head % 2)) =
        { σ with
          counter := Function.update σ.counter ((σ.warp w).head % 2) 0
          warp := Function.update σ.warp w { σ.warp w with pc := .counts } } := by
      simp [perform, effect, hw]
    have hresets : ∀ w' : Fin R.plan.warps, w'.val = 0 →
        (Function.update σ.warp w { σ.warp w with pc := .counts } w').resets = (σ.warp w).head + 1 := by
      intro w' hw'
      obtain rfl : w' = w := Fin.ext (hw'.trans hw.symm)
      simp [Reader.resets]
    rw [hperform]
    refine ⟨h.slot, h.warp_update hok, h.met_update hn, h.order_same (by simp [Reader.scattered, hpc]),
      h.masks_same (by simp [Reader.scattered, hpc]), h.tilemask_same (by simp [Reader.tiled, hpc]),
      fun w' hw' win => ?_, fun w' hw' win => ?_, h.dealt, h.held_same hholding, h.reads⟩
    · dsimp only
      rw [hresets w' hw']
      intro hlt hle
      -- the counter reset is the new window's, of which nothing is dealt
      rcases Nat.lt_succ_iff_lt_or_eq.1 hlt with hlt | rfl
      · have hne : win % 2 ≠ (σ.warp w).head % 2 := by omega
        rw [Function.update_of_ne hne]
        exact h.counter w hw win (by omega) (by omega)
      · rw [Function.update_self, h.undealt w hw _ (by omega)]
        rfl
    · dsimp only
      rw [hresets w' hw']
      intro hle
      exact h.undealt w hw win (by omega)
  · have hperform : σ.perform w { σ.warp w with pc := .counts } (.reset ((σ.warp w).head % 2)) =
        { σ with warp := Function.update σ.warp w { σ.warp w with pc := .counts } } := by
      simp [perform, effect, hw]
    have hother : ∀ w' : Fin R.plan.warps, w'.val = 0 →
        Function.update σ.warp w { σ.warp w with pc := .counts } w' = σ.warp w' := by
      intro w' hw'
      refine Function.update_of_ne ?_ _ _
      rintro rfl
      exact hw hw'
    rw [hperform]
    refine ⟨h.slot, h.warp_update hok, h.met_update hn, h.order_same (by simp [Reader.scattered, hpc]),
      h.masks_same (by simp [Reader.scattered, hpc]), h.tilemask_same (by simp [Reader.tiled, hpc]),
      fun w' hw' win => ?_, fun w' hw' win => ?_, h.dealt, h.held_same hholding, h.reads⟩
    · dsimp only
      rw [hother w' hw']
      exact h.counter w' hw' win
    · dsimp only
      rw [hother w' hw']
      exact h.undealt w' hw' win

theorem scatter (hpc : (σ.warp w).pc = .scatter)
    (hn : (σ.warp w).next R (σ.seen w) = some ({ σ.warp w with pc := .order }, .scatter (σ.warp w).head)) :
    (σ.perform w { σ.warp w with pc := .order } (.scatter (σ.warp w).head)).Inv := by
  have hat := (h.warp w).at_
  simp only [Reader.At, hpc] at hat
  have hok := @Readers.Inv.head_ok _ _ _ h .order hat.1.1 (by simpa [Reader.At, Reader.InHead] using hat) (by simp [Reader.primed, hpc])
  have hold : (σ.warp w).scattered = (σ.warp w).head := by simp [Reader.scattered, hpc]
  have hdone : (fun w' => (Function.update σ.warp w { σ.warp w with pc := .order } w').scattered) =
      Function.update (fun w' => (σ.warp w').scattered) w ((σ.warp w).scattered + 1) := by
    rw [update_comp, hold]
    rfl
  have hnear : ∀ w', (σ.warp w').scattered ≤ (σ.warp w).scattered + 1 := by
    intro w'
    by_contra hlt
    have hlow := Reader.passed_of_scattered (h.warp w').at_ (Nat.not_le.1 hlt)
    have hmet := h.met w' w
    have harr : (σ.warp w).arrived = (σ.warp w).passed := by simp [Reader.arrived, Reader.waiting, hpc]
    omega
  have hshare : ∀ t ∈ R.share w, t < window := fun t ht => (R.mem_share w.isLt).1 ht |>.1
  have hmem : ∀ t < window, t ∈ R.share w ↔ R.owner t = w := by
    intro t ht
    rw [R.mem_share w.isLt, Fin.ext_iff]
    exact and_iff_right ht
  refine ⟨h.slot, h.warp_update hok, h.met_update hn, ?_, ?_, h.tilemask_same (by simp [Reader.tiled, hpc]),
    h.counter_same (by simp [Reader.resets, hpc]), h.undealt_same (by simp [Reader.resets, hpc]), h.dealt,
    h.held_same (by simp [Reader.holding, hat.1.1]), h.reads⟩
  · change Holds 2 _ _ _ _ (fun w' => (Function.update σ.warp w { σ.warp w with pc := .order } w').scattered)
      (Function.update σ.order _ _)
    rw [hdone]
    refine h.order.write two_pos (fun w' => (hnear w').trans (Nat.le_succ _)) (fun b _ hb => ?_) (fun t ht hown => ?_)
      fun t ht hown => ?_
    · rw [hold] at hb
      exact Function.update_of_ne hb _ _
    · rw [hold, Function.update_self, scatterOrder, R.scatter_apply (BitVec.ofNat 16) hshare ht,
        if_pos ((hmem t ht).2 hown)]
    · rw [hold, Function.update_self, scatterOrder, R.scatter_apply (BitVec.ofNat 16) hshare ht,
        if_neg fun hin => hown ((hmem t ht).1 hin)]
  · change Holds 1 _ _ _ _ (fun w' => (Function.update σ.warp w { σ.warp w with pc := .order } w').scattered)
      fun _ => scatterMasks _ _ _ _
    rw [hdone]
    refine h.masks.write one_pos hnear (fun b hlt hb => ?_) (fun t ht hown => ?_)
      fun t ht hown => ?_
    · exact absurd (Nat.lt_one_iff.1 hlt) (by rwa [Nat.mod_one] at hb)
    · rw [hold, scatterMasks, R.scatter_apply
        (fun t => ((R.words _).mask R.plan (t / 32) (t % 32)).setWidth 16) hshare ht, if_pos ((hmem t ht).2 hown)]
    · rw [hold, scatterMasks, R.scatter_apply
        (fun t => ((R.words _).mask R.plan (t / 32) (t % 32)).setWidth 16) hshare ht,
        if_neg fun hin => hown ((hmem t ht).1 hin)]

theorem tiles (hpc : (σ.warp w).pc = .tiles)
    (hn : (σ.warp w).next R (σ.seen w) = some ({ σ.warp w with pc := .prime }, .tiles (σ.warp w).head)) :
    (σ.perform w { σ.warp w with pc := .prime } (.tiles (σ.warp w).head)).Inv := by
  have hat := (h.warp w).at_
  simp only [Reader.At, hpc] at hat
  have hok := @Readers.Inv.head_ok _ _ _ h .prime hat.1.1 (by simpa [Reader.At, Reader.InHead] using hat) (by simp [Reader.primed, hpc])
  have hold : (σ.warp w).tiled = (σ.warp w).head := by simp [Reader.tiled, hpc]
  have hdone : (fun w' => (Function.update σ.warp w { σ.warp w with pc := .prime } w').tiled) =
      Function.update (fun w' => (σ.warp w').tiled) w ((σ.warp w).tiled + 1) := by
    rw [update_comp, hold]
    rfl
  have hnear : ∀ w', (σ.warp w').tiled ≤ (σ.warp w).tiled + 2 := by
    intro w'
    by_contra hlt
    have hlow := Reader.passed_of_tiled (h.warp w').at_ (Nat.not_le.1 hlt)
    have hmet := h.met w' w
    have harr : (σ.warp w).arrived = (σ.warp w).passed := by simp [Reader.arrived, Reader.waiting, hpc]
    omega
  have hmem : ∀ k < kTiles, k ∈ R.tileShare w ↔ R.tileOwner k = w := by
    intro k hk
    rw [R.mem_tileShare w.isLt, Fin.ext_iff]
    exact and_iff_right hk
  have hwrite : ∀ k < kTiles, orTiles R (R.tileShare w) σ.masks (σ.tilemask ((σ.warp w).head % 2)) k =
      if R.tileOwner k = w then R.maskOf (σ.warp w).head k else σ.tilemask ((σ.warp w).head % 2) k := by
    intro k hk
    rw [orTiles_apply]
    simp only [hmem k hk, R.maskOf_eq (fun r hr => h.masks_eq hpc hr) hk]
  refine ⟨h.slot, h.warp_update hok, h.met_update hn, h.order_same (by simp [Reader.scattered, hpc]),
    h.masks_same (by simp [Reader.scattered, hpc]), ?_,
    h.counter_same (by simp [Reader.resets, hpc]), h.undealt_same (by simp [Reader.resets, hpc]), h.dealt,
    h.held_same (by simp [Reader.holding, hat.1.1]), h.reads⟩
  change Holds 2 _ _ _ _ (fun w' => (Function.update σ.warp w { σ.warp w with pc := .prime } w').tiled)
    (Function.update σ.tilemask _ _)
  rw [hdone]
  refine h.tilemask.write two_pos hnear (fun b _ hb => ?_) (fun k hk hown => ?_) fun k hk hown => ?_
  · rw [hold] at hb
    exact Function.update_of_ne hb _ _
  · rw [hold, Function.update_self, hwrite k hk, if_pos hown]
  · rw [hold, Function.update_self, hwrite k hk, if_neg hown]

/-- The ring's slots, one of them changed. -/
theorem ring_update {r : ℕ} {slot : RingSlot} (hr : r < 2) (hslot : slot.Inv) (w' : Fin R.plan.warps) :
    ∀ s < 2, (Function.update σ.ring w (Function.update (σ.ring w) r slot) w' s).Inv := by
  intro s hs
  rcases eq_or_ne w' w with rfl | hne
  · rcases eq_or_ne s r with rfl | hne
    · simpa using hslot
    · simpa [hne] using h.slot w' s hs
  · simpa [hne] using h.slot w' s hs

/-- A slot is emptied as often as it is used. -/
theorem slot_emptied {r : ℕ} (hr : r < 2) : (σ.ring w r).empty.phase = (σ.ring w r).released () := by
  have hslot := (h.slot w r hr).empty
  have hle := hslot.le ()
  have hsum := hslot.sum
  have hlt := hslot.lt
  have hcount := hslot.count
  simp only [Finset.univ_unique, Finset.sum_singleton, Fintype.card_unit] at hsum hcount
  change (σ.ring w r).released () - _ = _ at hsum
  omega

theorem take {win r : ℕ} (hacts : Reader.Acts R (σ.seen w) (σ.warp w) x (.take win r))
    (hn : (σ.warp w).next R (σ.seen w) = some (x, .take win r)) : (σ.perform w x (.take win r)).Inv := by
  obtain ⟨hr, hnone, hwin, hlow, hhigh⟩ := (h.warp w).at_.take hacts
  have hk := h.counter_eq hwin hlow hhigh
  have hcopy : R.tileTokens win (σ.order (win % 2)) (σ.deals win).length =
      R.tileTokens win (R.orderOf win) (σ.deals win).length :=
    R.tileTokens_congr fun s hs => h.order_eq hlow hhigh hs
  have hok := @Reader.Ok.take _ _ _ _ _ _ _ _ _ (h.warp w) hacts hk
    ⟨win, R.tileTokens win (σ.order (win % 2)) (σ.deals win).length⟩ fun _ => by rw [hcopy]
  have hmarks : x.resets = (σ.warp w).resets ∧ x.scattered = (σ.warp w).scattered ∧ x.tiled = (σ.warp w).tiled := by
    cases hacts with
    | prime hpc =>
      simp only [Reader.resets, Reader.scattered, Reader.tiled, Reader.prime, hpc]
      split_ifs <;> simp
    | ahead hpc =>
      obtain ⟨hpc, -⟩ | hpc := hpc <;> simp [Reader.resets, Reader.scattered, Reader.tiled, hpc]
  have hdeals : (fun i => (Function.update σ.deals win (σ.deals win ++ [(w, (σ.deals win).length)]) i).length) =
      Function.update (fun i => (σ.deals i).length) win ((σ.deals win).length + 1) := by
    funext i
    rcases eq_or_ne i win with rfl | hne
    · simp
    · simp [hne]
  have hreset : ∀ w', win < (σ.warp w').resets ∧ (σ.warp w').resets ≤ win + 2 := h.resets_near hwin hlow hhigh
  simp only [perform, effect, takeTile, hk]
  refine ⟨fun w' s hs => ?_, fun w' => ?_, h.met_update hn, h.order_same hmarks.2.1, h.masks_same hmarks.2.1,
    h.tilemask_same hmarks.2.2, fun w' hw' i hlt hle => ?_, fun w' hw' i hle => ?_, fun i => ?_, fun i w' t ht => ?_,
    h.reads⟩
  · split
    · refine h.ring_update hr ((h.slot w r hr).issue ?_ _) w' s hs
      have hslot := (h.warp w).slot r hr
      rw [hnone] at hslot
      rw [h.slot_emptied hr]
      exact hslot.le
    · exact h.slot w' s hs
  · rw [hdeals]
    rcases eq_or_ne w' w with rfl | hne
    · obtain ⟨hfilled, hreleased, -⟩ := ring_take (σ := σ) w' ((σ.deals win).length < R.tiles win) r
        ⟨win, R.tileTokens win (σ.order (win % 2)) (σ.deals win).length⟩
      dsimp only
      rw [Function.update_self, hfilled, hreleased]
      exact hok
    · obtain ⟨-, -, hother⟩ := ring_take (σ := σ) w ((σ.deals win).length < R.tiles win) r
        ⟨win, R.tileTokens win (σ.order (win % 2)) (σ.deals win).length⟩
      dsimp only
      rw [Function.update_of_ne hne, hother w' hne]
      refine (h.warp w').mono fun i => ?_
      rcases eq_or_ne i win with rfl | hne
      · simp
      · simp [hne]
  · have hsame := h.counter_same hmarks.1 w' hw' i hlt hle
    rcases eq_or_ne i win with rfl | hne
    · simp
    · have hres := congrFun (update_same (w := w) Reader.resets hmarks.1) w'
      dsimp only at hlt hle
      rw [hres] at hlt hle
      have hw := hreset w'
      have hparity : i % 2 ≠ win % 2 := by omega
      dsimp only
      rw [Function.update_of_ne hparity, Function.update_of_ne hne]
      exact hsame
  · have hres := congrFun (update_same (w := w) Reader.resets hmarks.1) w'
    have hundealt := h.undealt_same hmarks.1 w' hw' i hle
    dsimp only at hle
    rw [hres] at hle
    have hw := hreset w'
    have hne : i ≠ win := by omega
    dsimp only
    rwa [Function.update_of_ne hne]
  · rcases eq_or_ne i win with rfl | hne
    · simp [h.dealt, List.range_succ]
    · simpa [hne] using h.dealt i
  · have hheld := h.held i w' t ht
    have hdeal : (Function.update σ.deals win (σ.deals win ++ [(w, (σ.deals win).length)]) i).count (w', t) =
        (σ.deals i).count (w', t) + if win = i ∧ w = w' ∧ (σ.deals win).length = t then 1 else 0 := by
      rcases eq_or_ne i win with rfl | hne
      · simp [List.count_singleton]
      · simp [hne, hne.symm]
    rw [hdeal, hheld]
    rcases eq_or_ne w' w with rfl | hne
    · have hcount := (h.warp w').holding_take hacts ht
      rw [show (σ.seen w').counter = σ.counter from rfl, hk] at hcount
      dsimp only
      rw [Function.update_self, hcount]
      simp [Nat.add_assoc]
    · simp [hne, hne.symm]

/-- A full slot's copies are of the tile the warp holds in it. -/
theorem slotFull {r k : ℕ} (hr : r < 2) (hfull : (σ.warp w).fullNow (σ.seen w) r = true)
    (htile : (σ.warp w).slotTile R r = some k) : (σ.ring w r).released () < (σ.ring w r).full.phase ∧
      ∀ lane, (σ.ring w r).cell () lane =
        some ⟨(σ.warp w).window, R.tileTokens (σ.warp w).window (R.orderOf (σ.warp w).window) k⟩ := by
  have hslot := (h.warp w).slot r hr
  rw [htile] at hslot
  have hlt : (σ.ring w r).released () < (σ.ring w r).full.phase := by
    rw [← (h.slot w r hr).full_test (), ← (h.warp w).cursor r hr]
    exact hfull
  refine ⟨hlt, fun lane => ?_⟩
  rw [(h.slot w r hr).cell_of_taken hlt]
  exact hslot.2

theorem read {win k r : ℕ} (hacts : Reader.Acts R (σ.seen w) (σ.warp w) x (.read win k r))
    (hn : (σ.warp w).next R (σ.seen w) = some (x, .read win k r)) : (σ.perform w x (.read win k r)).Inv := by
  obtain ⟨htile, hr, hk, hok⟩ := (h.warp w).read hacts
  have hwin : win = (σ.warp w).window ∧ (σ.warp w).fullNow (σ.seen w) r = true := by
    cases hacts with
    | read hpc hfull => exact ⟨rfl, hfull⟩
  have hplace : 5 * win - 1 + 4 ≤ (σ.warp w).passed ∧ (σ.warp w).arrived ≤ 5 * win + 4 := by
    cases hacts with
    | read hpc hfull =>
      have hat := (h.warp w).at_
      simp only [Reader.At, Reader.InWindow, Reader.Dealt, hpc] at hat
      have harr : (σ.warp w).arrived = (σ.warp w).passed := by simp [Reader.arrived, Reader.waiting, hpc]
      omega
  have hmarks : x.resets = (σ.warp w).resets ∧ x.scattered = (σ.warp w).scattered ∧ x.tiled = (σ.warp w).tiled := by
    cases hacts with
    | read hpc hfull =>
      simp only [Reader.resets, Reader.scattered, Reader.tiled, hpc]
      split_ifs <;> simp
  obtain ⟨hlt, hcell⟩ := h.slotFull hr hwin.2 htile
  have htokens : R.tileTokens win (σ.order (win % 2)) k = R.tileTokens win (R.orderOf win) k :=
    R.tileTokens_congr fun s hs => h.order_eq (by omega) hplace.2 hs
  have hread : ReadOk R win ⟨w, k, σ.tilemask (win % 2) k, R.tileTokens win (σ.order (win % 2)) k,
      (σ.ring w r).cell ()⟩ := by
    refine ⟨hk, h.tilemask_eq hplace.1 hplace.2 (hk.trans_le (R.tiles_le win)), htokens, fun lane => ?_⟩
    dsimp only
    rw [htokens, hcell lane, hwin.1]
  simp only [perform, effect, readTile]
  refine ⟨fun w' s hs => h.ring_update hr ((h.slot w r hr).release hlt) w' s hs, fun w' => ?_, h.met_update hn,
    h.order_same hmarks.2.1, h.masks_same hmarks.2.1, h.tilemask_same hmarks.2.2, h.counter_same hmarks.1,
    h.undealt_same hmarks.1, h.dealt, fun i w' t ht => ?_, fun i e he => ?_⟩
  · rcases eq_or_ne w' w with rfl | hne
    · dsimp only
      rw [Function.update_self, Function.update_self]
      refine (Eq.to_iff ?_).1 hok
      congr 1
      · funext s
        rcases eq_or_ne s r with rfl | hne
        · simp [Slot.release]
        · simp [hne]
      · funext s
        rcases eq_or_ne s r with rfl | hne
        · simp [Slot.release]
        · simp [hne]
    · dsimp only
      rw [Function.update_of_ne hne, Function.update_of_ne hne]
      exact h.warp w'
  · have hheld := h.held i w' t ht
    have hreads : ((Function.update σ.reads win (σ.reads win ++ [⟨w, k, σ.tilemask (win % 2) k,
        R.tileTokens win (σ.order (win % 2)) k, (σ.ring w r).cell ()⟩]) i).map fun e => (e.warp, e.tile)).count (w', t) =
        ((σ.reads i).map fun e => (e.warp, e.tile)).count (w', t) + if win = i ∧ w = w' ∧ k = t then 1 else 0 := by
      rcases eq_or_ne i win with rfl | hne
      · simp [List.count_singleton]
      · simp [hne, hne.symm]
    dsimp only
    rw [hreads, hheld]
    rcases eq_or_ne w' w with rfl | hne
    · rw [Function.update_self, Reader.holding_read (h.warp w').at_ hacts ht]
      simp only [true_and]
      omega
    · simp [hne, hne.symm]
  · rcases eq_or_ne i win with rfl | hne
    · simp only [Function.update_self, List.mem_append, List.mem_singleton] at he
      rcases he with he | rfl
      · exact h.reads i e he
      · exact hread
    · simp only [Function.update_of_ne hne] at he
      exact h.reads i e he

theorem land {lane : Fin 32} {r : ℕ} (hr : r < 2) (hl : σ.InFlight w lane r) :
    Inv { σ with
      ring := Function.update σ.ring w (Function.update (σ.ring w) r ((σ.ring w r).land () lane)) } := by
  refine ⟨fun w' s hs => h.ring_update hr ((h.slot w r hr).land hl) w' s hs, fun w' => ?_, h.met, h.order, h.masks,
    h.tilemask, h.counter, h.undealt, h.dealt, h.held, h.reads⟩
  rcases eq_or_ne w' w with rfl | hne
  · dsimp only
    rw [Function.update_self]
    refine (Eq.to_iff ?_).1 (h.warp w')
    congr 1
    · funext s
      rcases eq_or_ne s r with rfl | hne
      · simp [Slot.land]
      · simp [hne]
    · funext s
      rcases eq_or_ne s r with rfl | hne
      · simp [Slot.land]
      · simp [hne]
  · dsimp only
    rw [Function.update_of_ne hne]
    exact h.warp w'

theorem step (hstep : Step σ w σ') : σ'.Inv := by
  cases hstep with
  | @act x e hn =>
    have hacts := Reader.acts hn
    cases e with
    | quiet => exact h.quiet hn
    | reset parity =>
      cases hacts with
      | reset hpc => exact h.reset hpc hn
    | scatter win =>
      cases hacts with
      | scatter hpc => exact h.scatter hpc hn
    | tiles win =>
      cases hacts with
      | tiles hpc => exact h.tiles hpc hn
    | take win r => exact h.take hacts hn
    | read win k r => exact h.read hacts hn
  | land hr hl => exact h.land hr hl

end Inv

theorem Reachable.inv (h : Reachable σ) : σ.Inv := by
  induction h with
  | start counter order tilemask masks => exact Inv.start counter order tilemask masks
  | step _ hstep ih => exact ih.step hstep

end Readers

end Rola
