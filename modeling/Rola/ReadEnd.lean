import Rola.EndingRuns
import Rola.ReadDeal

/-!
# The readout stream ends

Every warp's next action, and every landing, leaves less to do: a window's actions are counted from its
top, a wait's from its copies' landing, and a tile read is never read again. So no order of the warps'
moves goes on for ever, and where none is left to make every warp has finished.
-/

namespace Rola

open PhasedBarrier EndingRuns

namespace Reader

variable {R : ReadRun} {x x' : Reader} {v : ReadSeen} {e : ReadEffect} {ready : Bool}

/-- The actions left to a warp that reads nothing more; `ready` where the tile it holds has landed. -/
def left (R : ReadRun) (x : Reader) (ready : Bool) : ℕ :=
  let rest := 32 * (R.windows - x.win)
  let lead := if x.head = x.win then rest + 19 else rest
  match x.pc with
  | .reset => lead + 9
  | .counts => lead + 8
  | .scans => lead + 7
  | .scatter => lead + 6
  | .order => lead + 5
  | .tiles => lead + 4
  | .prime => lead + 3
  | .top => rest + 19
  | .edge => rest + 18
  | .begin | .take => rest + 17
  | .loop => rest + if x.done then 10 else if ready then 12 else 16
  | .step => rest + if ready then 11 else 15
  | .wait => rest + if ready then 13 else 14
  | .endEdge => rest + 2
  | .finished => 0

/-- A tile landed leaves no more. -/
theorem left_mono (x : Reader) {ready landed : Bool} (h : ready = true → landed = true) : x.left R landed ≤ x.left R ready := by
  cases ready <;> cases landed
  · exact le_rfl
  · cases hpc : x.pc <;> cases hdone : x.done <;> simp [left, hpc, hdone]
  · exact absurd (h rfl) Bool.false_ne_true
  · exact le_rfl

/-- An action that reads no tile. -/
theorem left_lt (hat : x.At R) (hn : x.next R v = some (x', e)) (he : ∀ win k r, e ≠ .read win k r)
    (hready : ready = x.fullNow v (x.n % 2)) : x'.left R ready < x.left R ready := by
  cases hpc : x.pc <;> simp only [next, hpc] at hn <;> simp only [At, InHead, InWindow, Dealt, Past, hpc] at hat
  case finished => cases hn
  case reset | scatter | tiles =>
    cases hn
    simp [left, hpc]
  case prime =>
    cases hn
    by_cases hhead : x.head = x.win
    · simp [left, hpc, prime, hhead]
    · simp [left, hpc, prime, hhead]
  case top =>
    cases hn
    by_cases hwin : x.win < R.windows
    · simp [left, hpc, hwin]
    · simp [left, hpc, hwin]
  case take =>
    cases hn
    simp only [left, hpc]
    split_ifs <;> omega
  case begin =>
    split at hn <;> cases hn
    all_goals
      simp only [left, hpc]
      split_ifs <;> omega
  case loop =>
    split at hn
    · rename_i hdone
      split at hn <;> cases hn
      · simp [left, hpc, hdone]
      · simp [left, hpc, hdone]
    · rename_i hdone
      cases hn
      simp only [left, hpc, hdone]
      split_ifs <;> simp_all
  case step =>
    split at hn <;> cases hn
    · exact absurd rfl (he _ _ _)
    · rename_i hfull
      simp [left, hpc, hready, hfull]
  case wait =>
    split at hn <;> cases hn
    rename_i hfull
    simp [left, hpc, hready, hfull, hat.2.2]
  case endEdge =>
    split at hn <;> cases hn
    simp only [left, hpc]
    omega
  all_goals
    split at hn <;> cases hn
    simp [left, hpc]

theorem next_n (hat : x.At R) (hn : x.next R v = some (x', e)) (he : ∀ win k r, e ≠ .read win k r) : x'.n = x.n := by
  cases acts hn with
  | quiet => exact (hat.quiet hn).2.n
  | read hpc hfull => exact absurd rfl (he _ _ _)
  | reset hpc | scatter hpc | tiles hpc | prime hpc | ahead hpc => rfl

theorem left_read {win k r : ℕ} (hn : x.next R v = some (x', .read win k r)) (after : Bool) :
    x'.left R after < x.left R ready + 32 ∧ x'.win = x.win := by
  cases acts hn with
  | read hpc hfull =>
    refine ⟨?_, rfl⟩
    by_cases hlast : R.tiles x.window ≤ x.knext
    · simp [left, hpc, hlast]
      omega
    · simp [left, hpc, hlast]
      omega

end Reader

namespace Readers

variable {R : ReadRun} {σ σ' : Of R} {w w' : Fin R.plan.warps}

/-- The tile `w` reads next has landed. -/
def ready (σ : Of R) (w : Fin R.plan.warps) : Bool :=
  decide ((σ.ring w ((σ.warp w).n % 2)).released () < (σ.ring w ((σ.warp w).n % 2)).full.phase)

/-- The copies in flight into a warp's ring. -/
def flight (ring : ℕ → RingSlot) : ℕ :=
  ∑ r ∈ Finset.range 2, ∑ lane : Fin 32, (((ring r).filled ()).length - (ring r).landed () lane)

/-- The tiles not yet read. -/
def unread (σ : Of R) : ℕ := ∑ win ∈ Finset.range R.windows, (R.tiles win - (σ.reads win).length)

/-- A take brings 32 copies, a read at most 32 actions. -/
def left (σ : Of R) : ℕ :=
  64 * (∑ w, (σ.warp w).left R (σ.ready w) + 32 * σ.unread) + ∑ w, flight (σ.ring w)

theorem Inv.ready_iff (h : σ.Inv) (w : Fin R.plan.warps) : σ.ready w = (σ.warp w).fullNow (σ.seen w) ((σ.warp w).n % 2) := by
  have hr : (σ.warp w).n % 2 < 2 := Nat.mod_lt _ (by decide)
  have htest := (h.slot w _ hr).full_test ()
  rw [← (h.warp w).cursor _ hr] at htest
  exact Bool.eq_iff_iff.2 (decide_eq_true_iff.trans htest.symm)

/-! ### What a step does to the counts -/

/-- A sum in which one warp's part falls, or rises by no more than `n`. -/
theorem sum_lt_of_warp {f g : Fin R.plan.warps → ℕ} (hsame : ∀ w' ≠ w, f w' = g w') (hlt : f w < g w) : ∑ w, f w < ∑ w, g w :=
  Finset.sum_lt_sum (fun w' _ => (eq_or_ne w' w).elim (fun heq => heq ▸ hlt.le) fun hne => (hsame w' hne).le) ⟨w, Finset.mem_univ w, hlt⟩

theorem sum_le_of_warp {f g : Fin R.plan.warps → ℕ} {n : ℕ} (hsame : ∀ w' ≠ w, f w' = g w') (hle : f w ≤ g w + n) :
    ∑ w, f w ≤ ∑ w, g w + n := by
  rw [← Finset.add_sum_erase _ f (Finset.mem_univ w), ← Finset.add_sum_erase _ g (Finset.mem_univ w),
    Finset.sum_congr rfl fun w' hw' => hsame w' (Finset.ne_of_mem_erase hw')]
  exact (Nat.add_le_add_right hle _).trans (Nat.add_right_comm _ _ _).le

theorem flight_update {ring : ℕ → RingSlot} {r : ℕ} (hr : r < 2) (slot : RingSlot) :
    flight (Function.update ring r slot) + ∑ lane : Fin 32, (((ring r).filled ()).length - (ring r).landed () lane) =
      flight ring + ∑ lane : Fin 32, ((slot.filled ()).length - slot.landed () lane) := by
  unfold flight
  rw [← Finset.add_sum_erase _ _ (Finset.mem_range.2 hr), ← Finset.add_sum_erase _ _ (Finset.mem_range.2 hr), Function.update_self]
  have hrest : ∀ s ∈ (Finset.range 2).erase r, ∑ lane : Fin 32, (((Function.update ring r slot s).filled ()).length -
      (Function.update ring r slot s).landed () lane) = ∑ lane : Fin 32, (((ring s).filled ()).length - (ring s).landed () lane) := by
    intro s hs
    rw [Function.update_of_ne (Finset.ne_of_mem_erase hs)]
  rw [Finset.sum_congr rfl hrest]
  omega

theorem flight_issue {ring : ℕ → RingSlot} {r : ℕ} (hr : r < 2) (copy : TileCopy) :
    flight (Function.update ring r ((ring r).issue () copy)) ≤ flight ring + 32 := by
  have hupdate := @flight_update ring r hr ((ring r).issue () copy)
  have hle : ∑ lane : Fin 32, ((((ring r).issue () copy).filled ()).length - ((ring r).issue () copy).landed () lane) ≤
      ∑ lane : Fin 32, (((ring r).filled ()).length - (ring r).landed () lane) + 32 := by
    have hone : ∀ lane ∈ Finset.univ, (((ring r).issue () copy).filled ()).length - ((ring r).issue () copy).landed () lane ≤
        (((ring r).filled ()).length - (ring r).landed () lane) + 1 := by
      intro lane _
      simp only [Slot.issue, Function.update_self, List.length_append, List.length_singleton]
      omega
    have hsum := Finset.sum_le_sum hone
    rw [Finset.sum_add_distrib, Finset.sum_const, Finset.card_univ, Fintype.card_fin] at hsum
    exact hsum
  omega

theorem flight_release {ring : ℕ → RingSlot} {r : ℕ} (hr : r < 2) :
    flight (Function.update ring r ((ring r).release ())) = flight ring := by
  exact Nat.add_right_cancel (flight_update hr _)

theorem flight_land {ring : ℕ → RingSlot} {r : ℕ} (hr : r < 2) {lane : Fin 32}
    (h : (ring r).landed () lane < ((ring r).filled ()).length) : flight (Function.update ring r ((ring r).land () lane)) < flight ring := by
  have hupdate := @flight_update ring r hr ((ring r).land () lane)
  have hlt : ∑ l : Fin 32, ((((ring r).land () lane).filled ()).length - ((ring r).land () lane).landed () l) <
      ∑ l : Fin 32, (((ring r).filled ()).length - (ring r).landed () l) := by
    refine Finset.sum_lt_sum (fun l _ => ?_) ⟨lane, Finset.mem_univ lane, ?_⟩
    · rcases eq_or_ne l lane with rfl | hne
      · simp only [Slot.land, Function.update_self]
        omega
      · simp [Slot.land, hne]
    · simp only [Slot.land, Function.update_self]
      omega
  omega

/-- An action reads no tile, and issues copies into its own ring at most. -/
structure Unread (σ : Of R) (w : Fin R.plan.warps) (σ' : Of R) : Prop where
  other : ∀ w' ≠ w, σ'.ring w' = σ.ring w'
  full : ∀ r, (σ'.ring w r).full = (σ.ring w r).full ∧ (σ'.ring w r).released () = (σ.ring w r).released ()
  flight : flight (σ'.ring w) ≤ flight (σ.ring w) + 32
  reads : σ'.reads = σ.reads

theorem Unread.same (hring : σ'.ring = σ.ring) (hreads : σ'.reads = σ.reads) : Unread σ w σ' where
  other _ _ := by rw [hring]
  full _ := by simp [hring]
  flight := by
    rw [hring]
    exact Nat.le_add_right _ _
  reads := hreads

theorem unread_take (σ : Of R) (w : Fin R.plan.warps) (win : ℕ) {r : ℕ} (hr : r < 2) : Unread σ w (σ.takeTile w win r) := by
  by_cases hk : σ.counter (win % 2) < R.tiles win
  · have hring : (σ.takeTile w win r).ring = Function.update σ.ring w (Function.update (σ.ring w) r
        ((σ.ring w r).issue () ⟨win, R.tileTokens win (σ.order (win % 2)) (σ.counter (win % 2))⟩)) := if_pos hk
    refine ⟨fun w' hne => ?_, fun s => ?_, ?_, rfl⟩
    · rw [hring, Function.update_of_ne hne]
    · rw [hring, Function.update_self]
      rcases eq_or_ne s r with rfl | hne
      · simp [Slot.issue]
      · simp [hne]
    · rw [hring, Function.update_self]
      exact flight_issue hr _
  · exact .same (if_neg hk) rfl

/-- What an action other than a read touches of the rings. -/
theorem unread_effect {x : Reader} {e : ReadEffect} (hn : (σ.warp w).next R (σ.seen w) = some (x, e))
    (he : ∀ win k r, e ≠ .read win k r) : Unread σ w (σ.effect w e) := by
  cases Reader.acts hn with
  | quiet => exact .same rfl rfl
  | reset hpc =>
    refine .same ?_ ?_
    · dsimp only [effect]
      split <;> rfl
    · dsimp only [effect]
      split <;> rfl
  | scatter hpc => exact .same rfl rfl
  | tiles hpc => exact .same rfl rfl
  | prime hpc => exact σ.unread_take w _ (Nat.mod_lt _ (by decide))
  | ahead hpc => exact σ.unread_take w _ (Nat.mod_lt _ (by decide))
  | read hpc hfull => exact absurd rfl (he _ _ _)

/-- One tile more read, of those there are. -/
theorem unread_lt {win : ℕ} (hwin : win < R.windows) (hother : ∀ i ≠ win, (σ'.reads i).length = (σ.reads i).length)
    (hself : (σ'.reads win).length = (σ.reads win).length + 1) (hle : (σ'.reads win).length ≤ R.tiles win) : σ'.unread < σ.unread := by
  refine Finset.sum_lt_sum (fun i _ => ?_) ⟨win, Finset.mem_range.2 hwin, by omega⟩
  rcases eq_or_ne i win with rfl | hne
  · omega
  · rw [hother i hne]

theorem Inv.reads_le (h : σ.Inv) (win : ℕ) : (σ.reads win).length ≤ R.tiles win := by
  have hsub : ((σ.reads win).map TileRead.tile) ⊆ List.range (R.tiles win) := by
    intro k hk
    obtain ⟨e, he, rfl⟩ := List.mem_map.1 hk
    exact List.mem_range.2 (h.reads win e he).tile
  have hle := ((h.reads_nodup win).subperm hsub).length_le
  rwa [List.length_map, List.length_range] at hle

/-- Copies in flight outweigh no action, and actions no tile. -/
theorem left_lt_of (hwarp : ∀ w' ≠ w, (σ'.warp w').left R (σ'.ready w') = (σ.warp w').left R (σ.ready w'))
    (hflight : ∀ w' ≠ w, flight (σ'.ring w') = flight (σ.ring w'))
    (h : (σ'.warp w).left R (σ'.ready w) < (σ.warp w).left R (σ.ready w) ∧ σ'.unread = σ.unread ∧
        flight (σ'.ring w) ≤ flight (σ.ring w) + 32 ∨
      (σ'.warp w).left R (σ'.ready w) < (σ.warp w).left R (σ.ready w) + 32 ∧ σ'.unread < σ.unread ∧
        flight (σ'.ring w) ≤ flight (σ.ring w) ∨
      (σ'.warp w).left R (σ'.ready w) ≤ (σ.warp w).left R (σ.ready w) ∧ σ'.unread = σ.unread ∧
        flight (σ'.ring w) < flight (σ.ring w)) : σ'.left < σ.left := by
  have hwarps := @sum_le_of_warp R w (fun w' => (σ'.warp w').left R (σ'.ready w')) (fun w' => (σ.warp w').left R (σ.ready w'))
  have hwarpsLt := @sum_lt_of_warp R w (fun w' => (σ'.warp w').left R (σ'.ready w')) (fun w' => (σ.warp w').left R (σ.ready w')) hwarp
  have hflights := @sum_le_of_warp R w (fun w' => flight (σ'.ring w')) (fun w' => flight (σ.ring w'))
  have hflightsLt := @sum_lt_of_warp R w (fun w' => flight (σ'.ring w')) (fun w' => flight (σ.ring w')) hflight
  unfold left
  rcases h with ⟨hlt, hunread, hfly⟩ | ⟨hle, hunread, hfly⟩ | ⟨hle, hunread, hfly⟩
  · have hsum := hwarpsLt hlt
    have hin := @hflights 32 hflight hfly
    omega
  · have hsum := @hwarps 31 hwarp (by omega)
    have hin := @hflights 0 hflight (by omega)
    omega
  · have hsum := @hwarps 0 hwarp (by omega)
    have hin := hflightsLt hfly
    omega

theorem ready_congr (hwarp : σ'.warp w = σ.warp w) (hring : σ'.ring w = σ.ring w) : σ'.ready w = σ.ready w := by
  unfold ready
  rw [hwarp, hring]

/-- A warp's action leaves less to do. -/
theorem Inv.act_lt (h : σ.Inv) {x : Reader} {e : ReadEffect} (hn : (σ.warp w).next R (σ.seen w) = some (x, e))
    (h' : (σ.perform w x e).Inv) : (σ.perform w x e).left < σ.left := by
  have hother : ∀ w' ≠ w, (σ.perform w x e).warp w' = σ.warp w' := fun w' hne => Function.update_of_ne hne _ _
  have hself : (σ.perform w x e).warp w = x := Function.update_self _ _ _
  by_cases he : ∀ win k r, e ≠ .read win k r
  · have hunread := unread_effect hn he
    have hring : ∀ w' ≠ w, (σ.perform w x e).ring w' = σ.ring w' := hunread.other
    have hcursor := Reader.next_n (h.warp w).at_ hn he
    have hready : (σ.perform w x e).ready w = σ.ready w := by
      obtain ⟨hfull, hreleased⟩ := hunread.full ((σ.warp w).n % 2)
      unfold ready
      rw [hself, hcursor]
      exact decide_eq_decide.2 (iff_of_eq (congrArg₂ (· < ·) hreleased (congrArg Barrier.phase hfull)))
    refine left_lt_of (fun w' hne => ?_) (fun w' hne => by rw [hring w' hne]) (.inl ⟨?_, ?_, hunread.flight⟩)
    · rw [hother w' hne, ready_congr (hother w' hne) (hring w' hne)]
    · rw [hself, hready]
      exact Reader.left_lt (h.warp w).at_ hn he (h.ready_iff w)
    · exact congrArg (fun reads : ℕ → List (TileRead R.plan.warps) => ∑ win ∈ Finset.range R.windows, (R.tiles win - (reads win).length))
        hunread.reads
  · push Not at he
    obtain ⟨win, k, r, rfl⟩ := he
    obtain ⟨hwin, hr⟩ : win < R.windows ∧ r < 2 := by
      have hat := (h.warp w).at_
      cases Reader.acts hn with
      | read hpc hfull =>
        simp only [Reader.At, hpc, Reader.InWindow, Reader.Dealt] at hat
        exact ⟨by omega, Nat.mod_lt _ (by decide)⟩
    have hring : ∀ w' ≠ w, (σ.perform w x (.read win k r)).ring w' = σ.ring w' := fun w' hne => Function.update_of_ne hne _ _
    have hself' : (σ.perform w x (.read win k r)).ring w = Function.update (σ.ring w) r ((σ.ring w r).release ()) :=
      Function.update_self _ _ _
    refine left_lt_of (fun w' hne => ?_) (fun w' hne => by rw [hring w' hne]) (.inr (.inl ⟨?_, ?_, ?_⟩))
    · rw [hother w' hne, ready_congr (hother w' hne) (hring w' hne)]
    · rw [hself]
      exact (Reader.left_read hn _).1
    · exact unread_lt hwin (fun i hne => congrArg List.length (Function.update_of_ne hne _ _)) (by simp [perform, effect, readTile])
        (h'.reads_le win)
    · rw [hself', flight_release hr]

/-- A landing leaves less in flight. -/
theorem land_lt {lane : Fin 32} {r : ℕ} (hr : r < 2) (hfly : σ.InFlight w lane r) :
    left { σ with ring := Function.update σ.ring w (Function.update (σ.ring w) r ((σ.ring w r).land () lane)) } < σ.left := by
  refine left_lt_of (w := w) (fun w' hne => ?_) (fun w' hne => ?_) (.inr (.inr ⟨?_, rfl, ?_⟩))
  · exact congrArg ((σ.warp w').left R) (ready_congr rfl (Function.update_of_ne hne _ _))
  · exact congrArg flight (Function.update_of_ne hne _ _)
  · refine Reader.left_mono _ fun hready => decide_eq_true ?_
    have hlt := of_decide_eq_true hready
    dsimp only
    rw [Function.update_self]
    rcases eq_or_ne ((σ.warp w).n % 2) r with heq | hne
    · rw [heq] at hlt ⊢
      rw [Function.update_self]
      exact hlt.trans_le (σ.ring w r).full.phase_le_arrive
    · rwa [Function.update_of_ne hne]
  · dsimp only
    rw [Function.update_self]
    exact flight_land hr hfly

/-! ### Runs -/

/-- Some warp moves. -/
def Moves (R : ReadRun) (σ σ' : Of R) : Prop := ∃ w, Step σ w σ'

theorem falls (R : ReadRun) : Falls (Moves R) Reachable left where
  keep h hstep := .step h hstep.choose_spec
  fall h hstep := by
    obtain ⟨w, hstep⟩ := hstep
    cases hstep with
    | act hn => exact h.inv.act_lt hn (h.inv.step (.act hn))
    | land hr hfly => exact land_lt hr hfly

/-- What a launch's moves are bounded by: a warp's in each window, and 32 to a tile, copies and all. -/
def movesBound (R : ReadRun) : ℕ :=
  64 * (R.plan.warps * (32 * R.windows + 28) + 32 * ∑ win ∈ Finset.range R.windows, R.tiles win)

theorem left_start (counter : ℕ → ℕ) (order tilemask : ℕ → ℕ → BitVec 16) (masks : ℕ → BitVec 16) :
    (start counter order tilemask masks : Of R).left = movesBound R := by
  have hflight : ∀ w : Fin R.plan.warps, flight ((start counter order tilemask masks : Of R).ring w) = 0 := by
    intro w
    simp [flight, Readers.start, Slot.fresh]
  have hwarp : ∀ (w : Fin R.plan.warps) (b : Bool), ((start counter order tilemask masks : Of R).warp w).left R b = 32 * R.windows + 28 := by
    intro w b
    simp [Readers.start, Reader.start, Reader.left]
  have hunread : (start counter order tilemask masks : Of R).unread = ∑ win ∈ Finset.range R.windows, R.tiles win := by
    simp [unread, Readers.start]
  have hcard : (Finset.univ : Finset (Fin R.plan.warps)).card = R.plan.warps := by rw [Finset.card_univ, Fintype.card_fin]
  unfold left movesBound
  rw [Finset.sum_const_nat fun w _ => hwarp w _, Finset.sum_eq_zero fun w _ => hflight w, hunread, hcard, Nat.add_zero]

theorem Inv.finished_of_stuck (h : σ.Inv) (hno : ∀ σ', ¬ Moves R σ σ') (w : Fin R.plan.warps) : (σ.warp w).pc = .finished := by
  by_contra hpc
  obtain ⟨w', σ', hstep⟩ := h.progress hpc
  exact hno σ' ⟨w', hstep⟩

theorem Inv.win_of_finished (h : σ.Inv) (hw : (σ.warp w).pc = .finished) : (σ.warp w).win = R.windows := by
  have hat := (h.warp w).at_
  simp only [Reader.At, hw] at hat
  exact hat.2.1

theorem Reachable.exists_finished (h : Reachable σ) :
    ∃ m σ', Steps (Moves R) m σ σ' ∧ Reachable σ' ∧ ∀ w, (σ'.warp w).pc = .finished := by
  obtain ⟨m, σ', hsteps, h', hno⟩ := (falls R).exists_stuck h
  exact ⟨m, σ', hsteps, h', h'.inv.finished_of_stuck hno⟩

/-- A run as it ends: its length, that it is not stuck, and what has been read. -/
structure Ends (R : ReadRun) (n : ℕ) (σ : Of R) : Prop where
  bound : n ≤ movesBound R
  stuck : (∀ σ', ¬ Moves R σ σ') → ∀ w, (σ.warp w).pc = .finished
  finish : ∃ m σ', Steps (Moves R) m σ σ' ∧ ∀ w, (σ'.warp w).pc = .finished
  all : ∀ w, (σ.warp w).pc = .finished → ∀ win < R.windows, ((σ.reads win).flatMap TileRead.tokens).Perm
    ((List.range window).filter fun t => (R.words win).Live R.plan t)

/-- No order of the warps' moves goes on for ever, none is stuck, and at the end every live token is read
once. -/
theorem readers_end (R : ReadRun) (counter : ℕ → ℕ) (order tilemask : ℕ → ℕ → BitVec 16) (masks : ℕ → BitVec 16) (n : ℕ) (σ : Of R)
    (h : Steps (Moves R) n (start counter order tilemask masks) σ) : Ends R n σ := by
  obtain ⟨hreach, hle⟩ := (falls R).steps (.start _ _ _ _) h
  rw [left_start] at hle
  refine ⟨by omega, hreach.inv.finished_of_stuck, ?_, fun w hw win hwin => hreach.inv.tokens_perm (w := w) ?_⟩
  · obtain ⟨m, σ', hsteps, -, hfin⟩ := hreach.exists_finished
    exact ⟨m, σ', hsteps, hfin⟩
  · rwa [hreach.inv.win_of_finished hw]

/-- Two warps in the first window's head. -/
theorem readers_end_two : ∃ (R : ReadRun) (σ : Of R), (R.plan.warps = 8 ∧ σ.counter 0 = 0 ∧ ∃ w, (σ.warp w).pc = .counts) ∧ Ends R 2 σ := by
  let R : ReadRun :=
    { plan := ⟨8, 2, .inl rfl, two_pos, le_rfl⟩, windows := 2
      words := fun win => ⟨512, false, fun b _ => if b % 2 = win then 0xFFFF#32 else 0#32⟩ }
  let w : Fin R.plan.warps := ⟨0, by decide⟩
  let σ : Of R := start (fun _ => 7) (fun _ _ => 0) (fun _ _ => 0) fun _ => 0
  have hsteps : Steps (Moves R) 2 σ (act (act σ w) ⟨1, by decide⟩) := .head ⟨w, .act rfl⟩ (.head ⟨_, .act rfl⟩ (.refl _))
  exact ⟨R, _, ⟨rfl, rfl, w, rfl⟩, readers_end R _ _ _ _ 2 _ hsteps⟩

end Readers

end Rola
