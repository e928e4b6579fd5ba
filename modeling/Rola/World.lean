import Rola.Owned
import Rola.StateInv

/-!
# Handles and their objects

A state is a handle: its scalar fields, a reference to its arena and one to its plane. Every call
mutates what the references name, or makes a new object and keeps a reference to it; `clone()` makes
a handle over new objects. No two handles of a reachable world share an object, so a call on one is
invisible through every other.
-/

namespace Rola

/-- The fields a handle holds itself. -/
structure Header where
  poolSlack : ℚ
  shape : Option Shape
  paging : Bool
  format : Option StateFormat

structure World (Page : Type) where
  header : ℕ → Option Header
  arenas : Owned (Arena Page)
  planes : Owned (ℕ → Page)
  /-- The next handle. -/
  next : ℕ

namespace World

variable {Page : Type} {w w' : World Page} {h h' : ℕ} {s t : RoLAState Page}

def empty (Page : Type) : World Page := ⟨fun _ => none, .empty _, .empty _, 0⟩

/-- The state a handle is, with its objects' contents. -/
def deref (w : World Page) (h : ℕ) : Option (RoLAState Page) :=
  (w.header h).map fun o =>
    { poolSlack := o.poolSlack
      shape := o.shape
      paging := o.paging
      arena := w.arenas.read h
      plane := w.planes.read h
      format := o.format }

/-- Write a state back through its handle. -/
def put (w : World Page) (h : ℕ) (s : RoLAState Page) : World Page :=
  { w with
    header := Function.update w.header h (some ⟨s.poolSlack, s.shape, s.paging, s.format⟩)
    arenas := w.arenas.write h s.arena
    planes := w.planes.write h s.plane }

/-- A new handle over new objects. -/
def make (w : World Page) (s : RoLAState Page) : World Page :=
  { w.put w.next s with next := w.next + 1 }

inductive Action (Page : Type) where
  | create (poolSlack : ℚ)
  | call (h : ℕ) (c : RoLAState.Call Page)
  | clone (h : ℕ) (grow : Grow) (base : ℕ → Page)

/-- `none` is a clone that raises, or a handle that does not exist. -/
def step [Zero Page] (w : World Page) : Action Page → Option (World Page)
  | .create poolSlack => some (w.make (RoLAState.new poolSlack))
  | .call h c => (w.deref h).map fun s => w.put h (s.exec c)
  | .clone h grow base => (w.deref h).bind fun s =>
      match s.clone grow base with
      | .error _ => none
      | .ok t => some (w.make t)

/-- `materialize()` through a handle. -/
def materialize [Zero Page] {W : Type} (rejoin raw : Page → W) (w : World Page) (h : ℕ) :
    Option (Option (List W)) :=
  (w.deref h).map (RoLAState.materialize rejoin raw)

@[simp] theorem deref_put_self : (w.put h s).deref h = some s := by
  simp [deref, put]

/-- The objects of distinct handles are distinct, and later handles name none. -/
structure Separate (w : World Page) : Prop where
  arenas : w.arenas.Separate
  planes : w.planes.Separate
  fresh : ∀ h, w.next ≤ h → w.header h = none

theorem Separate.deref_put_other (hw : w.Separate) (hne : h' ≠ h) : (w.put h s).deref h' = w.deref h' := by
  unfold deref put
  dsimp only
  rw [Function.update_of_ne hne, hw.arenas.read_write_other hne, hw.planes.read_write_other hne]

theorem lt_next (hw : w.Separate) (hs : w.deref h = some s) : h < w.next := by
  by_contra hle
  rw [deref, hw.fresh h (Nat.le_of_not_lt hle)] at hs
  cases hs

theorem Separate.put (hw : w.Separate) (hh : h < w.next) : (w.put h s).Separate :=
  ⟨hw.arenas.write, hw.planes.write, fun k hk =>
    (Function.update_of_ne (Nat.ne_of_gt (hh.trans_le hk)) _ _).trans (hw.fresh k hk)⟩

theorem Separate.make (hw : w.Separate) : (w.make s).Separate :=
  ⟨hw.arenas.write, hw.planes.write, fun k hk =>
    (Function.update_of_ne (Nat.ne_of_gt hk) _ _).trans (hw.fresh k (Nat.le_of_succ_le hk))⟩

theorem deref_make_self : (w.make s).deref w.next = some s := deref_put_self

theorem Separate.deref_make_other (hw : w.Separate) (hne : h ≠ w.next) : (w.make s).deref h = w.deref h :=
  hw.deref_put_other hne

/-- What every reachable world keeps. -/
structure Good [Zero Page] (w : World Page) : Prop where
  separate : w.Separate
  states : ∀ h s, w.deref h = some s → s.Good

variable [Zero Page]

theorem good_empty : (empty Page).Good :=
  ⟨⟨Owned.separate_empty, Owned.separate_empty, fun _ _ => rfl⟩, fun _ _ hs => (nomatch hs)⟩

theorem Good.put (hw : w.Good) (hh : h < w.next) (hs : s.Good) : (w.put h s).Good := by
  refine ⟨hw.separate.put hh, fun k t ht => ?_⟩
  by_cases hk : k = h
  · subst hk
    rw [deref_put_self] at ht
    exact Option.some.inj ht ▸ hs
  · rw [hw.separate.deref_put_other hk] at ht
    exact hw.states k t ht

theorem Good.make (hw : w.Good) (hs : s.Good) : (w.make s).Good := by
  refine ⟨hw.separate.make, fun k t ht => ?_⟩
  by_cases hk : k = w.next
  · subst hk
    rw [deref_make_self] at ht
    exact Option.some.inj ht ▸ hs
  · rw [hw.separate.deref_make_other hk] at ht
    exact hw.states k t ht

theorem step_call {c : RoLAState.Call Page} :
    w.step (.call h c) = some w' ↔ ∃ s, w.deref h = some s ∧ w.put h (s.exec c) = w' := by
  simp [step]

theorem step_clone {grow : Grow} {base : ℕ → Page} : w.step (.clone h grow base) = some w' ↔
    ∃ s t, w.deref h = some s ∧ s.clone grow base = .ok t ∧ w.make t = w' := by
  unfold step
  rw [Option.bind_eq_some_iff]
  refine exists_congr fun s => ?_
  rcases hclone : s.clone grow base with err | t <;> simp

/-- An action on other handles is invisible through this one. -/
theorem step_frame (hw : w.Separate) (hh : h < w.next) {a : Action Page} (ha : ∀ c, a ≠ .call h c)
    (hstep : w.step a = some w') : w'.deref h = w.deref h ∧ h < w'.next := by
  rcases a with slack | ⟨k, c⟩ | ⟨k, grow, base⟩
  · cases hstep
    exact ⟨hw.deref_make_other (Nat.ne_of_lt hh), hh.trans (Nat.lt_succ_self _)⟩
  · obtain ⟨s, -, rfl⟩ := step_call.1 hstep
    have hne : h ≠ k := by
      rintro rfl
      exact ha c rfl
    exact ⟨hw.deref_put_other hne, hh⟩
  · obtain ⟨s, t, -, -, rfl⟩ := step_clone.1 hstep
    exact ⟨hw.deref_make_other (Nat.ne_of_lt hh), hh.trans (Nat.lt_succ_self _)⟩

end World

end Rola
