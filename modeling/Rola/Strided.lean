import Mathlib.Data.List.Nodup
import Mathlib.Data.List.Perm.Basic
import Mathlib.Data.Multiset.Bind

/-!
# Strided loops under a ceiling

A loop counts up by a stride to a bound, in integers below a ceiling; past the ceiling nothing is
defined. The loops that start at `0, …, stride - 1` share out the numbers below the bound.
-/

namespace Strided

variable {α β γ : Type*}

/-- The results one after the other, if all are defined. -/
def collect (f : α → Option (List β)) : List α → Option (List β)
  | [] => some []
  | a :: l => (f a).bind fun bs => (collect f l).map (bs ++ ·)

theorem collect_eq_some {f : α → Option (List β)} {g : α → List β} {l : List α}
    (h : ∀ a ∈ l, f a = some (g a)) : collect f l = some (l.flatMap g) := by
  induction l with
  | nil => rfl
  | cons a l ih =>
    have htail := ih fun b hb => h b (List.mem_cons_of_mem _ hb)
    simp [collect, h a List.mem_cons_self, htail]

theorem collect_eq_none {f : α → Option (List β)} {l : List α} {a : α} (ha : a ∈ l) (h : f a = none) :
    collect f l = none := by
  induction l with
  | nil => cases ha
  | cons b l ih =>
    unfold collect
    rcases List.mem_cons.1 ha with rfl | ha
    · rw [h]
      rfl
    · rw [ih ha]
      cases f b <;> rfl

theorem exists_of_collect_eq_none {f : α → Option (List β)} {l : List α} (h : collect f l = none) :
    ∃ a ∈ l, f a = none := by
  by_contra hall
  push Not at hall
  have hsome := collect_eq_some (f := f) (g := fun a => (f a).getD []) (l := l) fun a ha => by
    obtain ⟨bs, hbs⟩ := Option.ne_none_iff_exists'.1 (hall a ha)
    rw [hbs, Option.getD_some]
  rw [h] at hsome
  cases hsome

/-- A fold that one place always stops. -/
theorem foldlM_eq_none {σ : Type*} {f : σ → α → Option σ} {l : List α} {a : α} (ha : a ∈ l) (h : ∀ st, f st a = none)
    (st : σ) : l.foldlM f st = none := by
  induction l generalizing st with
  | nil => cases ha
  | cons b l ih =>
    rw [List.foldlM_cons]
    rcases List.mem_cons.1 ha with rfl | ha
    · rw [h]
      rfl
    · rcases f st b with _ | st'
      · rfl
      · exact ih ha st'

/-- `for (x = first; x < bound; x += step)`; it never ends on a stride of zero. -/
def loop (ceiling step bound x : ℕ) : Option (List ℕ) :=
  if x < bound then
    if 0 < step ∧ x + step < ceiling then (loop ceiling step bound (x + step)).map (x :: ·) else none
  else some []
termination_by bound - x

/-- What the loop from `x` runs through. -/
structure Runs (step bound x : ℕ) (l : List ℕ) : Prop where
  nodup : l.Nodup
  mem : ∀ y, y ∈ l ↔ x ≤ y ∧ y < bound ∧ (y - x) % step = 0

variable {ceiling step bound x : ℕ}

theorem runs_nil (h : bound ≤ x) : Runs step bound x [] :=
  ⟨List.nodup_nil, fun y => ⟨fun hy => absurd hy List.not_mem_nil, fun ⟨h1, h2, _⟩ => by omega⟩⟩

theorem sub_mod_step {y : ℕ} (h : x + step ≤ y) : (y - x) % step = (y - (x + step)) % step := by
  rw [show y - x = y - (x + step) + step by omega, Nat.add_mod_right]

theorem loop_runs (hstep : 0 < step) (hceil : bound + step ≤ ceiling) :
    ∃ l, loop ceiling step bound x = some l ∧ Runs step bound x l := by
  induction x using loop.induct ceiling step bound with
  | case1 x hx hfits ih =>
    obtain ⟨l, hl, hruns⟩ := ih
    refine ⟨x :: l, ?_, List.nodup_cons.2 ⟨fun hmem => ?_, hruns.nodup⟩, fun y => ⟨fun hy => ?_, fun hy => ?_⟩⟩
    · rw [loop, if_pos hx, if_pos hfits, hl]
      rfl
    · have := (hruns.mem x).1 hmem
      omega
    · rcases List.mem_cons.1 hy with rfl | hy
      · exact ⟨le_rfl, hx, by simp⟩
      · obtain ⟨h1, h2, h3⟩ := (hruns.mem y).1 hy
        exact ⟨by omega, h2, (sub_mod_step h1).trans h3⟩
    · obtain ⟨h1, h2, h3⟩ := hy
      rcases Nat.lt_or_ge y (x + step) with hlt | hge
      · rw [Nat.mod_eq_of_lt (by omega)] at h3
        exact List.mem_cons.2 (.inl (by omega))
      · exact List.mem_cons_of_mem _ ((hruns.mem y).2 ⟨hge, h2, (sub_mod_step hge).symm.trans h3⟩)
  | case2 x hx hfits => exact absurd ⟨hstep, by omega⟩ hfits
  | case3 x hx =>
    refine ⟨[], ?_, runs_nil (by omega)⟩
    rw [loop, if_neg hx]

/-- A loop that ends has run through every number it reaches. -/
theorem mem_of_loop {l : List ℕ} (h : loop ceiling step bound x = some l) {y : ℕ} (hx : x ≤ y) (hy : y < bound)
    (hmod : (y - x) % step = 0) : y ∈ l := by
  induction x using loop.induct ceiling step bound generalizing l with
  | case1 x hxb hfits ih =>
    rw [loop, if_pos hxb, if_pos hfits, Option.map_eq_some_iff] at h
    obtain ⟨l', hl', rfl⟩ := h
    rcases Nat.lt_or_ge y (x + step) with hlt | hge
    · rw [Nat.mod_eq_of_lt (by omega)] at hmod
      exact List.mem_cons.2 (.inl (by omega))
    · exact List.mem_cons_of_mem _ (ih hl' hge ((sub_mod_step hge).symm.trans hmod))
  | case2 x hxb hfits =>
    rw [loop, if_pos hxb, if_neg hfits] at h
    cases h
  | case3 x hxb => omega

/-- Nothing is defined once a number the loop reaches has no successor below the ceiling. -/
theorem loop_eq_none {y : ℕ} (hx : x ≤ y) (hy : y < bound) (hmod : (y - x) % step = 0)
    (hceil : ceiling ≤ y + step) : loop ceiling step bound x = none := by
  induction x using loop.induct ceiling step bound with
  | case1 x hxb hfits ih =>
    have hne : x ≠ y := by
      rintro rfl
      omega
    have hge : x + step ≤ y := by
      by_contra hlt
      rw [Nat.mod_eq_of_lt (by omega)] at hmod
      omega
    rw [loop, if_pos hxb, if_pos hfits, ih hge ((sub_mod_step hge).symm.trans hmod)]
    rfl
  | case2 x hxb hfits => rw [loop, if_pos hxb, if_neg hfits]
  | case3 x hxb => omega

/-- The loops from every start below the stride share out the numbers below the bound. -/
theorem perm_range {L : ℕ → List ℕ} (hL : ∀ x < step, Runs step bound x (L x)) (hstep : 0 < step) :
    ((List.range step).flatMap L).Perm (List.range bound) := by
  have hmod : ∀ x < step, ∀ y ∈ L x, y % step = x := by
    intro x hx y hy
    obtain ⟨h1, -, h3⟩ := (hL x hx).mem y |>.1 hy
    rw [show y = x + (y - x) by omega, Nat.add_mod, h3, Nat.add_zero, Nat.mod_mod, Nat.mod_eq_of_lt hx]
  have hnodup : ((List.range step).flatMap L).Nodup := by
    refine List.nodup_flatMap.2 ⟨fun x hx => (hL x (List.mem_range.1 hx)).nodup, ?_⟩
    refine List.nodup_range.pairwise_of_forall_ne fun x hx x' hx' hne => ?_
    intro y hy hy'
    exact hne ((hmod x (List.mem_range.1 hx) y hy).symm.trans (hmod x' (List.mem_range.1 hx') y hy'))
  refine (List.perm_ext_iff_of_nodup hnodup List.nodup_range).2 fun y => ⟨fun hy => ?_, fun hy => ?_⟩
  · obtain ⟨x, hx, hy⟩ := List.mem_flatMap.1 hy
    exact List.mem_range.2 ((hL x (List.mem_range.1 hx)).mem y |>.1 hy).2.1
  · have hlt := Nat.mod_lt y hstep
    refine List.mem_flatMap.2 ⟨y % step, List.mem_range.2 hlt, ((hL _ hlt).mem y).2 ?_⟩
    refine ⟨Nat.mod_le _ _, List.mem_range.1 hy, ?_⟩
    exact Nat.sub_mod_eq_zero_of_mod_eq (Nat.mod_mod _ _).symm

/-- Pairs that name distinct things. -/
theorem nodup_flatMap_map {l : List α} {f : α → List β} {g : α → β → γ} (hl : l.Nodup) (hf : ∀ a ∈ l, (f a).Nodup)
    (hinj : ∀ a ∈ l, ∀ b ∈ f a, ∀ a' ∈ l, ∀ b' ∈ f a', g a b = g a' b' → a = a' ∧ b = b') :
    (l.flatMap fun a => (f a).map (g a)).Nodup := by
  refine List.nodup_flatMap.2 ⟨fun a ha => (hf a ha).map_on fun b hb b' hb' heq => (hinj a ha b hb a ha b' hb' heq).2, ?_⟩
  refine hl.pairwise_of_forall_ne fun a ha a' ha' hne c hc hc' => ?_
  obtain ⟨b, hb, rfl⟩ := List.mem_map.1 hc
  obtain ⟨b', hb', heq⟩ := List.mem_map.1 hc'
  exact hne (hinj a ha b hb a' ha' b' hb' heq.symm).1

/-- Nested enumerations may change places. -/
theorem flatMap_comm (l : List α) (l' : List β) (f : α → β → List γ) :
    (l.flatMap fun a => l'.flatMap fun b => f a b).Perm (l'.flatMap fun b => l.flatMap fun a => f a b) := by
  rw [← Multiset.coe_eq_coe]
  have h := Multiset.bind_bind (l : Multiset α) (l' : Multiset β) (f := fun a b => (f a b : Multiset γ))
  simpa only [Multiset.coe_bind] using h

end Strided
