import Rola.GatedStep

/-!
# Growth and replay

`decode_forward`: a gated launch, an admission where its verdict asks for one, and the same launch again.
A batch-head that ran in the first launch carries a done flag into the second, and the flags are reset
only by a launch in which nothing is needy.
-/

namespace Rola

open PageArena

variable {c : ArenaConfig} {R P O : Type} [Zero R]

/-- `admit_growth`: the step's own condensation, planned on the arena. -/
def admitGrowth (c : ArenaConfig) (grow : Grow) (s : DecodeState R P O) : Except String Unit × DecodeState R P O :=
  let r := planExact c grow (ownBitmap c fun id => s.atomBits (id / c.atomsPerBh) (id % c.atomsPerBh)) false s.pages
  (r.1.map fun _ => (), { s with pages := r.2 })

namespace StepWork

variable {W : StepWork c R P O} {grow : Grow} {s s' t u v : DecodeState R P O} {bh : ℕ}

/-- `decode_forward`, from the state it is called on to the one it leaves, returned or raised. -/
inductive Forward (W : StepWork c R P O) (grow : Grow) (s : DecodeState R P O) :
    Except String Unit → DecodeState R P O → Prop
  | ran {t : DecodeState R P O} (hg : W.Gated s t) (hany : t.growthAny = false) : Forward W grow s (.ok ()) t
  | raised {t u : DecodeState R P O} {err : String} (hg : W.Gated s t) (hany : t.growthAny = true)
      (hadm : admitGrowth c grow t = (.error err, u)) : Forward W grow s (.error err) u
  | replayed {t u v : DecodeState R P O} (hg : W.Gated s t) (hany : t.growthAny = true)
      (hadm : admitGrowth c grow t = (.ok (), u)) (hreplay : W.Gated u v) : Forward W grow s (.ok ()) v

/-- Nothing is left over from a step. -/
structure Clean (c : ArenaConfig) (s : DecodeState R P O) : Prop extends Quiet c s where
  done : ∀ bh < c.BH, s.done bh = false

/-- Every batch-head has taken the token: each written leaf is updated once, no other leaf moves, and the
readout is of the rows the updates left. -/
structure Stepped (W : StepWork c R P O) (s t : DecodeState R P O) : Prop where
  written : ∀ bh < c.BH, ∀ v, W.Visits bh v → v.inW = true → row c t.pages bh v.leaf = v.upd (row c s.pages bh v.leaf)
  kept : ∀ bh < c.BH, ∀ leaf, leaf / 16 < c.atomsPerBh → (∀ v, W.Visits bh v → v.inW = true → v.leaf ≠ leaf) →
    row c t.pages bh leaf = row c s.pages bh leaf
  y : ∀ bh < c.BH, t.y bh = W.readout bh fun v => if v.inW then v.upd (row c s.pages bh v.leaf) else row c s.pages bh v.leaf

theorem someNeedy_eq_false : W.someNeedy s = false ↔ ∀ bh < c.BH, W.needy s bh = false := by
  unfold someNeedy
  simp only [List.any_eq_false, List.mem_range, Bool.not_eq_true]

/-- A launch from a clean state in which nothing is needy. -/
theorem Ran.stepped (hr : W.Ran s t) (hclean : Clean c s) (hnone : W.someNeedy s = false) :
    W.Stepped s t ∧ Clean c t ∧ t.growthAny = false := by
  have hneedy := someNeedy_eq_false.1 hnone
  refine ⟨⟨fun bh hbh => hr.written bh hbh (hneedy bh hbh) (hclean.done bh hbh), fun bh hbh leaf hleaf hne => ?_,
    fun bh hbh => ?_⟩, ⟨hr.quiet, fun bh hbh => ?_⟩, hr.any.trans hnone⟩
  · exact hr.kept bh hbh leaf hleaf fun _ _ => hne
  · rw [hr.y bh hbh, hneedy bh hbh, hclean.done bh hbh]
    simp
  · rw [hr.done bh hbh, if_pos hnone]

/-! ### The admission between two launches -/

theorem admitGrowth_ok (hadm : admitGrowth c grow t = (.ok (), u)) : ∃ res pages,
    planWanted c grow (fun id => t.atomBits (id / c.atomsPerBh) (id % c.atomsPerBh)) t.pages = (.ok res, pages) ∧
      u = { t with pages := pages } := by
  unfold admitGrowth at hadm
  rw [planExact_continue] at hadm
  rcases hplan : planWanted c grow (fun id => t.atomBits (id / c.atomsPerBh) (id % c.atomsPerBh)) t.pages with ⟨_ | res, pages⟩
  · rw [hplan] at hadm
    cases hadm
  · rw [hplan] at hadm
    cases hadm
    exact ⟨res, pages, rfl, rfl⟩

/-- An admission moves no row and maps the token's atoms. -/
theorem row_admitGrowth (hsound : Sound c t.pages) (hadm : admitGrowth c grow t = (.ok (), u)) (hbh : bh < c.BH) {leaf : ℕ}
    (hleaf : leaf / 16 < c.atomsPerBh) : row c u.pages bh leaf = row c t.pages bh leaf := by
  obtain ⟨res, pages, hplan, rfl⟩ := admitGrowth_ok hadm
  unfold row
  rw [gathered_planWanted hsound.1 hplan (atomId_lt hbh hleaf)]

theorem sound_admitGrowth (hsound : Sound c t.pages) : Sound c (admitGrowth c grow t).2.pages := hsound.planExact _

theorem mapped_admitGrowth (hbits : ∀ bh < c.BH, t.atomBits bh = fun a => decide (a ∈ W.cand bh))
    (hadm : admitGrowth c grow t = (.ok (), u)) (hbh : bh < c.BH) {a : ℕ} (ha : a ∈ W.cand bh) :
    u.pages.pageTable (c.atomId bh a) ≠ none := by
  obtain ⟨res, pages, hplan, rfl⟩ := admitGrowth_ok hadm
  have hlt := W.lt bh a ha
  refine planWanted_maps hplan (atomId_lt hbh hlt) ?_
  rw [(atomId_div hlt).1, (atomId_div hlt).2, hbits bh hbh]
  exact decide_eq_true ha

/-- A batch-head that is done, or whose atoms are all mapped, is not needy. -/
theorem not_needy (h : s.done bh = true ∨ ∀ a ∈ W.cand bh, s.pages.pageTable (c.atomId bh a) ≠ none) : W.needy s bh = false := by
  unfold needy PageArena.needy
  rcases h with hdone | hmap
  · rw [show (W.decodeCall s.done).done bh = true from hdone]
    rfl
  · have hnone : s.pages.wanted (W.decodeCall s.done) bh = [] :=
      List.eq_nil_iff_forall_not_mem.2 fun a ha => hmap a (mem_wanted.1 ha).1 (mem_wanted.1 ha).2
    simp [demand, hnone]

omit [Zero R] in
theorem readout_congr {f g : LeafVisit R P → R} (hfg : ∀ v, W.Visits bh v → f v = g v) : W.readout bh f = W.readout bh g := by
  have hcount : (W.baseCall bh).Counted :=
    HeadCall.counted_of_le W.split.bounds.1 W.split.bounds.2 (W.umax_count bh).le
  refine congrArg W.out (HeadCall.total_ext hcount fun seg hseg warp hwarp => ?_)
  refine List.foldl_ext _ _ _ fun acc v hv => congrArg (v.read acc) ?_
  exact hfg v ⟨seg, warp, (hcount.live seg).2 hseg, hwarp, hv⟩

omit [Zero R] in
/-- A leaf is visited once. -/
theorem visit_unique {x y : LeafVisit R P} (hx : W.Visits bh x) (hy : W.Visits bh y) (heq : x.leaf = y.leaf) : x = y := by
  obtain ⟨seg, warp, -, -, hx⟩ := hx
  obtain ⟨seg', warp', -, -, hy⟩ := hy
  by_contra hne
  by_cases hkey : (seg, warp) = (seg', warp')
  · obtain ⟨rfl, rfl⟩ := Prod.mk.inj hkey
    have : Std.Symm fun x y : LeafVisit R P => x.leaf ≠ y.leaf := ⟨fun _ _ h => h.symm⟩
    exact (W.same bh seg warp).forall hx hy hne heq
  · exact W.cross bh seg warp seg' warp' hkey x hx y hy heq

omit [Zero R] in
theorem visits_lt {x : LeafVisit R P} (hx : W.Visits bh x) : x.leaf / 16 < c.atomsPerBh := by
  obtain ⟨seg, warp, -, -, hmem⟩ := hx
  exact W.visit_lt bh seg warp x hmem

/-- What a launch that deposited left at a visited leaf. -/
theorem Ran.row_visit (hr : W.Ran s t) (hbh : bh < c.BH) (hn : W.needy s bh = false) (hd : s.done bh = false)
    {x : LeafVisit R P} (hx : W.Visits bh x) : row c t.pages bh x.leaf =
      if x.inW then x.upd (row c s.pages bh x.leaf) else row c s.pages bh x.leaf := by
  split
  · rename_i hw
    exact hr.written bh hbh hn hd x hx hw
  · rename_i hw
    refine hr.kept bh hbh x.leaf (visits_lt hx) fun _ _ x' hx' hw' heq => hw ?_
    rwa [← visit_unique hx' hx heq]

/-- The replay: what a batch-head did in the first launch it does not do again. -/
theorem Ran.replay (h1 : W.Ran s t) (hclean : Clean c s) (hany : W.someNeedy s = true)
    (hadm : admitGrowth c grow t = (.ok (), u)) (h2 : W.Ran u v) : W.Stepped s v ∧ Clean c v ∧ v.growthAny = false ∧
      (∀ bh < c.BH, W.needy u bh = false) ∧ ∀ bh < c.BH, W.needy s bh = false → v.y bh = t.y bh ∧
        ∀ leaf, leaf / 16 < c.atomsPerBh → row c v.pages bh leaf = row c t.pages bh leaf := by
  have hdone : ∀ bh < c.BH, u.done bh = !W.needy s bh := by
    intro bh hbh
    obtain ⟨res, pages, hplan, rfl⟩ := admitGrowth_ok hadm
    refine (h1.done bh hbh).trans ?_
    rw [hany, if_neg Bool.true_eq_false_eq_False, hclean.done bh hbh]
    rcases W.needy s bh <;> rfl
  have hrow : ∀ bh < c.BH, ∀ leaf, leaf / 16 < c.atomsPerBh → row c u.pages bh leaf = row c t.pages bh leaf :=
    fun bh hbh leaf hleaf => row_admitGrowth h1.sound hadm hbh hleaf
  have hneedy : ∀ bh < c.BH, W.needy u bh = false := fun bh hbh =>
    not_needy (.inr fun a ha => mapped_admitGrowth h1.bits hadm hbh ha)
  have hnone := someNeedy_eq_false.2 hneedy
  -- a batch-head that ran keeps its rows, one that did not still has those of the entry
  have hran : ∀ bh < c.BH, W.needy s bh = false → ∀ leaf, leaf / 16 < c.atomsPerBh →
      row c v.pages bh leaf = row c t.pages bh leaf := by
    intro bh hbh hn leaf hleaf
    rw [← hrow bh hbh leaf hleaf]
    refine h2.kept bh hbh leaf hleaf fun _ hd => ?_
    rw [hdone bh hbh, hn] at hd
    cases hd
  have hwaited : ∀ bh < c.BH, W.needy s bh = true → ∀ leaf, leaf / 16 < c.atomsPerBh →
      row c u.pages bh leaf = row c s.pages bh leaf := by
    intro bh hbh hn leaf hleaf
    rw [hrow bh hbh leaf hleaf]
    refine h1.kept bh hbh leaf hleaf fun hn' => ?_
    rw [hn] at hn'
    cases hn'
  have hidle : ∀ bh < c.BH, W.needy s bh = true → u.done bh = false := fun bh hbh hn => by
    rw [hdone bh hbh, hn]
    rfl
  have hty : ∀ bh < c.BH, W.needy s bh = false → t.y bh = W.readout bh fun x =>
      if x.inW then x.upd (row c s.pages bh x.leaf) else row c s.pages bh x.leaf := fun bh hbh hn => by
    rw [h1.y bh hbh, hn, hclean.done bh hbh]
    simp
  have hvy : ∀ bh < c.BH, v.y bh = W.readout bh fun x =>
      if x.inW then x.upd (row c s.pages bh x.leaf) else row c s.pages bh x.leaf := by
    intro bh hbh
    rw [h2.y bh hbh, hneedy bh hbh, if_neg Bool.false_ne_true, hdone bh hbh]
    refine readout_congr fun x hx => ?_
    rcases hn : W.needy s bh with _ | _
    · rw [Bool.not_false, Bool.not_true, Bool.and_false, if_neg Bool.false_ne_true, hrow bh hbh _ (visits_lt hx)]
      exact h1.row_visit hbh hn (hclean.done bh hbh) hx
    · rw [Bool.not_true, Bool.not_false, Bool.and_true, hwaited bh hbh hn _ (visits_lt hx)]
  refine ⟨⟨fun bh hbh x hx hw => ?_, fun bh hbh leaf hleaf hne => ?_, hvy⟩, ⟨h2.quiet, fun bh hbh => ?_⟩,
    h2.any.trans hnone, hneedy, fun bh hbh hn => ⟨(hvy bh hbh).trans (hty bh hbh hn).symm, hran bh hbh hn⟩⟩
  · rcases hn : W.needy s bh with _ | _
    · rw [hran bh hbh hn _ (visits_lt hx)]
      exact h1.written bh hbh hn (hclean.done bh hbh) x hx hw
    · rw [h2.written bh hbh (hneedy bh hbh) (hidle bh hbh hn) x hx hw, hwaited bh hbh hn _ (visits_lt hx)]
  · rcases hn : W.needy s bh with _ | _
    · rw [hran bh hbh hn leaf hleaf]
      exact h1.kept bh hbh leaf hleaf fun _ _ => hne
    · rw [h2.kept bh hbh leaf hleaf fun _ _ => hne, hwaited bh hbh hn leaf hleaf]
  · rw [h2.done bh hbh, if_pos hnone]

/-! ### One step -/

/-- A gated launch, the admission its verdict asks for, and the replay: a needy batch-head is left alone, a
batch-head that ran reads again what it read, and the token is deposited once everywhere. -/
theorem growth_deposits_once (hsound : Sound c s.pages) (hclean : Clean c s) :
    (∃ t, W.Gated s t) ∧ ∀ t, W.Gated s t →
      (∀ bh < c.BH, W.needy s bh = true → t.y bh = s.y bh ∧ t.pages.poolCursor bh = s.pages.poolCursor bh ∧
        (∀ a < c.atomsPerBh, t.pages.pageTable (c.atomId bh a) = s.pages.pageTable (c.atomId bh a)) ∧
        ∀ leaf, leaf / 16 < c.atomsPerBh → row c t.pages bh leaf = row c s.pages bh leaf) ∧
      (t.growthAny = false → W.Stepped s t ∧ Clean c t) ∧
      (t.growthAny = true → ∀ grow u, admitGrowth c grow t = (.ok (), u) →
        (∀ bh < c.BH, W.needy u bh = false) ∧ (∃ v, W.Gated u v) ∧ ∀ v, W.Gated u v →
          W.Stepped s v ∧ Clean c v ∧ v.growthAny = false ∧ ∀ bh < c.BH, W.needy s bh = false →
            v.y bh = t.y bh ∧ ∀ leaf, leaf / 16 < c.atomsPerBh → row c v.pages bh leaf = row c t.pages bh leaf) := by
  refine ⟨exists_gated hclean.toQuiet, fun t hg => ?_⟩
  have hr := hg.ran hsound hclean.toQuiet
  refine ⟨fun bh hbh hn => ⟨?_, hr.cursor bh hbh hn, hr.table bh hbh hn, fun leaf hleaf => ?_⟩, fun hany => ?_,
    fun hany grow u hadm => ?_⟩
  · rw [hr.y bh hbh, if_pos hn]
  · refine hr.kept bh hbh leaf hleaf fun hn' => ?_
    rw [hn] at hn'
    cases hn'
  · obtain ⟨hstepped, hclean', -⟩ := hr.stepped hclean (hr.any.symm.trans hany)
    exact ⟨hstepped, hclean'⟩
  · have hsome : W.someNeedy s = true := hr.any.symm.trans hany
    have hu : Sound c u.pages ∧ Quiet c u := by
      have hpages := @StepWork.sound_admitGrowth _ _ _ _ _ grow _ hr.sound
      rw [hadm] at hpages
      obtain ⟨res, pages, -, rfl⟩ := admitGrowth_ok hadm
      exact ⟨hpages, hr.quiet.ctr, hr.quiet.growthCtr⟩
    refine ⟨fun bh hbh => not_needy (.inr fun a ha => mapped_admitGrowth hr.bits hadm hbh ha), exists_gated hu.2,
      fun v hv => ?_⟩
    obtain ⟨hstepped, hclean', hany', -, hsame⟩ := hr.replay hclean hsome hadm (hv.ran hu.1 hu.2)
    exact ⟨hstepped, hclean', hany', hsame⟩

/-! ### Runs of steps -/

/-- A step that returns, or that raises with every batch-head needy. -/
def Tame (c : ArenaConfig) (s t : DecodeState R P O) : Prop :=
  ∃ (W : StepWork c R P O) (grow : Grow) (r : Except String Unit), W.Forward grow s r t ∧
    (r ≠ .ok () → ∀ bh < c.BH, W.needy s bh = true)

/-- A refused admission leaves the table and the scratch as they were. -/
theorem admitGrowth_error {err : String} (hadm : admitGrowth c grow t = (.error err, u)) :
    u.pages.pageTable = t.pages.pageTable ∧ u = { t with pages := u.pages } := by
  unfold admitGrowth at hadm
  rw [planExact_continue] at hadm
  unfold planWanted at hadm
  dsimp only at hadm
  split at hadm
  · cases hadm
    exact ⟨rfl, rfl⟩
  · split at hadm
    · cases hadm
      exact ⟨rfl, rfl⟩
    · cases hadm

theorem Forward.keeps {r : Except String Unit} (hsound : Sound c s.pages) (hclean : Clean c s) (hf : W.Forward grow s r t)
    (htame : r ≠ .ok () → ∀ bh < c.BH, W.needy s bh = true) : Sound c t.pages ∧ Clean c t ∧ (r = .ok () → W.Stepped s t) := by
  cases hf with
  | ran hg hany =>
    have hr := hg.ran hsound hclean.toQuiet
    obtain ⟨hstepped, hclean', -⟩ := hr.stepped hclean (hr.any.symm.trans hany)
    exact ⟨hr.sound, hclean', fun _ => hstepped⟩
  | @raised t u err hg hany hadm =>
    have hr := hg.ran hsound hclean.toQuiet
    have hneedy := htame fun hc => nomatch hc
    have hpages := @StepWork.sound_admitGrowth _ _ _ _ _ grow _ hr.sound
    rw [hadm] at hpages
    obtain ⟨-, hu⟩ := admitGrowth_error hadm
    refine ⟨hpages, ?_, fun hc => nomatch hc⟩
    rw [hu]
    refine ⟨⟨hr.quiet.ctr, hr.quiet.growthCtr⟩, fun bh hbh => (hr.done bh hbh).trans ?_⟩
    rw [show W.someNeedy s = true from hr.any.symm.trans hany, hneedy bh hbh, hclean.done bh hbh]
    rfl
  | @replayed t u v hg hany hadm hreplay =>
    have hr := hg.ran hsound hclean.toQuiet
    have hpages := @StepWork.sound_admitGrowth _ _ _ _ _ grow _ hr.sound
    rw [hadm] at hpages
    have hquiet : Quiet c u := by
      obtain ⟨res, pages, -, rfl⟩ := admitGrowth_ok hadm
      exact ⟨hr.quiet.ctr, hr.quiet.growthCtr⟩
    have hr2 := hreplay.ran hpages hquiet
    obtain ⟨hstepped, hclean', -⟩ := hr.replay hclean (hr.any.symm.trans hany) hadm hr2
    exact ⟨hr2.sound, hclean', fun _ => hstepped⟩

theorem tame_keeps {s0 : DecodeState R P O} (hsound : Sound c s0.pages) (hclean : Clean c s0)
    (hrun : Relation.ReflTransGen (Tame c) s0 s) : Sound c s.pages ∧ Clean c s := by
  induction hrun with
  | refl => exact ⟨hsound, hclean⟩
  | tail _ hstep ih =>
    obtain ⟨W, grow, r, hf, htame⟩ := hstep
    obtain ⟨hsound', hclean', -⟩ := hf.keeps ih.1 ih.2 htame
    exact ⟨hsound', hclean'⟩

/-- Where every aborted step found every batch-head needy, a step that returns has deposited its own token
once in each. -/
theorem steps_after_abort {s0 : DecodeState R P O} (hsound : Sound c s0.pages) (hclean : Clean c s0)
    (hrun : Relation.ReflTransGen (Tame c) s0 s) {W : StepWork c R P O} (hf : W.Forward grow s (.ok ()) t) : W.Stepped s t := by
  obtain ⟨hsound', hclean'⟩ := tame_keeps hsound hclean hrun
  exact (hf.keeps hsound' hclean' fun hne => absurd rfl hne).2.2 rfl

end StepWork

/-! ### Two batch-heads -/

section Two

open StepWork

def twoHeads : ArenaConfig := .ofNats 2 2 33 1 0 (Eq.refl true)

/-- The first atom of each batch-head is mapped. -/
def twoHeadsPages : PageArena (ℕ → ℕ) :=
  (planExact twoHeads Grow.bridge (ownBitmap twoHeads fun id => id % 2 == 0) false
    (allocate twoHeads Grow.bridge fun _ _ => 0).2).2

def twoHeadsStart : DecodeState ℕ ℕ ℕ where
  pages := twoHeadsPages
  ws := fun _ _ => 0
  ctr := fun _ => 0
  growth := fun _ => false
  growthCtr := 0
  growthAny := false
  done := fun _ => false
  atomBits := fun _ _ => false
  y := fun _ => 0

theorem unitCount_one (_ : ℕ) : UnitCount 1 := .inr ⟨0, by decide, rfl⟩

/-- A token whose one leaf is the first of an atom of each batch-head. -/
def oneLeaf (atom : ℕ → Fin 2) : StepWork twoHeads ℕ ℕ ℕ where
  nSplit := 1
  umax := fun _ => 1
  cand := fun bh => [(atom bh : ℕ)]
  visits := fun bh seg warp => if seg = 0 ∧ warp = 0 then [⟨16 * atom bh, true, (· + 1), fun acc r => acc + r⟩] else []
  zero := 0
  add := (· + ·)
  out := id
  pos := by decide
  split := ⟨⟨[], 1, fun _ _ => 1, 0⟩, [16], 16, 1, false, by decide, rfl⟩
  umax_count := unitCount_one
  nodup := fun _ => List.nodup_singleton _
  lt := fun bh a ha => by
    rw [List.mem_singleton.1 ha]
    exact (atom bh).isLt
  visit_lt := fun bh seg warp v hv => by
    split at hv
    · rw [List.mem_singleton.1 hv]
      have : twoHeads.atomsPerBh = 2 := rfl
      have := (atom bh).isLt
      dsimp only
      omega
    · cases hv
  same := fun bh seg warp => by
    split
    · exact List.pairwise_singleton ..
    · exact .nil
  cross := fun bh seg warp seg' warp' hne v hv v' hv' => by
    split at hv
    · rename_i h0
      split at hv'
      · rename_i h1
        rw [h0.1, h0.2, h1.1, h1.2] at hne
        exact absurd rfl hne
      · cases hv'
    · cases hv
  written := fun bh seg warp v hv _ => by
    split at hv
    · rw [List.mem_singleton.1 hv]
      dsimp only
      rw [Nat.mul_div_cancel_left _ (by decide)]
      exact List.mem_singleton_self _
    · cases hv

theorem twoHeadsStart_sound : Sound twoHeads twoHeadsStart.pages := by
  have hempty : allocate twoHeads Grow.bridge (fun _ _ => 0) =
      (.ok (), (allocate twoHeads Grow.bridge fun _ _ => 0 : _ × PageArena (ℕ → ℕ)).2) := rfl
  exact (RoLAState.allocate_sound hempty).1.planExact _

theorem twoHeadsStart_clean : Clean twoHeads twoHeadsStart := ⟨⟨fun _ _ => rfl, rfl⟩, fun _ _ => rfl⟩

theorem oneLeaf_visits (atom : ℕ → Fin 2) (bh : ℕ) :
    (oneLeaf atom).Visits bh ⟨16 * atom bh, true, (· + 1), fun acc r => acc + r⟩ := by
  refine ⟨0, 0, ⟨Nat.zero_lt_one, ?_⟩, by decide, ?_⟩
  · unfold HeadCall.retired
    rfl
  · exact List.mem_singleton_self _

/-- The second batch-head writes an atom it has no page for. -/
def growing : StepWork twoHeads ℕ ℕ ℕ := oneLeaf fun bh => if bh = 1 then 1 else 0

/-- Both write the atom they have. -/
def settled : StepWork twoHeads ℕ ℕ ℕ := oneLeaf fun _ => 0

theorem growing_needy : growing.needy twoHeadsStart 0 = false ∧ growing.needy twoHeadsStart 1 = true := by
  decide

theorem growing_someNeedy : growing.someNeedy twoHeadsStart = true := by
  decide

/-- The owner of the pages refuses to grow. -/
def refuse : Grow := fun _ => .error "out of memory"

theorem admitGrowth_refuse {t : DecodeState ℕ ℕ ℕ} : ∃ err, (admitGrowth twoHeads refuse t).1 = .error err := by
  unfold admitGrowth
  rw [planExact_continue]
  unfold planWanted
  dsimp only
  split
  · exact ⟨_, rfl⟩
  · exact ⟨_, rfl⟩

/-- A step whose growth is refused: a batch-head that ran stays done, a needy one keeps its table. -/
theorem exists_aborted {W : StepWork twoHeads ℕ ℕ ℕ} (hsome : W.someNeedy twoHeadsStart = true) :
    ∃ err u, W.Forward refuse twoHeadsStart (.error err) u ∧ Sound twoHeads u.pages ∧ Quiet twoHeads u ∧
      (∀ bh < 2, u.done bh = !W.needy twoHeadsStart bh) ∧
      ∀ bh < 2, W.needy twoHeadsStart bh = true → u.pages.pageTable (twoHeads.atomId bh 0) ≠ none := by
  obtain ⟨t, hg⟩ := exists_gated (W := W) twoHeadsStart_clean.toQuiet
  have hr := hg.ran twoHeadsStart_sound twoHeadsStart_clean.toQuiet
  obtain ⟨err, herr⟩ := admitGrowth_refuse (t := t)
  have hadm : admitGrowth twoHeads refuse t = (.error err, (admitGrowth twoHeads refuse t).2) := Prod.ext herr rfl
  have hsound : Sound twoHeads (admitGrowth twoHeads refuse t).2.pages := sound_admitGrowth hr.sound
  generalize (admitGrowth twoHeads refuse t).2 = u at hadm hsound
  obtain ⟨htable, hu⟩ := admitGrowth_error hadm
  refine ⟨err, u, .raised hg (hr.any.trans hsome) hadm, hsound, ?_, fun bh hbh => ?_, fun bh hbh hn => ?_⟩
  · rw [hu]
    exact ⟨hr.quiet.ctr, hr.quiet.growthCtr⟩
  · rw [hu]
    refine (hr.done bh hbh).trans ?_
    rw [hsome, twoHeadsStart_clean.done bh hbh]
    rcases W.needy twoHeadsStart bh <;> rfl
  · rw [htable, hr.table bh hbh hn 0 (by decide)]
    rcases (show bh = 0 ∨ bh = 1 by omega) with rfl | rfl
    · decide
    · decide

/-- Over mapped atoms or done batch-heads a step returns from its first launch. -/
theorem exists_settled {u : DecodeState ℕ ℕ ℕ} (hsound : Sound twoHeads u.pages) (hquiet : Quiet twoHeads u)
    (h : ∀ bh < 2, u.done bh = true ∨ u.pages.pageTable (twoHeads.atomId bh 0) ≠ none) :
    ∃ v, settled.Forward refuse u (.ok ()) v ∧ settled.Ran u v := by
  have hnone : settled.someNeedy u = false := someNeedy_eq_false.2 fun bh hbh => by
    refine not_needy ((h bh hbh).imp_right fun hmap a ha => ?_)
    rw [List.mem_singleton.1 ha]
    exact hmap
  obtain ⟨v, hv⟩ := exists_gated (W := settled) hquiet
  have hr := hv.ran hsound hquiet
  exact ⟨v, .ran hv (hr.any.trans hnone), hr⟩

/-- A step whose growth is refused leaves the first batch-head done, and the next token does not reach it. -/
theorem aborted_step_skips : ∃ (err : String) (u v : DecodeState ℕ ℕ ℕ), Sound twoHeads twoHeadsStart.pages ∧
    Clean twoHeads twoHeadsStart ∧ growing.Forward refuse twoHeadsStart (.error err) u ∧
    settled.Forward refuse u (.ok ()) v ∧ ¬settled.Stepped u v := by
  obtain ⟨err, u, hf, hsound, hquiet, hdone, hmapped⟩ := exists_aborted growing_someNeedy
  have hdone0 : u.done 0 = true := by
    rw [hdone 0 (by decide), growing_needy.1]
    rfl
  obtain ⟨v, hv, hr⟩ := exists_settled hsound hquiet fun bh hbh => by
    rcases (show bh = 0 ∨ bh = 1 by omega) with rfl | rfl
    · exact .inl hdone0
    · exact .inr (hmapped 1 (by decide) growing_needy.2)
  refine ⟨err, u, v, twoHeadsStart_sound, twoHeadsStart_clean, hf, hv, fun hstepped => ?_⟩
  have hwritten := hstepped.written 0 (by decide) _ (oneLeaf_visits (fun _ => 0) 0) rfl
  rw [hr.kept 0 (by decide) _ (by decide) fun _ hd => by rw [hdone0] at hd; cases hd] at hwritten
  exact Nat.succ_ne_self _ hwritten.symm

/-- Both batch-heads write an atom they have no page for. -/
def bothGrow : StepWork twoHeads ℕ ℕ ℕ := oneLeaf fun _ => 1

/-- Where both had to wait, the next token reaches both. -/
theorem steps_after_abort_two : ∃ (err : String) (u v : DecodeState ℕ ℕ ℕ),
    bothGrow.Forward refuse twoHeadsStart (.error err) u ∧ settled.Forward refuse u (.ok ()) v ∧ settled.Stepped u v := by
  obtain ⟨err, u, hf, hsound, hquiet, hdone, hmapped⟩ := exists_aborted (W := bothGrow) (by decide)
  have hneedy : ∀ bh < 2, bothGrow.needy twoHeadsStart bh = true := by decide
  obtain ⟨v, hv, -⟩ := exists_settled hsound hquiet fun bh hbh => .inr (hmapped bh hbh (hneedy bh hbh))
  refine ⟨err, u, v, hf, hv, steps_after_abort twoHeadsStart_sound twoHeadsStart_clean ?_ hv⟩
  exact .single ⟨bothGrow, refuse, _, hf, fun _ => hneedy⟩

/-- The first batch-head runs, the second waits for its page, and the replay runs it. -/
theorem growth_deposits_once_two : ∃ t, growing.Gated twoHeadsStart t ∧ t.growthAny = true ∧
    ∀ u, admitGrowth twoHeads Grow.bridge t = (.ok (), u) → ∃ v, growing.Gated u v ∧ growing.Stepped twoHeadsStart v := by
  obtain ⟨⟨t, hg⟩, hall⟩ := growth_deposits_once (W := growing) twoHeadsStart_sound twoHeadsStart_clean
  have hany : t.growthAny = true := (hg.ran twoHeadsStart_sound twoHeadsStart_clean.toQuiet).any.trans growing_someNeedy
  refine ⟨t, hg, hany, fun u hadm => ?_⟩
  obtain ⟨-, ⟨v, hv⟩, hrun⟩ := (hall t hg).2.2 hany Grow.bridge u hadm
  exact ⟨v, hv, (hrun v hv).1⟩

end Two

end Rola
