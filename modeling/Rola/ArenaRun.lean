import Rola.ArenaInv

/-!
# The device claim, and whole runs

A batch-head that claims folds every shadow entry the table does not map. Where the only such
entries are its own claim's, the fold maps exactly the wanted atoms, to the next pool slots, and the
invariant is kept; a shadow row left over by a reset makes the fold map atoms nobody wrote.
-/

namespace Rola

namespace PageArena

variable {Page : Type} {c : ArenaConfig} {s s' : PageArena Page} {call : DecodeCall c Page} {bh a : ℕ}

/-- The shadow row of a batch-head that claims maps no absent atom the launch does not write. -/
def Settled (s : PageArena Page) (call : DecodeCall c Page) : Prop :=
  ∀ bh < c.BH, s.claimed call bh = true → ∀ a < c.atomsPerBh, s.pageTable (c.atomId bh a) = none →
    s.poolMap (c.atomId bh a) ≠ none → a ∈ call.cand bh

theorem mem_wanted : a ∈ s.wanted call bh ↔ a ∈ call.cand bh ∧ s.pageTable (c.atomId bh a) = none := by
  simp [wanted]

theorem wanted_nodup (s : PageArena Page) (call : DecodeCall c Page) (bh : ℕ) :
    (s.wanted call bh).Nodup := (call.nodup bh).filter _

theorem claimed_fits (h : s.claimed call bh = true) :
    call.done bh = false ∧ 0 < s.demand call bh ∧ s.poolCursor bh + s.demand call bh ≤ c.poolCapacity := by
  simpa [claimed, Bool.and_eq_true] using h

theorem deposits_of_claimed (h : s.claimed call bh = true) : s.deposits call bh = true := by
  have := claimed_fits h
  simp [deposits, needy, h, this.1]

/-- The pool position a wanted atom claims. -/
def claimPos (s : PageArena Page) (call : DecodeCall c Page) (bh a : ℕ) : ℕ :=
  s.poolCursor bh + (s.wanted call bh).idxOf a

theorem claimPos_lt (ha : a ∈ s.wanted call bh) :
    claimPos s call bh a < s.poolCursor bh + s.demand call bh :=
  Nat.add_lt_add_left (List.idxOf_lt_length_iff.2 ha) _

theorem unspent_claimPos (hbh : bh < c.BH) (h : s.claimed call bh = true) (ha : a ∈ s.wanted call bh) :
    Unspent c s bh (claimPos s call bh a) := by
  have := claimPos_lt ha
  have := (claimed_fits h).2.2
  exact ⟨hbh, Nat.le_add_right _ _, by omega⟩

/-- What a table row holds after the launch: an old entry, or a claimed slot. -/
theorem foldRow_cases (hs : Settled s call) (hbh : bh < c.BH) (ha : a < c.atomsPerBh) {slot : ℕ}
    (h : s.foldRow call bh a = some slot) : s.pageTable (c.atomId bh a) = some slot ∨
      s.claimed call bh = true ∧ a ∈ s.wanted call bh ∧ slot = s.poolSlots bh (claimPos s call bh a) := by
  unfold foldRow at h
  split at h
  · rename_i hcl
    rcases htab : s.pageTable (c.atomId bh a) with _ | old
    · rw [htab, Option.none_or] at h
      unfold claimRow at h
      split at h
      · rename_i hmem
        exact .inr ⟨hcl, hmem.2, (Option.some.inj h).symm⟩
      · rename_i hmem
        have hcand := hs bh hbh hcl a ha htab (by simp [h])
        exact absurd ⟨hcl, mem_wanted.2 ⟨hcand, htab⟩⟩ hmem
    · rw [htab, Option.some_or] at h
      exact .inl h
  · exact .inl h

theorem foldRow_of_table {slot : ℕ} (h : s.pageTable (c.atomId bh a) = some slot) :
    s.foldRow call bh a = some slot := by
  unfold foldRow
  split <;> simp [h]

/-- Over a row whose absent atoms are its own claim's, the fold counts exactly the wanted atoms. -/
theorem folded_of_row (hrow : ∀ a < c.atomsPerBh, s.pageTable (c.atomId bh a) = none →
    s.poolMap (c.atomId bh a) ≠ none → a ∈ call.cand bh) (h : s.claimed call bh = true) :
    s.folded call bh = s.demand call bh := by
  have hperm : ((List.range c.atomsPerBh).filter fun a =>
      (s.claimRow call bh a).isSome && (s.pageTable (c.atomId bh a)).isNone).Perm (s.wanted call bh) := by
    refine (List.perm_ext_iff_of_nodup (List.nodup_range.filter _) (wanted_nodup s call bh)).2 fun a => ?_
    rw [List.mem_filter, List.mem_range, Bool.and_eq_true, Option.isNone_iff_eq_none]
    constructor
    · rintro ⟨ha, hclaim, htab⟩
      by_contra hmem
      rw [claimRow, if_neg fun hc => hmem hc.2] at hclaim
      exact hmem (mem_wanted.2 ⟨hrow a ha htab (Option.isSome_iff_ne_none.1 hclaim), htab⟩)
    · intro hmem
      refine ⟨call.lt bh a (mem_wanted.1 hmem).1, ?_, (mem_wanted.1 hmem).2⟩
      rw [claimRow, if_pos ⟨h, hmem⟩]
      rfl
  unfold folded demand
  rw [List.countP_eq_length_filter, hperm.length_eq]

theorem folded_eq (hs : Settled s call) (hbh : bh < c.BH) (h : s.claimed call bh = true) :
    s.folded call bh = s.demand call bh := folded_of_row (hs bh hbh h) h

/-- (d): a launch spends one pool slot for each absent atom it writes. -/
theorem cursor_decodeStep (hs : Settled s call) (hbh : bh < c.BH) :
    (s.decodeStep call).poolCursor bh = s.poolCursor bh + s.newlyWritten call bh := by
  show s.poolCursor bh + _ = _
  congr 1
  unfold newlyWritten
  by_cases h : s.claimed call bh = true
  · rw [if_pos h, if_pos (deposits_of_claimed h), folded_eq hs hbh h]
  · rw [if_neg h]
    unfold deposits needy
    rw [Bool.not_eq_true] at h
    rcases hd : call.done bh with _ | _
    · rcases Nat.eq_zero_or_pos (s.demand call bh) with h0 | hpos
      · simp [h, h0]
      · simp [h, hpos]
    · simp

/-- A store lands on a slot the launch's own table maps. -/
theorem mem_stores {w : ℕ × Page} (h : w ∈ s.stores call) :
    ∃ bh < c.BH, ∃ a ∈ call.cand bh, s.deposits call bh = true ∧ s.foldRow call bh a = some w.1 ∧
      w.2 = call.store (c.atomId bh a) := by
  obtain ⟨bh, hbh, hw⟩ := List.mem_flatMap.1 h
  split at hw
  · rename_i hdep
    obtain ⟨a, ha, hmap⟩ := List.mem_filterMap.1 hw
    obtain ⟨slot, hslot, rfl⟩ := Option.map_eq_some_iff.1 hmap
    exact ⟨bh, List.mem_range.1 hbh, a, ha, hdep, hslot, rfl⟩
  · cases hw

theorem foldl_update_of_not_mem {ws : List (ℕ × Page)} {base : ℕ → Page} {slot : ℕ}
    (h : ∀ w ∈ ws, w.1 ≠ slot) :
    ws.foldl (fun base w => Function.update base w.1 w.2) base slot = base slot := by
  induction ws generalizing base with
  | nil => rfl
  | cons w ws ih =>
    rw [List.foldl_cons, ih fun w' hw' => h w' (List.mem_cons_of_mem _ hw')]
    exact Function.update_of_ne (h w List.mem_cons_self).symm _ _

theorem foldl_update_of_mem {ws : List (ℕ × Page)} {base : ℕ → Page} {slot : ℕ} {page : Page}
    (hmem : (slot, page) ∈ ws) (hone : ∀ w ∈ ws, w.1 = slot → w.2 = page) :
    ws.foldl (fun base w => Function.update base w.1 w.2) base slot = page := by
  induction ws using List.reverseRecOn with
  | nil => cases hmem
  | append_singleton ws w ih =>
    rw [List.foldl_concat]
    by_cases hw : w.1 = slot
    · rw [hw, Function.update_self]
      exact hone w (by simp) hw
    · rw [Function.update_of_ne (Ne.symm hw)]
      refine ih ?_ fun w' hw' => hone w' (List.mem_append_left _ hw')
      rcases List.mem_append.1 hmem with h | h
      · exact h
      · exact absurd (congrArg Prod.fst (List.mem_singleton.1 h)).symm hw

theorem decodeStep_table {id slot : ℕ} (hs : Settled s call) (hid : id < c.logicalPages)
    (h : (s.decodeStep call).pageTable id = some slot) : s.pageTable id = some slot ∨
      ∃ bh < c.BH, ∃ a, id = c.atomId bh a ∧ s.claimed call bh = true ∧ a ∈ s.wanted call bh ∧
        slot = s.poolSlots bh (claimPos s call bh a) := by
  obtain ⟨hbh, ha, heq⟩ := split_id hid
  rcases foldRow_cases hs hbh ha h with h1 | ⟨hcl, hmem, hslot⟩
  · exact .inl (heq ▸ h1)
  · exact .inr ⟨_, hbh, _, heq.symm, hcl, hmem, hslot⟩

theorem Inv.decodeStep [Zero Page] (hinv : Inv c s) (hs : Settled s call) : Inv c (s.decodeStep call) := by
  -- an unspent position after the launch was unspent before it, past every claimed one
  have hunspent : ∀ bh i, Unspent c (s.decodeStep call) bh i → Unspent c s bh i ∧
      ∀ a ∈ s.wanted call bh, s.claimed call bh = true → i ≠ claimPos s call bh a := by
    intro bh i hu
    have hcur := cursor_decodeStep hs hu.1
    refine ⟨⟨hu.1, ?_, hu.2.2⟩, fun a ha hcl hi => ?_⟩
    · have := hu.2.1
      omega
    · have := hu.2.1
      have := claimPos_lt ha
      rw [newlyWritten, if_pos (deposits_of_claimed hcl)] at hcur
      omega
  have hfresh : ∀ bh i, Unspent c (s.decodeStep call) bh i → ∀ id < c.logicalPages,
      (s.decodeStep call).pageTable id ≠ some (s.poolSlots bh i) := by
    intro bh i hu id hid h
    obtain ⟨hold, hpast⟩ := hunspent bh i hu
    rcases decodeStep_table hs hid h with h1 | ⟨bh', hbh', a, -, hcl, hmem, hslot⟩
    · exact hinv.pool_fresh bh i hold id hid h1
    · obtain ⟨rfl, rfl⟩ := hinv.pool_inj _ _ _ _ hold (unspent_claimPos hbh' hcl hmem) hslot
      exact hpast a hmem hcl rfl
  exact
    { table_inj := fun id hid id' hid' slot h1 h2 => by
        rcases decodeStep_table hs hid h1 with h1 | ⟨bh, hbh, a, rfl, hcl, hmem, hx⟩ <;>
          rcases decodeStep_table hs hid' h2 with h2 | ⟨bh', hbh', a', rfl, hcl', hmem', hx'⟩
        · exact hinv.table_inj id hid id' hid' slot h1 h2
        · exact absurd (hx' ▸ h1) (hinv.pool_fresh _ _ (unspent_claimPos hbh' hcl' hmem') id hid)
        · exact absurd (hx ▸ h2) (hinv.pool_fresh _ _ (unspent_claimPos hbh hcl hmem) id' hid')
        · obtain ⟨rfl, hpos⟩ := hinv.pool_inj _ _ _ _ (unspent_claimPos hbh hcl hmem)
            (unspent_claimPos hbh' hcl' hmem') (hx.symm.trans hx')
          have hidx := Nat.add_left_cancel hpos
          rw [(List.idxOf_inj hmem).1 hidx]
      table_lt := fun id hid slot h => by
        rcases decodeStep_table hs hid h with h1 | ⟨bh, hbh, a, -, hcl, hmem, rfl⟩
        · exact hinv.table_lt id hid slot h1
        · exact hinv.pool_lt _ _ (unspent_claimPos hbh hcl hmem)
      next_le := hinv.next_le
      cursor_le := fun bh hbh => by
        rw [cursor_decodeStep hs hbh, newlyWritten]
        have hle := hinv.cursor_le bh hbh
        split
        · rename_i hdep
          by_cases hcl : s.claimed call bh = true
          · exact (claimed_fits hcl).2.2
          · have h0 : s.demand call bh = 0 := by
              by_contra hne
              simp only [deposits, needy, Bool.and_eq_true, Bool.not_eq_true'] at hdep
              simp [hdep.1, hcl, Nat.pos_of_ne_zero hne] at hdep
            omega
        · omega
      pool_lt := fun bh i hu => hinv.pool_lt bh i (hunspent bh i hu).1
      pool_inj := fun bh i bh' i' hu hu' heq =>
        hinv.pool_inj bh i bh' i' (hunspent bh i hu).1 (hunspent bh' i' hu').1 heq
      pool_fresh := hfresh
      pool_zero := fun bh i hu => by
        refine (foldl_update_of_not_mem fun w hw heq => ?_).trans (hinv.pool_zero bh i (hunspent bh i hu).1)
        obtain ⟨bh', hbh', a, ha, -, hslot, -⟩ := mem_stores hw
        have halt := call.lt bh' a ha
        refine hfresh bh i hu (c.atomId bh' a) (atomId_lt hbh' halt) ?_
        show s.foldRow call _ _ = _
        rw [(atomId_div halt).1, (atomId_div halt).2, hslot, heq]
        rfl }

/-! ### Runs -/

/-- Each decode step taken finds the shadow row settled. -/
def StepSettled (s : PageArena Page) : Op c Page → Prop
  | .decode call => Settled s call
  | _ => True

theorem Inv.step [Zero Page] {op : Op c Page} (hinv : Inv c s) (hg : StepSettled s op)
    (h : s.step op = some s') : Inv c s' := by
  rcases op with ⟨grow, bits, fresh⟩ | call | grow | grow
  · obtain ⟨res, h⟩ := step_planExact.1 h
    exact hinv.planExact h
  · exact step_decode.1 h ▸ hinv.decodeStep hg
  · obtain ⟨n, h⟩ := step_refillPool.1 h
    exact hinv.refillPool h
  · exact hinv.reset (step_reset.1 h)

theorem mem_stale (ha : a < c.atomsPerBh)
    (htab : s.pageTable (c.atomId bh a) = none) (hmap : s.poolMap (c.atomId bh a) ≠ none) :
    a ∈ (List.range c.atomsPerBh).filter fun a =>
      (s.claimRow call bh a).isSome && (s.pageTable (c.atomId bh a)).isNone := by
  refine List.mem_filter.2 ⟨List.mem_range.2 ha, ?_⟩
  rw [htab, claimRow]
  split
  · rfl
  · simpa [Option.isSome_iff_ne_none] using hmap

theorem wanted_subperm_folded (h : s.claimed call bh = true) :
    (s.wanted call bh).Subperm ((List.range c.atomsPerBh).filter fun a =>
      (s.claimRow call bh a).isSome && (s.pageTable (c.atomId bh a)).isNone) := by
  refine (wanted_nodup s call bh).subperm fun a ha => ?_
  have htab := (mem_wanted.1 ha).2
  refine List.mem_filter.2 ⟨List.mem_range.2 (call.lt bh a (mem_wanted.1 ha).1), ?_⟩
  rw [htab, claimRow, if_pos ⟨h, ha⟩]
  rfl

/-- (d) fails at every launch that finds the shadow row unsettled. -/
theorem settled_iff_cursor : Settled s call ↔ ∀ bh < c.BH,
    (s.decodeStep call).poolCursor bh = s.poolCursor bh + s.newlyWritten call bh := by
  refine ⟨fun hs bh hbh => cursor_decodeStep hs hbh, fun h bh hbh hcl a ha htab hmap => ?_⟩
  have hcur : s.poolCursor bh + (if s.claimed call bh then s.folded call bh else 0) =
      s.poolCursor bh + s.newlyWritten call bh := h bh hbh
  rw [if_pos hcl, newlyWritten, if_pos (deposits_of_claimed hcl), Nat.add_left_cancel_iff, folded,
    List.countP_eq_length_filter] at hcur
  have hperm := (wanted_subperm_folded hcl).perm_of_length_le hcur.le
  exact (mem_wanted.1 (hperm.mem_iff.2 (mem_stale ha htab hmap))).1

/-- In every run whose decode steps find the shadow row settled, the representation invariant holds
of every state reached, and there a launch spends a pool slot for each absent atom it writes exactly
where it finds the shadow row settled. -/
theorem arena_invariant [Zero Page] (h : Machine.Reach (step (c := c)) StepSettled (Fresh c) s) :
    Inv c s ∧ ∀ call : DecodeCall c Page, Settled s call ↔ ∀ bh < c.BH,
      (s.decodeStep call).poolCursor bh = s.poolCursor bh + s.newlyWritten call bh :=
  ⟨h.invariant (fun _ => inv_fresh) fun _ _ _ hinv hg hs => hinv.step hg hs,
    fun _ => settled_iff_cursor⟩

/-! ### A shadow row that outlives its pool -/

/-- One batch-head of two atoms, under full slack. -/
def oneHead : ArenaConfig := .ofNats 1 2 33 1 2 (Eq.refl true)

theorem oneHead_make : ArenaConfig.make 1 2 33 1 1 = .ok oneHead := by
  simp [ArenaConfig.make, oneHead, ArenaConfig.ofNats, ArenaConfig.poolSlots]

/-- A launch that writes atom `a` of the one batch-head. -/
def writeAtom (a : Fin 2) : DecodeCall oneHead ℕ where
  cand := fun _ => [a]
  nodup := fun _ => List.nodup_singleton _
  lt := fun _ b hb => by
    rw [List.mem_singleton.1 hb]
    exact a.2
  done := fun _ => false
  store := fun _ => 1

def oneHeadStart : PageArena ℕ := (allocate oneHead Grow.bridge fun _ => 0).2

theorem oneHeadStart_fresh : Fresh oneHead oneHeadStart := ⟨Grow.bridge, fun _ => 0, rfl⟩

theorem arena_invariant_start :
    Inv oneHead oneHeadStart ∧ Settled oneHeadStart (writeAtom 0) := by
  have h := arena_invariant (c := oneHead) (s := oneHeadStart) (.init oneHeadStart_fresh)
  refine ⟨h.1, (h.2 (writeAtom 0)).2 fun bh hbh => ?_⟩
  obtain rfl : bh = 0 := Nat.lt_one_iff.1 hbh
  decide

/-- After a claim, a reset and another claim, one slot backs two atoms, one of which nobody wrote. -/
theorem stale_shadow_aliases : ∃ s : PageArena ℕ,
    Machine.run step oneHeadStart [.decode (writeAtom 0), .reset Grow.bridge, .decode (writeAtom 1)] =
      some s ∧
    s.pageTable 0 = some 0 ∧ s.pageTable 1 = some 0 ∧ s.poolCursor 0 = 2 ∧
    Machine.Reach (step (c := oneHead)) (fun _ _ => True) (Fresh oneHead) s ∧ ¬ Inv oneHead s := by
  have hstart : Machine.Reach (step (c := oneHead)) (fun _ _ => True) (Fresh oneHead) oneHeadStart :=
    .init oneHeadStart_fresh
  have hrun : (Machine.run (step (c := oneHead)) oneHeadStart
      [.decode (writeAtom 0), .reset Grow.bridge, .decode (writeAtom 1)]).map
        (fun s => (s.pageTable 0, s.pageTable 1, s.poolCursor 0)) = some (some 0, some 0, 2) := by
    decide
  obtain ⟨s, hs, heq⟩ := Option.map_eq_some_iff.1 hrun
  simp only [Prod.mk.injEq] at heq
  obtain ⟨h0, h1, h2⟩ := heq
  refine ⟨s, hs, h0, h1, h2, hstart.run hs, fun hinv => ?_⟩
  exact absurd (hinv.table_inj 0 (by decide) 1 (by decide) 0 h0 h1) (by decide)

end PageArena

end Rola
