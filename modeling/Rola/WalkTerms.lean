import Rola.WalkUnits

/-!
# The terms of the walk

The union of the read and the write product is cut into the write product and, for each level, the read
tuples that leave the write product there first. Each term's units visit its tuples once.
-/

namespace Rola

open MixedRadix

namespace DecodeParams

variable {p : DecodeParams} {m : Masks} {term unit leaf t l : ℕ} {d : ℕ → ℕ}

/-! ### The terms are disjoint and cover the two products -/

theorem inProduct_iff {s : ℕ → ℕ → Bool} : p.inProduct s d = true ↔ ∀ l < p.D, s l (d l) = true := decide_eq_true_iff

theorem inProduct_congr {s : ℕ → ℕ → Bool} {d' : ℕ → ℕ} (hd : ∀ l < p.D, d l = d' l) :
    p.inProduct s d = p.inProduct s d' := by
  rw [Bool.eq_iff_iff, inProduct_iff, inProduct_iff]
  exact forall₂_congr fun l hl => by rw [hd l hl]

theorem live_congr {d' : ℕ → ℕ} (hd : ∀ l < p.D, d l = d' l) : p.Live m term d ↔ p.Live m term d' :=
  forall₂_congr fun l hl => by rw [hd l hl]

theorem live_write : p.Live m 0 d ↔ p.inProduct m.w d = true := by
  rw [inProduct_iff]
  refine forall₂_congr fun l _ => ?_
  rw [termKind_write]
  rfl

theorem live_read (hpos : term ≠ 0) (hD : term ≤ p.D) : p.Live m term d ↔
    ∀ l < p.D, m.r l (d l) = true ∧ (l < term - 1 → m.w l (d l) = true) ∧
      (l = term - 1 → m.w l (d l) = false) := by
  refine forall₂_congr fun l hl => ?_
  unfold termKind
  rw [if_neg (by omega)]
  rcases Nat.lt_trichotomy l (term - 1) with hlt | rfl | hgt
  · rw [if_pos hlt]
    simp [Masks.kind, Kind.bits, hlt, hlt.ne]
  · rw [if_neg (lt_irrefl _), if_pos rfl]
    simp [Masks.kind, Kind.bits]
  · rw [if_neg hgt.not_gt, if_neg hgt.ne']
    simp [Masks.kind, Kind.bits, hgt.not_gt, hgt.ne']

/-- The sides of a term's tuples. -/
theorem live_sides (hD : term ≤ p.D) (hlive : p.Live m term d) :
    p.inProduct m.w d = decide (term = 0) ∧ (term ≠ 0 → p.inProduct m.r d = true) := by
  rcases eq_or_ne term 0 with rfl | hpos
  · exact ⟨(live_write.1 hlive).trans (decide_eq_true rfl).symm, fun hne => absurd rfl hne⟩
  · rw [live_read hpos hD] at hlive
    refine ⟨?_, fun _ => inProduct_iff.2 fun l hl => (hlive l hl).1⟩
    have hout := (hlive (term - 1) (by omega)).2.2 rfl
    rw [decide_eq_false hpos, Bool.eq_false_iff, Ne, inProduct_iff]
    intro hin
    rw [hin _ (by omega)] at hout
    cases hout

theorem live_unique {term' : ℕ} (hD : term ≤ p.D) (hD' : term' ≤ p.D) (hlive : p.Live m term d)
    (hlive' : p.Live m term' d) : term = term' := by
  have hw := (live_sides hD hlive).1.symm.trans (live_sides hD' hlive').1
  simp only [decide_eq_decide] at hw
  rcases eq_or_ne term 0 with hz | hpos
  · exact hz.trans (hw.1 hz).symm
  · have hpos' : term' ≠ 0 := fun hz => hpos (hw.2 hz)
    rw [live_read hpos hD] at hlive
    rw [live_read hpos' hD'] at hlive'
    rcases Nat.lt_trichotomy term term' with hlt | heq | hgt
    · have h1 := (hlive (term - 1) (by omega)).2.2 rfl
      rw [(hlive' (term - 1) (by omega)).2.1 (by omega)] at h1
      cases h1
    · exact heq
    · have h1 := (hlive' (term' - 1) (by omega)).2.2 rfl
      rw [(hlive (term' - 1) (by omega)).2.1 (by omega)] at h1
      cases h1

theorem exists_live (h : p.inProduct m.r d = true ∨ p.inProduct m.w d = true) : ∃ term ≤ p.D, p.Live m term d := by
  by_cases hw : p.inProduct m.w d = true
  · exact ⟨0, Nat.zero_le _, live_write.2 hw⟩
  · have hr := h.resolve_right hw
    rw [inProduct_iff] at hw hr
    have hex : ∃ l, l < p.D ∧ m.w l (d l) = false := by
      by_contra hall
      refine hw fun l hl => ?_
      by_contra hne
      exact hall ⟨l, hl, Bool.eq_false_iff.2 hne⟩
    -- the first level the tuple leaves the write product at
    obtain ⟨hl, hout⟩ := Nat.find_spec hex
    refine ⟨Nat.find hex + 1, hl, (live_read (Nat.succ_ne_zero _) hl).2 fun l hlD => ⟨hr l hlD, fun hlt => ?_, ?_⟩⟩
    · by_contra hne
      exact Nat.find_min hex hlt ⟨hlD, Bool.eq_false_iff.2 hne⟩
    · rintro rfl
      exact hout

/-! ### Lattice indices and digit tuples -/

namespace Wf

variable (h : p.Wf)
include h

theorem latIndex_congr {d' : ℕ → ℕ} (hd : ∀ l < p.D, d l = d' l) : p.latIndex d = p.latIndex d' := by
  rw [h.latIndex_eq, h.latIndex_eq]
  congr 1
  · congr 1
    exact encode_congr (fun _ _ => rfl) fun l hl => by rw [hd l hl]
  · exact encode_congr (fun _ _ => rfl) fun l hl => by rw [hd l hl]

omit h in
theorem rankAt_congr {d' : ℕ → ℕ} (hd : ∀ l < p.D, d l = d' l) : p.rankAt m term d = p.rankAt m term d' := by
  refine encode_congr (fun _ _ => rfl) fun l hl => ?_
  unfold entryOf
  rw [hd l hl]

theorem unitOf_congr {d' : ℕ → ℕ} (hd : ∀ l < p.D, d l = d' l) : p.unitOf m term d = p.unitOf m term d' := by
  have houter : encode p.latS (fun l => d l % p.latS l) (p.D - 1) = encode p.latS (fun l => d' l % p.latS l) (p.D - 1) :=
    encode_congr (fun _ _ => rfl) fun l hl => by rw [hd l (by have := h.last_lt; omega)]
  unfold unitOf
  rw [rankAt_congr hd, rankAt_congr hd, houter]

theorem latDigits_lt (hl : l < p.D) : p.latDigits leaf l < p.levelWidth l := by
  unfold latDigits
  rw [← h.width_eq l hl]
  have hown : digit p.latG p.D (leaf / 2 ^ p.latLocalBits) l < p.latG l := digit_lt h.G_pos hl
  have hrun : digit p.latS p.D (leaf % 2 ^ p.latLocalBits) l < p.latS l := digit_lt (fun i _ => h.S_pos i) hl
  calc _ < digit p.latG p.D (leaf / 2 ^ p.latLocalBits) l * p.latS l + p.latS l := by omega
    _ = (digit p.latG p.D (leaf / 2 ^ p.latLocalBits) l + 1) * p.latS l := by ring
    _ ≤ _ := Nat.mul_le_mul_right _ hown

theorem latDigits_bounded : Bounded p.levelWidth (p.latDigits leaf) p.D := fun _ hl => h.latDigits_lt hl

theorem latDigits_div (hl : l < p.D) : p.latDigits leaf l / p.latS l = digit p.latG p.D (leaf / 2 ^ p.latLocalBits) l := by
  have hrun : digit p.latS p.D (leaf % 2 ^ p.latLocalBits) l < p.latS l := digit_lt (fun i _ => h.S_pos i) hl
  unfold latDigits
  rw [Nat.add_comm, Nat.add_mul_div_right _ _ (h.S_pos l), Nat.div_eq_of_lt hrun, Nat.zero_add]

theorem latIndex_latDigits (hleaf : leaf < p.N) : p.latIndex (p.latDigits leaf) = leaf := by
  have hrun : ∀ l < p.D, digit p.latS p.D (leaf % 2 ^ p.latLocalBits) l < p.latS l := fun l hl =>
    digit_lt (fun i _ => h.S_pos i) hl
  have hlo : leaf % 2 ^ p.latLocalBits < size p.latS p.D := by
    rw [h.size_S]
    exact Nat.mod_lt _ (by positivity)
  have hhi : leaf / 2 ^ p.latLocalBits < size p.latG p.D := by
    rw [Nat.div_lt_iff_lt_mul (by positivity), ← h.size_S, h.size_eq]
    exact hleaf
  rw [h.latIndex_eq]
  have hdiv : encode p.latG (fun l => p.latDigits leaf l / p.latS l) p.D = leaf / 2 ^ p.latLocalBits := by
    conv_rhs => rw [← encode_digit hhi]
    exact encode_congr (fun _ _ => rfl) fun l hl => h.latDigits_div hl
  have hmod : encode p.latS (fun l => p.latDigits leaf l % p.latS l) p.D = leaf % 2 ^ p.latLocalBits := by
    conv_rhs => rw [← encode_digit hlo]
    refine encode_congr (fun _ _ => rfl) fun l hl => ?_
    unfold latDigits
    rw [Nat.add_comm, Nat.add_mul_mod_self_right, Nat.mod_eq_of_lt (hrun l hl)]
  rw [hdiv, hmod, h.size_S, Nat.mul_comm, Nat.div_add_mod]

theorem latDigits_latIndex (hd : Bounded p.levelWidth d p.D) (hl : l < p.D) : p.latDigits (p.latIndex d) l = d l :=
  h.latIndex_inj h.latDigits_bounded hd (h.latIndex_latDigits (h.latIndex_lt hd)) l hl

/-! ### What a visit says -/

theorem digitsAt_bounded (ht : t < p.latS (p.D - 1)) (hne : ∀ l < p.D, p.termList m term l ≠ []) :
    Bounded p.levelWidth (p.digitsAt m term unit t) p.D := by
  intro l hl
  have hmem := h.fieldEntry_mem (p.rankOf m term unit) hl (hne l hl)
  rw [← h.entryOf_digitsAt ht hl] at hmem
  by_cases hc : term = 0 ∧ l < p.D - 1
  · rw [entryOf, if_pos hc] at hmem
    exact ((mem_dlist hc.1 hc.2).1 hmem).1
  · rw [entryOf, if_neg hc] at hmem
    have hown := ((mem_olist hc).1 hmem).1
    rwa [Nat.div_lt_iff_lt_mul (h.S_pos l), h.width_eq l hl] at hown

theorem sides_visitAt (hD : term ≤ p.D) (ht : t ∈ p.unitRun term (p.walkUnit m term unit)) :
    (p.visitAt term (p.walkUnit m term unit) t).inR = p.inProduct m.r (p.digitsAt m term unit t) ∧
    (p.visitAt term (p.walkUnit m term unit) t).inW = p.inProduct m.w (p.digitsAt m term unit t) := by
  obtain ⟨-, hv, hlive⟩ := h.mem_unitRun.1 ht
  have hsides := live_sides hD hlive
  have hrun := (List.mem_filter.1 ht).2
  rcases eq_or_ne term 0 with rfl | hpos
  · refine ⟨?_, hrun.trans (live_write.1 hlive).symm⟩
    rw [Bool.eq_iff_iff, inProduct_iff]
    unfold visitAt
    rw [walkUnit_write]
    dsimp only [resolveWriteUnit]
    rw [Bool.and_eq_true, Bool.and_eq_true, decide_eq_true_iff]
    refine ⟨fun ⟨hhead, _, hlast⟩ l hl => ?_, fun hall => ⟨fun l hl => ?_, hv, ?_⟩⟩
    · rcases Nat.lt_or_ge l (p.D - 1) with hlt | hge
      · rw [digitsAt_write hlt]
        exact hhead l hlt
      · obtain rfl : l = p.D - 1 := by omega
        rw [digitsAt_last]
        exact hlast
    · have := hall l (by omega)
      rwa [digitsAt_write hl] at this
    · have := hall _ h.last_lt
      rwa [digitsAt_last] at this
  · rw [if_neg hpos] at hrun
    refine ⟨hrun.trans (hsides.2 hpos).symm, ?_⟩
    rw [hsides.1, decide_eq_false hpos]
    unfold visitAt
    rw [walkUnit_ne hpos]
    rfl

end Wf

/-! ### A term's visits -/

/-- Every visit of a term, unit by unit. -/
def termVisits (p : DecodeParams) (m : Masks) (term : ℕ) : List Visit :=
  (List.range (p.units m term)).flatMap fun unit =>
    (p.unitRun term (p.walkUnit m term unit)).map (p.visitAt term (p.walkUnit m term unit))

theorem mem_termVisits {v : Visit} : v ∈ p.termVisits m term ↔ ∃ unit < p.units m term,
    ∃ t ∈ p.unitRun term (p.walkUnit m term unit), p.visitAt term (p.walkUnit m term unit) t = v := by
  simp only [termVisits, List.mem_flatMap, List.mem_range, List.mem_map]

theorem units_eq (hpub : p.Published m) (hterm : term < p.D + 2) : p.units m term =
    if ∃ l < p.D, (p.termList m term l).length = 0 then 0 else 2 ^ p.termBits m term := by
  have hsome := hpub term hterm
  unfold units
  unfold termUnits at hsome ⊢
  split
  · rfl
  · rename_i hne
    rw [if_neg hne] at hsome
    split
    · rw [Nat.one_shiftLeft]
      rfl
    · rename_i hbig
      rw [if_neg hbig] at hsome
      cases hsome

theorem units_le (hpub : p.Published m) (hterm : term < p.D + 2) : p.units m term ≤ 2 ^ p.termBits m term := by
  rw [units_eq hpub hterm]
  split
  · exact Nat.zero_le _
  · exact le_rfl

namespace Wf

variable (h : p.Wf)
include h

/-- A visit is of a leaf of the term, with the leaf's digits and sides. -/
theorem of_mem_termVisits (hD : term ≤ p.D) {v : Visit} (hv : v ∈ p.termVisits m term) :
    v.term = term ∧ v.leaf < p.N ∧ (∀ l < p.D, v.digit l = p.latDigits v.leaf l) ∧
      p.Live m term (p.latDigits v.leaf) ∧ v.inR = p.inProduct m.r (p.latDigits v.leaf) ∧
      v.inW = p.inProduct m.w (p.latDigits v.leaf) := by
  obtain ⟨unit, _, t, ht, rfl⟩ := mem_termVisits.1 hv
  obtain ⟨hlt, hvalid, hlive⟩ := h.mem_unitRun.1 ht
  have hb := @DecodeParams.Wf.digitsAt_bounded _ _ _ unit _ h hlt (h.nonempty_of_valid hvalid)
  have hdig : ∀ l < p.D, p.latDigits (p.latIndex (p.digitsAt m term unit t)) l = p.digitsAt m term unit t l :=
    fun l hl => h.latDigits_latIndex hb hl
  obtain ⟨hr, hw⟩ := h.sides_visitAt hD ht
  rw [hr, hw, h.leaf_visitAt hlt, inProduct_congr hdig, inProduct_congr hdig, live_congr hdig]
  exact ⟨rfl, h.latIndex_lt hb, fun l hl => (hdig l hl).symm, hlive, rfl, rfl⟩

/-- A leaf of the term is visited. -/
theorem exists_mem_termVisits (hpub : p.Published m) (hD : term ≤ p.D) (hleaf : leaf < p.N)
    (hlive : p.Live m term (p.latDigits leaf)) : ∃ v ∈ p.termVisits m term, v.leaf = leaf := by
  have hb := @DecodeParams.Wf.latDigits_bounded _ leaf h
  have ht : p.latDigits leaf (p.D - 1) % p.latS (p.D - 1) < p.latS (p.D - 1) := Nat.mod_lt _ (h.S_pos _)
  have hdig := fun l (hl : l < p.D) => h.digitsAt_unitOf (m := m) hb hlive hl
  have hunits : p.unitOf m term (p.latDigits leaf) < p.units m term := by
    rw [units_eq hpub (by omega), if_neg]
    · exact h.unitOf_lt hb hlive
    · rintro ⟨l, hl, hempty⟩
      have := List.length_pos_of_mem (h.entryOf_mem hb hlive hl)
      omega
  refine ⟨_, mem_termVisits.2 ⟨_, hunits, _, h.mem_unitRun.2 ⟨ht, h.fieldsValid_unitOf hb hlive, ?_⟩, rfl⟩, ?_⟩
  · exact (live_congr hdig).2 hlive
  · rw [h.leaf_visitAt ht]
    exact (h.latIndex_congr hdig).trans (h.latIndex_latDigits hleaf)

theorem termVisits_nodup (hpub : p.Published m) (hD : term ≤ p.D) : ((p.termVisits m term).map Visit.leaf).Nodup := by
  unfold termVisits
  rw [List.map_flatMap]
  simp only [List.map_map]
  refine Strided.nodup_flatMap_map List.nodup_range (fun unit _ => List.nodup_range.filter _) ?_
  intro unit hunit t ht unit' hunit' t' ht' heq
  obtain ⟨hlt, hvalid, -⟩ := h.mem_unitRun.1 ht
  obtain ⟨hlt', hvalid', -⟩ := h.mem_unitRun.1 ht'
  have hu := (List.mem_range.1 hunit).trans_le (units_le hpub (by omega))
  have hu' := (List.mem_range.1 hunit').trans_le (units_le hpub (by omega))
  have hleaf : p.latIndex (p.digitsAt m term unit t) = p.latIndex (p.digitsAt m term unit' t') := by
    rw [← h.leaf_visitAt hlt, ← h.leaf_visitAt hlt']
    exact heq
  have hdig := h.latIndex_inj (h.digitsAt_bounded hlt (h.nonempty_of_valid hvalid)) (h.digitsAt_bounded hlt' (h.nonempty_of_valid hvalid')) hleaf
  refine ⟨?_, ?_⟩
  · rw [← h.unitOf_digitsAt hu hlt hvalid, ← h.unitOf_digitsAt hu' hlt' hvalid']
    exact h.unitOf_congr hdig
  · rw [← @DecodeParams.digitsAt_mod_last _ m term unit _ hlt, ← digitsAt_mod_last hlt', hdig _ h.last_lt]

/-! ### Every term -/

/-- The visits of all terms. -/
theorem visits_nodup (hpub : p.Published m) :
    (((List.range (p.D + 1)).flatMap (p.termVisits m)).map Visit.leaf).Nodup := by
  rw [List.map_flatMap]
  refine List.nodup_flatMap.2 ⟨fun term hterm => h.termVisits_nodup hpub (Nat.le_of_lt_succ (List.mem_range.1 hterm)), ?_⟩
  refine List.nodup_range.pairwise_of_forall_ne fun term hterm term' hterm' hne leaf hleaf hleaf' => ?_
  have hD := Nat.le_of_lt_succ (List.mem_range.1 hterm)
  have hD' := Nat.le_of_lt_succ (List.mem_range.1 hterm')
  obtain ⟨v, hv, rfl⟩ := List.mem_map.1 hleaf
  obtain ⟨v', hv', heq⟩ := List.mem_map.1 hleaf'
  obtain ⟨-, -, -, hlive, -⟩ := h.of_mem_termVisits hD hv
  obtain ⟨-, -, -, hlive', -⟩ := h.of_mem_termVisits hD' hv'
  rw [heq] at hlive'
  exact hne (live_unique hD hD' hlive hlive')

omit h in
theorem mem_touched {x : ℕ × Bool × Bool} : x ∈ p.touched m ↔ x.1 < p.N ∧
    x.2.1 = p.inProduct m.r (p.latDigits x.1) ∧ x.2.2 = p.inProduct m.w (p.latDigits x.1) ∧
    (x.2.1 = true ∨ x.2.2 = true) := by
  unfold touched
  rw [List.mem_filterMap]
  constructor
  · rintro ⟨leaf, hleaf, hx⟩
    dsimp only at hx
    split at hx
    · rename_i hor
      cases hx
      exact ⟨List.mem_range.1 hleaf, rfl, rfl, Bool.or_eq_true_iff.1 hor⟩
    · cases hx
  · rintro ⟨hlt, hr, hw, hor⟩
    refine ⟨x.1, List.mem_range.2 hlt, ?_⟩
    rw [hr, hw] at hor
    dsimp only
    rw [if_pos (Bool.or_eq_true_iff.2 hor), ← hr, ← hw]

omit h in
theorem touched_nodup : (p.touched m).Nodup := by
  refine List.Nodup.filterMap ?_ List.nodup_range
  intro a a' b hb hb'
  simp only [Option.mem_def, Option.ite_none_right_eq_some, Option.some.injEq] at hb hb'
  exact (congrArg Prod.fst hb.2).trans (congrArg Prod.fst hb'.2).symm

/-- The terms' visits are the touched leaves, each once. -/
theorem visits_perm (hpub : p.Published m) :
    (((List.range (p.D + 1)).flatMap (p.termVisits m)).map Visit.mark).Perm (p.touched m) := by
  have hnodup : (((List.range (p.D + 1)).flatMap (p.termVisits m)).map Visit.mark).Nodup := by
    refine List.Nodup.of_map Prod.fst ?_
    rw [List.map_map]
    exact h.visits_nodup hpub
  refine (List.perm_ext_iff_of_nodup hnodup touched_nodup).2 fun x => ?_
  rw [mem_touched]
  simp only [List.mem_map, List.mem_flatMap, List.mem_range]
  constructor
  · rintro ⟨v, ⟨term, hterm, hv⟩, rfl⟩
    have hD := Nat.le_of_lt_succ hterm
    obtain ⟨-, hlt, -, hlive, hr, hw⟩ := h.of_mem_termVisits hD hv
    obtain ⟨hsw, hsr⟩ := live_sides hD hlive
    refine ⟨hlt, hr, hw, ?_⟩
    rcases eq_or_ne term 0 with rfl | hpos
    · exact .inr (hw.trans (hsw.trans (decide_eq_true rfl)))
    · exact .inl (hr.trans (hsr hpos))
  · rintro ⟨hlt, hr, hw, hor⟩
    rw [hr, hw] at hor
    obtain ⟨term, hD, hlive⟩ := exists_live hor
    obtain ⟨v, hv, hleaf⟩ := h.exists_mem_termVisits hpub hD hlt hlive
    obtain ⟨-, -, -, -, hvr, hvw⟩ := h.of_mem_termVisits hD hv
    refine ⟨v, ⟨term, Nat.lt_succ_of_le hD, hv⟩, ?_⟩
    rw [hleaf, ← hr] at hvr
    rw [hleaf, ← hw] at hvw
    exact Prod.ext hleaf (Prod.ext hvr hvw)

/-- The write term's visits are the write product's leaves. -/
theorem written_perm (hpub : p.Published m) : ((p.termVisits m 0).map Visit.leaf).Perm (p.written m) := by
  refine (List.perm_ext_iff_of_nodup (h.termVisits_nodup hpub (Nat.zero_le _)) (List.nodup_range.filter _)).2 fun leaf => ?_
  rw [List.mem_filter, List.mem_range, ← live_write, List.mem_map]
  constructor
  · rintro ⟨v, hv, rfl⟩
    obtain ⟨-, hlt, -, hlive, -⟩ := h.of_mem_termVisits (Nat.zero_le _) hv
    exact ⟨hlt, hlive⟩
  · rintro ⟨hlt, hlive⟩
    exact h.exists_mem_termVisits hpub (Nat.zero_le _) hlt hlive

end Wf

end DecodeParams

end Rola
