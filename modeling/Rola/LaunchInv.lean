import Rola.Launch

/-!
# What a batch-head's CTAs keep

Nothing a prologue reads moves before every live CTA has arrived, so the CTAs of a batch-head agree on
what they ask; each board's last arriver finds every part there, and the counter is back at zero once the
readout is written.
-/

namespace Rola

variable {R P O : Type}

namespace HeadCall

variable {C : HeadCall R P O} {h h0 h' : HeadState R P O} {k : Cta R P} {seg warp atoms : ℕ}

/-- A CTA that does not retire. -/
def Live (C : HeadCall R P O) (seg : ℕ) : Prop := seg < C.nSplit ∧ C.retired seg = false

/-- The live CTAs are the first `n_live`. -/
structure Counted (C : HeadCall R P O) : Prop where
  pos : 1 ≤ C.nLive
  live : ∀ seg, C.Live seg ↔ seg < C.nLive

/-- The readout of the warps' partials: each segment's in warp order, the segments' in order. -/
def total (C : HeadCall R P O) (acc : ℕ → ℕ → P) : P :=
  if 1 < C.nLive then C.segSum fun seg => C.warpSum (acc seg) else C.warpSum (acc 0)

theorem warpSum_congr {f g : ℕ → P} (hfg : ∀ warp < decodeWarps, f warp = g warp) : C.warpSum f = C.warpSum g :=
  List.foldl_ext _ _ _ fun acc warp hw => by rw [hfg warp (List.mem_range.1 hw)]

theorem segSum_congr {f g : ℕ → P} (hfg : ∀ seg < C.nLive, f seg = g seg) : C.segSum f = C.segSum g :=
  List.foldl_ext _ _ _ fun acc seg hs => by rw [hfg seg (List.mem_range.1 hs)]

/-! ### A CTA -/

structure CtaInv (C : HeadCall R P O) (k : Cta R P) : Prop where
  tally : k.fold.Tally decodeWarps
  idle : k.ask = none → ∀ warp, k.fold.phase warp = .working
  gone : ∀ warp, k.fold.phase warp ≠ .working → k.claims = [] ∧ k.todo warp = [] ∧ k.fold.slot warp = k.acc warp
  part : k.part ≠ none ↔ k.fold.Full decodeWarps
  part_eq : ∀ p, k.part = some p → p = C.warpSum k.acc

namespace CtaInv

variable (hk : CtaInv C k)
include hk

theorem part_of_idle (hask : k.ask = none) : k.part = none := by
  by_contra hpart
  exact Board.not_full_of_working (by decide) (hk.idle hask) (hk.part.1 hpart)

theorem asked_of_part (hpart : k.part ≠ none) : k.ask ≠ none := fun hask => hpart (hk.part_of_idle hask)

theorem start (hask : k.ask = none) (ask : Ask) (claims : List (ℕ × ℕ)) (todo : ℕ → List (LeafVisit R P)) (acc : ℕ → P) :
    CtaInv C { k with ask := some ask, claims := claims, todo := todo, acc := acc } :=
  { tally := hk.tally
    idle := fun hnone => nomatch hnone
    gone := fun warp hph => absurd (hk.idle hask warp) hph
    part := hk.part
    part_eq := fun p hp => by
      have hnone := hk.part_of_idle hask
      rw [show k.part = some p from hp] at hnone
      cases hnone }

theorem claim {x : ℕ × ℕ} {rest : List (ℕ × ℕ)} (hcl : k.claims = x :: rest) : CtaInv C { k with claims := rest } :=
  { tally := hk.tally
    idle := hk.idle
    gone := fun warp hph => by
      have := (hk.gone warp hph).1
      rw [hcl] at this
      cases this
    part := hk.part
    part_eq := hk.part_eq }

theorem working_of_todo {v : LeafVisit R P} {rest : List (LeafVisit R P)} (htodo : k.todo warp = v :: rest) :
    k.fold.phase warp = .working := by
  by_contra hph
  have := (hk.gone warp hph).2.1
  rw [htodo] at this
  cases this

/-- While a warp has work, its CTA has no part. -/
theorem part_of_working (hwarp : warp < decodeWarps) (hph : k.fold.phase warp ≠ .arrived) : k.part = none := by
  by_contra hpart
  exact hph (hk.part.1 hpart warp hwarp)

theorem visit {v : LeafVisit R P} {rest : List (LeafVisit R P)} {p : P} (hwarp : warp < decodeWarps)
    (htodo : k.todo warp = v :: rest) :
    CtaInv C { k with todo := Function.update k.todo warp rest, acc := Function.update k.acc warp p } :=
  { tally := hk.tally
    idle := hk.idle
    gone := fun warp' hph => by
      have hne : warp' ≠ warp := by
        rintro rfl
        exact hph (hk.working_of_todo htodo)
      dsimp only
      rw [Function.update_of_ne hne, Function.update_of_ne hne]
      exact hk.gone warp' hph
    part := hk.part
    part_eq := fun q hq => by
      have hnone := hk.part_of_working hwarp (by rw [hk.working_of_todo htodo]; decide)
      rw [show k.part = some q from hq] at hnone
      cases hnone }

theorem deposit {ask : Ask} (hask : k.ask = some ask) (hcl : k.claims = []) (htodo : k.todo warp = [])
    (hph : k.fold.phase warp = .working) : CtaInv C { k with fold := k.fold.store warp (k.acc warp) } :=
  { tally := hk.tally.store hph
    idle := fun hnone => by
      rw [show k.ask = none from hnone] at hask
      cases hask
    gone := fun warp' hph' => by
      rcases eq_or_ne warp' warp with rfl | hne
      · exact ⟨hcl, htodo, by simp⟩
      · have hold : k.fold.phase warp' ≠ .working := by simpa [hne] using hph'
        refine ⟨hcl, (hk.gone warp' hold).2.1, ?_⟩
        simpa [hne] using (hk.gone warp' hold).2.2
    part := by
      refine hk.part.trans (forall₂_congr fun warp' _ => ?_)
      rcases eq_or_ne warp' warp with rfl | hne
      · simp [hph]
      · simp [hne]
    part_eq := hk.part_eq }

theorem arrive (hwarp : warp < decodeWarps) (hph : k.fold.phase warp = .stored) :
    CtaInv C { k with
      fold := k.fold.arrive warp
      part := if k.fold.count = decodeWarps - 1 then some (C.warpSum k.fold.slot) else k.part } := by
  have hne : k.fold.phase warp ≠ .arrived := by
    rw [hph]
    decide
  have hgone : ∀ warp', (k.fold.arrive warp).phase warp' ≠ .working →
      k.claims = [] ∧ k.todo warp' = [] ∧ k.fold.slot warp' = k.acc warp' := fun warp' hph' => by
    rcases eq_or_ne warp' warp with rfl | hne'
    · exact hk.gone warp' (by rw [hph]; decide)
    · exact hk.gone warp' (by simpa [hne'] using hph')
  have hlast := hk.tally.last hwarp hne
  refine ⟨hk.tally.arrive hwarp hne, fun hask => ?_, hgone, ?_, fun p hp => ?_⟩
  · rw [hk.idle hask warp] at hph
    cases hph
  · rw [← hlast]
    split
    · rename_i hcount
      simp [hcount]
    · rename_i hcount
      simp [hcount, hk.part_of_working hwarp hne]
  · dsimp only at hp
    split at hp
    · rename_i hcount
      rw [← Option.some.inj hp]
      have hfull := hlast.1 hcount
      refine warpSum_congr fun warp' hwarp' => (hgone warp' ?_).2.2
      rw [hfull warp' hwarp']
      decide
    · rw [hk.part_of_working hwarp hne] at hp
      cases hp

end CtaInv

/-! ### A batch-head -/

def PcOk (C : HeadCall R P O) (h : HeadState R P O) : Prop :=
  match h.pc with
  | .walking => ¬h.ws.Full C.nLive ∧ if 1 < C.nLive then h.ws.Tally C.nLive else h.ws.count = 0
  | .elected seg => h.ws.Full C.nLive ∧ seg < C.nLive ∧ (1 < C.nLive ∨ h.ws.count = 0)
  | .read seg => h.ws.Full C.nLive ∧ seg < C.nLive ∧ h.ws.count = 0
  | .published => h.ws.Full C.nLive ∧ h.ws.count = 0

/-- The readout has been written. -/
def hasRead (h : HeadState R P O) : Bool :=
  match h.pc with
  | .read _ | .published => true
  | _ => false

structure HeadInv (C : HeadCall R P O) (h0 h : HeadState R P O) : Prop where
  cta : ∀ seg, CtaInv C (h.cta seg)
  asked : ∀ seg ask, (h.cta seg).ask = some ask → C.Live seg ∧ ask = C.askOf h0
  row : h.pc = .walking → h.table = h0.table ∧ h.cursor = h0.cursor ∧ h.done = h0.done
  parted : ∀ seg, h.ws.phase seg ≠ .working → (h.cta seg).part ≠ none
  slots : 1 < C.nLive → (C.askOf h0).needy = false → ∀ seg, h.ws.phase seg ≠ .working →
    (h.cta seg).part = some (h.ws.slot seg)
  multi : ∀ seg, h.ws.phase seg = .stored → 1 < C.nLive
  pc : PcOk C h
  y : h.y = if hasRead h ∧ (C.askOf h0).needy = false then C.out (C.total fun seg => (h.cta seg).acc) else h0.y

/-- What a batch-head is in before a launch: every CTA yet to ask, every counter at zero. -/
structure Fresh (h : HeadState R P O) : Prop where
  ask : ∀ seg, (h.cta seg).ask = none
  part : ∀ seg, (h.cta seg).part = none
  fold : ∀ seg, (h.cta seg).fold.count = 0 ∧ ∀ warp, (h.cta seg).fold.phase warp = .working
  ws : h.ws.count = 0 ∧ ∀ seg, h.ws.phase seg = .working
  pc : h.pc = .walking

theorem total_congr (hC : C.Counted) {f g : ℕ → ℕ → P} (hfg : ∀ seg < C.nLive, f seg = g seg) : C.total f = C.total g := by
  unfold total
  have hpos := hC.pos
  split
  · exact segSum_congr fun seg hseg => by rw [hfg seg hseg]
  · rw [hfg 0 hpos]

theorem pcOk_congr {h h' : HeadState R P O} (hpc : h'.pc = h.pc) (hws : h'.ws = h.ws) (hok : PcOk C h) : PcOk C h' := by
  unfold PcOk at hok ⊢
  rw [hpc, hws]
  exact hok

theorem pcOk_walking (hpc : h.pc = .walking) (hfull : ¬h.ws.Full C.nLive) (htally : 1 < C.nLive → h.ws.Tally C.nLive)
    (hcount : ¬1 < C.nLive → h.ws.count = 0) : PcOk C h := by
  unfold PcOk
  rw [hpc]
  refine ⟨hfull, ?_⟩
  split
  · rename_i hn
    exact htally hn
  · rename_i hn
    exact hcount hn

theorem hasRead_congr {h h' : HeadState R P O} (hpc : h'.pc = h.pc) : hasRead h' = hasRead h := by
  unfold hasRead
  rw [hpc]

/-- Past the walk every live CTA has arrived. -/
theorem PcOk.full (hok : PcOk C h) (hpc : h.pc ≠ .walking) : h.ws.Full C.nLive := by
  unfold PcOk at hok
  split at hok
  · rename_i hwalk
    exact absurd hwalk hpc
  · exact hok.1
  · exact hok.1
  · exact hok.1

theorem ne_walking_of_hasRead (hread : hasRead h = true) : h.pc ≠ .walking := by
  intro hpc
  unfold hasRead at hread
  rw [hpc] at hread
  cases hread

namespace HeadInv

theorem fresh (hC : C.Counted) (hf : Fresh h) : HeadInv C h h where
  cta seg :=
    { tally := Board.tally_of_working (hf.fold seg).1 (hf.fold seg).2
      idle := fun _ => (hf.fold seg).2
      gone := fun warp hph => absurd ((hf.fold seg).2 warp) hph
      part := by
        rw [hf.part seg]
        exact ⟨fun hne => absurd rfl hne, fun hfull => absurd hfull (Board.not_full_of_working (by decide) (hf.fold seg).2)⟩
      part_eq := fun p hp => by
        rw [hf.part seg] at hp
        cases hp }
  asked seg ask hask := by
    rw [hf.ask seg] at hask
    cases hask
  row _ := ⟨rfl, rfl, rfl⟩
  parted seg hph := absurd (hf.ws.2 seg) hph
  slots _ _ seg hph := absurd (hf.ws.2 seg) hph
  multi seg hph := by
    rw [hf.ws.2 seg] at hph
    cases hph
  pc := pcOk_walking hf.pc (Board.not_full_of_working hC.pos hf.ws.2)
    (fun _ => Board.tally_of_working hf.ws.1 hf.ws.2) fun _ => hf.ws.1
  y := by
    unfold hasRead
    simp [hf.pc]

variable (hC : C.Counted) (hinv : HeadInv C h0 h)
include hinv

theorem lt_of_phase (hC : C.Counted) (hph : h.ws.phase seg ≠ .working) : seg < C.nLive := by
  obtain ⟨ask, hask⟩ := Option.ne_none_iff_exists'.1 ((hinv.cta seg).asked_of_part (hinv.parted seg hph))
  exact (hC.live seg).1 (hinv.asked seg ask hask).1

/-- Once every live CTA has arrived, each has its part. -/
theorem part_of_full (hfull : h.ws.Full C.nLive) (hseg : seg < C.nLive) : (h.cta seg).part ≠ none :=
  hinv.parted seg (by rw [hfull seg hseg]; decide)

include hC

/-- A CTA that is yet to ask finds the row as the launch found it. -/
theorem askOf_eq (hlive : C.Live seg) (hask : (h.cta seg).ask = none) : C.askOf h = C.askOf h0 ∧ h.pc = .walking := by
  have hpc : h.pc = .walking := by
    by_contra hpc
    exact hinv.part_of_full (hinv.pc.full hpc) ((hC.live seg).1 hlive) ((hinv.cta seg).part_of_idle hask)
  obtain ⟨htable, hcursor, hdone⟩ := hinv.row hpc
  refine ⟨?_, hpc⟩
  unfold askOf wanted poolCursor
  rw [htable, hcursor, hdone]

/-- A CTA moves on its own. -/
theorem set (hk : CtaInv C k) (hasked : ∀ ask, k.ask = some ask → C.Live seg ∧ ask = C.askOf h0)
    (hold : (h.cta seg).part ≠ none → k.part = (h.cta seg).part ∧ k.acc = (h.cta seg).acc) (shadow : ℕ → Option ℕ)
    (atomBits : ℕ → Bool) : HeadInv C h0 { h.setCta seg k with shadow := shadow, atomBits := atomBits } where
  cta seg' := by
    show CtaInv C (Function.update h.cta seg k seg')
    rcases eq_or_ne seg' seg with rfl | hne
    · rwa [Function.update_self]
    · rw [Function.update_of_ne hne]
      exact hinv.cta seg'
  asked seg' ask hask := by
    replace hask : (Function.update h.cta seg k seg').ask = some ask := hask
    rcases eq_or_ne seg' seg with rfl | hne
    · rw [Function.update_self] at hask
      exact hasked ask hask
    · rw [Function.update_of_ne hne] at hask
      exact hinv.asked seg' ask hask
  row := hinv.row
  parted seg' hph := by
    show (Function.update h.cta seg k seg').part ≠ none
    have hpart := hinv.parted seg' hph
    rcases eq_or_ne seg' seg with rfl | hne
    · rw [Function.update_self, (hold hpart).1]
      exact hpart
    · rwa [Function.update_of_ne hne]
  slots hn hneedy seg' hph := by
    show (Function.update h.cta seg k seg').part = some (h.ws.slot seg')
    have hpart := hinv.parted seg' hph
    rcases eq_or_ne seg' seg with rfl | hne
    · rw [Function.update_self, (hold hpart).1]
      exact hinv.slots hn hneedy seg' hph
    · rw [Function.update_of_ne hne]
      exact hinv.slots hn hneedy seg' hph
  multi := hinv.multi
  pc := pcOk_congr rfl rfl hinv.pc
  y := by
    refine hinv.y.trans ?_
    show (if hasRead h = true ∧ (C.askOf h0).needy = false then C.out (C.total fun seg' => (h.cta seg').acc) else h0.y) = if hasRead h = true ∧ (C.askOf h0).needy = false then
      C.out (C.total fun seg' => (Function.update h.cta seg k seg').acc) else h0.y
    split
    · rename_i hread
      refine congrArg C.out (total_congr hC fun seg' hseg' => ?_)
      have hpart := hinv.part_of_full (hinv.pc.full (ne_walking_of_hasRead hread.1)) hseg'
      rcases eq_or_ne seg' seg with rfl | hne
      · rw [Function.update_self, (hold hpart).2]
      · rw [Function.update_of_ne hne]
    · rfl

/-- A CTA with a part is live, and its index below `n_live`. -/
theorem lt_of_part {p : P} (hpart : (h.cta seg).part = some p) : seg < C.nLive ∧ ∃ ask, (h.cta seg).ask = some ask := by
  obtain ⟨ask, hask⟩ := Option.ne_none_iff_exists'.1 ((hinv.cta seg).asked_of_part (by rw [hpart]; exact Option.some_ne_none _))
  exact ⟨(hC.live seg).1 (hinv.asked seg ask hask).1, ask, hask⟩

omit hC in
/-- Before the last arrival the walk is on. -/
theorem pc_of_phase (hseg : seg < C.nLive) (hph : h.ws.phase seg ≠ .arrived) : h.pc = .walking := by
  by_contra hpc
  exact hph (hinv.pc.full hpc seg hseg)

/-- A part left on the workspace. -/
theorem store {ask : Ask} {p : P} (hask : (h.cta seg).ask = some ask) (hpart : (h.cta seg).part = some p)
    (hn : 1 < C.nLive) (hph : h.ws.phase seg = .working) :
    HeadInv C h0 { h with ws := if ask.needy then h.ws.skip seg else h.ws.store seg p } := by
  have hlt := (hinv.lt_of_part hC hpart).1
  have hwalk := hinv.pc_of_phase hlt (by rw [hph]; decide)
  have hphase : ∀ seg', (if ask.needy then h.ws.skip seg else h.ws.store seg p).phase seg' =
      if seg' = seg then .stored else h.ws.phase seg' := by
    intro seg'
    split
    · exact Board.skip_phase
    · exact Board.store_phase
  have hok := hinv.pc
  unfold PcOk at hok
  rw [hwalk] at hok
  refine
    { cta := hinv.cta
      asked := hinv.asked
      row := hinv.row
      parted := fun seg' hph' => ?_
      slots := fun hn' hneedy seg' hph' => ?_
      multi := fun _ _ => hn
      pc := pcOk_walking hwalk (fun hfull => ?_) (fun _ => ?_) fun hn' => absurd hn hn'
      y := hinv.y }
  · rcases eq_or_ne seg' seg with rfl | hne
    · rw [hpart]
      exact Option.some_ne_none _
    · exact hinv.parted seg' (by rwa [hphase, if_neg hne] at hph')
  · have hask' := (hinv.asked seg ask hask).2
    have hneedy' : ask.needy = false := by rw [hask', hneedy]
    show (h.cta seg').part = some ((if ask.needy then h.ws.skip seg else h.ws.store seg p).slot seg')
    rw [hneedy', if_neg Bool.false_ne_true]
    rcases eq_or_ne seg' seg with rfl | hne
    · simpa using hpart
    · rw [Board.store_slot, if_neg hne]
      exact hinv.slots hn' hneedy seg' (by rwa [hphase, if_neg hne] at hph')
  · have := hfull seg hlt
    rw [hphase, if_pos rfl] at this
    cases this
  · have htally : h.ws.Tally C.nLive := by
      have := hok.2
      rwa [if_pos hn] at this
    show (if ask.needy then h.ws.skip seg else h.ws.store seg p).Tally C.nLive
    split
    · exact htally.skip hph
    · exact htally.store hph

omit hC in
/-- The tally of a walk the counter is kept for. -/
theorem tally (hpc : h.pc = .walking) (hn : 1 < C.nLive) : h.ws.Tally C.nLive := by
  have hok := hinv.pc
  unfold PcOk at hok
  rw [hpc] at hok
  have := hok.2
  rwa [if_pos hn] at this

/-- An arrival on the counter. -/
theorem bump (hph : h.ws.phase seg = .stored) :
    HeadInv C h0 { h with ws := h.ws.arrive seg, pc := if h.ws.count = C.nLive - 1 then .elected seg else h.pc } := by
  have hne : h.ws.phase seg ≠ .arrived := by
    rw [hph]
    decide
  have hlt := @HeadCall.HeadInv.lt_of_phase _ _ _ _ _ _ seg hinv hC (by rw [hph]; decide)
  have hwalk := hinv.pc_of_phase hlt hne
  have hn := hinv.multi seg hph
  have htally := hinv.tally hwalk hn
  have hlast := htally.last hlt hne
  have hold : ∀ seg', (h.ws.arrive seg).phase seg' ≠ .working → h.ws.phase seg' ≠ .working := by
    intro seg' hph'
    rcases eq_or_ne seg' seg with rfl | hne'
    · rw [hph]
      decide
    · simpa [hne'] using hph'
  refine
    { cta := hinv.cta
      asked := hinv.asked
      row := fun _ => hinv.row hwalk
      parted := fun seg' hph' => hinv.parted seg' (hold seg' hph')
      slots := fun hn' hneedy seg' hph' => hinv.slots hn' hneedy seg' (hold seg' hph')
      multi := fun _ _ => hn
      pc := ?_
      y := hinv.y.trans ?_ }
  · by_cases hcount : h.ws.count = C.nLive - 1
    · unfold PcOk
      simp only [if_pos hcount]
      exact ⟨hlast.1 hcount, hlt, .inl hn⟩
    · simp only [if_neg hcount]
      exact pcOk_walking hwalk (fun hfull => hcount (hlast.2 hfull)) (fun _ => htally.arrive hlt hne)
        fun hn' => absurd hn hn'
  · have hread : hasRead { h with ws := h.ws.arrive seg, pc := if h.ws.count = C.nLive - 1 then .elected seg else h.pc } =
        hasRead h := by
      unfold hasRead
      dsimp only
      rw [hwalk]
      by_cases hcount : h.ws.count = C.nLive - 1
      · rw [if_pos hcount]
      · rw [if_neg hcount]
    rw [hread]

/-- The only live CTA. -/
theorem alone {p : P} (hpart : (h.cta seg).part = some p) (hn : ¬1 < C.nLive) (hph : h.ws.phase seg = .working) :
    HeadInv C h0 { h with ws := h.ws.leave seg, pc := .elected seg } := by
  have hlt := (hinv.lt_of_part hC hpart).1
  have hwalk := hinv.pc_of_phase hlt (by rw [hph]; decide)
  have hcount : h.ws.count = 0 := by
    have hok := hinv.pc
    unfold PcOk at hok
    rw [hwalk] at hok
    have := hok.2
    rwa [if_neg hn] at this
  refine
    { cta := hinv.cta
      asked := hinv.asked
      row := fun hpc => nomatch hpc
      parted := fun seg' hph' => ?_
      slots := fun hn' => absurd hn' hn
      multi := fun seg' hph' => ?_
      pc := ⟨fun seg' hseg' => ?_, hlt, .inr hcount⟩
      y := hinv.y.trans ?_ }
  · rcases eq_or_ne seg' seg with rfl | hne
    · rw [hpart]
      exact Option.some_ne_none _
    · exact hinv.parted seg' (by simpa [hne] using hph')
  · rcases eq_or_ne seg' seg with rfl | hne
    · simp at hph'
    · exact hinv.multi seg' (by simpa [hne] using hph')
  · have heq : seg' = seg := by omega
    simp [heq]
  · unfold hasRead
    simp [hwalk]

omit hC in
theorem readout {ask : Ask} {p : P} (hpc : h.pc = .elected seg) (hask : (h.cta seg).ask = some ask)
    (hpart : (h.cta seg).part = some p) : HeadInv C h0 (C.readout h seg ask p) := by
  have hok := hinv.pc
  unfold PcOk at hok
  rw [hpc] at hok
  obtain ⟨hfull, hlt, hcount⟩ := hok
  have hneedy := (hinv.asked seg ask hask).2
  refine
    { cta := hinv.cta
      asked := hinv.asked
      row := fun hwalk => nomatch hwalk
      parted := hinv.parted
      slots := hinv.slots
      multi := hinv.multi
      pc := ⟨fun seg' hseg' => hfull seg' hseg', hlt, ?_⟩
      y := ?_ }
  · show (if 1 < C.nLive then 0 else h.ws.count) = 0
    by_cases hn : 1 < C.nLive
    · exact if_pos hn
    · rw [if_neg hn]
      exact hcount.resolve_left hn
  · have hold : h.y = h0.y := by
      rw [hinv.y]
      unfold hasRead
      simp [hpc]
    have hpartEq : ∀ seg' p', (h.cta seg').part = some p' → p' = C.warpSum (h.cta seg').acc :=
      fun seg' => (hinv.cta seg').part_eq
    show (if ask.needy then h.y else C.out (C.readPart h p)) = _
    rcases hnd : (C.askOf h0).needy with _ | _
    · rw [hneedy, hnd, if_neg Bool.false_ne_true, if_pos ⟨rfl, rfl⟩]
      congr 1
      unfold readPart total
      split
      · rename_i hn
        refine segSum_congr fun seg' hseg' => ?_
        refine hpartEq seg' _ (hinv.slots hn hnd seg' ?_)
        rw [hfull seg' hseg']
        decide
      · rename_i hn
        obtain rfl : seg = 0 := by omega
        exact hpartEq 0 p hpart
    · rw [hneedy, hnd, if_pos rfl, if_neg fun hc => Bool.false_ne_true hc.2.symm]
      exact hold

omit hC in
theorem publish (hpc : h.pc = .read seg) (ask : Ask) : HeadInv C h0 (h.publish ask atoms) := by
  have hok := hinv.pc
  unfold PcOk at hok
  rw [hpc] at hok
  refine
    { cta := hinv.cta
      asked := hinv.asked
      row := fun hwalk => nomatch hwalk
      parted := hinv.parted
      slots := hinv.slots
      multi := hinv.multi
      pc := ⟨hok.1, hok.2.2⟩
      y := hinv.y.trans ?_ }
  have hread : hasRead h = true := by
    unfold hasRead
    rw [hpc]
  rw [hread]
  rfl

end HeadInv

/-! ### Every event -/

section Step

variable [Zero R] {mem mem' : Storage R} {e : HeadEvent}

/-- What each event finds, and leaves. -/
inductive Takes (C : HeadCall R P O) (atoms : ℕ) (h : HeadState R P O) (mem : Storage R) :
    HeadEvent → HeadState R P O → Storage R → Prop
  | start {seg : ℕ} (hlive : C.Live seg) (hask : (h.cta seg).ask = none) : Takes C atoms h mem (.start seg) (C.start h seg) mem
  | claim {seg a slot : ℕ} {rest : List (ℕ × ℕ)} (hcl : (h.cta seg).claims = (a, slot) :: rest) :
      Takes C atoms h mem (.claim seg)
        { h.setCta seg { h.cta seg with claims := rest } with shadow := Function.update h.shadow a (some slot) } mem
  | visit {seg warp : ℕ} {ask : Ask} {v : LeafVisit R P} {rest : List (LeafVisit R P)} (hask : (h.cta seg).ask = some ask)
      (hcl : (h.cta seg).claims = []) (htodo : (h.cta seg).todo warp = v :: rest) (hwarp : warp < decodeWarps) :
      Takes C atoms h mem (.visit seg warp)
        (h.setCta seg { h.cta seg with
          todo := Function.update (h.cta seg).todo warp rest
          acc := Function.update (h.cta seg).acc warp (v.read ((h.cta seg).acc warp) (C.visitLeaf h ask mem v).2) })
        (C.visitLeaf h ask mem v).1
  | deposit {seg warp : ℕ} {ask : Ask} (hask : (h.cta seg).ask = some ask) (hcl : (h.cta seg).claims = [])
      (htodo : (h.cta seg).todo warp = []) (hwarp : warp < decodeWarps) (hph : (h.cta seg).fold.phase warp = .working) :
      Takes C atoms h mem (.deposit seg warp)
        (h.setCta seg { h.cta seg with fold := (h.cta seg).fold.store warp ((h.cta seg).acc warp) }) mem
  | arrive {seg warp : ℕ} (hwarp : warp < decodeWarps) (hph : (h.cta seg).fold.phase warp = .stored) :
      Takes C atoms h mem (.arrive seg warp)
        (h.setCta seg { h.cta seg with
          fold := (h.cta seg).fold.arrive warp
          part := if (h.cta seg).fold.count = decodeWarps - 1 then some (C.warpSum (h.cta seg).fold.slot)
            else (h.cta seg).part }) mem
  | store {seg : ℕ} {ask : Ask} {p : P} (hask : (h.cta seg).ask = some ask) (hpart : (h.cta seg).part = some p)
      (hn : 1 < C.nLive) (hph : h.ws.phase seg = .working) :
      Takes C atoms h mem (.store seg) { h with ws := if ask.needy then h.ws.skip seg else h.ws.store seg p } mem
  | bump {seg : ℕ} (hph : h.ws.phase seg = .stored) : Takes C atoms h mem (.bump seg)
      { h with ws := h.ws.arrive seg, pc := if h.ws.count = C.nLive - 1 then .elected seg else h.pc } mem
  | alone {seg : ℕ} {p : P} (hpart : (h.cta seg).part = some p) (hn : ¬1 < C.nLive) (hph : h.ws.phase seg = .working) :
      Takes C atoms h mem (.alone seg) { h with ws := h.ws.leave seg, pc := .elected seg } mem
  | readout {seg : ℕ} {ask : Ask} {p : P} (hpc : h.pc = .elected seg) (hask : (h.cta seg).ask = some ask)
      (hpart : (h.cta seg).part = some p) : Takes C atoms h mem .readout (C.readout h seg ask p) mem
  | publish {seg : ℕ} {ask : Ask} (hpc : h.pc = .read seg) (hask : (h.cta seg).ask = some ask) (hpaged : C.paged = true) :
      Takes C atoms h mem .publish (h.publish ask atoms) mem

theorem takes_of_step (hstep : C.step atoms h mem e = some (h', mem')) : C.Takes atoms h mem e h' mem' := by
  unfold HeadCall.step at hstep
  cases e with
  | start seg =>
    dsimp only at hstep
    split at hstep
    · rename_i hcan
      cases hstep
      exact .start ⟨hcan.1, hcan.2.1⟩ hcan.2.2
    · cases hstep
  | claim seg =>
    dsimp only at hstep
    split at hstep
    · cases hstep
    · rename_i hcl
      cases hstep
      exact .claim hcl
  | visit seg warp =>
    dsimp only at hstep
    split at hstep
    · rename_i hask hcl htodo
      split at hstep
      · rename_i hwarp
        cases hstep
        exact .visit hask hcl htodo hwarp
      · cases hstep
    · cases hstep
  | deposit seg warp =>
    dsimp only at hstep
    split at hstep
    · rename_i hask hcl htodo
      split at hstep
      · rename_i hcan
        cases hstep
        exact .deposit hask hcl htodo hcan.1 hcan.2
      · cases hstep
    · cases hstep
  | arrive seg warp =>
    dsimp only at hstep
    split at hstep
    · rename_i hcan
      cases hstep
      exact .arrive hcan.1 hcan.2
    · cases hstep
  | store seg =>
    dsimp only at hstep
    split at hstep
    · rename_i hask hpart
      split at hstep
      · rename_i hcan
        cases hstep
        exact .store hask hpart hcan.1 hcan.2
      · cases hstep
    · cases hstep
  | bump seg =>
    dsimp only at hstep
    split at hstep
    · rename_i hph
      cases hstep
      exact .bump hph
    · cases hstep
  | alone seg =>
    dsimp only at hstep
    split at hstep
    · rename_i hpart
      split at hstep
      · rename_i hcan
        cases hstep
        exact .alone hpart hcan.1 hcan.2
      · cases hstep
    · cases hstep
  | readout =>
    dsimp only at hstep
    split at hstep
    · rename_i hpc
      split at hstep
      · rename_i hask hpart
        cases hstep
        exact .readout hpc hask hpart
      · cases hstep
    · cases hstep
  | publish =>
    dsimp only at hstep
    split at hstep
    · rename_i hpc
      split at hstep
      · rename_i hask
        split at hstep
        · rename_i hpaged
          cases hstep
          exact .publish hpc hask hpaged
        · cases hstep
      · cases hstep
    · cases hstep

/-- Whatever a CTA of the batch-head does next. -/
theorem HeadInv.step (hC : C.Counted) (hinv : HeadInv C h0 h) (hstep : C.Takes atoms h mem e h' mem') :
    HeadInv C h0 h' := by
  cases hstep with
  | @start seg hlive hask =>
    have hnone := (hinv.cta seg).part_of_idle hask
    refine hinv.set hC ((hinv.cta seg).start hask _ _ _ _) (fun ask hask' => ⟨hlive, ?_⟩)
      (fun hpart => absurd hnone hpart) _ _
    rw [← Option.some.inj hask']
    exact (hinv.askOf_eq hC hlive hask).1
  | @claim seg a slot rest hcl =>
    exact hinv.set hC ((hinv.cta seg).claim hcl) (hinv.asked seg) (fun _ => ⟨rfl, rfl⟩) _ _
  | @visit seg warp ask v rest hask hcl htodo hwarp =>
    have hk := (hinv.cta seg).visit hwarp htodo (p := v.read ((h.cta seg).acc warp) (C.visitLeaf h ask mem v).2)
    have hnone := (hinv.cta seg).part_of_working hwarp (by rw [(hinv.cta seg).working_of_todo htodo]; decide)
    exact hinv.set hC hk (hinv.asked seg) (fun hpart => absurd hnone hpart) h.shadow h.atomBits
  | @deposit seg warp ask hask hcl htodo hwarp hph =>
    exact hinv.set hC ((hinv.cta seg).deposit hask hcl htodo hph) (hinv.asked seg) (fun _ => ⟨rfl, rfl⟩) h.shadow h.atomBits
  | @arrive seg warp hwarp hph =>
    have hnone := (hinv.cta seg).part_of_working hwarp (by rw [hph]; decide)
    exact hinv.set hC ((hinv.cta seg).arrive hwarp hph) (hinv.asked seg) (fun hpart => absurd hnone hpart) h.shadow h.atomBits
  | store hask hpart hn hph => exact hinv.store hC hask hpart hn hph
  | bump hph => exact hinv.bump hC hph
  | alone hpart hn hph => exact hinv.alone hC hpart hn hph
  | readout hpc hask hpart => exact hinv.readout hpc hask hpart
  | publish hpc hask hpaged => exact hinv.publish hpc _

end Step

end HeadCall

end Rola
