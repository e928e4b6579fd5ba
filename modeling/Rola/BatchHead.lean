import Rola.Seams
import Mathlib.Algebra.BigOperators.Fin

/-!
# What a batch-head names

A state's format holds the product `B * H`, and every check of a step but the dense plane's compares
products; a step's dials are compared by their total width. A call whose batch, heads and dials are
the bound ones wherever those agree names the same batch and head in every operand.
-/

namespace Rola

/-! ### What a constructor accepted -/

theorem levelRefusal_none {lead : ColumnShape} {name : String} {l : ℕ} {ts : List LevelShape} {ws : List ℕ}
    (h : levelRefusal lead name l ts ws = none) (hlen : ts.length = ws.length) : ts = ws.map lead.level := by
  induction ts generalizing l ws with
  | nil =>
    cases ws with
    | nil => rfl
    | cons w ws => cases hlen
  | cons t ts ih =>
    cases ws with
    | nil => cases hlen
    | cons w ws =>
      unfold levelRefusal at h
      split at h
      · cases h
      rename_i hwidth
      split at h
      · cases h
      rename_i hlead
      rw [List.map_cons, ← ih h (Nat.succ.inj hlen)]
      obtain ⟨b, tk, hd, w'⟩ := t
      obtain rfl := not_not.1 hwidth
      obtain rfl := not_not.1 hlead
      rfl

/-- Every level and column of a bundle has its `[B, T, H]`. -/
theorem RouteFactors.shapes (r : RouteFactors) : r.widths ≠ [] ∧ r.read = r.widths.map r.lead.level ∧
    r.write = r.widths.map r.lead.level ∧ r.gWrite = r.lead := by
  have h := r.checked
  unfold RouteTensors.postInit at h
  rw [require_bind_ok, require_bind_ok] at h
  obtain ⟨hread, hwrite, h⟩ := h
  rcases hlevels : r.read with _ | ⟨first, rest⟩
  · rw [hlevels] at h
    cases h
  rw [hlevels] at h
  have hlead : r.lead = first.lead := by simp [RouteFactors.lead, hlevels]
  dsimp only at h
  split at h
  · cases h
  rename_i hnone
  rw [Option.or_eq_none_iff] at hnone
  rw [require_bind_ok] at h
  rw [hlead]
  refine ⟨fun hnil => ?_, ?_, levelRefusal_none hnone.2 hwrite, h.1⟩
  · rw [hlevels, hnil] at hread
    cases hread
  · exact levelRefusal_none hnone.1 (hlevels ▸ hread)

/-! ### The bound shape and format -/

variable {Page : Type} [Zero Page]

namespace RoLAState

/-- A bound state's shape and format agree, and its pages are whole. -/
structure Bound (shape : Shape) (format : StateFormat) : Prop where
  cols : shape.cols = format.DV + 1
  leaves : shape.N = format.B.prod
  ids : format = ⟨format.B.length, format.B, format.DV, shape.B * shape.H * (format.B.prod >>> pageRectangleBits)⟩
  pages : 0 < format.B.prod >>> pageRectangleBits

/-- The shape and the format are bound together. -/
def Binds (s : RoLAState Page) : Prop :=
  (s.shape = none → s.format = none) ∧
    ∀ shape, s.shape = some shape → ∃ format, s.format = some format ∧ Bound shape format

omit [Zero Page] in
theorem Binds.congr {s t : RoLAState Page} (h : Binds s) (hshape : t.shape = s.shape)
    (hformat : t.format = s.format) : Binds t := by
  unfold Binds
  rw [hshape, hformat]
  exact h

/-- The descriptor of a lawful call has at least one page. -/
theorem formatOf_pages {routes : Routes} {dv BH : ℕ} {f : StateFormat} (h : formatOf routes dv BH = .ok f) :
    0 < routes.widths.prod >>> pageRectangleBits := by
  unfold formatOf StateFormat.validate at h
  split at h
  · cases h
  split at h
  · cases h
  rename_i hfind
  split at h
  · cases h
  split at h
  · cases h
  rename_i hragged
  have hpos : 0 < routes.widths.prod := List.prod_pos fun w hw => by
    have hlawful := List.findIdx?_eq_none_iff.1 hfind w hw
    simp only [decide_eq_false_iff_not, not_or, not_lt] at hlawful
    exact lt_of_lt_of_le (by decide) hlawful.2
  have hmod : routes.widths.prod % 2 ^ pageRectangleBits = 0 := not_not.1 hragged
  rw [Nat.shiftRight_eq_div_pow]
  exact Nat.div_pos (Nat.le_of_dvd hpos (Nat.dvd_of_mod_eq_zero hmod)) (by decide)

theorem enterBacking_binds {grow : Grow} {base : ℕ → Page} {routes : Routes} {bits : Option (ℕ → Bool)}
    {BC : ℕ} {shape : Shape} (s : RoLAState Page) :
    (enterBacking grow base routes bits BC shape s).2.format = s.format := by
  unfold RoLAState.enterBacking
  split
  · rfl
  split
  · rfl
  split
  · rfl
  split
  · rfl
  split <;> rfl

theorem Binds.enterBitmap {grow : Grow} {base : ℕ → Page} {routes : Routes} {bitmap : Option AtomBitmap}
    {BC : ℕ} {shape : Shape} {s : RoLAState Page} (h : Binds s) :
    Binds (enterBitmap grow base routes bitmap BC shape s).2 := by
  unfold RoLAState.enterBitmap
  split
  · exact h.congr (enterBacking_shape s) (enterBacking_binds s)
  · split
    · exact h
    · exact h.congr (enterBacking_shape s) (enterBacking_binds s)

theorem Binds.kernelEntry {grow : Grow} {base : ℕ → Page} {routes : Routes} {bitmap : Option AtomBitmap}
    {dv BC : ℕ} {paging : Bool} {s : RoLAState Page} (h : Binds s) :
    Binds (s.kernelEntry grow base routes bitmap dv paging BC).2 := by
  unfold RoLAState.kernelEntry
  split
  · exact h
  rename_i presented hpres
  split
  · refine Binds.enterBitmap ⟨fun hn => absurd hn (Option.some_ne_none _), fun shape hshape => ?_⟩
    cases hshape
    refine ⟨presented, rfl, ?_⟩
    rw [formatOf_ok hpres]
    exact ⟨rfl, rfl, rfl, formatOf_pages hpres⟩
  · split
    · exact h
    split
    · exact h
    · exact h.enterBitmap

/-! ### What a step that gets past its checks presented -/

theorem spanOf_ok {t : LevelShape} {BH width : ℕ} {name : String} (h : spanOf t BH width name = .ok ()) :
    t.tokens = 1 ∧ t.batch * t.heads = BH ∧ (width = 0 ∨ t.width = width) := by
  unfold spanOf at h
  rw [require_bind_ok, require_bind_ok, require_ok] at h
  exact h

theorem spansOf_ok {name : String} {BH l : ℕ} {width : ℕ → ℕ} {ts : List LevelShape}
    (h : spansOf name BH width l ts = .ok ()) : ∀ t ∈ ts, t.batch * t.heads = BH := by
  induction ts generalizing l with
  | nil => exact fun _ ht => (nomatch ht)
  | cons t ts ih =>
    unfold spansOf at h
    obtain ⟨⟨⟩, hspan, hrest⟩ := bind_ok.1 h
    intro t' ht'
    rcases List.mem_cons.1 ht' with rfl | ht'
    · exact (spanOf_ok hspan).2.1
    · exact ih hrest t' ht'

theorem dialsCheck_ok {dials : Option DialShape} {H rows : ℕ} (h : dialsCheck dials H rows = .ok ()) :
    ∀ d ∈ dials, d = ⟨H, rows⟩ := by
  intro d hd
  cases hd
  exact require_ok.1 h

theorem totalRows_eq {widths : List ℕ} {k m N : ℕ} {p : DecodeParams}
    (h : decodeParams widths.length (widthAt widths) k m N = .ok p) : p.totalRows = widths.sum := by
  obtain ⟨-, -, rows, hrows, hfill⟩ := decodeParams_ok h
  rw [fillLattice_rows hfill, fillLevels_rows hrows, Finset.sum_range]
  calc ∑ i : Fin widths.length, widthAt widths i = ∑ i : Fin widths.length, widths[i] :=
        Finset.sum_congr rfl fun i _ => by simp [widthAt]
    _ = widths.sum := Fin.sum_univ_getElem widths

theorem rolaDecodeForward_ok {dev : DecodeDevice} {read write : List LevelShape} {dials : Option DialShape}
    {gWrite : ColumnShape} {v : LevelShape} {plane : StatePlane} {scratch : ScratchShape}
    {widths offsets : List ℕ} {k m nSplit : ℕ} {p : DecodeParams}
    (h : rolaDecodeForward dev read write dials gWrite v plane scratch widths offsets k m nSplit = .ok p) :
    v.tokens = 1 ∧ (∀ t ∈ read, t.batch * t.heads = v.batch * v.heads) ∧
      ∀ d ∈ dials, d = ⟨v.heads, widths.sum⟩ := by
  unfold rolaDecodeForward at h
  simp only [bind_ok, require_ok] at h
  obtain ⟨-, -, -, ⟨-, hwidths, -⟩, -, htokens, N, -, -, -, p', hparams, ⟨⟩, hread, -, -, -, -, -, -, -, -, -, -, -, -,
    ⟨⟩, hdials, -⟩ := h
  refine ⟨htokens, spansOf_ok hread, fun d hd => ?_⟩
  rw [← hwidths] at hparams
  rw [← totalRows_eq hparams]
  exact dialsCheck_ok hdials d hd

theorem stepPlane_ok {v : LevelShape} {config : DecodeGeometry} {decay : Bool} {state : Carried}
    {plane : StatePlane} (h : stepPlane v config decay state = .ok plane) :
    (∃ shape, state = .dense shape ∧ shape = ⟨v.batch, v.heads, config.N, v.width + 1⟩) ∨
      ∃ atoms pool, state = .paged (v.width + 1) (v.batch * v.heads) atoms pool := by
  unfold stepPlane at h
  rw [require_bind_ok, require_bind_ok] at h
  obtain ⟨hwidth, -, h⟩ := h
  have hcols : config.cols = v.width + 1 := congrArg (· + 1) hwidth.symm
  cases state with
  | dense shape =>
    rw [require_bind_ok, hcols] at h
    exact .inl ⟨shape, rfl, h.1⟩
  | paged cols tableBH atoms pool =>
    rw [require_bind_ok, require_bind_ok, hcols] at h
    obtain ⟨rfl, htable, -⟩ := h
    cases htable
    exact .inr ⟨_, pool, rfl⟩

omit [Zero Page] in
/-- What a step that gets past every check found on the way. -/
theorem decodeCall_ok {dev : DecodeDevice} {routes : RouteFactors} {v : LevelShape}
    {decay : Option LeafMassDecay} {grad : Bool} {s : RoLAState Page} {p : DecodeParams}
    (h : s.decodeCall dev routes v decay grad = .ok p) :
    s.carries = true ∧ routes.tokens = 1 ∧ v.tokens = 1 ∧ decodeEntry routes.routes s = .ok () ∧
      routes.batch * routes.heads = v.batch * v.heads ∧
      (∃ shape, s.shape = some shape ∧
        ((∃ N, s.carried shape = .dense shape ∧ shape = ⟨v.batch, v.heads, N, v.width + 1⟩) ∨
          ∃ atoms pool, s.carried shape = .paged (v.width + 1) (v.batch * v.heads) atoms pool)) ∧
      ∀ d ∈ decay, d.first.heads = v.heads ∧ d.dials.length = routes.widths.length ∧
        (d.dials.map DialShape.width).sum = routes.widths.sum := by
  unfold decodeCall at h
  obtain ⟨⟨⟩, hcontext, h⟩ := bind_ok.1 h
  unfold validateContext at hcontext
  rw [require_bind_ok, require_bind_ok] at hcontext
  obtain ⟨hcarries, htokens, -⟩ := hcontext
  obtain ⟨config, hconfig, h⟩ := bind_ok.1 h
  obtain ⟨⟨⟩, hentry, h⟩ := bind_ok.1 h
  have hwidths : config.widths = routes.widths ∧ config.D = routes.widths.length := by
    unfold deriveDecodeGeometry at hconfig
    simp only [bind_ok] at hconfig
    obtain ⟨_, -, _, -, _, -, _, -, hconfig⟩ := hconfig
    cases hconfig
    exact ⟨rfl, rfl⟩
  rcases hshape : s.shape with _ | shape
  · rw [hshape] at h
    cases h
  rw [hshape] at h
  obtain ⟨plane, hplane, h⟩ := bind_ok.1 h
  obtain ⟨dials, hdials, h⟩ := bind_ok.1 h
  obtain ⟨hvtokens, hread, hrows⟩ := rolaDecodeForward_ok h
  obtain ⟨hne, hlevels, -, -⟩ := routes.shapes
  refine ⟨hcarries, htokens, hvtokens, hentry, ?_, ⟨shape, rfl, ?_⟩, fun d hd => ?_⟩
  · obtain ⟨w, hw⟩ := List.exists_mem_of_ne_nil _ hne
    have hlevel := hread (routes.lead.level w) (hlevels ▸ List.mem_map_of_mem hw)
    exact hlevel
  · rcases stepPlane_ok hplane with ⟨shape', hdense, heq⟩ | hpaged
    · have hsame : shape' = shape := by
        unfold carried at hdense
        split at hdense
        · cases hdense
        · exact (Carried.dense.inj hdense).symm
      exact .inl ⟨config.N, hsame ▸ hdense, hsame ▸ heq⟩
    · exact .inr hpaged
  · cases hd
    unfold leafRateDialsFor leafRateDials at hdials
    dsimp only at hdials
    split at hdials
    · cases hdials
    rename_i hlen
    cases hdials
    have hcat := hrows _ rfl
    rw [hwidths.1] at hcat
    rw [DialShape.mk.injEq] at hcat
    exact ⟨hcat.1, hwidths.2 ▸ not_not.1 hlen, hcat.2⟩

omit [Zero Page] in
/-- A step's routes are checked against the bound format. -/
theorem decodeEntry_widths {routes : Routes} {s : RoLAState Page} {shape : Shape} {format : StateFormat}
    (h : decodeEntry routes s = .ok ()) (hshape : s.shape = some shape) (hformat : s.format = some format) :
    routes.widths = format.B := by
  unfold decodeEntry at h
  rw [hshape, hformat] at h
  split at h
  · cases h
  dsimp only at h
  split at h
  · cases h
  rename_i presented hpres
  rw [StateFormat.check_eq_ok.1 h, formatOf_ok hpres]

/-! ### Calls that name the bound batch and heads -/

/-- Every tensor of a bundle has the bound batch, heads and widths. -/
def RoutesSame (shape : Shape) (format : StateFormat) (r : RouteFactors) : Prop :=
  r.widths = format.B ∧ r.read = format.B.map (ColumnShape.level ⟨shape.B, r.tokens, shape.H⟩) ∧
    r.write = format.B.map (ColumnShape.level ⟨shape.B, r.tokens, shape.H⟩) ∧
    r.gWrite = ⟨shape.B, r.tokens, shape.H⟩

/-- The bundle's widths are the bound ones, and its batch-heads as many. -/
def RoutesFit (shape : Shape) (format : StateFormat) (r : RouteFactors) : Prop :=
  r.widths = format.B ∧ r.batch * r.heads = shape.B * shape.H

theorem RoutesFit.same {shape : Shape} {format : StateFormat} {r : RouteFactors} (h : RoutesFit shape format r)
    (hbatch : r.batch = shape.B) (hheads : r.heads = shape.H) : RoutesSame shape format r := by
  obtain ⟨-, hread, hwrite, hgain⟩ := r.shapes
  have hlead : r.lead = ⟨shape.B, r.tokens, shape.H⟩ := by
    rw [← hbatch, ← hheads]
    rfl
  rw [hlead] at hread hwrite hgain
  rw [h.1] at hread hwrite
  exact ⟨h.1, hread, hwrite, hgain⟩

namespace SeamCall

variable (shape : Shape) (format : StateFormat)

/-- Every tensor of the call has the batch, the heads, the level widths and the value width the state was
bound with. -/
def Same : SeamCall Page → Prop
  | .prefill _ _ routes _ dv _ _ _ => RoutesSame shape format routes ∧ dv = format.DV
  | .decode _ routes v decay _ _ _ => RoutesSame shape format routes ∧ v = ⟨shape.B, 1, shape.H, format.DV⟩ ∧
      ∀ d ∈ decay, d.dials = format.B.map fun width => ⟨shape.H, width⟩
  | .admission _ _ => True
  | .refill _ => True

/-- What the checks compare agrees: the widths, the value width, the number of batch-heads, a dense
step's value stream with its plane, the dials' heads and total width. -/
def Fits (paged : Bool) : SeamCall Page → Prop
  | .prefill _ _ routes _ dv _ _ _ => RoutesFit shape format routes ∧ dv = format.DV
  | .decode _ routes v decay _ _ _ => RoutesFit shape format routes ∧ routes.tokens = 1 ∧ v.tokens = 1 ∧
      v.width = format.DV ∧ v.batch * v.heads = shape.B * shape.H ∧
      (paged = false → v.batch = shape.B ∧ v.heads = shape.H) ∧
      ∀ d ∈ decay, d.first.heads = v.heads ∧ d.dials.length = format.B.length ∧
        (d.dials.map DialShape.width).sum = format.B.sum
  | .admission _ _ => True
  | .refill _ => True

/-- What they do not: the batch and the heads themselves, and the dials level by level. -/
def Grouped : SeamCall Page → Prop
  | .prefill _ _ routes _ _ _ _ _ => routes.batch = shape.B ∧ routes.heads = shape.H
  | .decode _ routes v decay _ _ _ => (routes.batch = shape.B ∧ routes.heads = shape.H) ∧
      (v.batch = shape.B ∧ v.heads = shape.H) ∧ ∀ d ∈ decay, d.dials.map DialShape.width = format.B
  | .admission _ _ => True
  | .refill _ => True

/-- The `[B, T, H]` of each tensor a launch indexes by batch and head. -/
def operands : SeamCall Page → List ColumnShape
  | .prefill _ _ routes _ _ _ _ _ => (routes.read ++ routes.write).map LevelShape.lead ++ [routes.gWrite]
  | .decode _ routes v _ _ _ _ => (routes.read ++ routes.write).map LevelShape.lead ++ [routes.gWrite, v.lead]
  | .admission _ _ => []
  | .refill _ => []

def dials : SeamCall Page → List DialShape
  | .decode _ _ _ (some decay) _ _ _ => decay.dials
  | _ => []

/-- A batch-head splits into one batch and one head, whichever operand it indexes. -/
def Named (call : SeamCall Page) : Prop := ∀ bh < shape.B * shape.H,
  (∀ o ∈ call.operands, bh / o.heads = bh / shape.H ∧ bh % o.heads = bh % shape.H ∧ bh / o.heads < o.batch) ∧
    ∀ d ∈ call.dials, bh % shape.H < d.heads

variable {shape format}

omit [Zero Page] in
theorem Same.named {call : SeamCall Page} (h : call.Same shape format) : call.Named shape := by
  have hroutes : ∀ r : RouteFactors, RoutesSame shape format r → ∀ o ∈ (r.read ++ r.write).map LevelShape.lead ++
      [r.gWrite], o.batch = shape.B ∧ o.heads = shape.H := by
    rintro r ⟨-, hread, hwrite, hgain⟩ o ho
    rw [hread, hwrite, hgain, ← List.map_append, List.map_map] at ho
    rcases List.mem_append.1 ho with ho | ho
    · obtain ⟨w, -, rfl⟩ := List.mem_map.1 ho
      exact ⟨rfl, rfl⟩
    · rw [List.mem_singleton.1 ho]
      exact ⟨rfl, rfl⟩
  have hoperands : ∀ o ∈ call.operands, o.batch = shape.B ∧ o.heads = shape.H := by
    cases call with
    | prefill grow base routes bitmap dv paging BC store => exact hroutes routes h.1
    | decode dev routes v decay grad launch plane =>
      intro o ho
      have hsplit : SeamCall.operands (.decode dev routes v decay grad launch plane) =
          ((routes.read ++ routes.write).map LevelShape.lead ++ [routes.gWrite]) ++ [v.lead] := by
        simp [operands]
      rw [hsplit] at ho
      rcases List.mem_append.1 ho with ho | ho
      · exact hroutes routes h.1 o ho
      · rw [List.mem_singleton.1 ho, h.2.1]
        exact ⟨rfl, rfl⟩
    | admission grow bitmap => exact fun _ ho => (nomatch ho)
    | refill grow => exact fun _ ho => (nomatch ho)
  have hdials : ∀ d ∈ call.dials, d.heads = shape.H := by
    intro d hd
    cases call with
    | decode dev routes v decay grad launch plane =>
      cases decay with
      | none => cases hd
      | some decay =>
        have hd' : d ∈ decay.dials := hd
        rw [h.2.2 decay rfl] at hd'
        obtain ⟨w, -, rfl⟩ := List.mem_map.1 hd'
        rfl
    | _ => cases hd
  intro bh hbh
  have hH : 0 < shape.H := Nat.pos_of_mul_pos_left (Nat.zero_lt_of_lt hbh)
  refine ⟨fun o ho => ?_, fun d hd => ?_⟩
  · obtain ⟨hbatch, hheads⟩ := hoperands o ho
    rw [hbatch, hheads]
    exact ⟨rfl, rfl, Nat.div_lt_of_lt_mul (Nat.mul_comm shape.B shape.H ▸ hbh)⟩
  · rw [hdials d hd]
    exact Nat.mod_lt _ hH

omit [Zero Page] in
theorem Fits.same {paged : Bool} {call : SeamCall Page} (h : call.Fits shape format paged)
    (hgrouped : call.Grouped shape format) : call.Same shape format := by
  cases call with
  | prefill grow base routes bitmap dv paging BC store => exact ⟨h.1.same hgrouped.1 hgrouped.2, h.2⟩
  | decode dev routes v decay grad launch plane =>
    obtain ⟨hroutes, -, hvtokens, hwidth, -, -, hdials⟩ := h
    obtain ⟨⟨hbatch, hheads⟩, ⟨hvbatch, hvheads⟩, hlevels⟩ := hgrouped
    refine ⟨hroutes.same hbatch hheads, ?_, fun d hd => ?_⟩
    · rw [← hvbatch, ← hvheads, ← hwidth, ← hvtokens]
    · have hheads' : ∀ t ∈ d.dials, t.heads = shape.H := by
        intro t ht
        rcases List.mem_cons.1 ht with rfl | ht
        · exact (hdials d hd).1.trans hvheads
        · exact (d.shared t ht).trans ((hdials d hd).1.trans hvheads)
      rw [← hlevels d hd, List.map_map]
      refine (List.map_id _).symm.trans (List.map_congr_left fun t ht => ?_)
      rw [Function.comp_apply, ← hheads' t ht]
      rfl
  | admission grow bitmap => trivial
  | refill grow => trivial

end SeamCall

/-! ### What a call that is served presented -/

variable {s : RoLAState Page} {shape : Shape} {format : StateFormat}

omit [Zero Page] in
theorem arenaConfig_dims {widths : List ℕ} {BC : ℕ} {slack : ℚ} {config : ArenaConfig}
    (h : arenaConfig shape widths BC slack = .ok config) :
    config.BH = shape.B * shape.H ∧ config.cols = shape.cols := by
  unfold arenaConfig at h
  split at h
  · cases h
  split at h
  · cases h
  unfold ArenaConfig.make at h
  split at h
  · split at h
    · cases h
      exact ⟨rfl, rfl⟩
    · cases h
  · cases h

/-- A presented descriptor that is the bound one. -/
theorem Bound.presented {routes : RouteFactors} {dv : ℕ} (hbound : Bound shape format)
    (h : formatOf routes.routes dv (routes.batch * routes.heads) = .ok format) :
    RoutesFit shape format routes ∧ dv = format.DV := by
  have hpres := (formatOf_ok h).symm.trans hbound.ids
  rw [StateFormat.mk.injEq] at hpres
  obtain ⟨-, hwidths, hdv, hids⟩ := hpres
  have hwidths' : routes.widths = format.B := hwidths
  have hids' : routes.batch * routes.heads * (routes.widths.prod >>> pageRectangleBits) =
      shape.B * shape.H * (format.B.prod >>> pageRectangleBits) := hids
  rw [hwidths'] at hids'
  exact ⟨⟨hwidths', Nat.eq_of_mul_eq_mul_right hbound.pages hids'⟩, hdv⟩

/-- A prefill past the format check fits; one short of it has changed nothing. -/
theorem kernelEntry_presents {grow : Grow} {base : ℕ → Page} {routes : RouteFactors}
    {bitmap : Option AtomBitmap} {dv BC : ℕ} {paging : Bool} (hshape : s.shape = some shape)
    (hformat : s.format = some format) (hbound : Bound shape format) :
    (RoutesFit shape format routes ∧ dv = format.DV) ∨
      ∃ err, s.kernelEntry grow base routes.routes bitmap dv paging BC = (.error err, s) := by
  unfold RoLAState.kernelEntry
  rw [hshape, hformat]
  rcases hpres : formatOf routes.routes dv (routes.batch * routes.heads) with err | presented
  · refine .inr ⟨err, ?_⟩
    rw [show formatOf routes.routes dv (routes.routes.batch * routes.routes.heads) = .error err from hpres]
  rcases hcheck : format.check presented with err | ⟨⟩
  · refine .inr ⟨err, ?_⟩
    rw [show formatOf routes.routes dv (routes.routes.batch * routes.routes.heads) = .ok presented from hpres]
    dsimp only
    rw [hcheck]
  · rw [← StateFormat.check_eq_ok.1 hcheck] at hpres
    exact .inl (hbound.presented hpres)

/-- A step past every check fits. -/
theorem decodeCall_fits {dev : DecodeDevice} {routes : RouteFactors} {v : LevelShape}
    {decay : Option LeafMassDecay} {grad : Bool} {launch : ∀ c, DecodeCall c Page} {plane : ℕ → Page}
    {p : DecodeParams} (h : s.decodeCall dev routes v decay grad = .ok p) (hgood : Good s)
    (hshape : s.shape = some shape) (hformat : s.format = some format) (hbound : Bound shape format) :
    (SeamCall.decode dev routes v decay grad launch plane).Fits shape format s.arena.isSome := by
  obtain ⟨-, htokens, hvtokens, hentry, hproduct, ⟨shape', hshape', hplane⟩, hdials⟩ := decodeCall_ok h
  obtain rfl := Option.some.inj (hshape.symm.trans hshape')
  have hwidths : routes.widths = format.B := decodeEntry_widths hentry hshape hformat
  have hvalue : v.width = format.DV ∧ v.batch * v.heads = shape.B * shape.H ∧
      (s.arena.isSome = false → v.batch = shape.B ∧ v.heads = shape.H) := by
    rcases hplane with ⟨N, hdense, heq⟩ | ⟨atoms, pool, hpaged⟩
    · have hcols := hbound.cols
      rw [heq] at hcols
      rw [heq]
      exact ⟨Nat.succ.inj hcols, rfl, fun _ => ⟨rfl, rfl⟩⟩
    · unfold carried at hpaged
      rcases harena : s.arena with _ | a
      · rw [harena] at hpaged
        cases hpaged
      rw [harena] at hpaged
      obtain ⟨hcols, hBH, -, -⟩ := Carried.paged.inj hpaged
      obtain ⟨shape'', hshape'', hconfig, -⟩ := hgood.arena a harena
      obtain rfl := Option.some.inj (hshape.symm.trans hshape'')
      obtain ⟨hBH', hcols'⟩ := arenaConfig_dims hconfig
      refine ⟨?_, hBH.symm.trans hBH', fun hnone => (nomatch hnone)⟩
      have hwidth : v.width + 1 = format.DV + 1 := hcols.symm.trans (hcols'.trans hbound.cols)
      exact Nat.succ.inj hwidth
  refine ⟨⟨hwidths, hproduct.trans hvalue.2.1⟩, htokens, hvtokens, hvalue.1, hvalue.2.1, hvalue.2.2, fun d hd => ?_⟩
  rw [← hwidths]
  exact hdials d hd

end RoLAState

end Rola
