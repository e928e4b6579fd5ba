import Mathlib.Algebra.Ring.Int.Defs
import Rola.RouterProjection

/-!
# The projection is the slots' definition

A gathered side is the list of the column indices its slots name, whatever runs it was read by, so a
projection is those columns' logits in order and a level's are found at its offset.
-/

namespace Rola.Projection
open Finset

namespace ResolvedRouting

variable (routing : ResolvedRouting)

/-- The slot of a level's read logits. -/
def readSlot (level : ℕ) : ℕ := routing.packedReadSlotLookup.getD level 0

/-- The columns of a slot. -/
def slotColumns (slot : ℕ) : List ℕ :=
  List.range' (Spans.offset routing.packedSlotWidths slot) (routing.packedSlotWidths.getD slot 0)

variable {routing} {level slot : ℕ}

theorem length_branches : routing.branches.length = routing.D := List.length_map _

theorem length_packedSlotWidths : routing.packedSlotWidths.length = routing.D + routing.untiedLevels.length := by
  rw [packedSlotWidths, List.length_map, packedSlotLevel, List.length_append, List.length_range]

theorem packedSlotOffsets_getD (h : slot ≤ routing.packedSlotWidths.length) :
    routing.packedSlotOffsets.getD slot 0 = Spans.offset routing.packedSlotWidths slot := Spans.getD_offsets h

theorem packedSlotSlice_eq (h : slot < routing.packedSlotWidths.length) : routing.packedSlotSlice slot =
    (Spans.offset routing.packedSlotWidths slot,
      Spans.offset routing.packedSlotWidths slot + routing.packedSlotWidths.getD slot 0) := by
  rw [packedSlotSlice, packedSlotOffsets_getD h.le, packedSlotOffsets_getD h, Spans.offset_succ h]

theorem packedRouterWidth_eq : routing.packedRouterWidth = routing.packedSlotWidths.sum := by
  rw [packedRouterWidth, packedSlotOffsets, Spans.offsets_last]

theorem packedLogitWidth_eq : routing.packedLogitWidth = routing.branches.sum := by
  rw [packedLogitWidth, levelOffsets, Spans.offsets_last]

/-- A slot's columns are inside the router's routed ones. -/
theorem slot_end_le (h : slot < routing.packedSlotWidths.length) :
    Spans.offset routing.packedSlotWidths slot + routing.packedSlotWidths.getD slot 0 ≤ routing.packedRouterWidth := by
  rw [← Spans.offset_succ h, packedRouterWidth_eq, ← Spans.offset_length]
  exact Spans.offset_mono h

/-- The write slots come first, in level order. -/
theorem writeSlot_width (h : level < routing.D) :
    routing.packedSlotWidths.getD level 0 = routing.branches.getD level 0 ∧
      Spans.offset routing.packedSlotWidths level = Spans.offset routing.branches level := by
  have hfirst : routing.packedSlotWidths =
      routing.branches ++ routing.untiedLevels.map fun level => routing.branches.getD level 0 := by
    rw [packedSlotWidths, packedSlotLevel, List.map_append]
    refine congrArg (· ++ _) (List.ext_getElem ?_ fun i hi hi' => ?_)
    · rw [List.length_map, List.length_range, length_branches]
    · rw [List.getElem_map, List.getElem_range, List.getD_eq_getElem]
  rw [hfirst, Spans.offset_append (by rw [length_branches]; exact h.le), List.getD_append _ _ _ _ (by rw [length_branches]; exact h)]
  exact ⟨rfl, rfl⟩

theorem mem_untiedLevels : level ∈ routing.untiedLevels ↔ level < routing.D ∧ routing.isTied level = false := by
  rw [untiedLevels, List.mem_filter, List.mem_range]
  simp

theorem readSlot_eq (h : level < routing.D) :
    routing.readSlot level = ((routing.untiedLevels.idxOf? level).map (routing.D + ·)).getD level := by
  rw [readSlot, packedReadSlotLookup, List.getD_eq_getElem?_getD, List.getElem?_map, List.getElem?_range h]
  rfl

theorem readSlot_tied (h : level < routing.D) (ht : routing.isTied level = true) : routing.readSlot level = level := by
  have hnone : routing.untiedLevels.idxOf? level = none := by
    rw [List.idxOf?_eq_none_iff]
    intro hmem
    rw [(mem_untiedLevels.1 hmem).2] at ht
    cases ht
  rw [readSlot_eq h, hnone]
  rfl

/-- An untied level's read slot is its own, past the write slots. -/
theorem readSlot_untied (h : level < routing.D) (ht : routing.isTied level = false) : ∃ i,
    routing.untiedLevels.idxOf? level = some i ∧ routing.readSlot level = routing.D + i ∧
      i < routing.untiedLevels.length ∧ routing.untiedLevels.getD i 0 = level := by
  obtain ⟨i, hi⟩ := Option.isSome_iff_exists.1 (List.isSome_idxOf?.2 (mem_untiedLevels.2 ⟨h, ht⟩))
  obtain ⟨hlt, hget⟩ := List.idxOf?_eq_some_iff.1 hi
  refine ⟨i, hi, ?_, hlt, ?_⟩
  · rw [readSlot_eq h, hi]
    rfl
  · rw [List.getD_eq_getElem _ _ hlt]
    exact hget.1

theorem readSlot_lt (h : level < routing.D) : routing.readSlot level < routing.packedSlotWidths.length := by
  rw [length_packedSlotWidths]
  cases ht : routing.isTied level with
  | true =>
    rw [readSlot_tied h ht]
    omega
  | false =>
    obtain ⟨i, -, hslot, hlt, -⟩ := readSlot_untied h ht
    omega

theorem readSlot_width (h : level < routing.D) :
    routing.packedSlotWidths.getD (routing.readSlot level) 0 = routing.branches.getD level 0 := by
  cases ht : routing.isTied level with
  | true =>
    rw [readSlot_tied h ht]
    exact (writeSlot_width h).1
  | false =>
    obtain ⟨i, -, hslot, hlt, hget⟩ := readSlot_untied h ht
    rw [hslot, packedSlotWidths, packedSlotLevel, List.map_append, List.getD_append_right _ _ _ _ (by simp), List.length_map,
      List.length_range, Nat.add_sub_cancel_left, List.getD_eq_getElem?_getD, List.getElem?_map,
      List.getElem?_eq_getElem hlt]
    rw [List.getD_eq_getElem _ _ hlt] at hget
    rw [hget]
    rfl

theorem length_slotColumns (slot : ℕ) : (routing.slotColumns slot).length = routing.packedSlotWidths.getD slot 0 :=
  List.length_range'

end ResolvedRouting

/-! ### A gathered side -/

variable {K : Type} [Semiring K] {routing : ResolvedRouting} {router : Router K} {gainColumns : ℕ} {tokenMajor : Bool}

/-- The logit of a router's column: its product with the stream, and its bias. -/
def logit (router : Router K) (hidden : Hidden K) (b t head column : ℕ) : K :=
  ∑ d ∈ range hidden.width, hidden.at b t head d * router.columns.getD column (fun _ _ => 0) head d +
    match router.bias with
    | some bias => bias.getD column (fun _ => 0) head
    | none => 0

/-- What the shape checks ask of a router. -/
structure Router.Fits (router : Router K) (routing : ResolvedRouting) (gainColumns : ℕ) : Prop where
  heads_pos : 0 < router.heads
  columns : router.columns.length = routing.packedRouterWidth + gainColumns
  bias : ∀ bias, router.bias = some bias → bias.length = routing.packedRouterWidth + gainColumns

/-- A side of the columns of the given indices. -/
def gathered (router : Router K) (indices : List ℕ) : List (ℕ → ℕ → K) × Option (List (ℕ → K)) :=
  (indices.map fun i => router.columns.getD i fun _ _ => 0, router.bias.map fun bias => indices.map fun i => bias.getD i fun _ => 0)

theorem slice_eq_map {α : Type*} (xs : List α) (default : α) {a b : ℕ} (hb : b ≤ xs.length) :
    Spans.slice xs a b = (List.range' a (b - a)).map fun i => xs.getD i default := by
  refine List.ext_getElem? fun d => ?_
  rcases Nat.lt_or_ge d (b - a) with hd | hd
  · have hin : a + d < xs.length := by omega
    rw [Spans.getElem?_slice _ (by omega), List.getElem?_map, List.getElem?_range' hd, Nat.one_mul, Option.map_some,
      List.getD_eq_getElem _ _ hin, List.getElem?_eq_getElem hin]
  · rw [List.getElem?_eq_none, List.getElem?_eq_none]
    · simpa using hd
    · rw [Spans.length_slice hb]
      exact hd

/-- The gain's span, after the slots'. -/
def gainSpan (routing : ResolvedRouting) (gainColumns : ℕ) (withGain : Bool) : List (ℕ × ℕ) :=
  if withGain then [(routing.packedRouterWidth, routing.packedRouterWidth + gainColumns)] else []

/-- The columns a side gathers: its slots', then the gain's. -/
def sideColumns (routing : ResolvedRouting) (gainColumns : ℕ) (slots : List ℕ) (withGain : Bool) : List ℕ :=
  slots.flatMap routing.slotColumns ++ if withGain then List.range' routing.packedRouterWidth gainColumns else []

/-- The runs a side gathers by. -/
def sideRuns (routing : ResolvedRouting) (gainColumns : ℕ) (slots : List ℕ) (withGain : Bool) : List (ℕ × ℕ) :=
  Spans.runs (slots.map routing.packedSlotSlice ++ gainSpan routing gainColumns withGain)

/-- One run is gathered as any number are. -/
theorem gather_runs {K : Type*} (router : Router K) (runs : List (ℕ × ℕ)) : (match runs with
      | [run] => (Spans.slice router.columns run.1 run.2, router.bias.map fun bias => Spans.slice bias run.1 run.2)
      | runs => (runs.flatMap fun run => Spans.slice router.columns run.1 run.2,
          router.bias.map fun bias => runs.flatMap fun run => Spans.slice bias run.1 run.2)) =
    (runs.flatMap fun run => Spans.slice router.columns run.1 run.2,
      router.bias.map fun bias => runs.flatMap fun run => Spans.slice bias run.1 run.2) := by
  split
  · simp only [List.flatMap_singleton]
  · rfl

omit [Semiring K] in
theorem packWeight_runs (slots : List ℕ) (withGain : Bool) : packWeight routing router gainColumns slots withGain =
    ((sideRuns routing gainColumns slots withGain).flatMap fun run => Spans.slice router.columns run.1 run.2,
      router.bias.map fun bias =>
        (sideRuns routing gainColumns slots withGain).flatMap fun run => Spans.slice bias run.1 run.2) := by
  refine (gather_runs router _).trans ?_
  unfold sideRuns gainSpan
  cases withGain with
  | false => rw [if_neg Bool.false_ne_true, if_neg Bool.false_ne_true, List.append_nil]; rfl
  | true =>
    rw [if_pos rfl, if_pos rfl, Spans.runs_snoc]
    rfl

theorem packWeight_eq (hfits : router.Fits routing gainColumns) {slots : List ℕ}
    (hslots : ∀ slot ∈ slots, slot < routing.packedSlotWidths.length) (withGain : Bool) :
    packWeight routing router gainColumns slots withGain = gathered router (sideColumns routing gainColumns slots withGain) := by
  have hordered : ∀ span ∈ slots.map routing.packedSlotSlice ++ gainSpan routing gainColumns withGain, span.1 ≤ span.2 := by
    intro span hspan
    rcases List.mem_append.1 hspan with hspan | hspan
    · obtain ⟨slot, hslot, rfl⟩ := List.mem_map.1 hspan
      rw [ResolvedRouting.packedSlotSlice_eq (hslots slot hslot)]
      exact Nat.le_add_right _ _
    · unfold gainSpan at hspan
      split at hspan
      · rw [List.mem_singleton.1 hspan]
        exact Nat.le_add_right _ _
      · cases hspan
  have hside : ∀ {α : Type} (xs : List α) (default : α), xs.length = routing.packedRouterWidth + gainColumns →
      (slots.map routing.packedSlotSlice ++ gainSpan routing gainColumns withGain).flatMap
        (fun span => Spans.slice xs span.1 span.2) =
      (sideColumns routing gainColumns slots withGain).map fun i => xs.getD i default := by
    intro α xs default hlength
    rw [sideColumns, List.flatMap_append, List.map_append, List.flatMap_map, List.map_flatMap]
    refine congrArg₂ (· ++ ·) (List.flatMap_congr fun slot hslot => ?_) ?_
    · have hend := ResolvedRouting.slot_end_le (hslots slot hslot)
      rw [ResolvedRouting.packedSlotSlice_eq (hslots slot hslot), slice_eq_map xs default (by dsimp only; omega), Nat.add_sub_cancel_left]
      rfl
    · unfold gainSpan
      split
      · rw [List.flatMap_singleton, slice_eq_map xs default (by dsimp only; omega), Nat.add_sub_cancel_left]
      · rfl
  rw [packWeight_runs, sideRuns, Spans.flatMap_runs _ _ hordered, hside _ (fun _ _ => 0) hfits.columns, gathered]
  refine congrArg (Prod.mk _) ?_
  cases hbias : router.bias with
  | none => rfl
  | some bias => rw [Option.map_some, Option.map_some, Spans.flatMap_runs _ _ hordered, hside _ (fun _ => 0) (hfits.bias bias hbias)]

/-- Where a layout keeps a batch, token and head. -/
def site (router : Router K) (tokenMajor : Bool) (b t head : ℕ) : List ℕ :=
  if tokenMajor then [b, t, head] else [b * router.heads + head, t]

theorem project_gathered (hidden : Hidden K) (indices : List ℕ) (trailing b t : ℕ) {head : ℕ} (hhead : head < router.heads) :
    (project router tokenMajor hidden (gathered router indices) trailing).1 (site router tokenMajor b t head) =
      (indices.map (logit router hidden b t head)).take (indices.length - trailing) ∧
    (trailing ≠ 0 → ∃ tail, (project router tokenMajor hidden (gathered router indices) trailing).2 = some tail ∧
      tail [b, t, head] = (indices.map (logit router hidden b t head)).drop (indices.length - trailing)) ∧
    (trailing = 0 → (project router tokenMajor hidden (gathered router indices) trailing).2 = none) := by
  have hdiv : (b * router.heads + head) / router.heads = b := by
    rw [Nat.add_comm, Nat.add_mul_div_right _ _ (Nat.zero_lt_of_lt hhead), Nat.div_eq_of_lt hhead, Nat.zero_add]
  have hmod : (b * router.heads + head) % router.heads = head := by rw [Nat.mul_add_mod', Nat.mod_eq_of_lt hhead]
  have hlength : (indices.map (logit router hidden b t head)).length = indices.length := List.length_map _
  have hrow : indices.map (logit router hidden b t head) = match (gathered router indices).2 with
      | some bias => List.zipWith (· + ·) ((gathered router indices).1.map fun column =>
          ∑ d ∈ range hidden.width, hidden.at b t head d * column head d) (bias.map fun column => column head)
      | none => (gathered router indices).1.map fun column =>
          ∑ d ∈ range hidden.width, hidden.at b t head d * column head d := by
    unfold gathered logit
    cases router.bias with
    | none => simp
    | some bias => simp [List.zipWith_map, List.zipWith_self]
  have hwhole : trailing = 0 → ∀ columns : List K, columns.take (columns.length - trailing) = columns := by
    rintro rfl columns
    rw [Nat.sub_zero, List.take_of_length_le le_rfl]
  rw [← hlength, hrow]
  refine ⟨?_, fun hne => ?_, fun hzero => ?_⟩
  · unfold project site
    cases tokenMajor with
    | true =>
      simp only [if_true]
      split
      · rfl
      · rename_i hzero
        exact (hwhole (not_not.1 hzero) _).symm
    | false =>
      simp only [Bool.false_eq_true, if_false, hdiv, hmod]
      split
      · rfl
      · rename_i hzero
        exact (hwhole (not_not.1 hzero) _).symm
  · unfold project
    cases tokenMajor with
    | true => exact ⟨_, if_pos hne, rfl⟩
    | false => exact ⟨_, if_pos hne, rfl⟩
  · unfold project
    exact if_neg (not_not.2 hzero)

/-! ### The sides -/

variable {b t head : ℕ}

/-- A side whose gain, if it carries one, is cut off its end. -/
theorem project_side (hfits : router.Fits routing gainColumns) (hidden : Hidden K) {slots : List ℕ}
    (hslots : ∀ slot ∈ slots, slot < routing.packedSlotWidths.length) {withGain : Bool}
    (hgain : withGain = true → gainColumns ≠ 0) (hhead : head < router.heads) :
    (project router tokenMajor hidden (packWeight routing router gainColumns slots withGain)
        (if withGain then gainColumns else 0)).1 (site router tokenMajor b t head) =
      (slots.flatMap routing.slotColumns).map (logit router hidden b t head) ∧
    (withGain = true → ∃ tail, (project router tokenMajor hidden (packWeight routing router gainColumns slots withGain)
        (if withGain then gainColumns else 0)).2 = some tail ∧
      tail [b, t, head] = (List.range' routing.packedRouterWidth gainColumns).map (logit router hidden b t head)) ∧
    (withGain = false → (project router tokenMajor hidden (packWeight routing router gainColumns slots withGain)
        (if withGain then gainColumns else 0)).2 = none) := by
  rw [packWeight_eq hfits hslots]
  obtain ⟨hrow, htail, hnone⟩ := @project_gathered K _ router tokenMajor hidden
    (sideColumns routing gainColumns slots withGain) (if withGain then gainColumns else 0) b t _ hhead
  cases withGain with
  | false =>
    refine ⟨?_, fun h => absurd h Bool.false_ne_true, fun _ => hnone rfl⟩
    rw [hrow, List.take_of_length_le (by simp), sideColumns, if_neg Bool.false_ne_true, List.append_nil]
  | true =>
    have hcut : (sideColumns routing gainColumns slots true).length - gainColumns =
        ((slots.flatMap routing.slotColumns).map (logit router hidden b t head)).length := by
      rw [sideColumns, if_pos rfl, List.length_append, List.length_range', Nat.add_sub_cancel, List.length_map]
    have hsplit : (sideColumns routing gainColumns slots true).map (logit router hidden b t head) =
        (slots.flatMap routing.slotColumns).map (logit router hidden b t head) ++
          (List.range' routing.packedRouterWidth gainColumns).map (logit router hidden b t head) := by
      rw [sideColumns, if_pos rfl, List.map_append]
    refine ⟨?_, fun _ => ?_, fun h => absurd h.symm Bool.false_ne_true⟩
    · rw [hrow, if_pos rfl, hcut, hsplit, List.take_left]
    · obtain ⟨tail, hsome, hrow⟩ := htail (hgain rfl)
      exact ⟨tail, hsome, by rw [hrow, if_pos rfl, hcut, hsplit, List.drop_left]⟩

/-- The columns of the write side's levels. -/
def writeColumns (routing : ResolvedRouting) : List ℕ := (List.range routing.D).flatMap routing.slotColumns

/-- The read logits, level by level: a tied level's stream is the write side's. -/
def readRow (routing : ResolvedRouting) (router : Router K) (h : Hidden K) (hW : Option (Hidden K)) (b t head : ℕ) : List K :=
  (List.range routing.D).flatMap fun level => (routing.slotColumns (routing.readSlot level)).map
    (logit router (if routing.isTied level then hW.getD h else h) b t head)

theorem packedReadSlotLookup_eq : routing.packedReadSlotLookup = (List.range routing.D).map routing.readSlot := by
  refine List.ext_getElem (by simp [ResolvedRouting.packedReadSlotLookup]) fun i hi _ => ?_
  rw [List.getElem_map, List.getElem_range, ResolvedRouting.readSlot, List.getD_eq_getElem _ _ hi]

theorem writeSlots_lt : ∀ slot ∈ List.range routing.D, slot < routing.packedSlotWidths.length := by
  intro slot hslot
  rw [ResolvedRouting.length_packedSlotWidths]
  exact Nat.lt_add_right _ (List.mem_range.1 hslot)

theorem readSlots_lt : ∀ slot ∈ routing.packedReadSlotLookup, slot < routing.packedSlotWidths.length := by
  intro slot hslot
  rw [packedReadSlotLookup_eq] at hslot
  obtain ⟨level, hlevel, rfl⟩ := List.mem_map.1 hslot
  exact ResolvedRouting.readSlot_lt (List.mem_range.1 hlevel)

/-- A plan whose read slots are its write slots has only tied levels. -/
theorem isTied_of_fullyTied (hall : routing.packedReadSlotLookup = List.range routing.D) {level : ℕ} (hlevel : level < routing.D) :
    routing.isTied level = true := by
  have hself : routing.readSlot level = level := by
    rw [ResolvedRouting.readSlot, hall, List.getD_eq_getElem _ _ (by simpa using hlevel), List.getElem_range]
  cases ht : routing.isTied level with
  | true => rfl
  | false =>
    obtain ⟨i, -, hslot, -⟩ := ResolvedRouting.readSlot_untied hlevel ht
    omega

/-- A plan with as many untied levels as levels has only those. -/
theorem isTied_of_allUntied (hall : routing.untiedLevels.length = routing.D) {level : ℕ} (hlevel : level < routing.D) :
    routing.isTied level = false := by
  have hfilter : routing.untiedLevels = List.range routing.D :=
    List.Sublist.eq_of_length List.filter_sublist (by rw [hall, List.length_range])
  exact (ResolvedRouting.mem_untiedLevels.1 (by rw [hfilter]; exact List.mem_range.2 hlevel)).2

theorem length_writeColumns : (writeColumns routing).length = routing.packedLogitWidth := by
  rw [writeColumns, List.length_flatMap, ResolvedRouting.packedLogitWidth_eq]
  refine congrArg List.sum (List.ext_getElem ?_ fun i hi _ => ?_)
  · rw [List.length_map, List.length_range, ResolvedRouting.length_branches]
  · rw [List.length_map, List.length_range] at hi
    rw [List.getElem_map, List.getElem_range, ResolvedRouting.length_slotColumns, (ResolvedRouting.writeSlot_width hi).1,
      List.getD_eq_getElem]

/-- The read row when every level reads one stream. -/
theorem readRow_uniform {h hidden : Hidden K} {hW : Option (Hidden K)}
    (hstream : ∀ level < routing.D, (if routing.isTied level then hW.getD h else h) = hidden) :
    readRow routing router h hW b t head =
      (routing.packedReadSlotLookup.flatMap routing.slotColumns).map (logit router hidden b t head) := by
  rw [packedReadSlotLookup_eq, List.flatMap_map, List.map_flatMap, readRow]
  refine List.flatMap_congr fun level hlevel => ?_
  rw [hstream level (List.mem_range.1 hlevel)]

/-- Whether the gain's columns ride a routing projection. -/
def fuses (routing : ResolvedRouting) (gainColumns : ℕ) (hW : Option (Hidden K)) : Bool :=
  decide (0 < gainColumns) && (hW.isNone || !decide (routing.packedReadSlotLookup = List.range routing.D))

omit [Semiring K] in
theorem gainColumns_ne_zero {hW : Option (Hidden K)} (hfuse : fuses routing gainColumns hW = true) : gainColumns ≠ 0 := by
  rw [fuses, Bool.and_eq_true, decide_eq_true_iff] at hfuse
  omega

/-- The gain logits at a batch, token and head. -/
def GainExact (routing : ResolvedRouting) (router : Router K) (gainColumns : ℕ) (h : Hidden K) (b t head : ℕ)
    (gain : Option (Logits K)) : Prop :=
  (gainColumns = 0 → gain = none) ∧ (gainColumns ≠ 0 → ∃ logits, gain = some logits ∧
    logits [b, t, head] = (List.range' routing.packedRouterWidth gainColumns).map (logit router h b t head))

/-- One solve for both duties; over split streams the gain is projected on its own. -/
theorem projectSides_tied (hfits : router.Fits routing gainColumns) (h : Hidden K) (hW : Option (Hidden K))
    (hall : routing.packedReadSlotLookup = List.range routing.D) (hhead : head < router.heads) :
    (projectSides routing router gainColumns tokenMajor h hW).1 (site router tokenMajor b t head) =
        readRow routing router h hW b t head ∧
      (projectSides routing router gainColumns tokenMajor h hW).2.1 (site router tokenMajor b t head) =
        (writeColumns routing).map (logit router (hW.getD h) b t head) ∧
      GainExact routing router gainColumns h b t head (projectSides routing router gainColumns tokenMajor h hW).2.2 := by
  have heq : projectSides routing router gainColumns tokenMajor h hW =
      ((project router tokenMajor (hW.getD h) (packWeight routing router gainColumns (List.range routing.D) (fuses routing gainColumns hW))
          (if fuses routing gainColumns hW then gainColumns else 0)).1,
        (project router tokenMajor (hW.getD h) (packWeight routing router gainColumns (List.range routing.D) (fuses routing gainColumns hW))
          (if fuses routing gainColumns hW then gainColumns else 0)).1,
        if fuses routing gainColumns hW then
          (project router tokenMajor (hW.getD h) (packWeight routing router gainColumns (List.range routing.D) (fuses routing gainColumns hW))
            (if fuses routing gainColumns hW then gainColumns else 0)).2
        else if fuses routing gainColumns hW ∨ gainColumns = 0 then none
        else (project router tokenMajor h (packWeight routing router gainColumns [] true) gainColumns).2) := by
    unfold projectSides
    exact if_pos (decide_eq_true hall)
  obtain ⟨hrow, htail, -⟩ := @project_side _ _ _ _ _ tokenMajor b t head hfits (hW.getD h) _ writeSlots_lt
    (fuses routing gainColumns hW) gainColumns_ne_zero hhead
  have hread : readRow routing router h hW b t head = (writeColumns routing).map (logit router (hW.getD h) b t head) := by
    rw [readRow_uniform fun level hlevel => if_pos (isTied_of_fullyTied hall hlevel), hall]
    rfl
  rw [heq]
  refine ⟨hrow.trans hread.symm, hrow, ?_⟩
  rcases Bool.eq_false_or_eq_true (fuses routing gainColumns hW) with hfuse | hfuse
  · refine ⟨fun hzero => absurd hzero (gainColumns_ne_zero hfuse), fun _ => ?_⟩
    obtain ⟨tail, hsome, hgain⟩ := htail hfuse
    refine ⟨tail, (if_pos hfuse).trans hsome, hgain.trans ?_⟩
    rw [fuses, Bool.and_eq_true, hall, decide_eq_true rfl, Bool.not_true, Bool.or_false] at hfuse
    rw [Option.isNone_iff_eq_none.1 hfuse.2]
    rfl
  · have hride : ¬fuses routing gainColumns hW = true := by rw [hfuse]; exact Bool.false_ne_true
    refine ⟨fun hzero => (if_neg hride).trans (if_pos (Or.inr hzero)), fun hne => ?_⟩
    obtain ⟨-, htail, -⟩ := @project_side _ _ _ _ _ tokenMajor b t head hfits h [] (fun _ hslot => absurd hslot List.not_mem_nil) true
      (fun _ => hne) hhead
    obtain ⟨tail, hsome, hgain⟩ := htail rfl
    refine ⟨tail, ?_, hgain⟩
    exact (if_neg hride).trans ((if_neg (not_or.2 ⟨hride, hne⟩)).trans hsome)

omit [Semiring K] in
theorem fuses_untied {hW : Option (Hidden K)} (hall : routing.packedReadSlotLookup ≠ List.range routing.D) :
    fuses routing gainColumns hW = decide (0 < gainColumns) := by
  rw [fuses, decide_eq_false hall, Bool.not_false, Bool.or_true, Bool.and_true]

/-- A gain that rides the read stream's projection. -/
theorem gain_rides {hidden : Hidden K} {tail : Option (Logits K)} (hall : routing.packedReadSlotLookup ≠ List.range routing.D)
    {hW : Option (Hidden K)} (htail : fuses routing gainColumns hW = true → ∃ logits, tail = some logits ∧
      logits [b, t, head] = (List.range' routing.packedRouterWidth gainColumns).map (logit router hidden b t head))
    (hnone : fuses routing gainColumns hW = false → tail = none) : GainExact routing router gainColumns hidden b t head tail := by
  rw [fuses_untied hall] at htail hnone
  exact ⟨fun hzero => hnone (decide_eq_false (by omega)), fun hne => htail (decide_eq_true (by omega))⟩

/-- One stream: both sides are columns of one product. -/
theorem projectSides_fused (hfits : router.Fits routing gainColumns) (h : Hidden K)
    (hall : routing.packedReadSlotLookup ≠ List.range routing.D) (hhead : head < router.heads) :
    (projectSides routing router gainColumns tokenMajor h none).1 (site router tokenMajor b t head) =
        readRow routing router h none b t head ∧
      (projectSides routing router gainColumns tokenMajor h none).2.1 (site router tokenMajor b t head) =
        (writeColumns routing).map (logit router h b t head) ∧
      GainExact routing router gainColumns h b t head (projectSides routing router gainColumns tokenMajor h none).2.2 := by
  have heq : projectSides routing router gainColumns tokenMajor h none =
      (fun index => ((project router tokenMajor h (packWeight routing router gainColumns
            (List.range routing.D ++ routing.packedReadSlotLookup) (fuses routing gainColumns (@none (Hidden K))))
          (if fuses routing gainColumns (@none (Hidden K)) then gainColumns else 0)).1 index).drop routing.packedLogitWidth,
        fun index => ((project router tokenMajor h (packWeight routing router gainColumns
            (List.range routing.D ++ routing.packedReadSlotLookup) (fuses routing gainColumns (@none (Hidden K))))
          (if fuses routing gainColumns (@none (Hidden K)) then gainColumns else 0)).1 index).take routing.packedLogitWidth,
        (project router tokenMajor h (packWeight routing router gainColumns
            (List.range routing.D ++ routing.packedReadSlotLookup) (fuses routing gainColumns (@none (Hidden K))))
          (if fuses routing gainColumns (@none (Hidden K)) then gainColumns else 0)).2) := by
    unfold projectSides
    exact if_neg (by rw [decide_eq_false hall]; exact Bool.false_ne_true)
  have hslots : ∀ slot ∈ List.range routing.D ++ routing.packedReadSlotLookup, slot < routing.packedSlotWidths.length := by
    intro slot hslot
    exact (List.mem_append.1 hslot).elim (writeSlots_lt slot) (readSlots_lt slot)
  obtain ⟨hrow, htail, hnone⟩ := @project_side _ _ _ _ _ tokenMajor b t head hfits h _ hslots
    (fuses routing gainColumns (@none (Hidden K))) gainColumns_ne_zero hhead
  have hwidth : ((writeColumns routing).map (logit router h b t head)).length = routing.packedLogitWidth := by
    rw [List.length_map, length_writeColumns]
  rw [List.flatMap_append, List.map_append] at hrow
  rw [heq]
  dsimp only
  rw [hrow, ← hwidth]
  refine ⟨?_, List.take_left, gain_rides hall htail hnone⟩
  rw [@readRow_uniform _ _ _ _ _ _ _ h h none fun level _ => by simp]
  exact List.drop_left

/-- A level's logits among levels laid out by their own widths. -/
theorem slice_levels (hidden : Hidden K) {levels : List ℕ} {slot : ℕ → ℕ}
    (hwidth : ∀ level ∈ levels, routing.packedSlotWidths.getD (slot level) 0 = routing.branches.getD level 0)
    {i : ℕ} (hi : i < levels.length) :
    Spans.slice (((levels.map slot).flatMap routing.slotColumns).map (logit router hidden b t head))
        (Spans.offset (levels.map fun level => routing.branches.getD level 0) i)
        (Spans.offset (levels.map fun level => routing.branches.getD level 0) i + routing.branches.getD (levels.getD i 0) 0) =
      (routing.slotColumns (slot (levels.getD i 0))).map (logit router hidden b t head) := by
  have hlengths : (levels.map fun level => (routing.slotColumns (slot level)).map (logit router hidden b t head)).map List.length =
      levels.map fun level => routing.branches.getD level 0 := by
    rw [List.map_map]
    refine List.map_congr_left fun level hlevel => ?_
    rw [Function.comp_apply, List.length_map, ResolvedRouting.length_slotColumns, hwidth level hlevel]
  have hpiece : (levels.map fun level => (routing.slotColumns (slot level)).map (logit router hidden b t head)).getD i [] =
      (routing.slotColumns (slot (levels.getD i 0))).map (logit router hidden b t head) := by
    rw [List.getD_eq_getElem _ _ (by rwa [List.length_map]), List.getElem_map, List.getD_eq_getElem _ _ hi]
  have hmem : levels.getD i 0 ∈ levels := by
    rw [List.getD_eq_getElem _ _ hi]
    exact List.getElem_mem hi
  have hslice := Spans.slice_flatten (levels.map fun level => (routing.slotColumns (slot level)).map (logit router hidden b t head))
    (by rwa [List.length_map] : i < _)
  rw [hlengths, hpiece, List.length_map, ResolvedRouting.length_slotColumns, hwidth _ hmem] at hslice
  rw [← hslice, List.flatMap_map, List.map_flatMap, List.flatMap_def]

/-- The read row of split streams, cut from the untied levels' projection and from the write side's. -/
def mixedRead (routing : ResolvedRouting) (untiedLogits write : Logits K) : Logits K := fun index =>
  (List.range routing.D).flatMap fun level => match routing.untiedLevels.idxOf? level with
    | some i => Spans.slice (untiedLogits index)
        ((Spans.offsets (routing.untiedLevels.map fun level => routing.branches.getD level 0)).getD i 0)
        ((Spans.offsets (routing.untiedLevels.map fun level => routing.branches.getD level 0)).getD i 0 +
          routing.branches.getD level 0)
    | none => Spans.slice (write index) (levelLogitSlice routing.branches level).1 (levelLogitSlice routing.branches level).2

theorem mixedRead_exact {h hW : Hidden K} {untiedLogits write : Logits K}
    (huntied : untiedLogits (site router tokenMajor b t head) =
      ((routing.untiedLevels.map routing.readSlot).flatMap routing.slotColumns).map (logit router h b t head))
    (hwrite : write (site router tokenMajor b t head) =
      ((List.range routing.D).flatMap routing.slotColumns).map (logit router hW b t head)) :
    mixedRead routing untiedLogits write (site router tokenMajor b t head) = readRow routing router h (some hW) b t head := by
  rw [mixedRead, readRow]
  refine List.flatMap_congr fun level hlevel => ?_
  have hlt := List.mem_range.1 hlevel
  rw [huntied, hwrite]
  cases ht : routing.isTied level with
  | true =>
    have hnone : routing.untiedLevels.idxOf? level = none := by
      rw [List.idxOf?_eq_none_iff]
      intro hmem
      rw [(ResolvedRouting.mem_untiedLevels.1 hmem).2] at ht
      cases ht
    have hself : (List.range routing.D).getD level 0 = level := by
      rw [List.getD_eq_getElem _ _ (by rwa [List.length_range]), List.getElem_range]
    have hbranches : (List.range routing.D).map (fun level => routing.branches.getD level 0) = routing.branches := by
      refine List.ext_getElem (by rw [List.length_map, List.length_range, ResolvedRouting.length_branches]) fun i _ hi => ?_
      rw [List.getElem_map, List.getElem_range, List.getD_eq_getElem _ _ hi]
    have hslice := @slice_levels _ _ routing router b t head hW (List.range routing.D) id
      (fun level hlevel => (ResolvedRouting.writeSlot_width (List.mem_range.1 hlevel)).1) level (by rwa [List.length_range])
    rw [hself, hbranches, List.map_id] at hslice
    rw [hnone, if_pos rfl, Option.getD_some, ResolvedRouting.readSlot_tied hlt ht]
    exact hslice
  | false =>
    obtain ⟨i, hi, -, hlength, hget⟩ := ResolvedRouting.readSlot_untied hlt ht
    have hslice := @slice_levels _ _ routing router b t head h _ routing.readSlot
      (fun level hlevel => ResolvedRouting.readSlot_width (ResolvedRouting.mem_untiedLevels.1 hlevel).1) _ hlength
    rw [hget] at hslice
    rw [hi, if_neg Bool.false_ne_true]
    dsimp only
    rw [Spans.getD_offsets (by rw [List.length_map]; exact hlength.le)]
    exact hslice

/-- Split streams: a tied level's read logits are the write side's, an untied level's are projected. -/
theorem projectSides_split (hfits : router.Fits routing gainColumns) (h hW : Hidden K)
    (hall : routing.packedReadSlotLookup ≠ List.range routing.D) (hhead : head < router.heads) :
    (projectSides routing router gainColumns tokenMajor h (some hW)).1 (site router tokenMajor b t head) =
        readRow routing router h (some hW) b t head ∧
      (projectSides routing router gainColumns tokenMajor h (some hW)).2.1 (site router tokenMajor b t head) =
        (writeColumns routing).map (logit router hW b t head) ∧
      GainExact routing router gainColumns h b t head (projectSides routing router gainColumns tokenMajor h (some hW)).2.2 := by
  obtain ⟨hwrite, -, -⟩ := @project_side _ _ _ _ _ tokenMajor b t head hfits hW _ writeSlots_lt false
    (fun h => absurd h Bool.false_ne_true) hhead
  rw [if_neg Bool.false_ne_true] at hwrite
  have hnotTied : ¬decide (routing.packedReadSlotLookup = List.range routing.D) = true := by
    rw [decide_eq_false hall]
    exact Bool.false_ne_true
  by_cases huntied : routing.untiedLevels.length = routing.D
  · have heq : projectSides routing router gainColumns tokenMajor h (some hW) =
        ((project router tokenMajor h (packWeight routing router gainColumns routing.packedReadSlotLookup
              (fuses routing gainColumns (some hW))) (if fuses routing gainColumns (some hW) then gainColumns else 0)).1,
          (project router tokenMajor hW (packWeight routing router gainColumns (List.range routing.D) false) 0).1,
          (project router tokenMajor h (packWeight routing router gainColumns routing.packedReadSlotLookup
              (fuses routing gainColumns (some hW))) (if fuses routing gainColumns (some hW) then gainColumns else 0)).2) := by
      unfold projectSides
      exact (if_neg hnotTied).trans (if_pos huntied)
    obtain ⟨hread, htail, hnone⟩ := @project_side _ _ _ _ _ tokenMajor b t head hfits h _ readSlots_lt
      (fuses routing gainColumns (some hW)) gainColumns_ne_zero hhead
    rw [heq]
    refine ⟨hread.trans (readRow_uniform fun level hlevel => ?_).symm, hwrite, gain_rides hall htail hnone⟩
    rw [isTied_of_allUntied huntied hlevel, if_neg Bool.false_ne_true]
  · have hslots : ∀ slot ∈ routing.untiedLevels.map routing.readSlot, slot < routing.packedSlotWidths.length := by
      intro slot hslot
      obtain ⟨level, hlevel, rfl⟩ := List.mem_map.1 hslot
      exact ResolvedRouting.readSlot_lt (ResolvedRouting.mem_untiedLevels.1 hlevel).1
    obtain ⟨huntiedRow, htail, hnone⟩ := @project_side _ _ _ _ _ tokenMajor b t head hfits h _ hslots
      (fuses routing gainColumns (some hW)) gainColumns_ne_zero hhead
    have heq : projectSides routing router gainColumns tokenMajor h (some hW) =
        (mixedRead routing (project router tokenMajor h (packWeight routing router gainColumns
              (routing.untiedLevels.map routing.readSlot) (fuses routing gainColumns (some hW)))
              (if fuses routing gainColumns (some hW) then gainColumns else 0)).1
            (project router tokenMajor hW (packWeight routing router gainColumns (List.range routing.D) false) 0).1,
          (project router tokenMajor hW (packWeight routing router gainColumns (List.range routing.D) false) 0).1,
          (project router tokenMajor h (packWeight routing router gainColumns (routing.untiedLevels.map routing.readSlot)
              (fuses routing gainColumns (some hW))) (if fuses routing gainColumns (some hW) then gainColumns else 0)).2) := by
      unfold projectSides
      exact (if_neg hnotTied).trans (if_neg huntied)
    rw [heq]
    refine ⟨?_, hwrite, gain_rides hall htail hnone⟩
    exact mixedRead_exact huntiedRow hwrite

/-- Every path's sides. -/
theorem projectSides_exact (hfits : router.Fits routing gainColumns) (h : Hidden K) (hW : Option (Hidden K))
    (hhead : head < router.heads) :
    (projectSides routing router gainColumns tokenMajor h hW).1 (site router tokenMajor b t head) =
        readRow routing router h hW b t head ∧
      (projectSides routing router gainColumns tokenMajor h hW).2.1 (site router tokenMajor b t head) =
        (writeColumns routing).map (logit router (hW.getD h) b t head) ∧
      GainExact routing router gainColumns h b t head (projectSides routing router gainColumns tokenMajor h hW).2.2 := by
  by_cases hall : routing.packedReadSlotLookup = List.range routing.D
  · exact projectSides_tied hfits h hW hall hhead
  · cases hW with
    | none => exact projectSides_fused hfits h hall hhead
    | some hW => exact projectSides_split hfits h hW hall hhead

/-- A level's digit in the levels' logits. -/
theorem getElem?_levels {stream : ℕ → Hidden K} {slot : ℕ → ℕ}
    (hwidth : ∀ level < routing.D, routing.packedSlotWidths.getD (slot level) 0 = routing.branches.getD level 0)
    {level d : ℕ} (hlevel : level < routing.D) (hd : d < routing.branches.getD level 0) :
    ((List.range routing.D).flatMap fun level =>
        (routing.slotColumns (slot level)).map (logit router (stream level) b t head))[routing.levelOffsets.getD level 0 + d]? =
      some (logit router (stream level) b t head (Spans.offset routing.packedSlotWidths (slot level) + d)) := by
  have hlengths : ((List.range routing.D).map fun level =>
      (routing.slotColumns (slot level)).map (logit router (stream level) b t head)).map List.length = routing.branches := by
    refine List.ext_getElem (by simp [ResolvedRouting.length_branches]) fun i hi hi' => ?_
    rw [ResolvedRouting.length_branches] at hi'
    rw [List.getElem_map, List.getElem_map, List.getElem_range, List.length_map, ResolvedRouting.length_slotColumns, hwidth i hi',
      List.getD_eq_getElem]
  have hpiece : ((List.range routing.D).map fun level =>
      (routing.slotColumns (slot level)).map (logit router (stream level) b t head)).getD level [] =
      (routing.slotColumns (slot level)).map (logit router (stream level) b t head) := by
    rw [List.getD_eq_getElem _ _ (by simpa using hlevel), List.getElem_map, List.getElem_range]
  have hin : d < ((routing.slotColumns (slot level)).map (logit router (stream level) b t head)).length := by
    rw [List.length_map, ResolvedRouting.length_slotColumns, hwidth level hlevel]
    exact hd
  have hentry := Spans.getElem?_flatten ((List.range routing.D).map fun level =>
    (routing.slotColumns (slot level)).map (logit router (stream level) b t head)) level d (by rw [hpiece]; exact hin)
  rw [hlengths, hpiece] at hentry
  rw [List.flatMap_def, ResolvedRouting.levelOffsets, Spans.getD_offsets (by rw [ResolvedRouting.length_branches]; exact hlevel.le),
    hentry, List.getElem?_map]
  rw [List.length_map, ResolvedRouting.length_slotColumns] at hin
  rw [ResolvedRouting.slotColumns, List.getElem?_range' hin, Nat.one_mul, Option.map_some]

/-! ### The projection -/

/-- What the shape checks ask of a stream. -/
structure Hidden.Fits (hidden : Hidden K) (router : Router K) : Prop where
  width : hidden.width = router.hidden
  heads : ∀ heads, hidden.heads = some heads → heads = router.heads

omit [Semiring K] in
theorem validateHidden_fits {hidden : Hidden K} (hfits : hidden.Fits router) (name : String) :
    validateHidden router hidden name = .ok () := by
  unfold validateHidden
  rw [if_neg (not_not.2 hfits.width)]
  cases hheads : hidden.heads with
  | none => rfl
  | some heads => exact if_neg (not_not.2 (hfits.heads heads hheads))

omit [Semiring K] in
theorem validatePackedRouter_fits (hfits : router.Fits routing gainColumns) :
    validatePackedRouter routing router gainColumns = .ok () := by
  have hwidth : (if gainColumns ≠ 0 then (router.columns.take routing.packedRouterWidth).length else router.columns.length) =
      routing.packedRouterWidth := by
    have hcolumns := hfits.columns
    split
    · rw [List.length_take]
      omega
    · omega
  have hheads := hfits.heads_pos
  unfold validatePackedRouter
  dsimp only
  rw [if_neg (by rw [hwidth]; omega)]
  by_cases hzero : gainColumns = 0
  · rw [if_pos hzero]
  · rw [if_neg hzero]
    cases hbias : router.bias with
    | none => rfl
    | some bias =>
      have hlength := hfits.bias bias hbias
      exact if_neg (by rw [List.length_take]; omega)

theorem packedRouterLogits_fits (hfits : router.Fits routing gainColumns) {h : Hidden K} (hh : h.Fits router) {hW : Option (Hidden K)}
    (hhW : ∀ w, hW = some w → w.Fits router ∧ (w.batch, w.tokens, w.heads, w.width) = (h.batch, h.tokens, h.heads, h.width)) :
    packedRouterLogits routing router gainColumns tokenMajor h hW = .ok (projectSides routing router gainColumns tokenMajor h hW) := by
  unfold packedRouterLogits
  rw [validatePackedRouter_fits hfits, validateHidden_fits hh]
  cases hW with
  | none => simp [bind, Except.bind, hfits.columns, pure, Except.pure]
  | some w =>
    obtain ⟨hw, hsame⟩ := hhW w rfl
    simp [bind, Except.bind, hfits.columns, validateHidden_fits hw, hsame, pure, Except.pure]

/-- Every level's logits are its own slots' columns' products with its streams. -/
theorem packed_projection_exact (hfits : router.Fits routing gainColumns) {h : Hidden K} (hh : h.Fits router) {hW : Option (Hidden K)}
    (hhW : ∀ w, hW = some w → w.Fits router ∧ (w.batch, w.tokens, w.heads, w.width) = (h.batch, h.tokens, h.heads, h.width)) :
    ∃ read write gain, packedRouterLogits routing router gainColumns tokenMajor h hW = .ok (read, write, gain) ∧
      ∀ b t head, head < router.heads →
        (∀ level < routing.D, ∀ d < routing.branches.getD level 0,
          (write (site router tokenMajor b t head))[routing.levelOffsets.getD level 0 + d]? =
              some (logit router (hW.getD h) b t head (routing.packedSlotOffsets.getD level 0 + d)) ∧
            (read (site router tokenMajor b t head))[routing.levelOffsets.getD level 0 + d]? =
              if routing.isTied level then (write (site router tokenMajor b t head))[routing.levelOffsets.getD level 0 + d]?
              else some (logit router h b t head (routing.packedSlotOffsets.getD (routing.readSlot level) 0 + d))) ∧
        GainExact routing router gainColumns h b t head gain := by
  refine ⟨(projectSides routing router gainColumns tokenMajor h hW).1, (projectSides routing router gainColumns tokenMajor h hW).2.1,
    (projectSides routing router gainColumns tokenMajor h hW).2.2, packedRouterLogits_fits hfits hh hhW, fun b t head hhead => ?_⟩
  obtain ⟨hread, hwrite, hgain⟩ := @projectSides_exact _ _ _ _ _ tokenMajor b t head hfits h hW hhead
  refine ⟨fun level hlevel d hd => ?_, hgain⟩
  have hslots := writeSlots_lt level (List.mem_range.2 hlevel)
  have hreadSlot := ResolvedRouting.readSlot_lt hlevel
  have hwriteEntry := @getElem?_levels _ _ routing router b t head (fun _ => hW.getD h) id
    (fun level hlevel => (ResolvedRouting.writeSlot_width hlevel).1) level d hlevel hd
  have hreadEntry := @getElem?_levels _ _ routing router b t head (fun level => if routing.isTied level then hW.getD h else h)
    routing.readSlot (fun level hlevel => ResolvedRouting.readSlot_width hlevel) level d hlevel hd
  rw [← List.map_flatMap] at hwriteEntry
  have hwriteOut : ((projectSides routing router gainColumns tokenMajor h hW).2.1 (site router tokenMajor b t head))[
      routing.levelOffsets.getD level 0 + d]? =
      some (logit router (hW.getD h) b t head (routing.packedSlotOffsets.getD level 0 + d)) := by
    rw [hwrite, ResolvedRouting.packedSlotOffsets_getD hslots.le]
    exact hwriteEntry
  refine ⟨hwriteOut, ?_⟩
  rw [hwriteOut, hread, ResolvedRouting.packedSlotOffsets_getD hreadSlot.le]
  refine Eq.trans hreadEntry ?_
  cases ht : routing.isTied level with
  | true => rw [if_pos rfl, if_pos rfl, ResolvedRouting.readSlot_tied hlevel ht, ResolvedRouting.packedSlotOffsets_getD hslots.le]
  | false => rw [if_neg Bool.false_ne_true, if_neg Bool.false_ne_true]

/-- A mixed-tie plan over split streams: an independent level of two branches, a tied one of three. -/
def mixedRouting : ResolvedRouting where
  levels := [⟨.independent, 2⟩, ⟨.tied, 3⟩]
  nonempty := by simp
  widths := by simp

def mixedRouter : Router ℤ where
  heads := 1
  hidden := 1
  columns := (List.range 8).map fun i _ _ => (i : ℤ)
  bias := some ((List.range 8).map fun _ _ => 10)

def unitStream (value : ℤ) : Hidden ℤ := ⟨1, 1, none, 1, fun _ _ _ => value, fun _ _ _ _ => value⟩

theorem packed_projection_mixed : ∃ read write gain,
    packedRouterLogits mixedRouting mixedRouter 1 false (unitStream 2) (some (unitStream 5)) = .ok (read, write, gain) ∧
      (write [0, 0])[3]? = some 25 ∧ (read [0, 0])[3]? = some 25 ∧ (read [0, 0])[1]? = some 22 ∧
      ∃ logits, gain = some logits ∧ logits [0, 0, 0] = [24] := by
  have hfits : mixedRouter.Fits mixedRouting 1 := ⟨by decide, by decide, fun bias hbias => by cases hbias; decide⟩
  have hstream : ∀ value, (unitStream value).Fits mixedRouter := fun value => ⟨rfl, fun heads hheads => by cases hheads⟩
  obtain ⟨read, write, gain, hok, hentry⟩ := @packed_projection_exact _ _ _ _ _ false hfits _ (hstream 2) (some (unitStream 5))
    fun w hw => by cases hw; exact ⟨hstream 5, rfl⟩
  obtain ⟨hlevels, hgain⟩ := hentry 0 0 0 (by decide)
  obtain ⟨hwrite, hread⟩ := hlevels 1 (by decide) 1 (by decide)
  obtain ⟨-, hread'⟩ := hlevels 0 (by decide) 1 (by decide)
  obtain ⟨logits, hsome, hlogits⟩ := hgain.2 (by decide)
  have hout : (write [0, 0])[3]? = some 25 := hwrite.trans (congrArg some (by decide))
  refine ⟨read, write, gain, hok, hout, hread.trans ((if_pos (by decide)).trans hout), ?_, logits, hsome, hlogits.trans (by decide)⟩
  exact hread'.trans ((if_neg (by decide)).trans (congrArg some (by decide)))

end Rola.Projection
