import Rola.PagePlanes
import Mathlib.Tactic.Ring

/-!
# The four accesses name the same bytes

Each kernel's stores write every half of a page its place's value and nothing else, whatever the order of
its threads; each kernel's loads rejoin the words, or keep their high halves alone.
-/

namespace Rola

open ByteMemory

namespace SplitPage

variable {dv row col off : ℕ} {mem : Mem} {x : Image}

/-- The bytes at `off` are a page storing `x`. -/
def PageAt (dv : ℕ) (mem : Mem) (off : ℕ) (x : Image) : Prop := Stores dv (halvesAt mem off) x

/-- Bytes outside the page. -/
def SameOutside (dv off : ℕ) (mem mem' : Mem) : Prop := ∀ b, b < off ∨ off + 64 * (dv + 1) ≤ b → mem' b = mem b

/-! ### Stores -/

theorem extractLsb'_append (h l : BitVec 16) : (h ++ l).extractLsb' 0 16 = l ∧ (h ++ l).extractLsb' 16 16 = h :=
  ⟨BitVec.extractLsb'_append_eq_right, BitVec.extractLsb'_append_eq_left⟩

/-- Stores of some words' places. -/
theorem writes_page {l : List ℕ} {mem' : Mem} (h : Writes off (stored dv x) l mem mem')
    (hl : ∀ j ∈ l, j < 32 * (dv + 1)) : SameOutside dv off mem mem' := by
  intro b hb
  refine h.rest b fun j hj => ?_
  have := hl j hj
  omega

theorem pageAt_of_writes {l : List ℕ} {mem' : Mem} (h : Writes off (stored dv x) l mem mem')
    (hl : ∀ row < 16, ∀ col ≤ dv, ∀ lo, place dv row col lo ∈ l) : PageAt dv mem' off x := by
  intro j hj
  obtain ⟨row, hr, col, hc, lo, rfl⟩ := exists_place hj
  rw [h.halves, writeHalves_apply, if_pos (hl row hr col hc lo)]

theorem massOff : off + row * 2 + 2 * kMassHi dv = off + 2 * place dv row dv false ∧
    off + row * 2 + 2 * kMassLo dv = off + 2 * place dv row dv true := by
  simp [place, hiHalf, loHalf]
  constructor <;> ring

/-- A mass row's two stores. -/
theorem writes_mass (hr : row < 16) (mem : Mem) : Writes off (stored dv x) [place dv row dv false, place dv row dv true] mem
    (store16 (store16 mem (off + row * 2 + 2 * kMassHi dv) ((x row dv >>> 16).setWidth 16))
      (off + row * 2 + 2 * kMassLo dv) ((x row dv &&& 0xFFFF).setWidth 16)) := by
  obtain ⟨hhi, hlo⟩ := @SplitPage.massOff dv row off
  rw [hhi, hlo, shift_setWidth, and_setWidth]
  refine (Writes.store16 ?_).trans (.store16 ?_)
  · exact stored_place x false hr le_rfl
  · exact stored_place x true hr le_rfl

theorem place_succ {lo : Bool} (hc : col + 1 < dv) : place dv row (col + 1) lo = place dv row col lo + 1 := by
  have h : col < dv := by omega
  cases lo <;> simp [place, hiHalf, loHalf, hc, h] <;> omega

theorem place_eq {lo : Bool} (hc : col < dv) : place dv row col lo = (if lo then kLo dv else 0) + (row * dv + col) := by
  cases lo <;> simp [place, hiHalf, loHalf, hc]

theorem pairOff (hc : col < dv) : off + (row * dv + col) * 2 = off + 2 * place dv row col false ∧
    off + (row * dv + col) * 2 + 2 * kLo dv = off + 2 * place dv row col true := by
  rw [place_eq hc, place_eq hc]
  simp
  constructor <;> ring

/-- Two columns' halves of a plane, as one word. -/
theorem writes_pair (hr : row < 16) (hc : col + 1 < dv) (lo : Bool) (mem : Mem) :
    Writes off (stored dv x) [place dv row col lo, place dv row col lo + 1] mem
      (store32 mem (off + 2 * place dv row col lo)
        (bytePerm (x row col) (x row (col + 1)) (if lo then 0x5410 else 0x7632))) := by
  have h0 := stored_place x lo hr (show col ≤ dv by omega)
  have h1 := stored_place x lo hr (show col + 1 ≤ dv by omega)
  rw [place_succ hc] at h1
  cases lo
  · rw [if_neg Bool.false_ne_true, bytePerm_hi]
    exact .store32 (h0.trans (extractLsb'_append _ _).1.symm) (h1.trans (extractLsb'_append _ _).2.symm)
  · rw [if_pos rfl, bytePerm_lo]
    exact .store32 (h0.trans (extractLsb'_append _ _).1.symm) (h1.trans (extractLsb'_append _ _).2.symm)

/-- The places the mass rows write. -/
def massPlaces (dv : ℕ) (r : ℕ) : List ℕ := [place dv r dv false, place dv r dv true]

theorem writes_masses {masses : List ℕ} (hm : masses.Perm (List.range 16)) (mem : Mem) :
    Writes off (stored dv x) (masses.flatMap (massPlaces dv)) mem
      (masses.foldl (fun mem r =>
        store16 (store16 mem (off + r * 2 + 2 * kMassHi dv) ((x r dv >>> 16).setWidth 16))
          (off + r * 2 + 2 * kMassLo dv) ((x r dv &&& 0xFFFF).setWidth 16)) mem) :=
  .foldl (fun r hr mem => writes_mass (by simpa using hm.mem_iff.1 hr) mem) mem

theorem mem_masses {masses : List ℕ} (hm : masses.Perm (List.range 16)) (hr : row < 16) (lo : Bool) :
    place dv row dv lo ∈ masses.flatMap (massPlaces dv) := by
  refine List.mem_flatMap.2 ⟨row, hm.mem_iff.2 (List.mem_range.2 hr), ?_⟩
  cases lo <;> simp [massPlaces]

theorem masses_lt {masses : List ℕ} (hm : masses.Perm (List.range 16)) :
    ∀ j ∈ masses.flatMap (massPlaces dv), j < 32 * (dv + 1) := by
  intro j hj
  obtain ⟨r, hr, hj⟩ := List.mem_flatMap.1 hj
  have hr16 : r < 16 := by simpa using hm.mem_iff.1 hr
  simp only [massPlaces, List.mem_cons, List.not_mem_nil, or_false] at hj
  rcases hj with rfl | rfl <;> exact place_lt hr16 le_rfl

/-! ### Pairs -/

theorem pairAt_spec (heven : dv % 2 = 0) {p : ℕ} (hp : p < 16 * dv / 2) :
    (pairAt dv p).1 < 16 ∧ (pairAt dv p).2 + 1 < dv := by
  have hpos : 0 < dv / 2 := by omega
  have hmod := Nat.mod_lt p hpos
  unfold pairAt
  exact ⟨(Nat.div_lt_iff_lt_mul hpos).2 (by omega), by omega⟩

theorem exists_pair (heven : dv % 2 = 0) (hr : row < 16) (hc : col < dv) :
    ∃ p < 16 * dv / 2, (pairAt dv p).1 = row ∧ (pairAt dv p).2 = col - col % 2 := by
  have hpos : 0 < dv / 2 := by omega
  have hcol : col / 2 < dv / 2 := by omega
  have hflat : row * (dv / 2) + col / 2 < 16 * (dv / 2) := flat_lt hr hcol
  refine ⟨row * (dv / 2) + col / 2, by omega, ?_, ?_⟩
  · unfold pairAt
    rw [Nat.mul_comm, Nat.mul_add_div hpos, Nat.div_eq_of_lt hcol, Nat.add_zero]
  · unfold pairAt
    rw [Nat.mul_comm row, Nat.mul_add_mod, Nat.mod_eq_of_lt hcol]
    omega

def pairPlaces (dv p : ℕ) : List ℕ :=
  let (row, col) := pairAt dv p
  [place dv row col false, place dv row col false + 1, place dv row col true, place dv row col true + 1]

theorem blocksStore_page (heven : dv % 2 = 0) {pairs masses : List ℕ} (hp : pairs.Perm (List.range (16 * dv / 2)))
    (hm : masses.Perm (List.range 16)) (x : Image) (mem : Mem) :
    PageAt dv (blocksStore dv x off pairs masses mem) off x ∧
      SameOutside dv off mem (blocksStore dv x off pairs masses mem) := by
  have hlt : ∀ p ∈ pairs, p < 16 * dv / 2 := fun p hmem => by simpa using hp.mem_iff.1 hmem
  have hpairs : Writes off (stored dv x) (pairs.flatMap (pairPlaces dv)) mem (pairs.foldl (fun mem p =>
      let (row, col) := pairAt dv p
      let o := off + (row * dv + col) * 2
      let v0 := x row col
      let v1 := x row (col + 1)
      store32 (store32 mem o (bytePerm v0 v1 0x7632)) (o + 2 * kLo dv) (bytePerm v0 v1 0x5410)) mem) := by
    refine .foldl (fun p hmem mem => ?_) mem
    obtain ⟨hr, hc⟩ := pairAt_spec heven (hlt p hmem)
    obtain ⟨hhi, hlo⟩ := @SplitPage.pairOff _ (pairAt dv p).1 _ off (show (pairAt dv p).2 < dv by omega)
    dsimp only
    rw [hlo, hhi]
    exact (writes_pair hr hc false mem).trans (writes_pair hr hc true _)
  have hall := hpairs.trans (writes_masses hm _)
  refine ⟨pageAt_of_writes hall fun row hr col hc lo => ?_, writes_page hall fun j hj => ?_⟩
  · rcases lt_or_eq_of_le hc with hlt | rfl
    · obtain ⟨p, hplt, hrow, hcol⟩ := exists_pair heven hr hlt
      refine List.mem_append_left _ (List.mem_flatMap.2 ⟨p, hp.mem_iff.2 (List.mem_range.2 hplt), ?_⟩)
      simp only [pairPlaces, hrow, hcol]
      rcases Nat.mod_two_eq_zero_or_one col with h0 | h1
      · rw [h0, Nat.sub_zero]
        cases lo <;> simp
      · have hsucc := @SplitPage.place_succ _ row _ lo (show col - 1 + 1 < dv by omega)
        rw [show col - 1 + 1 = col by omega] at hsucc
        rw [h1, hsucc]
        cases lo <;> simp
    · exact List.mem_append_right _ (mem_masses hm hr lo)
  · rcases List.mem_append.1 hj with hj | hj
    · obtain ⟨p, hmem, hj⟩ := List.mem_flatMap.1 hj
      obtain ⟨hr, hc⟩ := pairAt_spec heven (hlt p hmem)
      have hplace : ∀ lo, place dv (pairAt dv p).1 (pairAt dv p).2 lo < 32 * (dv + 1) ∧
          place dv (pairAt dv p).1 (pairAt dv p).2 lo + 1 < 32 * (dv + 1) := fun lo =>
        ⟨place_lt hr (by omega), @SplitPage.place_succ _ _ _ lo hc ▸ place_lt hr (by omega)⟩
      simp only [pairPlaces, List.mem_cons, List.not_mem_nil, or_false] at hj
      rcases hj with rfl | rfl | rfl | rfl
      · exact (hplace false).1
      · exact (hplace false).2
      · exact (hplace true).1
      · exact (hplace true).2
    · exact masses_lt hm j hj

/-! ### Chunks -/

/-- The carry's items of a page: plane, row and chunk. -/
def chunkItems (dv : ℕ) : List (ℕ × ℕ × ℕ) :=
  (List.range 2).flatMap fun plane => (List.range 16).flatMap fun row =>
    (List.range (dv / 8)).map fun chunk => (plane, row, chunk)

theorem mem_chunkItems {i : ℕ × ℕ × ℕ} : i ∈ chunkItems dv ↔ i.1 < 2 ∧ i.2.1 < 16 ∧ i.2.2 < dv / 8 := by
  obtain ⟨plane, row, chunk⟩ := i
  simp [chunkItems]

def isLo (plane : ℕ) : Bool := plane ≠ 0

/-- Word `q` of a chunk is two columns' halves. -/
theorem chunkOff_eq {plane chunk q : ℕ} (hc : chunk < dv / 8) (hq : q < 4) :
    off + chunkOff dv plane row chunk + 4 * q = off + 2 * place dv row (8 * chunk + 2 * q) (isLo plane) := by
  rw [place_eq (by omega)]
  unfold chunkOff isLo
  rcases eq_or_ne plane 0 with rfl | hne
  · simp
    ring
  · simp [hne]
    ring

def wordPlaces (dv : ℕ) (i : ℕ × ℕ × ℕ) (q : ℕ) : List ℕ :=
  [place dv i.2.1 (8 * i.2.2 + 2 * q) (isLo i.1), place dv i.2.1 (8 * i.2.2 + 2 * q) (isLo i.1) + 1]

theorem carryStore_page {items : List (ℕ × ℕ × ℕ)} {masses : List ℕ} (h8 : dv % 8 = 0)
    (hi : items.Perm (chunkItems dv)) (hm : masses.Perm (List.range 16)) (x : Image) (mem : Mem) :
    PageAt dv (carryStore dv x off items masses mem) off x ∧
      SameOutside dv off mem (carryStore dv x off items masses mem) := by
  have hitem : ∀ i ∈ items, i.1 < 2 ∧ i.2.1 < 16 ∧ i.2.2 < dv / 8 := fun i hmem => mem_chunkItems.1 (hi.mem_iff.1 hmem)
  have hitems : Writes off (stored dv x) (items.flatMap fun i => (List.range 4).flatMap (wordPlaces dv i)) mem
      (items.foldl (fun mem (i : ℕ × ℕ × ℕ) => (List.range 4).foldl (fun mem q =>
        store32 mem (off + chunkOff dv i.1 i.2.1 i.2.2 + 4 * q) (stageWord x i.1 i.2.1 i.2.2 q)) mem) mem) := by
    refine .foldl (fun i hmem mem => .foldl (fun q hq mem => ?_) mem) mem
    obtain ⟨hplane, hr, hc⟩ := hitem i hmem
    have hq4 : q < 4 := List.mem_range.1 hq
    have hword : stageWord x i.1 i.2.1 i.2.2 q = bytePerm (x i.2.1 (8 * i.2.2 + 2 * q))
        (x i.2.1 (8 * i.2.2 + 2 * q + 1)) (if isLo i.1 then 0x5410 else 0x7632) := by
      unfold stageWord isLo
      rcases eq_or_ne i.1 0 with h0 | hne
      · simp [h0]
      · simp [hne]
    rw [chunkOff_eq hc hq4, hword]
    exact writes_pair hr (by omega) _ mem
  have hall := hitems.trans (writes_masses hm _)
  refine ⟨pageAt_of_writes hall fun row hr col hc lo => ?_, writes_page hall fun j hj => ?_⟩
  · rcases lt_or_eq_of_le hc with hlt | rfl
    · have hplane : isLo (if lo then 1 else 0) = lo := by cases lo <;> rfl
      refine List.mem_append_left _ (List.mem_flatMap.2 ⟨(if lo then 1 else 0, row, col / 8), hi.mem_iff.2 ?_,
        List.mem_flatMap.2 ⟨col % 8 / 2, List.mem_range.2 (by omega), ?_⟩⟩)
      · refine mem_chunkItems.2 ⟨?_, hr, ?_⟩
        · dsimp only
          split <;> omega
        · dsimp only
          omega
      · simp only [wordPlaces, hplane]
        rcases Nat.mod_two_eq_zero_or_one col with h0 | h1
        · rw [show 8 * (col / 8) + 2 * (col % 8 / 2) = col by omega]
          simp
        · have hsucc := @SplitPage.place_succ _ row _ lo (show col - 1 + 1 < dv by omega)
          rw [show col - 1 + 1 = col by omega] at hsucc
          rw [show 8 * (col / 8) + 2 * (col % 8 / 2) = col - 1 by omega, hsucc]
          simp
    · exact List.mem_append_right _ (mem_masses hm hr lo)
  · rcases List.mem_append.1 hj with hj | hj
    · obtain ⟨i, hmem, hj⟩ := List.mem_flatMap.1 hj
      obtain ⟨q, hq, hj⟩ := List.mem_flatMap.1 hj
      obtain ⟨hplane, hr, hc⟩ := hitem i hmem
      rw [List.mem_range] at hq
      simp only [wordPlaces, List.mem_cons, List.not_mem_nil, or_false] at hj
      rcases hj with rfl | rfl
      · exact place_lt hr (by omega)
      · rw [← place_succ (by omega)]
        exact place_lt hr (by omega)
    · exact masses_lt hm j hj

/-! ### Halfwords -/

/-- The lanes' columns of a row. -/
def laneColumns (dv : ℕ) : List (ℕ × ℕ) :=
  (List.range 32).flatMap fun lane => (List.range (dv / 32)).map fun q => (lane, q)

theorem mem_laneColumns {i : ℕ × ℕ} : i ∈ laneColumns dv ↔ i.1 < 32 ∧ i.2 < dv / 32 := by
  obtain ⟨lane, q⟩ := i
  simp [laneColumns]

theorem decodeOff (hc : col < dv) : off + row * dv * 2 + 2 * col = off + 2 * place dv row col false ∧
    off + 2 * kLo dv + row * dv * 2 + 2 * col = off + 2 * place dv row col true := by
  rw [place_eq hc, place_eq hc]
  simp
  constructor <;> ring

theorem decodeMassOff : off + 2 * kMassHi dv + row * 2 = off + 2 * place dv row dv false ∧
    off + 2 * kMassLo dv + row * 2 = off + 2 * place dv row dv true := by
  simp [place, hiHalf, loHalf]
  constructor <;> ring

def rowPlaces (dv row col : ℕ) : List ℕ := [place dv row col false, place dv row col true]

/-- A word's two halves stored. -/
theorem writes_word (hr : row < 16) (hc : col ≤ dv) (mem : Mem) : Writes off (stored dv x) (rowPlaces dv row col) mem
    (store16 (store16 mem (off + 2 * place dv row col false) ((x row col >>> 16).setWidth 16))
      (off + 2 * place dv row col true) ((x row col &&& 0xFFFF).setWidth 16)) := by
  rw [shift_setWidth, and_setWidth]
  exact (Writes.store16 (stored_place x false hr hc)).trans (.store16 (stored_place x true hr hc))

theorem decodeStore_page {words : ℕ → BitVec 32} {places : List (ℕ × ℕ)} (h32 : dv % 32 = 0) (hr : row < 16)
    (hp : places.Perm (laneColumns dv)) (hpage : PageAt dv mem off x) :
    PageAt dv (decodeStore dv words off row places mem) off (Function.update x row words) ∧
      SameOutside dv off mem (decodeStore dv words off row places mem) := by
  have hplace : ∀ i ∈ places, i.1 < 32 ∧ i.2 < dv / 32 := fun i hmem => mem_laneColumns.1 (hp.mem_iff.1 hmem)
  have hwords : Function.update x row words row = words := Function.update_self ..
  have hlanes : Writes off (stored dv (Function.update x row words))
      (places.flatMap fun i => rowPlaces dv row (i.1 + 32 * i.2)) mem (places.foldl (fun mem (i : ℕ × ℕ) =>
        let w := words (i.1 + 32 * i.2)
        store16 (store16 mem (off + row * dv * 2 + 2 * (i.1 + 32 * i.2)) ((w >>> 16).setWidth 16))
          (off + 2 * kLo dv + row * dv * 2 + 2 * (i.1 + 32 * i.2)) ((w &&& 0xFFFF).setWidth 16)) mem) := by
    refine .foldl (fun i hmem mem => ?_) mem
    obtain ⟨hlane, hq⟩ := hplace i hmem
    obtain ⟨hhi, hlo⟩ := @SplitPage.decodeOff _ row _ off (show i.1 + 32 * i.2 < dv by omega)
    have hword := @SplitPage.writes_word _ _ _ off (Function.update x row words) hr (show i.1 + 32 * i.2 ≤ dv by omega) mem
    rw [hwords] at hword
    dsimp only
    rw [hhi, hlo]
    exact hword
  have hmass : ∀ mem, Writes off (stored dv (Function.update x row words)) (rowPlaces dv row dv) mem
      (store16 (store16 mem (off + 2 * kMassHi dv + row * 2) ((words dv >>> 16).setWidth 16))
        (off + 2 * kMassLo dv + row * 2) ((words dv &&& 0xFFFF).setWidth 16)) := by
    intro mem
    have hword := @writes_word dv row dv off (Function.update x row words) hr le_rfl mem
    rw [hwords] at hword
    rw [decodeMassOff.1, decodeMassOff.2]
    exact hword
  have hall := hlanes.trans (hmass _)
  have hmem : ∀ row' < 16, ∀ col ≤ dv, ∀ lo, place dv row' col lo ∈
      places.flatMap (fun i => rowPlaces dv row (i.1 + 32 * i.2)) ++ rowPlaces dv row dv ↔ row' = row := by
    intro row' hr' col hc lo
    constructor
    · intro hin
      rcases List.mem_append.1 hin with hin | hin
      · obtain ⟨i, hmem, hin⟩ := List.mem_flatMap.1 hin
        obtain ⟨hlane, hq⟩ := hplace i hmem
        simp only [rowPlaces, List.mem_cons, List.not_mem_nil, or_false] at hin
        rcases hin with heq | heq <;> exact (place_inj hr' hc hr (by omega) heq).1
      · simp only [rowPlaces, List.mem_cons, List.not_mem_nil, or_false] at hin
        rcases hin with heq | heq <;> exact (place_inj hr' hc hr le_rfl heq).1
    · rintro rfl
      have hcell : ∀ c, place dv row' c lo ∈ rowPlaces dv row' c := fun c => by cases lo <;> simp [rowPlaces]
      rcases lt_or_eq_of_le hc with hlt | rfl
      · refine List.mem_append_left _ (List.mem_flatMap.2 ⟨(col % 32, col / 32), hp.mem_iff.2 ?_, ?_⟩)
        · exact mem_laneColumns.2 ⟨Nat.mod_lt _ (by decide), by dsimp only; omega⟩
        · dsimp only
          rw [Nat.mod_add_div]
          exact hcell col
      · exact List.mem_append_right _ (hcell col)
  refine ⟨fun j hj => ?_, writes_page hall fun j hj => ?_⟩
  · obtain ⟨row', hr', col, hc, lo, rfl⟩ := exists_place hj
    rw [decodeStore, hall.halves, writeHalves_apply]
    simp only [hmem row' hr' col hc lo]
    rcases eq_or_ne row' row with rfl | hne
    · rw [if_pos rfl]
    · rw [if_neg hne, stored_place _ _ hr' hc, Function.update_of_ne hne]
      exact hpage.place lo hr' hc
  · rcases List.mem_append.1 hj with hj | hj
    · obtain ⟨i, hmem, hj⟩ := List.mem_flatMap.1 hj
      obtain ⟨hlane, hq⟩ := hplace i hmem
      simp only [rowPlaces, List.mem_cons, List.not_mem_nil, or_false] at hj
      rcases hj with rfl | rfl <;> exact place_lt hr (by omega)
    · simp only [rowPlaces, List.mem_cons, List.not_mem_nil, or_false] at hj
      rcases hj with rfl | rfl <;> exact place_lt hr le_rfl

/-! ### Loads -/

/-- What a load keeps of a word: all of it, or its high half. -/
def kept (withLo : Bool) (w : BitVec 32) : BitVec 32 := if withLo then w else w &&& 0xFFFF0000

theorem append_shift (h l : BitVec 16) : (h ++ l) <<< 16 = l ++ 0#16 := by
  refine BitVec.eq_of_getLsbD_eq fun i hi => ?_
  rw [BitVec.getLsbD_shiftLeft, BitVec.getLsbD_append, BitVec.getLsbD_append]
  rcases lt_or_ge i 16 with h16 | h16
  · simp [h16]
  · simp [Nat.not_lt.2 h16, hi, show i - 16 < 16 by omega]

/-- A loop of writes of cells, each its own value. -/
theorem foldl_cells {α : Type*} {step : Image → α → Image} {f : Image} {cells : α → List (ℕ × ℕ)} {items : List α}
    (h : ∀ a ∈ items, ∀ so r c, step so a r c = if (r, c) ∈ cells a then f r c else so r c) (so : Image) (r c : ℕ) :
    items.foldl step so r c = if (r, c) ∈ items.flatMap cells then f r c else so r c := by
  induction items generalizing so with
  | nil => simp
  | cons a items ih =>
    rw [List.foldl_cons, ih (fun b hb => h b (List.mem_cons_of_mem _ hb)), h a List.mem_cons_self, List.flatMap_cons]
    by_cases htail : (r, c) ∈ items.flatMap cells
    · simp [htail]
    · simp [htail]

section Loads

variable (hpage : PageAt dv mem off x) (hr : row < 16)
include hpage hr

theorem load16_place (hc : col ≤ dv) (lo : Bool) :
    load16 mem (off + 2 * place dv row col lo) = halfOf (x row col) lo := hpage.place lo hr hc

theorem load32_place (hc : col + 1 < dv) (lo : Bool) :
    load32 mem (off + 2 * place dv row col lo) = halfOf (x row (col + 1)) lo ++ halfOf (x row col) lo := by
  have h1 := load16_place hpage hr (show col + 1 ≤ dv by omega) lo
  rw [place_succ hc] at h1
  rw [load32_eq, halvesAt, halvesAt, h1, load16_place hpage hr (by omega)]

/-- The two halves or-ed into a word. -/
theorem join_halves (hc : col ≤ dv) (withLo : Bool) :
    (if withLo then ((load16 mem (off + 2 * place dv row col false)).setWidth 32 <<< 16) |||
        (load16 mem (off + 2 * place dv row col true)).setWidth 32
      else (load16 mem (off + 2 * place dv row col false)).setWidth 32 <<< 16) = kept withLo (x row col) := by
  rw [load16_place hpage hr hc, load16_place hpage hr hc]
  cases withLo
  · exact hi_only _
  · simp only [if_true, kept, setWidth_shift_or]
    exact append_halves _

/-- Two words rejoined from their planes' pairs. -/
theorem join_pair (hc : col + 1 < dv) (h l : BitVec 32) (withLo : Bool)
    (hh : h = load32 mem (off + 2 * place dv row col false))
    (hl : l = if withLo then load32 mem (off + 2 * place dv row col true) else 0) :
    bytePerm l h 0x5410 = kept withLo (x row col) ∧ bytePerm l h 0x7632 = kept withLo (x row (col + 1)) := by
  rw [bytePerm_lo, bytePerm_hi, hh, hl, load32_place hpage hr hc]
  cases withLo
  · have hzero : ∀ s, (0 : BitVec 32).extractLsb' s 16 = 0#16 := fun s => by simp
    rw [(extractLsb'_append _ _).1, (extractLsb'_append _ _).2, if_neg Bool.false_ne_true, hzero, hzero]
    exact ⟨hi_append_zero _, hi_append_zero _⟩
  · rw [if_pos rfl, load32_place hpage hr hc, (extractLsb'_append _ _).1, (extractLsb'_append _ _).2,
      (extractLsb'_append _ _).1, (extractLsb'_append _ _).2]
    exact ⟨append_halves _, append_halves _⟩

/-- The same, by a shift and a mask. -/
theorem join_hi (hc : col + 1 < dv) (h : BitVec 32) (hh : h = load32 mem (off + 2 * place dv row col false)) :
    h <<< 16 = kept false (x row col) ∧ h &&& 0xFFFF0000 = kept false (x row (col + 1)) := by
  rw [hh, load32_place hpage hr hc, append_shift, ← hi_append_zero, (extractLsb'_append _ _).2]
  exact ⟨hi_append_zero _, hi_append_zero _⟩

theorem carryLoad_eq (h8 : dv % 8 = 0) (hc : col ≤ dv) (withLo : Bool) :
    carryLoad dv mem off withLo row col = kept withLo (x row col) := by
  unfold carryLoad
  rcases lt_or_eq_of_le hc with hlt | rfl
  · have hchunk : col / 8 < dv / 8 := by omega
    have hq : col % 8 / 2 < 4 := by omega
    have hhi := @SplitPage.chunkOff_eq _ row off 0 _ _ hchunk hq
    have hlo := @SplitPage.chunkOff_eq _ row off 1 _ _ hchunk hq
    obtain ⟨h0, h1⟩ := join_pair hpage hr (show 8 * (col / 8) + 2 * (col % 8 / 2) + 1 < dv by omega)
      (chunkLoad dv mem off withLo 0 row (col / 8) (col % 8 / 2)) (chunkLoad dv mem off withLo 1 row (col / 8) (col % 8 / 2))
      withLo (by rw [chunkLoad, if_pos (.inl rfl), hhi]; rfl) (by simp only [chunkLoad, hlo]; simp [isLo])
    rw [if_pos hlt]
    dsimp only
    rw [h0, h1]
    rcases Nat.mod_two_eq_zero_or_one col with hcol | hcol
    · rw [if_pos hcol, show 8 * (col / 8) + 2 * (col % 8 / 2) = col by omega]
    · rw [if_neg (by omega), show 8 * (col / 8) + 2 * (col % 8 / 2) + 1 = col by omega]
  · have hjoin := join_halves hpage hr le_rfl withLo
    rw [if_neg (lt_irrefl _)]
    obtain ⟨hhi, hlo⟩ := @SplitPage.massOff col row off
    dsimp only
    rw [hhi, hlo]
    exact hjoin

omit hr in
theorem blocksLoad_eq (heven : dv % 2 = 0) {pairs masses : List ℕ} (hp : pairs.Perm (List.range (16 * dv / 2)))
    (hm : masses.Perm (List.range 16)) (withLo : Bool) (so : Image) (hr : row < 16) (hc : col ≤ dv) :
    blocksLoad dv mem off withLo pairs masses so row col = kept withLo (x row col) := by
  have hlt : ∀ p ∈ pairs, p < 16 * dv / 2 := fun p hmem => by simpa using hp.mem_iff.1 hmem
  let f : Image := fun row col => kept withLo (x row col)
  let pairCells (p : ℕ) : List (ℕ × ℕ) := [pairAt dv p, ((pairAt dv p).1, (pairAt dv p).2 + 1)]
  have hpair : ∀ p ∈ pairs, ∀ so : Image, ∀ r c, (
      let (row, col) := pairAt dv p
      let o := off + (row * dv + col) * 2
      let h := load32 mem o
      let l := load32 mem (o + 2 * kLo dv)
      let e0 := if withLo then bytePerm l h 0x5410 else h <<< 16
      let e1 := if withLo then bytePerm l h 0x7632 else h &&& 0xFFFF0000
      Function.update so row (Function.update (Function.update (so row) col e0) (col + 1) e1)) r c =
        if (r, c) ∈ pairCells p then f r c else so r c := by
    intro p hmem so r c
    obtain ⟨hr, hc⟩ := pairAt_spec heven (hlt p hmem)
    obtain ⟨hhi, hlo⟩ := @SplitPage.pairOff _ (pairAt dv p).1 _ off (show (pairAt dv p).2 < dv by omega)
    have he : (if withLo then bytePerm (load32 mem (off + 2 * place dv (pairAt dv p).1 (pairAt dv p).2 true))
            (load32 mem (off + 2 * place dv (pairAt dv p).1 (pairAt dv p).2 false)) 0x5410
          else load32 mem (off + 2 * place dv (pairAt dv p).1 (pairAt dv p).2 false) <<< 16) =
          f (pairAt dv p).1 (pairAt dv p).2 ∧
        (if withLo then bytePerm (load32 mem (off + 2 * place dv (pairAt dv p).1 (pairAt dv p).2 true))
            (load32 mem (off + 2 * place dv (pairAt dv p).1 (pairAt dv p).2 false)) 0x7632
          else load32 mem (off + 2 * place dv (pairAt dv p).1 (pairAt dv p).2 false) &&& 0xFFFF0000) =
          f (pairAt dv p).1 ((pairAt dv p).2 + 1) := by
      cases withLo
      · exact join_hi hpage hr hc _ rfl
      · exact join_pair hpage hr hc _ _ true rfl rfl
    dsimp only
    rw [hlo, hhi, he.1, he.2]
    rcases eq_or_ne r (pairAt dv p).1 with rfl | hrow
    · rw [Function.update_self]
      rcases eq_or_ne c ((pairAt dv p).2 + 1) with rfl | h1
      · simp [pairCells]
      rcases eq_or_ne c (pairAt dv p).2 with rfl | h0
      · simp [pairCells]
      · simp [pairCells, Prod.ext_iff, h0, h1]
    · rw [Function.update_of_ne hrow]
      simp [pairCells, Prod.ext_iff, hrow]
  have hmass : ∀ r' ∈ masses, ∀ so : Image, ∀ r c, (
      let w := (load16 mem (off + r' * 2 + 2 * kMassHi dv)).setWidth 32 <<< 16
      let w := if withLo then w ||| (load16 mem (off + r' * 2 + 2 * kMassLo dv)).setWidth 32 else w
      Function.update so r' (Function.update (so r') dv w)) r c = if (r, c) ∈ [(r', dv)] then f r c else so r c := by
    intro r' hmem so r c
    have hjoin := join_halves hpage (show r' < 16 by simpa using hm.mem_iff.1 hmem) le_rfl withLo
    obtain ⟨hhi, hlo⟩ := @SplitPage.massOff dv r' off
    dsimp only
    rw [hhi, hlo, hjoin]
    rcases eq_or_ne r r' with rfl | hrow
    · rw [Function.update_self]
      rcases eq_or_ne c dv with rfl | hcol
      · simp [f]
      · simp [hcol]
    · rw [Function.update_of_ne hrow]
      simp [hrow]
  unfold blocksLoad
  dsimp only
  rw [foldl_cells hmass, foldl_cells hpair]
  rcases lt_or_eq_of_le hc with hlt' | rfl
  · obtain ⟨p, hplt, hrow, hcol⟩ := exists_pair heven hr hlt'
    have hin : (row, col) ∈ pairs.flatMap pairCells := by
      refine List.mem_flatMap.2 ⟨p, hp.mem_iff.2 (List.mem_range.2 hplt), ?_⟩
      rcases Nat.mod_two_eq_zero_or_one col with h0 | h1
      · exact List.mem_cons.2 (.inl (Prod.ext hrow.symm (by omega)))
      · exact List.mem_cons_of_mem _ (List.mem_singleton.2 (Prod.ext hrow.symm (by dsimp only; omega)))
    rw [if_pos hin]
    split <;> rfl
  · rw [if_pos (List.mem_flatMap.2 ⟨row, hm.mem_iff.2 (List.mem_range.2 hr), List.mem_singleton.2 rfl⟩)]

theorem decodeLoad_eq {lane q : ℕ} (h32 : dv % 32 = 0) (hlane : lane < 32) (hq : q < dv / 32) (writes : Bool) :
    decodeLoad dv mem off row writes lane q = kept writes (x row (lane + 32 * q)) := by
  have hc : lane + 32 * q < dv := by omega
  have hjoin := join_halves hpage hr hc.le writes
  unfold decodeLoad
  dsimp only
  rw [(decodeOff hc).1, (decodeOff hc).2]
  exact hjoin

theorem decodeLoadMass_eq (writes : Bool) : decodeLoadMass dv mem off row writes = kept writes (x row dv) := by
  have hjoin := join_halves hpage hr le_rfl writes
  unfold decodeLoadMass
  dsimp only
  rw [decodeMassOff.1, decodeMassOff.2]
  exact hjoin

end Loads

/-! ### One layout -/

/-- A kernel's loads and stores of a page: the loads keep the whole words or their high halves, the stores
leave the page's words and touch nothing else. -/
structure Access (dv : ℕ) (load : Mem → ℕ → Bool → Image) (store : Image → ℕ → Mem → Mem) : Prop where
  load : ∀ mem off x, PageAt dv mem off x → ∀ withLo, ∀ row < 16, ∀ col ≤ dv,
    load mem off withLo row col = kept withLo (x row col)
  store : ∀ x off mem, PageAt dv (store x off mem) off x ∧ SameOutside dv off mem (store x off mem)

/-- The decode step's, of one leaf's row. -/
structure RowAccess (dv row : ℕ) (places : List (ℕ × ℕ)) : Prop where
  load : ∀ mem off x, PageAt dv mem off x → ∀ writes, ∀ lane < 32, ∀ q < dv / 32,
    decodeLoad dv mem off row writes lane q = kept writes (x row (lane + 32 * q))
  mass : ∀ mem off x, PageAt dv mem off x → ∀ writes, decodeLoadMass dv mem off row writes = kept writes (x row dv)
  store : ∀ mem off x, PageAt dv mem off x → ∀ words,
    PageAt dv (decodeStore dv words off row places mem) off (Function.update x row words) ∧
      SameOutside dv off mem (decodeStore dv words off row places mem)

structure SharedLayout (dv : ℕ) : Prop where
  from_to : ∀ x : Words dv, x.toSplitPlanes.fromSplitPlanes = x
  to_from : ∀ x : Words dv, x.fromSplitPlanes.toSplitPlanes = x
  places : Set.BijOn (fun i : ℕ × ℕ × Bool => place dv i.1 i.2.1 i.2.2) {i | i.1 < 16 ∧ i.2.1 ≤ dv} {j | j < 32 * (dv + 1)}
  planes : ∀ (x : Words dv) (row : Fin 16) (col : Fin (dv + 1)) lo,
    x.toSplitPlanes.halves (place dv row col lo) = halfOf (x row col) lo
  page : ∀ (x : Words dv) mem off, (∀ j < 32 * (dv + 1), halvesAt mem off j = x.toSplitPlanes.halves j) ↔
    PageAt dv mem off x.image
  blocks : ∀ pairs masses, pairs.Perm (List.range (16 * dv / 2)) → masses.Perm (List.range 16) → ∀ so,
    Access dv (fun mem off withLo => blocksLoad dv mem off withLo pairs masses so)
      (fun x off => blocksStore dv x off pairs masses)
  carry : dv % 8 = 0 → ∀ items masses, items.Perm (chunkItems dv) → masses.Perm (List.range 16) →
    Access dv (carryLoad dv) (fun x off => carryStore dv x off items masses)
  decode : dv % 32 = 0 → ∀ row < 16, ∀ places, places.Perm (laneColumns dv) → RowAccess dv row places

/-- Every kernel reads and writes the page `to_split_planes` lays out. -/
theorem shared_layout (heven : dv % 2 = 0) : SharedLayout dv where
  from_to := Words.from_to
  to_from := Words.to_from
  places := by
    refine ⟨fun i hi => place_lt hi.1 hi.2, fun i hi i' hi' heq => ?_, fun j hj => ?_⟩
    · obtain ⟨hrow, hcol, hlo⟩ := place_inj hi.1 hi.2 hi'.1 hi'.2 heq
      exact Prod.ext hrow (Prod.ext hcol hlo)
    · obtain ⟨row, hr, col, hc, lo, rfl⟩ := exists_place hj
      exact ⟨(row, col, lo), ⟨hr, hc⟩, rfl⟩
  planes x row col lo := by
    have hc : (col : ℕ) ≤ dv := Nat.le_of_lt_succ col.2
    rw [Words.toSplitPlanes, Words.halves_fp32View _ (place_lt row.2 hc), stored_place _ _ row.2 hc, Words.image_apply]
  page x mem off := by
    have hhalves : ∀ j < 32 * (dv + 1), x.toSplitPlanes.halves j = stored dv x.image j := fun j hj =>
      Words.halves_fp32View _ hj
    exact forall₂_congr fun j hj => by rw [hhalves j hj]
  blocks pairs masses hp hm so := {
    load := fun _ _ _ hpage withLo _ hr _ hc => blocksLoad_eq hpage heven hp hm withLo so hr hc
    store := fun x _ mem => blocksStore_page heven hp hm x mem }
  carry h8 items masses hi hm := {
    load := fun _ _ _ hpage withLo _ hr _ hc => carryLoad_eq hpage hr h8 hc withLo
    store := fun x _ mem => carryStore_page h8 hi hm x mem }
  decode h32 row hr places hp := {
    load := fun _ _ _ hpage writes _ hlane _ hq => decodeLoad_eq hpage hr h32 hlane hq writes
    mass := fun _ _ _ hpage writes => decodeLoadMass_eq hpage hr writes
    store := fun _ _ _ hpage _ => decodeStore_page h32 hr hp hpage }

theorem shared_layout_64 : 64 % 2 = 0 ∧ SharedLayout 64 := ⟨rfl, shared_layout rfl⟩

end SplitPage

end Rola
