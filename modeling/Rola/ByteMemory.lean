import Mathlib.Data.BitVec
import Mathlib.Logic.Function.Basic

/-!
# Byte memory by halves

Accesses of two and four bytes, little-endian, seen as reads and writes of the 16-bit halves past a base.
A list of writes, each of its own half's value, leaves them in any order.
-/

namespace ByteMemory

abbrev Mem := ℕ → BitVec 8

def load16 (mem : Mem) (off : ℕ) : BitVec 16 := mem (off + 1) ++ mem off

def load32 (mem : Mem) (off : ℕ) : BitVec 32 := load16 mem (off + 2) ++ load16 mem off

def store16 (mem : Mem) (off : ℕ) (h : BitVec 16) : Mem :=
  Function.update (Function.update mem off (h.extractLsb' 0 8)) (off + 1) (h.extractLsb' 8 8)

def store32 (mem : Mem) (off : ℕ) (w : BitVec 32) : Mem :=
  store16 (store16 mem off (w.extractLsb' 0 16)) (off + 2) (w.extractLsb' 16 16)

/-- The halves past `base`. -/
def halvesAt (mem : Mem) (base : ℕ) : ℕ → BitVec 16 := fun j => load16 mem (base + 2 * j)

variable {mem : Mem} {base off j k : ℕ}

theorem load32_eq (mem : Mem) (base j : ℕ) :
    load32 mem (base + 2 * j) = halvesAt mem base (j + 1) ++ halvesAt mem base j := rfl

/-- A half stored is that half updated. -/
theorem halvesAt_store16 (mem : Mem) (base j : ℕ) (h : BitVec 16) :
    halvesAt (store16 mem (base + 2 * j) h) base = Function.update (halvesAt mem base) j h := by
  funext k
  unfold halvesAt load16 store16
  rcases eq_or_ne k j with rfl | hne
  · rw [Function.update_self, Function.update_self, Function.update_of_ne (by omega), Function.update_self]
    exact BitVec.extractLsb'_append_extractLsb'
  · rw [Function.update_of_ne hne, Function.update_of_ne (by omega), Function.update_of_ne (by omega),
      Function.update_of_ne (by omega), Function.update_of_ne (by omega)]

theorem halvesAt_store32 (mem : Mem) (base j : ℕ) (w : BitVec 32) :
    halvesAt (store32 mem (base + 2 * j) w) base =
      Function.update (Function.update (halvesAt mem base) j (w.extractLsb' 0 16)) (j + 1) (w.extractLsb' 16 16) := by
  rw [store32, show base + 2 * j + 2 = base + 2 * (j + 1) by omega, halvesAt_store16, halvesAt_store16]

/-! ### Writes of halves -/

/-- Each half of `l` written `f`'s value. -/
def writeHalves (f : ℕ → BitVec 16) (l : List ℕ) (page : ℕ → BitVec 16) : ℕ → BitVec 16 :=
  l.foldl (fun page j => Function.update page j (f j)) page

theorem writeHalves_apply (f : ℕ → BitVec 16) (l : List ℕ) (page : ℕ → BitVec 16) (j : ℕ) :
    writeHalves f l page j = if j ∈ l then f j else page j := by
  unfold writeHalves
  induction l generalizing page with
  | nil => simp
  | cons k l ih =>
    rw [List.foldl_cons, ih]
    by_cases hmem : j ∈ l
    · simp [hmem]
    · rcases eq_or_ne j k with rfl | hne
      · simp [hmem]
      · simp [hmem, hne]

/-- What a step of stores writes of the halves past `base`, and the bytes it leaves. -/
structure Writes (base : ℕ) (f : ℕ → BitVec 16) (l : List ℕ) (mem mem' : Mem) : Prop where
  halves : halvesAt mem' base = writeHalves f l (halvesAt mem base)
  rest : ∀ b, (∀ j ∈ l, b ≠ base + 2 * j ∧ b ≠ base + 2 * j + 1) → mem' b = mem b

namespace Writes

variable {f : ℕ → BitVec 16} {l l' : List ℕ} {mem' mem'' : Mem}

theorem nil (base : ℕ) (f : ℕ → BitVec 16) (mem : Mem) : Writes base f [] mem mem := ⟨rfl, fun _ _ => rfl⟩

theorem trans (h : Writes base f l mem mem') (h' : Writes base f l' mem' mem'') :
    Writes base f (l ++ l') mem mem'' where
  halves := by rw [h'.halves, h.halves, writeHalves, writeHalves, writeHalves, List.foldl_append]
  rest b hb := by
    rw [h'.rest b fun j hj => hb j (List.mem_append_right _ hj), h.rest b fun j hj => hb j (List.mem_append_left _ hj)]

theorem store16 {h : BitVec 16} (hf : f j = h) : Writes base f [j] mem (store16 mem (base + 2 * j) h) where
  halves := by
    rw [halvesAt_store16, ← hf]
    rfl
  rest b hb := by
    obtain ⟨h0, h1⟩ := hb j List.mem_cons_self
    unfold ByteMemory.store16
    rw [Function.update_of_ne h1, Function.update_of_ne h0]

theorem store32 {w : BitVec 32} (hlo : f j = w.extractLsb' 0 16) (hhi : f (j + 1) = w.extractLsb' 16 16) :
    Writes base f [j, j + 1] mem (store32 mem (base + 2 * j) w) :=
  (Writes.store16 hlo).trans (by
    rw [ByteMemory.store32, show base + 2 * j + 2 = base + 2 * (j + 1) by omega]
    exact .store16 hhi)

/-- A loop of stores. -/
theorem foldl {α : Type*} {step : Mem → α → Mem} {places : α → List ℕ} {items : List α}
    (h : ∀ a ∈ items, ∀ mem, Writes base f (places a) mem (step mem a)) (mem : Mem) :
    Writes base f (items.flatMap places) mem (items.foldl step mem) := by
  induction items generalizing mem with
  | nil => exact .nil base f mem
  | cons a items ih =>
    rw [List.flatMap_cons, List.foldl_cons]
    exact (h a List.mem_cons_self mem).trans (ih (fun b hb => h b (List.mem_cons_of_mem _ hb)) _)

end Writes

/-! ### `__byte_perm` -/

/-- Byte `i` of the result is the byte of `y ++ x` that nibble `i` of `s` names. -/
def bytePerm (x y : BitVec 32) (s : ℕ) : BitVec 32 :=
  let byte (i : ℕ) : BitVec 8 := (y ++ x).extractLsb' (8 * (s / 16 ^ i % 8)) 8
  byte 3 ++ byte 2 ++ (byte 1 ++ byte 0)

theorem two_bytes (z : BitVec 64) (s : ℕ) : z.extractLsb' (s + 8) 8 ++ z.extractLsb' s 8 = z.extractLsb' s 16 :=
  BitVec.extractLsb'_append_extractLsb'_eq_extractLsb' rfl

/-- The two words' low halves, and their high halves. -/
theorem bytePerm_lo (x y : BitVec 32) : bytePerm x y 0x5410 = y.extractLsb' 0 16 ++ x.extractLsb' 0 16 := by
  have h : bytePerm x y 0x5410 = ((y ++ x).extractLsb' (32 + 8) 8 ++ (y ++ x).extractLsb' 32 8) ++
      ((y ++ x).extractLsb' (0 + 8) 8 ++ (y ++ x).extractLsb' 0 8) := rfl
  rw [h, two_bytes, two_bytes, BitVec.extractLsb'_append_eq_of_le (by decide),
    BitVec.extractLsb'_append_eq_of_add_le (by decide)]

theorem bytePerm_hi (x y : BitVec 32) : bytePerm x y 0x7632 = y.extractLsb' 16 16 ++ x.extractLsb' 16 16 := by
  have h : bytePerm x y 0x7632 = ((y ++ x).extractLsb' (48 + 8) 8 ++ (y ++ x).extractLsb' 48 8) ++
      ((y ++ x).extractLsb' (16 + 8) 8 ++ (y ++ x).extractLsb' 16 8) := rfl
  rw [h, two_bytes, two_bytes, BitVec.extractLsb'_append_eq_of_le (by decide),
    BitVec.extractLsb'_append_eq_of_add_le (by decide)]

end ByteMemory
