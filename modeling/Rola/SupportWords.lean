import Rola.BitFields
import Rola.UnionForward

/-!
# The support words

The epilogue both forward kernels end with (`factor.cu` and `entmax.cu`): a block solves the 32 tokens of
one support word, a logical warp a row, and packs one bit a token and column. Each thread gathers its own
items' bits, a butterfly ORs them over the logical warps of a warp, and warp 0 ORs the four warps' staged
words and stores them.
-/

namespace Rola.Entmax.SupportWords
open BitFields

section Model

def WORD_TOKENS : ℕ := 32

def BLOCK_WARPS : ℕ := 4

def WARP_SIZE : ℕ := 32

def BLOCK_THREADS : ℕ := BLOCK_WARPS * WARP_SIZE

def logicalPerBlock (LW : ℕ) : ℕ := BLOCK_THREADS / LW

def iters (LW : ℕ) : ℕ := (WORD_TOKENS + logicalPerBlock LW - 1) / logicalPerBlock LW

/-- The token a logical warp solves in an iteration, if any. -/
def solved (tokens LW word logical it : ℕ) : Option ℕ :=
  let place := it * logicalPerBlock LW + logical
  let token := word * WORD_TOKENS + place
  if WORD_TOKENS ≤ place ∨ tokens ≤ token then none else some token

/-- What phase D finds live: token, then lane and item. -/
abbrev Live := ℕ → ℕ → ℕ → Bool

variable (tokens LW IPT width word : ℕ) (live : Live) (smem : ℕ → ℕ → BitVec 32)

/-- `part[i]` of a thread, after its rows. -/
def part (tid i : ℕ) : BitVec 32 :=
  (List.range (iters LW)).foldl (fun p it =>
    match solved tokens LW word (tid / LW) it with
    | none => p
    | some token => if live token (tid % LW) i then p ||| (1#32 <<< (token &&& 31)) else p) 0

/-- `for (d = LW; d < WARP_SIZE; d <<= 1)`. -/
def strides : List ℕ := ((List.range WARP_SIZE).map (LW <<< ·)).takeWhile (· < WARP_SIZE)

/-- `__shfl_xor_sync(0xffffffff, v, d)`. -/
def shflXorWarp (v : ℕ → BitVec 32) (tid d : ℕ) : BitVec 32 :=
  v (tid / WARP_SIZE * WARP_SIZE + (tid % WARP_SIZE ^^^ d))

def butterfly (v : ℕ → BitVec 32) : ℕ → BitVec 32 :=
  (strides LW).foldl (fun v d => fun tid => v tid ||| shflXorWarp v tid d) v

/-- Slot `pos` of a warp at the barrier. The warp's first logical warp has staged item `i` of its lane
in slot `lane + i * LW`; past those lies what the sort left. -/
def stageSlot (warp pos : ℕ) : BitVec 32 :=
  if pos < LW * IPT then
    butterfly LW (fun tid => part tokens LW word live tid (pos / LW)) (warp * WARP_SIZE + pos % LW)
  else smem warp pos

def acc (col : ℕ) : BitVec 32 :=
  (List.range BLOCK_WARPS).foldl (fun a w => a ||| stageSlot tokens LW IPT word live smem w col) 0

/-- The columns and words a thread stores. -/
def threadStores (tid : ℕ) : List (ℕ × BitVec 32) :=
  if tid / WARP_SIZE = 0 then
    (List.range' (tid % LW) ((width - tid % LW + LW - 1) / LW) LW).map fun col => (col, acc tokens LW IPT word live smem col)
  else []

/-- A launch's levels, each with its own columns of the support plane. -/
structure LevelTable where
  levels : ℕ
  width : ℕ → ℕ
  supportBase : ℕ → ℕ
  disjoint : ∀ l l' c c', l < levels → l' < levels → c < width l → c' < width l' →
    supportBase l + c = supportBase l' + c' → l = l'

structure Store where
  stream : ℕ
  word : ℕ
  col : ℕ
  value : BitVec 32

variable (streams : ℕ) (table : LevelTable) (lives : ℕ → ℕ → Live) (smems : ℕ → ℕ → ℕ → ℕ → ℕ → BitVec 32)

def words : ℕ := (tokens + WORD_TOKENS - 1) / WORD_TOKENS

/-- Every thread's stores, the grid's blocks in any order. -/
def launch : List Store :=
  (List.range (words tokens)).flatMap fun word => (List.range streams).flatMap fun stream =>
    (List.range table.levels).flatMap fun level => (List.range BLOCK_THREADS).flatMap fun tid =>
      (threadStores tokens LW IPT (table.width level) word (lives stream level) (smems word stream level) tid).map fun s =>
        ⟨stream, word, table.supportBase level + s.1, s.2⟩

end Model

variable {a tokens word it t tid i : ℕ} {live : Live}

/-! ### A thread's own bits -/

theorem solved_eq_some {LW logical token : ℕ} : solved tokens LW word logical it = some token ↔
    it * logicalPerBlock LW + logical < 32 ∧ token < tokens ∧
      token = word * 32 + (it * logicalPerBlock LW + logical) := by
  unfold solved WORD_TOKENS
  dsimp only
  split
  · rename_i h
    simp only [reduceCtorEq, false_iff]
    rintro ⟨hplace, htoken, rfl⟩
    omega
  · rename_i h
    rw [Option.some.injEq]
    constructor
    · rintro rfl
      exact ⟨by omega, by omega, rfl⟩
    · rintro ⟨-, -, rfl⟩
      rfl

theorem getLsbD_part {LW : ℕ} (ht : t < 32) : (part tokens LW word live tid i).getLsbD t = true ↔
    ∃ it < iters LW, it * logicalPerBlock LW + tid / LW = t ∧ word * 32 + t < tokens ∧
      live (word * 32 + t) (tid % LW) i = true := by
  unfold part
  generalize iters LW = n
  induction n with
  | zero => simp
  | succ n ih =>
    rw [List.range_succ, List.foldl_append, List.foldl_cons, List.foldl_nil]
    simp only [Nat.lt_succ_iff_lt_or_eq, or_and_right, exists_or, exists_eq_left, ← ih]
    split
    · rename_i hnone
      refine (or_iff_left fun ⟨hplace, htoken, _⟩ => ?_).symm
      rw [solved_eq_some.2 ⟨by omega, htoken, by rw [hplace]⟩] at hnone
      cases hnone
    · rename_i token hsome
      obtain ⟨hplace, htoken, rfl⟩ := solved_eq_some.1 hsome
      have hmask : (word * 32 + (n * logicalPerBlock LW + tid / LW)) &&& 31 = n * logicalPerBlock LW + tid / LW := by
        rw [Nat.and_two_pow_sub_one_eq_mod _ 5, Nat.add_comm, Nat.add_mul_mod_self_right, Nat.mod_eq_of_lt hplace]
      split
      · rename_i hlive
        rw [BitVec.getLsbD_or, Bool.or_eq_true, hmask, getLsbD_one_shift ht, decide_eq_true_eq]
        refine or_congr_right ⟨?_, And.left⟩
        rintro rfl
        exact ⟨rfl, htoken, hlive⟩
      · rename_i hlive
        refine (or_iff_left fun ⟨hplace, _, hlive'⟩ => hlive ?_).symm
        rwa [hplace]

theorem logicalPerBlock_eq (ha : a ≤ 5) : logicalPerBlock (2 ^ a) = 2 ^ (7 - a) :=
  @Nat.pow_div 2 7 a (by omega) (by decide)

/-- A token of the word falls to one logical warp, in one iteration. -/
theorem exists_iter {n : ℕ} (hn : 0 < n) {logical : ℕ} (hlogical : logical < n) (ht : t < 32) :
    (∃ it < (32 + n - 1) / n, it * n + logical = t) ↔ logical = t % n := by
  constructor
  · rintro ⟨it, -, rfl⟩
    rw [Nat.mul_comm, Nat.mul_add_mod, Nat.mod_eq_of_lt hlogical]
  · rintro rfl
    refine ⟨t / n, ?_, Nat.div_add_mod' t n⟩
    rw [Nat.lt_iff_add_one_le, Nat.le_div_iff_mul_le hn, Nat.succ_mul]
    have := Nat.div_mul_le_self t n
    omega

/-! ### The butterfly -/

theorem strides_eq : ∀ a ≤ 5, strides (2 ^ a) = (List.range (5 - a)).map fun s => 2 ^ (a + s) := by decide

theorem shflXorWarp_eq (v : ℕ → BitVec 32) {u : ℕ} (hu : u < 5) : shflXorWarp v tid (2 ^ u) = v (tid ^^^ 2 ^ u) := by
  have hdiv : (tid ^^^ 2 ^ u) / 2 ^ 5 = tid / 2 ^ 5 := by
    rw [Nat.xor_div_two_pow, Nat.div_eq_of_lt (Nat.pow_lt_pow_right (by decide) hu), Nat.xor_zero]
  have hmod : (tid ^^^ 2 ^ u) % 2 ^ 5 = tid % 2 ^ 5 ^^^ 2 ^ u := by
    rw [Nat.xor_mod_two_pow, Nat.mod_eq_of_lt (Nat.pow_lt_pow_right (by decide) hu)]
  rw [shflXorWarp, WARP_SIZE]
  congr 1
  rw [← Nat.div_add_mod' (tid ^^^ 2 ^ u) (2 ^ 5), hdiv, hmod]
  rfl

theorem div_two_eq_iff (x y : ℕ) : x / 2 = y / 2 ↔ x = y ∨ x = y ^^^ 1 := by
  have hdiv : (y ^^^ 1) / 2 = y / 2 := by
    rw [Nat.xor_div_two]
    simp
  have hmod : (y ^^^ 1) % 2 = (y + 1) % 2 := by
    rw [Nat.xor_mod_two_eq]
  omega

/-- The threads a distance further out are those of the two halves it joins. -/
theorem div_two_pow_succ_eq_iff (tid tid' m : ℕ) : tid' / 2 ^ (m + 1) = tid / 2 ^ (m + 1) ↔
    tid' / 2 ^ m = tid / 2 ^ m ∨ tid' / 2 ^ m = (tid ^^^ 2 ^ m) / 2 ^ m := by
  rw [Nat.xor_div_two_pow, Nat.div_self (Nat.two_pow_pos m), ← div_two_eq_iff, Nat.div_div_eq_div_mul,
    Nat.div_div_eq_div_mul, Nat.pow_succ]

theorem xor_two_pow_mod {m : ℕ} (ham : a ≤ m) : (tid ^^^ 2 ^ m) % 2 ^ a = tid % 2 ^ a := by
  rw [Nat.xor_mod_two_pow, Nat.mod_eq_zero_of_dvd (Nat.pow_dvd_pow 2 ham), Nat.xor_zero]

/-- The butterfly leaves each lane the bits of its own place in every logical warp of the warp. -/
theorem getLsbD_butterfly (ha : a ≤ 5) (v : ℕ → BitVec 32) : (butterfly (2 ^ a) v tid).getLsbD t = true ↔
    ∃ tid', tid' / 32 = tid / 32 ∧ tid' % 2 ^ a = tid % 2 ^ a ∧ (v tid').getLsbD t = true := by
  have hsteps : ∀ s ≤ 5 - a, ∀ tid,
      (((List.range s).map fun s => 2 ^ (a + s)).foldl (fun v d => fun tid => v tid ||| shflXorWarp v tid d) v tid).getLsbD t = true ↔
        ∃ tid', tid' / 2 ^ (a + s) = tid / 2 ^ (a + s) ∧ tid' % 2 ^ a = tid % 2 ^ a ∧ (v tid').getLsbD t = true := by
    intro s hs
    induction s with
    | zero =>
      intro tid
      refine ⟨fun h => ⟨tid, rfl, rfl, h⟩, ?_⟩
      rintro ⟨tid', hdiv, hmod, h⟩
      have htid : tid' = tid := by
        rw [← Nat.div_add_mod tid' (2 ^ a), ← Nat.div_add_mod tid (2 ^ a), hmod]
        rw [Nat.add_zero] at hdiv
        rw [hdiv]
      rwa [← htid]
    | succ s ih =>
      intro tid
      rw [List.range_succ, List.map_append, List.foldl_append, List.map_singleton, List.foldl_cons, List.foldl_nil,
        BitVec.getLsbD_or, Bool.or_eq_true, shflXorWarp_eq _ (by omega), ih (by omega), ih (by omega)]
      simp only [← Nat.add_assoc, div_two_pow_succ_eq_iff tid _ (a + s), or_and_right, exists_or,
        xor_two_pow_mod (Nat.le_add_right a s)]
  rw [butterfly, strides_eq a ha, hsteps _ le_rfl, Nat.add_sub_cancel' ha]
  rfl

/-! ### The stored word -/

theorem getLsbD_acc {LW IPT col : ℕ} {smem : ℕ → ℕ → BitVec 32} : (acc tokens LW IPT word live smem col).getLsbD t = true ↔
    ∃ w < 4, (stageSlot tokens LW IPT word live smem w col).getLsbD t = true := by
  unfold acc BLOCK_WARPS
  generalize 4 = n
  induction n with
  | zero => simp
  | succ n ih =>
    rw [List.range_succ, List.foldl_append, List.foldl_cons, List.foldl_nil, BitVec.getLsbD_or, Bool.or_eq_true, ih]
    simp only [Nat.lt_succ_iff_lt_or_eq, or_and_right, exists_or, exists_eq_left]

theorem getLsbD_part_tid (ha : a ≤ 5) (ht : t < 32) (htid : tid < 128) :
    (part tokens (2 ^ a) word live tid i).getLsbD t = true ↔ tid / 2 ^ a = t % 2 ^ (7 - a) ∧
      word * 32 + t < tokens ∧ live (word * 32 + t) (tid % 2 ^ a) i = true := by
  have hlogical : tid / 2 ^ a < 2 ^ (7 - a) := by
    rw [Nat.div_lt_iff_lt_mul (Nat.two_pow_pos a), ← Nat.pow_add, Nat.sub_add_cancel (by omega)]
    exact htid
  rw [getLsbD_part ht, ← exists_iter (Nat.two_pow_pos _) hlogical ht, iters, WORD_TOKENS, logicalPerBlock_eq ha]
  constructor
  · rintro ⟨it, hit, hplace, h⟩
    exact ⟨⟨it, hit, hplace⟩, h⟩
  · rintro ⟨⟨it, hit, hplace⟩, h⟩
    exact ⟨it, hit, hplace, h⟩

/-- A stored word has a bit for each of its tokens whose row is live at the column. -/
theorem getLsbD_acc_live {IPT col : ℕ} (ha : a ≤ 5) (ht : t < 32) (smem : ℕ → ℕ → BitVec 32)
    (hcol : col < 2 ^ a * IPT) : (acc tokens (2 ^ a) IPT word live smem col).getLsbD t = true ↔ word * 32 + t < tokens ∧ live (word * 32 + t) (col % 2 ^ a) (col / 2 ^ a) = true := by
  have hlane : col % 2 ^ a < 2 ^ a := Nat.mod_lt _ (Nat.two_pow_pos a)
  have hle : 2 ^ a ≤ 32 := Nat.pow_le_pow_right (by decide) ha
  have hdvd : 2 ^ a ∣ 32 := Nat.pow_dvd_pow 2 ha
  have hthread : ∀ w, (w * 32 + col % 2 ^ a) / 32 = w ∧ (w * 32 + col % 2 ^ a) % 2 ^ a = col % 2 ^ a := fun w => by
    refine ⟨by omega, ?_⟩
    rw [Nat.add_mod, Nat.mod_eq_zero_of_dvd (hdvd.mul_left w), Nat.zero_add, Nat.mod_mod, Nat.mod_mod]
  rw [getLsbD_acc]
  simp only [stageSlot, if_pos hcol, getLsbD_butterfly ha, WARP_SIZE, (hthread _).1, (hthread _).2]
  constructor
  · rintro ⟨w, hw, tid, hwarp, hmod, hbit⟩
    rw [getLsbD_part_tid ha ht (by omega), hmod] at hbit
    exact hbit.2
  · intro hlive
    -- the one thread whose logical warp solves the token and whose lane holds the column
    have hlt : t % 2 ^ (7 - a) < 2 ^ (7 - a) := Nat.mod_lt _ (Nat.two_pow_pos _)
    have hmul : 2 ^ (7 - a) * 2 ^ a = 128 := by
      rw [← Nat.pow_add, Nat.sub_add_cancel (by omega)]
    have htid : t % 2 ^ (7 - a) * 2 ^ a + col % 2 ^ a < 128 := by
      have := Nat.mul_le_mul_right (2 ^ a) (Nat.succ_le_of_lt hlt)
      rw [Nat.succ_mul] at this
      omega
    have hdiv : (t % 2 ^ (7 - a) * 2 ^ a + col % 2 ^ a) / 2 ^ a = t % 2 ^ (7 - a) := by
      rw [Nat.mul_comm, Nat.mul_add_div (Nat.two_pow_pos a), Nat.div_eq_of_lt hlane, Nat.add_zero]
    have hmod : (t % 2 ^ (7 - a) * 2 ^ a + col % 2 ^ a) % 2 ^ a = col % 2 ^ a := by
      rw [Nat.mul_comm, Nat.mul_add_mod, Nat.mod_mod]
    refine ⟨(t % 2 ^ (7 - a) * 2 ^ a + col % 2 ^ a) / 32, by omega, _, rfl, hmod, ?_⟩
    rw [getLsbD_part_tid ha ht htid, hmod]
    exact ⟨hdiv, hlive⟩

/-! ### The stores -/

theorem mem_threadStores {LW IPT width tid col : ℕ} {value : BitVec 32} {smem : ℕ → ℕ → BitVec 32} (hLW : 0 < LW) :
    (col, value) ∈ threadStores tokens LW IPT width word live smem tid ↔
      tid / 32 = 0 ∧ col < width ∧ tid % LW = col % LW ∧ value = acc tokens LW IPT word live smem col := by
  unfold threadStores WARP_SIZE
  split
  · rename_i hwarp
    simp only [List.mem_map, List.mem_range', Prod.mk.injEq, hwarp, true_and]
    have hlane : tid % LW < LW := Nat.mod_lt _ hLW
    constructor
    · rintro ⟨_, ⟨k, hk, rfl⟩, rfl, rfl⟩
      rw [Nat.lt_div_iff_mul_lt hLW] at hk
      refine ⟨?_, ?_, rfl⟩
      · rw [Nat.mul_comm] at hk
        omega
      · rw [Nat.add_mul_mod_self_left, Nat.mod_mod]
    · rintro ⟨hcol, hmod, rfl⟩
      have hdiv := Nat.mod_add_div col LW
      refine ⟨col, ⟨col / LW, ?_, by rw [hmod]; exact hdiv.symm⟩, rfl, rfl⟩
      rw [Nat.lt_div_iff_mul_lt hLW, hmod, Nat.mul_comm]
      omega
  · rename_i hwarp
    simp [hwarp]

theorem mem_launch {IPT streams : ℕ} {table : LevelTable} {lives : ℕ → ℕ → Live}
    {smems : ℕ → ℕ → ℕ → ℕ → ℕ → BitVec 32} (ha : a ≤ 5) {s : Store} :
    s ∈ launch tokens (2 ^ a) IPT streams table lives smems ↔ s.word < words tokens ∧ s.stream < streams ∧
      ∃ level < table.levels, ∃ col < table.width level, s.col = table.supportBase level + col ∧
        s.value = acc tokens (2 ^ a) IPT s.word (lives s.stream level) (smems s.word s.stream level) col := by
  have hLW := Nat.two_pow_pos a
  simp only [launch, List.mem_flatMap, List.mem_range, List.mem_map]
  constructor
  · rintro ⟨word, hword, stream, hstream, level, hlevel, tid, -, ⟨col, value⟩, hmem, rfl⟩
    obtain ⟨-, hcol, -, rfl⟩ := (mem_threadStores hLW).1 hmem
    exact ⟨hword, hstream, level, hlevel, col, hcol, rfl, rfl⟩
  · obtain ⟨stream, word, pos, value⟩ := s
    rintro ⟨hword, hstream, level, hlevel, col, hcol, rfl, hvalue⟩
    have hlane : col % 2 ^ a < 32 := (Nat.mod_lt _ hLW).trans_le (Nat.pow_le_pow_right (by decide) ha)
    exact ⟨word, hword, stream, hstream, level, hlevel, col % 2 ^ a, hlane.trans (by decide), (col, value),
      (mem_threadStores hLW).2 ⟨Nat.div_eq_of_lt hlane, hcol, Nat.mod_mod .., hvalue⟩, rfl⟩

/-! ### The whole plane -/

/-- The stores write each word of the launch's levels and no other, any two of one word agree, and a
word's bits are the tokens below the end at which its column is live. -/
structure Exact (tokens streams : ℕ) (table : LevelTable) (live : ℕ → ℕ → ℕ → ℕ → Prop) (stores : List Store) :
    Prop where
  written : ∀ stream word level col, stream < streams → word * 32 < tokens → level < table.levels →
    col < table.width level →
      ∃ s ∈ stores, s.stream = stream ∧ s.word = word ∧ s.col = table.supportBase level + col
  only : ∀ s ∈ stores, s.stream < streams ∧ s.word * 32 < tokens ∧
    ∃ level < table.levels, ∃ col < table.width level, s.col = table.supportBase level + col
  agree : ∀ s ∈ stores, ∀ s' ∈ stores, s.stream = s'.stream → s.word = s'.word → s.col = s'.col → s.value = s'.value
  bits : ∀ s ∈ stores, ∀ level < table.levels, ∀ col < table.width level, s.col = table.supportBase level + col →
    ∀ t < 32, s.value.getLsbD t = true ↔ s.word * 32 + t < tokens ∧ live s.stream level (s.word * 32 + t) col

theorem lt_words : word < words tokens ↔ word * 32 < tokens := by
  unfold words WORD_TOKENS
  omega

theorem launch_exact {IPT streams : ℕ} {table : LevelTable} {lives : ℕ → ℕ → Live}
    {smems : ℕ → ℕ → ℕ → ℕ → ℕ → BitVec 32} (ha : a ≤ 5)
    (hwidth : ∀ level < table.levels, table.width level ≤ 2 ^ a * IPT) :
    Exact tokens streams table
      (fun stream level token col => lives stream level token (col % 2 ^ a) (col / 2 ^ a) = true)
      (launch tokens (2 ^ a) IPT streams table lives smems) := by
  have hbits : ∀ s ∈ launch tokens (2 ^ a) IPT streams table lives smems, ∀ level < table.levels,
      ∀ col < table.width level, s.col = table.supportBase level + col → ∀ t < 32, s.value.getLsbD t = true ↔
        s.word * 32 + t < tokens ∧
          lives s.stream level (s.word * 32 + t) (col % 2 ^ a) (col / 2 ^ a) = true := by
    intro s hs level hlevel col hcol hpos t ht
    obtain ⟨-, -, level', hlevel', col', hcol', hpos', hvalue⟩ := (mem_launch ha).1 hs
    obtain rfl := table.disjoint level level' col col' hlevel hlevel' hcol hcol' (by rw [← hpos, hpos'])
    obtain rfl : col = col' := by omega
    rw [hvalue, getLsbD_acc_live ha ht _ (hcol.trans_le (hwidth level hlevel))]
  refine ⟨fun stream word level col hstream hword hlevel hcol => ?_, fun s hs => ?_, fun s hs s' hs' hstream hword hpos => ?_,
    hbits⟩
  · exact ⟨⟨stream, word, _, acc tokens (2 ^ a) IPT word (lives stream level) (smems word stream level) col⟩,
      (mem_launch ha).2 ⟨lt_words.2 hword, hstream, level, hlevel, col, hcol, rfl, rfl⟩, rfl, rfl, rfl⟩
  · obtain ⟨hword, hstream, level, hlevel, col, hcol, hpos, -⟩ := (mem_launch ha).1 hs
    exact ⟨hstream, lt_words.1 hword, level, hlevel, col, hcol, hpos⟩
  · obtain ⟨-, -, level, hlevel, col, hcol, hcolpos, -⟩ := (mem_launch ha).1 hs
    refine BitVec.eq_of_getLsbD_eq fun t ht => ?_
    rw [Bool.eq_iff_iff, hbits s hs level hlevel col hcol hcolpos t ht,
      hbits s' hs' level hlevel col hcol (hpos ▸ hcolpos) t ht, hstream, hword]

/-- Every token's row is solved by one logical warp, in one iteration. -/
theorem solved_once (ha : a ≤ 5) {token : ℕ} (htoken : token < tokens) : ∃! p : ℕ × ℕ × ℕ, p.1 < words tokens ∧
    p.2.1 < logicalPerBlock (2 ^ a) ∧ p.2.2 < iters (2 ^ a) ∧
      solved tokens (2 ^ a) p.1 p.2.1 p.2.2 = some token := by
  have hpos : 0 < logicalPerBlock (2 ^ a) := by
    rw [logicalPerBlock_eq ha]
    exact Nat.two_pow_pos _
  have hlt : token % 32 < 32 := Nat.mod_lt _ (by decide)
  obtain ⟨it, hit, hplace⟩ := (exists_iter hpos (Nat.mod_lt (token % 32) hpos) hlt).2 rfl
  refine ⟨(token / 32, token % 32 % logicalPerBlock (2 ^ a), it), ⟨lt_words.2 (by dsimp only; omega), Nat.mod_lt _ hpos,
    hit, solved_eq_some.2 ?_⟩, ?_⟩
  · dsimp only
    rw [hplace]
    exact ⟨hlt, htoken, by omega⟩
  rintro ⟨word, logical, it'⟩ ⟨-, hlogical, -, hsolved⟩
  dsimp only at hlogical hsolved
  obtain ⟨hlt', -, htok⟩ := solved_eq_some.1 hsolved
  have hword : word = token / 32 := by
    generalize it' * logicalPerBlock (2 ^ a) + logical = place at hlt' htok
    omega
  have hplace' : it' * logicalPerBlock (2 ^ a) + logical = token % 32 := by
    generalize it' * logicalPerBlock (2 ^ a) + logical = place at hlt' htok ⊢
    omega
  have hlog : logical = token % 32 % logicalPerBlock (2 ^ a) := by
    rw [← hplace', Nat.mul_comm, Nat.mul_add_mod, Nat.mod_eq_of_lt hlogical]
  rw [← hlog] at hplace
  have hmul : it' * logicalPerBlock (2 ^ a) = it * logicalPerBlock (2 ^ a) := by omega
  rw [Nat.eq_of_mul_eq_mul_right hpos hmul, hword, hlog]

/-! ### The two kernels -/

section Kernels

variable {K : Type*} [Field K] [LinearOrder K]

def bf16Nonzero (round : K → K) (v : K) : Bool := decide (round v ≠ 0)

/-- The bit `factor_forward_kernel` sets for a token's row. -/
def factorLive (dev : Device K) (alpha15 : Bool) (LW IPT : ℕ) (round : K → K) (rows : ℕ → Row K) : Live :=
  fun token lane i => decide (lane + i * LW < (rows token).width) &&
    (support dev alpha15 LW IPT (rows token) lane i && bf16Nonzero round (mass dev alpha15 LW IPT (rows token) lane i))

/-- The bit `union_forward_kernel` sets: the read half's liveness is kept from phase D. -/
def unionLive (dev : UnionDevice K) (alpha15 : Bool) (LW IPT : ℕ) (round : K → K) (rows : ℕ → UnionRow K) : Live :=
  fun token lane i =>
    let readLive := decide (lane + i * LW < (rows token).width) &&
      bf16Nonzero round (unionRead dev alpha15 LW IPT (rows token) lane i)
    decide (lane + i * LW < (rows token).width) && (unionSupport dev alpha15 LW IPT (rows token) lane i &&
      (readLive || bf16Nonzero round (unionWrite dev alpha15 LW IPT (rows token) lane i)))

/-- The rows a launch solves, by stream, level and token. -/
def factorRows (table : LevelTable) (logits : ℕ → ℕ → ℕ → ℕ → K) (mask : Option (ℕ → ℕ → ℕ → ℕ → Bool))
    (stream level token : ℕ) : Row K :=
  ⟨table.width level, logits stream level token, mask.map fun mask => mask stream level token⟩

def unionRows (table : LevelTable) (read write : ℕ → ℕ → ℕ → ℕ → K) (stream level token : ℕ) : UnionRow K :=
  ⟨table.width level, read stream level token, write stream level token⟩

theorem Exact.congr {streams : ℕ} {table : LevelTable} {live live' : ℕ → ℕ → ℕ → ℕ → Prop} {stores : List Store}
    (h : Exact tokens streams table live stores)
    (hlive : ∀ stream level token col, col < table.width level → (live stream level token col ↔ live' stream level token col)) :
    Exact tokens streams table live' stores where
  written := h.written
  only := h.only
  agree := h.agree
  bits s hs level hlevel col hcol hpos t ht := by
    rw [h.bits s hs level hlevel col hcol hpos t ht, hlive _ _ _ _ hcol]

theorem lane_add_mul_lt {LW width col : ℕ} (hcol : col < width) : col % LW + col / LW * LW < width := by
  rwa [Nat.mul_comm, Nat.mod_add_div]

/-- Both kernels' support words say what the stored amplitudes say. -/
theorem support_words_exact (ha : a ≤ 5) (b tokens streams : ℕ) (table : LevelTable)
    (hwidth : ∀ level < table.levels, table.width level ≤ 2 ^ a * 2 ^ b) (round : K → K) (alpha15 : Bool)
    (smems : ℕ → ℕ → ℕ → ℕ → ℕ → BitVec 32) :
    (∀ (dev : Device K) (logits : ℕ → ℕ → ℕ → ℕ → K) (mask : Option (ℕ → ℕ → ℕ → ℕ → Bool)),
      Exact tokens streams table
        (fun stream level token col =>
          forwardSupport dev alpha15 (2 ^ a) (2 ^ b) (factorRows table logits mask stream level token) col = true ∧
          round (forwardValue dev alpha15 (2 ^ a) (2 ^ b) (factorRows table logits mask stream level token) col) ≠ 0)
        (launch tokens (2 ^ a) (2 ^ b) streams table (fun stream level =>
          factorLive dev alpha15 (2 ^ a) (2 ^ b) round (factorRows table logits mask stream level)) smems)) ∧
    (∀ (dev : UnionDevice K) (read write : ℕ → ℕ → ℕ → ℕ → K),
      Exact tokens streams table
        (fun stream level token col =>
          forwardSupport dev.toDevice alpha15 (2 ^ a) (2 ^ b) (unionRows table read write stream level token).midpoints col =
            true ∧
          (round (unionRead dev alpha15 (2 ^ a) (2 ^ b) (unionRows table read write stream level token)
            (col % 2 ^ a) (col / 2 ^ a)) ≠ 0 ∨
          round (unionWrite dev alpha15 (2 ^ a) (2 ^ b) (unionRows table read write stream level token)
            (col % 2 ^ a) (col / 2 ^ a)) ≠ 0))
        (launch tokens (2 ^ a) (2 ^ b) streams table (fun stream level =>
          unionLive dev alpha15 (2 ^ a) (2 ^ b) round (unionRows table read write stream level)) smems)) ∧
    ∀ token < tokens, ∃! p : ℕ × ℕ × ℕ, p.1 < words tokens ∧ p.2.1 < logicalPerBlock (2 ^ a) ∧
      p.2.2 < iters (2 ^ a) ∧ solved tokens (2 ^ a) p.1 p.2.1 p.2.2 = some token := by
  refine ⟨fun dev logits mask => ?_, fun dev read write => ?_, fun token htoken => solved_once ha htoken⟩
  · refine (launch_exact ha hwidth).congr fun stream level token col hcol => ?_
    have hin : col % 2 ^ a + col / 2 ^ a * 2 ^ a < (factorRows table logits mask stream level token).width :=
      lane_add_mul_lt hcol
    rw [factorLive, decide_eq_true hin, Bool.true_and, Bool.and_eq_true, bf16Nonzero, decide_eq_true_eq]
    rfl
  · refine (launch_exact ha hwidth).congr fun stream level token col hcol => ?_
    have hin : col % 2 ^ a + col / 2 ^ a * 2 ^ a < (unionRows table read write stream level token).width :=
      lane_add_mul_lt hcol
    rw [unionLive]
    simp only [decide_eq_true hin, Bool.true_and, Bool.and_eq_true, Bool.or_eq_true, bf16Nonzero, decide_eq_true_eq]
    rfl

/-- Forty tokens, one level of three columns in lanes of two. -/
theorem support_words_exact_forty :
    Exact 40 2 ⟨1, fun _ => 3, fun _ => 0, by omega⟩
      (fun stream level token col =>
        forwardSupport ⟨id, fun _ _ keys => keys⟩ false (2 ^ 1) (2 ^ 1)
          (factorRows ⟨1, fun _ => 3, fun _ => 0, by omega⟩ (fun _ _ t c => (t + c : ℚ)) none stream level token) col = true ∧
        id (forwardValue ⟨id, fun _ _ keys => keys⟩ false (2 ^ 1) (2 ^ 1)
          (factorRows ⟨1, fun _ => 3, fun _ => 0, by omega⟩ (fun _ _ t c => (t + c : ℚ)) none stream level token) col) ≠ 0)
      (launch 40 (2 ^ 1) (2 ^ 1) 2 ⟨1, fun _ => 3, fun _ => 0, by omega⟩ (fun stream level =>
        factorLive ⟨id, fun _ _ keys => keys⟩ false (2 ^ 1) (2 ^ 1) id
          (factorRows ⟨1, fun _ => 3, fun _ => 0, by omega⟩ (fun _ _ t c => (t + c : ℚ)) none stream level))
        fun _ _ _ _ _ => 0) :=
  (@support_words_exact 1 ℚ _ _ (by decide) 1 40 2 ⟨1, fun _ => 3, fun _ => 0, by omega⟩ (by decide) id false
    fun _ _ _ _ _ => 0).1 ⟨id, fun _ _ keys => keys⟩ (fun _ _ t c => (t + c : ℚ)) none

end Kernels

end Rola.Entmax.SupportWords
