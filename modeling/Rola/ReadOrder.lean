import Rola.CountingSort
import Rola.PoolWords

/-!
# The read order of a window

`csrc/rola/src/carry/carry_kernel.cuh`, the read side of `head`: a token's mask of live boxes names its
bucket, each round counts its buckets by match, one warp turns the counts into bases in place, and every
token is scattered to its rank. A tile is sixteen ranks.
-/

namespace Rola

/-- What the read side reads of the box plan, with what the plan asserts of it. -/
structure ReadPlan where
  warps : ℕ
  dealt : ℕ
  warps_shape : warps = 8 ∨ warps = 4
  dealt_pos : 0 < dealt
  boxes_le : dealt * warps ≤ 16

namespace ReadPlan

/-- `kBoxes`. -/
def boxes (P : ReadPlan) : ℕ := P.dealt * P.warps

/-- `kBuckets`. -/
def buckets (P : ReadPlan) : ℕ := P.boxes + 1

end ReadPlan

/-- `kTile`. -/
def kTile : ℕ := 16

/-- `kTiles`. -/
def kTiles : ℕ := window / kTile

/-- A window's read side: its length, the order policy and the box words of each round. -/
structure ReadWords where
  len : ℕ
  identity : Bool
  box : ℕ → ℕ → BitVec 32

/-- `__ffs`. -/
def ffs (u : BitVec 32) : ℕ :=
  match (List.range 32).find? fun i => u.getLsbD i with
  | some i => i + 1
  | none => 0

/-- `__match_any_sync`: the lanes of a warp whose key is this lane's. -/
def matchAny (key : ℕ → ℕ) (lane : ℕ) : BitVec 32 :=
  (List.range 32).foldl (fun u j => if key j = key lane then u ||| (1#32 <<< j) else u) 0#32

/-- `__shfl_xor_sync` and an or. -/
def orXor (d : ℕ) (m : ℕ → BitVec 32) (lane : ℕ) : BitVec 32 := m lane ||| m (lane ^^^ d)

namespace ReadWords

variable (P : ReadPlan) (R : ReadWords)

/-! ### Pass one -/

/-- `m`: the boxes lane `lane` of round `rho` is live in. -/
def mask (rho lane : ℕ) : BitVec 32 :=
  let m := (List.range P.boxes).reverse.foldl
    (fun (m : BitVec 32) b => (m <<< 1) ||| ((R.box b rho >>> lane) &&& 1#32)) 0#32
  if rho * 32 + lane < R.len then m else 0#32

/-- `k`. -/
def bucket (rho lane : ℕ) : ℕ :=
  if R.mask P rho lane ≠ 0#32 then if R.identity then 0 else ffs (R.mask P rho lane) - 1 else P.boxes

/-- `same`. -/
def same (rho lane : ℕ) : BitVec 32 := matchAny (R.bucket P rho) lane

/-- `counts` of round `rho`: zero, but a bucket's first lane stores its count. -/
def counts (rho : ℕ) : ℕ → BitVec 16 :=
  (List.range 32).foldl (fun row lane =>
    if R.same P rho lane &&& below lane = 0#32 then
      Function.update row (R.bucket P rho lane) (BitVec.ofNat 16 (popc (R.same P rho lane)))
    else row) fun _ => 0#16

/-- `local`. -/
def localRank (rho lane : ℕ) : ℕ := popc (R.same P rho lane &&& below lane)

/-! ### The scans -/

/-- `c`: a bucket's counts, two rounds a word. -/
def packed (b i : ℕ) : BitVec 32 := R.counts P (2 * i + 1) b ++ R.counts P (2 * i) b

def total (lane : ℕ) : ℕ :=
  if lane < P.buckets then
    ∑ i ∈ Finset.range (rounds / 2), ((R.packed P lane i &&& 0xFFFF#32).toNat + (R.packed P lane i >>> 16).toNat)
  else 0

/-- `excl`. -/
def excl (lane : ℕ) : ℕ := CountingSort.scan (R.total P) 5 lane - R.total P lane

/-- `live_count()[kRead]`. -/
def live : ℕ := R.excl P P.boxes

/-- A word of counts rewritten as the bases before them, `run` the sum so far. -/
def packBase (s : ℕ × (ℕ → BitVec 32)) (i : ℕ) : ℕ × (ℕ → BitVec 32) :=
  let lo := s.1
  let hi := lo + (s.2 i &&& 0xFFFF#32).toNat
  (hi + (s.2 i >>> 16).toNat, Function.update s.2 i (BitVec.ofNat 32 lo ||| (BitVec.ofNat 32 hi <<< 16)))

/-- `rcounts` after the scans, bucket `b`'s row. -/
def bases (b rho : ℕ) : BitVec 16 :=
  (((List.range (rounds / 2)).foldl packBase (R.excl P b, R.packed P b)).2 (rho / 2)).extractLsb'
    (16 * (rho % 2)) 16

/-! ### Pass two and the tiles -/

/-- `rank` of the window's token `t`. -/
def rank (t : ℕ) : ℕ :=
  (R.bases P (R.bucket P (t / 32) (t % 32)) (t / 32)).toNat + R.localRank P (t / 32) (t % 32)

/-- A tile's mask, as its first lane leaves the shuffles. -/
def orTile (masks : ℕ → BitVec 16) (pass warp half : ℕ) : BitVec 16 :=
  let m lane := (masks ((pass * 2 * P.warps + warp * 2 + lane / 16) * kTile + lane % 16)).setWidth 32
  ((orXor 1 (orXor 2 (orXor 4 (orXor 8 m)))) (16 * half)).setWidth 16

/-- A token is live in some box. -/
def Live (t : ℕ) : Prop := R.mask P (t / 32) (t % 32) ≠ 0#32

instance : DecidablePred (R.Live P) := fun _ => inferInstanceAs (Decidable (_ ≠ _))

/-- A token's bucket. -/
def key (t : ℕ) : ℕ := R.bucket P (t / 32) (t % 32)

end ReadWords

/-! ### Bits -/

variable {P : ReadPlan} {R : ReadWords}

theorem matchAny_getLsbD (key : ℕ → ℕ) (lane : ℕ) {i : ℕ} (hi : i < 32) :
    (matchAny key lane).getLsbD i = decide (key i = key lane) := by
  have h : ∀ n ≤ 32, ((List.range n).foldl (fun u j => if key j = key lane then u ||| (1#32 <<< j) else u)
      0#32).getLsbD i = (decide (i < n) && decide (key i = key lane)) := by
    intro n
    induction n with
    | zero => simp
    | succ n ih =>
      intro hn
      rw [List.range_succ, List.foldl_append, List.foldl_cons, List.foldl_nil]
      have hbit : (1#32 <<< n).getLsbD i = decide (i = n) := by
        rw [BitVec.getLsbD_shiftLeft, BitVec.getLsbD_one]
        grind
      split
      · rw [BitVec.getLsbD_or, ih (by omega), hbit]
        grind
      · rw [ih (by omega)]
        grind
  rw [matchAny, h 32 le_rfl]
  simp [hi]

theorem ffs_eq_zero (u : BitVec 32) : ffs u = 0 ↔ u = 0#32 := by
  unfold ffs
  split
  · rename_i i h
    have hbit := List.find?_some h
    refine iff_of_false (Nat.succ_ne_zero i) ?_
    rintro rfl
    simp at hbit
  · rename_i h
    refine iff_of_true rfl (BitVec.eq_of_getLsbD_eq fun i hi => ?_)
    rw [List.find?_eq_none] at h
    simpa using h i (List.mem_range.2 hi)

/-- The bit `ffs` names is the first. -/
theorem ffs_spec {u : BitVec 32} (h : u ≠ 0#32) :
    u.getLsbD (ffs u - 1) = true ∧ ∀ i < ffs u - 1, u.getLsbD i = false := by
  have hne := (ffs_eq_zero u).not.2 h
  unfold ffs at hne ⊢
  split at hne
  · rename_i i hfind
    obtain ⟨hbit, -, hfirst⟩ := List.find?_range_eq_some.1 hfind
    exact ⟨hbit, fun j hj => by simpa using hfirst j hj⟩
  · exact absurd rfl hne

namespace ReadWords

/-- A token's mask, a bit a box. -/
theorem mask_getLsbD (P : ReadPlan) (R : ReadWords) (rho : ℕ) {lane b : ℕ} (hlane : lane < 32) :
    (R.mask P rho lane).getLsbD b = true ↔
      b < P.boxes ∧ (R.box b rho).getLsbD lane = true ∧ rho * 32 + lane < R.len := by
  have hbit : ∀ (w : BitVec 32) (j : ℕ), ((w >>> lane) &&& 1#32).getLsbD j =
      (decide (j = 0) && w.getLsbD lane) := by
    intro w j
    rw [BitVec.getLsbD_and, BitVec.getLsbD_ushiftRight, BitVec.getLsbD_one]
    rcases eq_or_ne j 0 with rfl | hj
    · simp
    · simp [hj]
  have hfold : ∀ n ≤ 32, ∀ m : BitVec 32, ∀ c < 32, ((List.range n).reverse.foldl
      (fun (m : BitVec 32) b => (m <<< 1) ||| ((R.box b rho >>> lane) &&& 1#32)) m).getLsbD c =
        if c < n then (R.box c rho).getLsbD lane else m.getLsbD (c - n) := by
    intro n
    induction n with
    | zero => simp
    | succ n ih =>
      intro hn m c hc
      rw [List.range_succ, List.reverse_append, List.reverse_singleton, List.singleton_append,
        List.foldl_cons, ih (by omega) _ c hc, BitVec.getLsbD_or, hbit, BitVec.getLsbD_shiftLeft]
      rcases lt_trichotomy c n with hlt | rfl | hgt
      · simp [hlt, hlt.trans (Nat.lt_succ_self n)]
      · simp
      · have h1 : ¬ c < n := by omega
        have h2 : ¬ c < n + 1 := by omega
        have h3 : c - n ≠ 0 := by omega
        have h4 : c - n < 32 := by omega
        simp [h1, h2, h3, h4, Nat.sub_sub]
  have hboxes : P.boxes ≤ 16 := P.boxes_le
  unfold mask
  dsimp only
  split
  · rename_i hin
    rcases lt_or_ge b 32 with hb | hb
    · rw [hfold _ (by omega) _ b hb]
      split <;> simp [*]
    · rw [BitVec.getLsbD_of_ge _ _ hb]
      exact iff_of_false Bool.false_ne_true fun h => by omega
  · rename_i hout
    exact iff_of_false (by simp) fun h => hout h.2.2

/-! ### Counts -/

theorem same_getLsbD (rho lane : ℕ) {i : ℕ} (hi : i < 32) :
    (R.same P rho lane).getLsbD i = decide (R.bucket P rho i = R.bucket P rho lane) :=
  matchAny_getLsbD _ _ hi

theorem popc_same (rho lane : ℕ) : popc (R.same P rho lane) =
    Nat.count (fun i => R.bucket P rho i = R.bucket P rho lane) 32 :=
  count_congr fun i hi => by rw [same_getLsbD rho lane hi, decide_eq_true_iff]

theorem localRank_eq (rho : ℕ) {lane : ℕ} (hlane : lane < 32) : R.localRank P rho lane =
    Nat.count (fun i => R.bucket P rho i = R.bucket P rho lane) lane := by
  rw [localRank, popc_below _ hlane]
  exact count_congr fun i hi => by rw [same_getLsbD rho lane (by omega), decide_eq_true_iff]

/-- A lane with no earlier one in its bucket. -/
theorem leader_iff (rho : ℕ) {lane : ℕ} (hlane : lane < 32) : R.same P rho lane &&& below lane = 0#32 ↔
    ∀ i < lane, R.bucket P rho i ≠ R.bucket P rho lane := by
  constructor
  · intro h i hi heq
    have hbit := congrArg (fun u => BitVec.getLsbD u i) h
    rw [BitVec.getLsbD_and, same_getLsbD rho lane (by omega), below_getLsbD hlane] at hbit
    simp [heq, hi] at hbit
  · intro h
    refine BitVec.eq_of_getLsbD_eq fun i hi => ?_
    rw [BitVec.getLsbD_and, same_getLsbD rho lane hi, below_getLsbD hlane, BitVec.getLsbD_zero]
    rcases lt_or_ge i lane with hlt | hge
    · simp [h i hlt]
    · simp [Nat.not_lt.2 hge]

/-- A round's count of a bucket. -/
theorem counts_eq (rho b : ℕ) : (R.counts P rho b).toNat = Nat.count (fun i => R.bucket P rho i = b) 32 := by
  have hrow : ∀ n ≤ 32, (List.range n).foldl (fun row lane =>
      if R.same P rho lane &&& below lane = 0#32 then
        Function.update row (R.bucket P rho lane) (BitVec.ofNat 16 (popc (R.same P rho lane)))
      else row) (fun _ => 0#16) b =
        if ∃ i < n, R.bucket P rho i = b then
          BitVec.ofNat 16 (Nat.count (fun i => R.bucket P rho i = b) 32)
        else 0#16 := by
    intro n
    induction n with
    | zero => simp
    | succ n ih =>
      intro hn
      have hsplit : (∃ i < n + 1, R.bucket P rho i = b) ↔ (∃ i < n, R.bucket P rho i = b) ∨ R.bucket P rho n = b :=
        Nat.exists_lt_succ_right
      rw [List.range_succ, List.foldl_append, List.foldl_cons, List.foldl_nil]
      simp only [hsplit]
      split
      · rename_i hlead
        rcases eq_or_ne (R.bucket P rho n) b with rfl | hne
        · simp [popc_same]
        · rw [Function.update_of_ne hne.symm, ih (by omega)]
          simp [hne]
      · rename_i hlead
        rw [ih (by omega)]
        rw [leader_iff rho (by omega)] at hlead
        push Not at hlead
        obtain ⟨i, hi, heq⟩ := hlead
        rcases eq_or_ne (R.bucket P rho n) b with rfl | hne
        · rw [if_pos ⟨i, hi, heq⟩, if_pos (.inl ⟨i, hi, heq⟩)]
        · simp [hne]
  have hle : Nat.count (fun i => R.bucket P rho i = b) 32 ≤ 32 := Nat.count_le _
  rw [counts, hrow 32 le_rfl]
  split
  · rw [BitVec.toNat_ofNat, Nat.mod_eq_of_lt (by omega)]
  · rename_i hnone
    push Not at hnone
    rw [count_congr (q := fun _ => False) fun i hi => by simp [hnone i hi]]
    simp

/-- A bucket's tokens before round `r`. -/
theorem count_rounds (P : ReadPlan) (R : ReadWords) (b r : ℕ) :
    ∑ rho ∈ Finset.range r, (R.counts P rho b).toNat = Nat.count (fun t => R.key P t = b) (32 * r) := by
  induction r with
  | zero => simp
  | succ r ih =>
    rw [Finset.sum_range_succ, ih, counts_eq, show 32 * (r + 1) = 32 * r + 32 by ring, Nat.count_add]
    congr 1
    exact count_congr fun i hi => by
      rw [key, show (32 * r + i) / 32 = r by omega, show (32 * r + i) % 32 = i by omega]

/-! ### Bases -/

theorem toNat_append_halves (hi lo : BitVec 16) :
    ((hi ++ lo) &&& 0xFFFF#32).toNat = lo.toNat ∧ ((hi ++ lo : BitVec 32) >>> 16).toNat = hi.toNat := by
  have hval : (hi ++ lo : BitVec 32).toNat = hi.toNat * 2 ^ 16 + lo.toNat := by
    rw [BitVec.toNat_append, Nat.shiftLeft_eq, Nat.mul_comm, Nat.two_pow_add_eq_or_of_lt lo.isLt]
  refine ⟨?_, ?_⟩
  · rw [BitVec.toNat_and, hval]
    refine (Nat.and_two_pow_sub_one_eq_mod _ 16).trans ?_
    rw [Nat.mul_add_mod_self_right, Nat.mod_eq_of_lt lo.isLt]
  · rw [BitVec.toNat_ushiftRight, hval, Nat.shiftRight_eq_div_pow]
    have hlt := lo.isLt
    omega

/-- A bucket's tokens in the rounds before word `n`. -/
theorem packed_sum (b n : ℕ) :
    ∑ i ∈ Finset.range n, ((R.packed P b i &&& 0xFFFF#32).toNat + (R.packed P b i >>> 16).toNat) =
      Nat.count (fun t => R.key P t = b) (32 * (2 * n)) := by
  rw [← count_rounds]
  induction n with
  | zero => simp
  | succ n ih =>
    rw [Finset.sum_range_succ, ih, show 2 * (n + 1) = 2 * n + 1 + 1 by ring, Finset.sum_range_succ,
      Finset.sum_range_succ]
    have hhalves := toNat_append_halves (R.counts P (2 * n + 1) b) (R.counts P (2 * n) b)
    rw [← packed] at hhalves
    rw [hhalves.1, hhalves.2, Nat.add_assoc]

theorem total_eq {b : ℕ} (hb : b < P.buckets) : R.total P b = Nat.count (fun t => R.key P t = b) window := by
  rw [total, if_pos hb, packed_sum]
  rfl

/-- What a bucket's lane finds before its bucket. -/
theorem excl_eq {b : ℕ} (hb : b < P.buckets) : R.excl P b =
    ∑ c ∈ Finset.range b, Nat.count (fun t => R.key P t = c) window := by
  have hboxes : P.boxes ≤ 16 := P.boxes_le
  unfold ReadPlan.buckets at hb
  rw [excl, CountingSort.scan_eq_sum _ (by norm_num; omega), Finset.sum_range_succ, Nat.add_sub_cancel]
  refine Finset.sum_congr rfl fun c hc => total_eq ?_
  rw [Finset.mem_range] at hc
  unfold ReadPlan.buckets
  omega

/-- The bases left of `n` words of counts, the rest as they were. -/
theorem foldl_packBase (run : ℕ) (c : ℕ → BitVec 32) (n : ℕ) :
    ((List.range n).foldl packBase (run, c)).1 =
        run + ∑ i ∈ Finset.range n, ((c i &&& 0xFFFF#32).toNat + (c i >>> 16).toNat) ∧
      ∀ i, ((List.range n).foldl packBase (run, c)).2 i =
        if i < n then
          let lo := run + ∑ j ∈ Finset.range i, ((c j &&& 0xFFFF#32).toNat + (c j >>> 16).toNat)
          BitVec.ofNat 32 lo ||| (BitVec.ofNat 32 (lo + (c i &&& 0xFFFF#32).toNat) <<< 16)
        else c i := by
  induction n with
  | zero => simp
  | succ n ih =>
    obtain ⟨hrun, hword⟩ := ih
    rw [List.range_succ, List.foldl_append, List.foldl_cons, List.foldl_nil]
    generalize (List.range n).foldl packBase (run, c) = s at hrun hword ⊢
    have hn : s.2 n = c n := by rw [hword n, if_neg (lt_irrefl n)]
    refine ⟨?_, fun i => ?_⟩
    · simp only [packBase, hn, hrun, Finset.sum_range_succ, Nat.add_assoc]
    · rcases eq_or_ne i n with rfl | hne
      · simp [packBase, hrun, hn]
      · simp only [packBase, Function.update_of_ne hne, hword i]
        split <;> split <;> first | rfl | omega

theorem extract_halves {lo hi : ℕ} (hlo : lo < 2 ^ 16) (hhi : hi < 2 ^ 16) :
    ((BitVec.ofNat 32 lo ||| (BitVec.ofNat 32 hi <<< 16)).extractLsb' 0 16).toNat = lo ∧
      ((BitVec.ofNat 32 lo ||| (BitVec.ofNat 32 hi <<< 16)).extractLsb' 16 16).toNat = hi := by
  have hval : (BitVec.ofNat 32 lo ||| (BitVec.ofNat 32 hi <<< 16)).toNat = hi * 2 ^ 16 + lo := by
    rw [BitVec.toNat_or, BitVec.toNat_shiftLeft, BitVec.toNat_ofNat, BitVec.toNat_ofNat,
      Nat.mod_eq_of_lt (show lo < 2 ^ 32 by omega), Nat.mod_eq_of_lt (show hi < 2 ^ 32 by omega),
      Nat.shiftLeft_eq, Nat.mod_eq_of_lt (show hi * 2 ^ 16 < 2 ^ 32 by omega), Nat.or_comm, Nat.mul_comm,
      Nat.two_pow_add_eq_or_of_lt hlo]
  rw [BitVec.extractLsb'_toNat, BitVec.extractLsb'_toNat, hval, Nat.shiftRight_eq_div_pow,
    Nat.shiftRight_eq_div_pow]
  omega

/-- A bucket's base in a round. -/
theorem bases_eq {b rho : ℕ} (hb : b < P.buckets) (hrho : rho < rounds) : (R.bases P b rho).toNat =
    ∑ c ∈ Finset.range b, Nat.count (fun t => R.key P t = c) window +
      Nat.count (fun t => R.key P t = b) (32 * rho) := by
  have hexcl : R.excl P b ≤ window := by
    rw [excl_eq hb, ← CountingSort.count_lt_eq_sum]
    exact Nat.count_le _
  have hcount : Nat.count (fun t => R.key P t = b) (32 * (rho + 1)) ≤ 32 * (rho + 1) := Nat.count_le _
  have hword := (foldl_packBase (R.excl P b) (R.packed P b) (rounds / 2)).2 (rho / 2)
  unfold rounds at hrho hword
  unfold window at hexcl
  rw [if_pos (by omega)] at hword
  dsimp only at hword
  rw [packed_sum] at hword
  have hmono : Nat.count (fun t => R.key P t = b) (32 * (2 * (rho / 2))) ≤
      Nat.count (fun t => R.key P t = b) (32 * (rho + 1)) := Nat.count_monotone _ (by omega)
  have hstep : Nat.count (fun t => R.key P t = b) (32 * (2 * (rho / 2) + 1)) =
      Nat.count (fun t => R.key P t = b) (32 * (2 * (rho / 2))) + (R.packed P b (rho / 2) &&& 0xFFFF#32).toNat := by
    rw [packed, (toNat_append_halves _ _).1, ← count_rounds, ← count_rounds, Finset.sum_range_succ]
  have hmono' : Nat.count (fun t => R.key P t = b) (32 * (2 * (rho / 2) + 1)) ≤
      Nat.count (fun t => R.key P t = b) (32 * (rho + 1)) := Nat.count_monotone _ (by omega)
  rw [← excl_eq hb, bases, rounds, hword, Nat.add_assoc, ← hstep]
  obtain ⟨hlo, hhi⟩ := @ReadWords.extract_halves (R.excl P b + Nat.count (fun t => R.key P t = b) (32 * (2 * (rho / 2)))) (R.excl P b + Nat.count (fun t => R.key P t = b) (32 * (2 * (rho / 2) + 1))) (by omega) (by omega)
  rcases Nat.mod_two_eq_zero_or_one rho with heven | hodd
  · rw [heven, hlo, show 2 * (rho / 2) = rho by omega]
  · rw [hodd, hhi, show 2 * (rho / 2) + 1 = rho by omega]

/-! ### Ranks -/

theorem bucket_lt (rho : ℕ) {lane : ℕ} (hlane : lane < 32) : R.bucket P rho lane < P.buckets := by
  unfold bucket ReadPlan.buckets
  split
  · rename_i hm
    split
    · omega
    · have hbit := (mask_getLsbD P R rho hlane).1 (ffs_spec hm).1
      omega
  · omega

theorem key_lt (t : ℕ) : R.key P t < P.buckets := bucket_lt _ (Nat.mod_lt _ (by norm_num))

/-- The kernel's rank is the stable sort's. -/
theorem rank_eq {t : ℕ} (ht : t < window) : R.rank P t = CountingSort.rank (R.key P) window t := by
  have hlane : t % 32 < 32 := Nat.mod_lt _ (by norm_num)
  have hround : Nat.count (fun s => R.key P s = R.key P t) t =
      Nat.count (fun s => R.key P s = R.key P t) (32 * (t / 32)) + R.localRank P (t / 32) (t % 32) := by
    conv_lhs => rw [← Nat.div_add_mod t 32]
    rw [Nat.count_add, localRank_eq _ hlane, Nat.div_add_mod]
    congr 1
    exact count_congr fun i hi => by
      rw [key, key, show (32 * (t / 32) + i) / 32 = t / 32 by omega, show (32 * (t / 32) + i) % 32 = i by omega]
  rw [CountingSort.rank_eq ht, hround, rank]
  change (R.bases P (R.key P t) (t / 32)).toNat + _ = _
  rw [bases_eq (key_lt t) (by unfold window at ht; unfold rounds; omega), Nat.add_assoc]

theorem rank_lt {t : ℕ} (ht : t < window) : R.rank P t < window := by
  rw [rank_eq ht]
  exact CountingSort.rank_lt ht

theorem rank_inj {s t : ℕ} (hs : s < window) (ht : t < window) (h : R.rank P s = R.rank P t) : s = t := by
  rw [rank_eq hs, rank_eq ht] at h
  exact CountingSort.rank_inj hs ht h

/-! ### Live tokens -/

theorem key_eq_boxes {t : ℕ} : R.key P t < P.boxes ↔ R.Live P t := by
  have hlane : t % 32 < 32 := Nat.mod_lt _ (by norm_num)
  unfold key bucket Live
  split
  · rename_i hm
    have hbit := (mask_getLsbD P R (t / 32) hlane).1 (ffs_spec hm).1
    refine iff_of_true ?_ hm
    split <;> omega
  · rename_i hm
    exact iff_of_false (lt_irrefl _) hm

/-- A live token is in the window and in a box. -/
theorem live_iff {t : ℕ} : R.Live P t ↔
    t < R.len ∧ ∃ b < P.boxes, (R.box b (t / 32)).getLsbD (t % 32) = true := by
  have hlane : t % 32 < 32 := Nat.mod_lt _ (by norm_num)
  have ht : t / 32 * 32 + t % 32 = t := Nat.div_add_mod' t 32
  constructor
  · intro h
    obtain ⟨hb, hbox, hin⟩ := (mask_getLsbD P R (t / 32) hlane).1 (ffs_spec h).1
    exact ⟨ht ▸ hin, _, hb, hbox⟩
  · rintro ⟨hin, b, hb, hbox⟩ hzero
    have hbit := (mask_getLsbD P R (t / 32) hlane).2 ⟨hb, hbox, ht.symm ▸ hin⟩
    rw [hzero] at hbit
    simp at hbit

theorem live_eq : R.live P = Nat.count (R.Live P) window := by
  rw [live, excl_eq (Nat.lt_succ_self _), ← CountingSort.count_lt_eq_sum]
  exact count_congr fun t _ => key_eq_boxes

theorem rank_lt_live {t : ℕ} (ht : t < window) : R.rank P t < R.live P ↔ R.Live P t := by
  have hlive : Nat.count (R.Live P) window = Nat.count (fun s => R.key P s < P.boxes) window :=
    count_congr fun s _ => key_eq_boxes.symm
  rw [live_eq, hlive, rank_eq ht, CountingSort.rank_lt_count_iff ht, key_eq_boxes]

/-! ### Tile masks -/

/-- The shuffles or a half-warp's sixteen lanes. -/
theorem orXor_getLsbD (m : ℕ → BitVec 32) (i : ℕ) {half : ℕ} (hhalf : half < 2) :
    (orXor 1 (orXor 2 (orXor 4 (orXor 8 m))) (16 * half)).getLsbD i =
      (List.range 16).any fun j => (m (16 * half + j)).getLsbD i := by
  obtain rfl | rfl : half = 0 ∨ half = 1 := by omega
  all_goals
    simp only [orXor, BitVec.getLsbD_or, List.range_succ, List.range_zero, List.nil_append, List.any_append,
      List.any_cons, List.any_nil, Bool.or_false, Nat.mul_zero, Nat.mul_one, Nat.reduceXor, Nat.reduceAdd,
      Nat.zero_add, Nat.add_zero]
    ac_rfl

/-- A tile's mask is its ranks' masks or-ed. -/
theorem orTile_getLsbD (masks : ℕ → BitVec 16) (pass warp i : ℕ) {half : ℕ} (hhalf : half < 2) :
    (orTile P masks pass warp half).getLsbD i = true ↔
      ∃ j < kTile, (masks ((pass * 2 * P.warps + warp * 2 + half) * kTile + j)).getLsbD i = true := by
  rw [orTile, BitVec.getLsbD_setWidth, orXor_getLsbD _ _ hhalf]
  simp only [BitVec.getLsbD_setWidth, Bool.and_eq_true, decide_eq_true_eq, List.any_eq_true, List.mem_range]
  constructor
  · rintro ⟨hi, j, hj, -, hbit⟩
    rw [show (16 * half + j) / 16 = half by omega, show (16 * half + j) % 16 = j by omega] at hbit
    exact ⟨j, hj, hbit⟩
  · rintro ⟨j, hj, hbit⟩
    have hi : i < 16 := BitVec.lt_of_getLsbD hbit
    unfold kTile at hj
    refine ⟨hi, j, hj, by omega, ?_⟩
    rw [show (16 * half + j) / 16 = half by omega, show (16 * half + j) % 16 = j by omega]
    exact hbit

end ReadWords

end Rola
