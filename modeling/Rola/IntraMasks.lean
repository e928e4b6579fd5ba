import Rola.BitFields
import Rola.IntraKernel

/-!
# What the masks keep

A slab's bits are the digits at which some token of the tile has an amplitude, or all of them where the
mode declares nothing. A slab the two sides' bits do not share holds no product.
-/

namespace Rola.Intra
open BitFields

variable {K : Type*} {arm : Arm} {p : IntraParams K}

def IntraParams.plane (p : IntraParams K) (side : ℕ) : ℕ → K := if side = 0 then p.pread else p.pwrite

def IntraParams.words (p : IntraParams K) (side : ℕ) : ℕ → BitVec 32 := if side = 0 then p.sread else p.swrite

/-- A token's amplitude at a level's digit. -/
def amplitude (arm : Arm) (p : IntraParams K) (side bh t l d : ℕ) : K :=
  p.plane side ((bh * p.L + t) * rowWidth arm + (l * arm.B + d))

def gainAt (p : IntraParams K) (bh t : ℕ) : K := p.gwrite (bh * p.L + t)

/-- A token's value: the plane is by batch, token and head. -/
def valueAt (p : IntraParams K) (bh t ch : ℕ) : K :=
  p.v (((bh / p.heads * p.L + t) * p.heads + (bh - bh / p.heads * p.heads)) * kValueWidth + ch)

/-- On the sides the modes declare, the support words have every nonzero amplitude's bit. -/
def Supported [Zero K] (arm : Arm) (p : IntraParams K) (BH : ℕ) : Prop :=
  ∀ side < 2, ∀ bh < BH, ∀ t < p.L, ∀ l < arm.D, ∀ d < arm.B, declared p l side = true →
    amplitude arm p side bh t l d ≠ 0 →
      (p.words side ((bh * tokenWords p + t / 32) * rowWidth arm + (l * arm.B + d))).getLsbD (t % 32) = true

theorem getLsbD_ballot (live : ℕ → Bool) {t : ℕ} (ht : t < 32) : (ballot live).getLsbD t = live t := by
  rw [ballot, getLsbD_foldl_or live 32 ht, decide_eq_true ht, Bool.true_and]

theorem getLsbD_liveRows {masks : ℕ → ℕ → ℕ → ℕ → BitVec 32} {rt0 ct l stage r : ℕ} (hr : r < 32) :
    (liveRows arm p masks rt0 ct l stage).getLsbD r = (decide (r < rowTilesOf arm.W) &&
      (decide (ct ≤ rt0 + r) && stageLive arm p masks (rt0 + r) ct l stage)) :=
  getLsbD_foldl_or (fun r => decide (ct ≤ rt0 + r) && stageLive arm p masks (rt0 + r) ct l stage) _ hr

theorem ne_zero_of_getLsbD {n k : ℕ} {x : BitVec n} (h : x.getLsbD k = true) : x ≠ 0#n := by
  rintro rfl
  simp at h

theorem getLsbD_full {k : ℕ} (hk : k < 16) : (0xFFFF#32).getLsbD k = true := by
  have hall : ∀ k < 16, (0xFFFF#32).getLsbD k = true := by decide
  exact hall k hk

variable [CommRing K] {BH bh wbase ti l side slab k off : ℕ} {found : ℕ → ℕ → ℕ → ℕ → BitVec 32}

/-- A tile's mask has the bit of every digit with an amplitude. -/
theorem getLsbD_slabBits (hsup : Supported arm p BH) (hside : side < 2) (hbh : bh < BH) (hl : l < arm.D)
    (hbase : wbase % kTile = 0) (hoff : off < kTile) (ht : wbase + ti * kTile + off < p.L) (hk : k < kSlabDigits)
    (hd : slab * kSlabDigits + k < arm.B)
    (hne : amplitude arm p side bh (wbase + ti * kTile + off) l (slab * kSlabDigits + k) ≠ 0) :
    (slabBits p (buildMasks arm p bh wbase found) ti l side slab).getLsbD k = true := by
  unfold kSlabDigits at hk hd hne
  unfold kTile at hbase hoff ht hne
  unfold slabBits
  split
  · rename_i hdecl
    have hshift : slab &&& 1 = slab % 2 := Nat.and_two_pow_sub_one_eq_mod slab 1
    have hword : slab >>> 1 = slab / 2 := Nat.shiftRight_eq_div_pow slab 1
    have hlane : (slab % 2) * 16 + k < 32 := by omega
    rw [BitVec.getLsbD_and, getLsbD_full hk, Bool.and_true, BitVec.getLsbD_ushiftRight, hshift, hword, buildMasks,
      if_pos hdecl, getLsbD_ballot _ hlane]
    have hdigit : slab / 2 * 32 + ((slab % 2) * 16 + k) = slab * 16 + k := by omega
    simp only [hdigit, Bool.and_eq_true, decide_eq_true_eq, bne_iff_ne]
    refine ⟨hd, ?_⟩
    have hbit := hsup side hside bh hbh _ ht l hl _ hd hdecl hne
    -- the token's word is the tile's first or second
    have hdiv : (wbase + ti * 64 + off) / 32 = wbase >>> 5 + ti * 2 + off / 32 := by
      rw [Nat.shiftRight_eq_div_pow]
      omega
    have haddr : (bh * tokenWords p + (wbase + ti * 64 + off) / 32) * rowWidth arm + (l * arm.B + (slab * 16 + k)) =
        (wbase >>> 5 + bh * tokenWords p + ti * (kTile / 32)) * rowWidth arm + l * arm.B + (slab * 16 + k) +
          off / 32 * rowWidth arm := by
      rw [hdiv, kTile]
      ring
    rw [haddr] at hbit
    refine ne_zero_of_getLsbD (k := (wbase + ti * 64 + off) % 32) ?_
    rw [BitVec.getLsbD_or, Bool.or_eq_true]
    rcases Nat.lt_or_ge off 32 with hlo | hhi
    · left
      rwa [Nat.div_eq_of_lt hlo, Nat.zero_mul, Nat.add_zero] at hbit
    · right
      have hone : off / 32 = 1 := by omega
      rwa [hone, Nat.one_mul] at hbit
  · exact getLsbD_full hk

/-- A slab the masks drop holds no product of the two tiles' tokens. -/
theorem mul_eq_zero_of_dead {rt ct off' : ℕ} (hsup : Supported arm p BH) (hbh : bh < BH) (hl : l < arm.D)
    (hbase : wbase % kTile = 0) (hoff : off < kTile) (ht : wbase + rt * kTile + off < p.L) (hoff' : off' < kTile)
    (ht' : wbase + ct * kTile + off' < p.L) (hk : k < kSlabDigits) (hd : slab * kSlabDigits + k < arm.B)
    (hdead : slabLive p (buildMasks arm p bh wbase found) rt ct l slab = false) :
    amplitude arm p 0 bh (wbase + rt * kTile + off) l (slab * kSlabDigits + k) *
      amplitude arm p 1 bh (wbase + ct * kTile + off') l (slab * kSlabDigits + k) = 0 := by
  by_contra hne
  have hread : (slabBits p (buildMasks arm p bh wbase found) rt l 0 slab).getLsbD k = true :=
    getLsbD_slabBits hsup (by omega) hbh hl hbase hoff ht hk hd (left_ne_zero_of_mul hne)
  have hwrite : (slabBits p (buildMasks arm p bh wbase found) ct l 1 slab).getLsbD k = true :=
    getLsbD_slabBits hsup (by omega) hbh hl hbase hoff' ht' hk hd (right_ne_zero_of_mul hne)
  unfold slabLive at hdead
  rw [← Bool.not_eq_true, bne_iff_ne, not_not] at hdead
  refine ne_zero_of_getLsbD (k := k) ?_ hdead
  rw [BitVec.getLsbD_and, hread, hwrite]
  rfl

end Rola.Intra
