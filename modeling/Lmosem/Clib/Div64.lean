import Lmosem.Hal.Types
import Lmosem.Lib.LongDivision
import Lmosem.Lib.While

-- The 64-bit division that the 32-bit machine lacks.
namespace Lmosem

open LongDivision

abbrev U64 := BitVec 64

-- `while ((signed long long)b > 0 && b < rem)`
def div64Grow (rem : U64) : U64 × U64 → (U64 × U64) ⊕ (U64 × U64)
  | (b, d) => if (0#64).slt b ∧ b < rem then .inl (b + b, d + d) else .inr (b, d)

structure Div64Vars where
  rem : U64
  b : U64
  d : U64
  res : U64
deriving DecidableEq, Repr

-- One turn of the `do ... while (d)`.
def div64Turn (v : Div64Vars) : Div64Vars ⊕ Div64Vars :=
  let v := if v.rem ≥ v.b then { v with rem := v.rem - v.b, res := v.res + v.d } else v
  let v := { v with b := v.b >>> 1, d := v.d >>> 1 }
  if v.d ≠ 0 then .inl v else .inr v

-- Returns the remainder, and the quotient that goes to `*n`.
def div64_32 (n : U64) (base : U32) : Outcome (U32 × U64) := do
  let high : U32 := (n >>> 32).setWidth 32
  let (rem, res) :=
    if high ≥ base then
      let high := high / base
      (n - (high * base).setWidth 64 <<< 32, high.setWidth 64 <<< 32)
    else (n, 0)
  let (b, d) ← While.loop (div64Grow rem) 65 (base.setWidth 64, 1)
  let v ← While.loop div64Turn 65 ⟨rem, b, d, res⟩
  .ok (v.rem.setWidth 32, v.res)

-- Returns the remainder, and the quotient that goes to `n`.
def doDiv (n : U64) (base : U32) : Outcome (U32 × U64) :=
  if n >>> 32 = 0 then
    .ok (n.setWidth 32 % base, (n.setWidth 32 / base).setWidth 64)
  else div64_32 n base

section Loops

variable {base a q₀ : ℕ} {k fuel : ℕ} {v : Div64Vars}

-- The divisor of the first loop is `base` shifted by as much as the bit `d`.
structure Shifted (base k : ℕ) (b d : U64) : Prop where
  divisor : b.toNat = base * 2 ^ k
  bit : d.toNat = 2 ^ k

theorem Shifted.double {b d : U64} (h : Shifted base k b d) (hlt : b.toNat < 2 ^ 63) (hb : 0 < base) :
    Shifted base (k + 1) (b + b) (d + d) := by
  obtain ⟨hdiv, hbit⟩ := h
  have hle : 2 ^ k ≤ base * 2 ^ k := Nat.le_mul_of_pos_left _ hb
  constructor
  · rw [BitVec.toNat_add, Nat.mod_eq_of_lt (by omega), hdiv, Nat.pow_succ]
    ring
  · rw [BitVec.toNat_add, Nat.mod_eq_of_lt (by omega), hbit, Nat.pow_succ]
    ring

theorem Shifted.halve {b d : U64} (h : Shifted base (k + 1) b d) :
    Shifted base k (b >>> 1) (d >>> 1) := by
  obtain ⟨hdiv, hbit⟩ := h
  constructor
  · rw [BitVec.toNat_ushiftRight, hdiv, Nat.shiftRight_one, Nat.pow_succ, ← Nat.mul_assoc,
      Nat.mul_div_cancel _ Nat.two_pos]
  · rw [BitVec.toNat_ushiftRight, hbit, Nat.shiftRight_one, Nat.pow_succ,
      Nat.mul_div_cancel _ Nat.two_pos]

-- The first loop stops with a divisor that is more than half of what is to be divided.
theorem div64Grow_loop (rem : U64) {b d : U64} (h : Shifted base k b d) (hb : 0 < base)
    (hfuel : 64 < fuel + k) :
    ∃ k' b' d', While.loop (div64Grow rem) fuel (b, d) = .ok (b', d') ∧ Shifted base k' b' d' ∧
      rem.toNat < base * 2 ^ (k' + 1) ∧ k' < 64 := by
  induction fuel generalizing k b d with
  | zero =>
      have hpow : 2 ^ 64 ≤ 2 ^ k := Nat.pow_le_pow_right Nat.two_pos (by omega)
      have hd := d.isLt
      have hbit := h.bit
      omega
  | succ fuel ih =>
      have hrem := rem.isLt
      have hslt : (0#64).slt b = true ↔ 0 < b.toNat ∧ b.toNat < 2 ^ 63 := by
        rw [BitVec.slt_iff_toInt_lt, BitVec.toInt_eq_toNat_cond b]
        simp
        split_ifs <;> omega
      by_cases hgo : (0#64).slt b ∧ b < rem
      · rw [While.loop_inl (by rw [div64Grow, if_pos hgo])]
        exact ih (h.double (hslt.mp hgo.1).2 hb) (by omega)
      · rw [While.loop_inr (by rw [div64Grow, if_neg hgo])]
        have hpos : 0 < b.toNat := by
          rw [h.divisor]
          exact Nat.mul_pos hb (Nat.two_pow_pos k)
        have hk : k < 64 := by
          by_contra hk
          have hpow : 2 ^ 64 ≤ 2 ^ k := Nat.pow_le_pow_right Nat.two_pos (by omega)
          have hd := d.isLt
          have hbit := h.bit
          omega
        refine ⟨k, b, d, rfl, h, ?_, hk⟩
        rw [hslt, BitVec.lt_def] at hgo
        have htwice : base * 2 ^ (k + 1) = b.toNat + b.toNat := by
          rw [h.divisor, Nat.pow_succ]
          ring
        omega

-- The second loop on the way: `a` is divided, and `q₀` is added to its quotient.
structure Dividing (base a q₀ k : ℕ) (v : Div64Vars) : Prop where
  shifted : Shifted base k v.b v.d
  settled : ∃ q, v.res.toNat = q₀ + q ∧ Settled a base (k + 1) q v.rem.toNat
  fits : q₀ * base + a < 2 ^ 64

-- The trial subtraction of a turn settles the next place.
theorem Dividing.trial (h : Dividing base a q₀ k v) :
    ∃ q, (if v.rem ≥ v.b then v.res + v.d else v.res).toNat = q₀ + q ∧
      Settled a base k q (if v.rem ≥ v.b then v.rem - v.b else v.rem).toNat := by
  obtain ⟨⟨hdiv, hbit⟩, ⟨q, hres, hset⟩, hfits⟩ := h
  by_cases hle : v.rem ≥ v.b
  · have hle' : base * 2 ^ k ≤ v.rem.toNat := by
      rw [← hdiv]
      exact hle
    have hsub := hset.sub hle'
    have hroom : q₀ + (q + 2 ^ k) < 2 ^ 64 := by
      have hq : q + 2 ^ k ≤ (q + 2 ^ k) * base := Nat.le_mul_of_pos_right _ hset.pos
      have hq₀ : q₀ ≤ q₀ * base := Nat.le_mul_of_pos_right _ hset.pos
      have hsum := hsub.sum
      omega
    refine ⟨q + 2 ^ k, ?_, ?_⟩
    · rw [if_pos hle, BitVec.toNat_add, hres, hbit, Nat.mod_eq_of_lt (by omega)]
      omega
    · rwa [if_pos hle, BitVec.toNat_sub_of_le hle, hdiv]
  · refine ⟨q, by rwa [if_neg hle], ?_⟩
    rw [if_neg hle]
    have hlt : v.rem.toNat < v.b.toNat := by
      rw [ge_iff_le, BitVec.le_def] at hle
      omega
    exact hset.skip (hdiv ▸ hlt)

theorem div64Turn_eq (v : Div64Vars) :
    div64Turn v =
      let w : Div64Vars := ⟨if v.rem ≥ v.b then v.rem - v.b else v.rem, v.b >>> 1, v.d >>> 1,
        if v.rem ≥ v.b then v.res + v.d else v.res⟩
      if w.d ≠ 0 then .inl w else .inr w := by
  unfold div64Turn
  by_cases hle : v.rem ≥ v.b
  · simp only [if_pos hle]
  · simp only [if_neg hle]

-- It ends with the quotient and the remainder.
theorem div64Turn_loop (h : Dividing base a q₀ k v) (hfuel : k < fuel) :
    ∃ w, While.loop div64Turn fuel v = .ok w ∧ w.rem.toNat = a % base ∧
      w.res.toNat = q₀ + a / base := by
  induction k generalizing fuel v with
  | zero =>
      obtain ⟨fuel, rfl⟩ : ∃ f, fuel = f + 1 := ⟨fuel - 1, by omega⟩
      obtain ⟨q, hres, hset⟩ := h.trial
      have hd : v.d >>> 1 = 0 := by
        apply BitVec.eq_of_toNat_eq
        rw [BitVec.toNat_ushiftRight, h.shifted.bit]
        rfl
      refine ⟨_, While.loop_inr (by rw [div64Turn_eq]; simp only [hd]; rfl), ?_, ?_⟩
      · exact hset.remainder
      · rw [← hset.quotient]
        exact hres
  | succ k ih =>
      obtain ⟨fuel, rfl⟩ : ∃ f, fuel = f + 1 := ⟨fuel - 1, by omega⟩
      have hhalf := h.shifted.halve
      have hd : v.d >>> 1 ≠ 0 := by
        intro hzero
        have hbit := hhalf.bit
        rw [hzero] at hbit
        exact absurd hbit (Nat.two_pow_pos k).ne
      rw [While.loop_inl (by rw [div64Turn_eq]; exact if_pos hd)]
      exact ih ⟨hhalf, h.trial, h.fits⟩ (by omega)

end Loops

-- What is left of `n` when the high word has been divided.
theorem div64_reduced (n : U64) (base : U32) :
    let high : U32 := (n >>> 32).setWidth 32
    let q₀ := high.toNat / base.toNat * 2 ^ 32
    ((high / base).setWidth 64 <<< 32 : U64).toNat = q₀ ∧
      q₀ * base.toNat + (n - (high / base * base).setWidth 64 <<< 32).toNat = n.toNat := by
  intro high q₀
  have hn := n.isLt
  have hhigh : high.toNat = n.toNat / 2 ^ 32 := by
    simp only [high, BitVec.toNat_setWidth, BitVec.toNat_ushiftRight, Nat.shiftRight_eq_div_pow]
    omega
  have hle : high.toNat / base.toNat * base.toNat ≤ high.toNat := Nat.div_mul_le_self _ _
  have hquot : high.toNat / base.toNat ≤ high.toNat := Nat.div_le_self _ _
  have hmul : (high / base * base).toNat = high.toNat / base.toNat * base.toNat := by
    rw [BitVec.toNat_mul, BitVec.toNat_udiv, Nat.mod_eq_of_lt (by omega)]
  have hshift : ((high / base * base).setWidth 64 <<< 32 : U64).toNat =
      high.toNat / base.toNat * base.toNat * 2 ^ 32 := by
    rw [BitVec.toNat_shiftLeft, BitVec.toNat_setWidth, hmul, Nat.shiftLeft_eq]
    omega
  constructor
  · rw [BitVec.toNat_shiftLeft, BitVec.toNat_setWidth, BitVec.toNat_udiv, Nat.shiftLeft_eq]
    omega
  · have hq₀ : q₀ * base.toNat = high.toNat / base.toNat * base.toNat * 2 ^ 32 := by
      simp only [q₀]
      ring
    have hsub : (high / base * base).setWidth 64 <<< 32 ≤ n := by
      rw [BitVec.le_def, hshift]
      omega
    rw [BitVec.toNat_sub_of_le hsub, hshift, hq₀]
    omega

-- Whatever is divided by whatever but zero, the helper gives quotient and remainder.
theorem div64_32_eq (n : U64) {base : U32} (hb : base ≠ 0) :
    div64_32 n base =
      .ok (BitVec.ofNat 32 (n.toNat % base.toNat), BitVec.ofNat 64 (n.toNat / base.toNat)) := by
  have hpos : 0 < base.toNat := by
    rw [Nat.pos_iff_ne_zero]
    exact fun h => hb (BitVec.eq_of_toNat_eq h)
  -- both loops, from what the reduction leaves
  have hloops (rem res : U64) (q₀ : ℕ) (hres : res.toNat = q₀)
      (hn : q₀ * base.toNat + rem.toNat = n.toNat) :
      (do
        let (b, d) ← While.loop (div64Grow rem) 65 (base.setWidth 64, 1)
        let v ← While.loop div64Turn 65 ⟨rem, b, d, res⟩
        .ok (v.rem.setWidth 32, v.res)) =
      Outcome.ok (BitVec.ofNat 32 (n.toNat % base.toNat), BitVec.ofNat 64 (n.toNat / base.toNat)) := by
    have hstart : Shifted base.toNat 0 (base.setWidth 64) 1 := by
      refine ⟨?_, rfl⟩
      have hlt := base.isLt
      rw [BitVec.toNat_setWidth, Nat.pow_zero, Nat.mul_one, Nat.mod_eq_of_lt (by omega)]
    obtain ⟨k, b, d, hgrow, hshift, hlt, hk⟩ := div64Grow_loop rem hstart hpos (by omega : 64 < 65 + 0)
    have hdiv : Dividing base.toNat rem.toNat q₀ k ⟨rem, b, d, res⟩ :=
      ⟨hshift, ⟨0, hres, .start hlt⟩, hn ▸ n.isLt⟩
    obtain ⟨w, hw, hrem, hquot⟩ := div64Turn_loop hdiv (by omega : k < 65)
    have hr : w.rem.setWidth 32 = BitVec.ofNat 32 (n.toNat % base.toNat) := by
      rw [← BitVec.ofNat_toNat, hrem, ← hn, Nat.add_comm, Nat.add_mul_mod_self_right]
    have hq : w.res = BitVec.ofNat 64 (n.toNat / base.toNat) := by
      apply BitVec.eq_of_toNat_eq
      have hlt : n.toNat / base.toNat < 2 ^ 64 := (Nat.div_le_self _ _).trans_lt n.isLt
      rw [BitVec.toNat_ofNat, Nat.mod_eq_of_lt hlt, hquot, ← hn, Nat.add_comm (q₀ * _),
        Nat.add_mul_div_right _ _ hpos, Nat.add_comm]
    simp only [hgrow, hw, Outcome.ok_bind, hr, hq]
  unfold div64_32
  by_cases hhigh : (n >>> 32).setWidth 32 ≥ base
  · obtain ⟨hres, hsum⟩ := div64_reduced n base
    simp only [if_pos hhigh]
    exact hloops _ _ _ hres hsum
  · simp only [if_neg hhigh]
    exact hloops n 0 0 rfl (by omega)

-- `do_div` takes the helper only where the high word is not zero, and gives the same.
theorem doDiv_eq (n : U64) {base : U32} (hb : base ≠ 0) :
    doDiv n base =
      .ok (BitVec.ofNat 32 (n.toNat % base.toNat), BitVec.ofNat 64 (n.toNat / base.toNat)) := by
  unfold doDiv
  split_ifs with hhigh
  · have hlt : n.toNat < 2 ^ 32 := by
      have hzero := congrArg BitVec.toNat hhigh
      rw [BitVec.toNat_ushiftRight, Nat.shiftRight_eq_div_pow] at hzero
      simp at hzero
      omega
    have hword : (n.setWidth 32).toNat = n.toNat := by
      rw [BitVec.toNat_setWidth, Nat.mod_eq_of_lt hlt]
    congr 2
    · apply BitVec.eq_of_toNat_eq
      rw [BitVec.toNat_umod, hword, BitVec.toNat_ofNat]
      exact (Nat.mod_eq_of_lt ((Nat.mod_le _ _).trans_lt hlt)).symm
    · apply BitVec.eq_of_toNat_eq
      rw [BitVec.toNat_setWidth, BitVec.toNat_udiv, hword, BitVec.toNat_ofNat]
  · exact div64_32_eq n hb

-- The helper and the word division that stands in for it give quotient and remainder.
theorem doDiv_agrees (n : U64) {base : U32} (hb : base ≠ 0) : ∃ rem quot,
    div64_32 n base = .ok (rem, quot) ∧ doDiv n base = .ok (rem, quot) ∧
      n.toNat = quot.toNat * base.toNat + rem.toNat ∧ rem.toNat < base.toNat := by
  have hpos : 0 < base.toNat := Nat.pos_of_ne_zero fun h => hb (BitVec.eq_of_toNat_eq h)
  have hmod := Nat.mod_lt n.toNat hpos
  have hquot : n.toNat / base.toNat < 2 ^ 64 := (Nat.div_le_self _ _).trans_lt n.isLt
  refine ⟨_, _, div64_32_eq n hb, doDiv_eq n hb, ?_, ?_⟩
  · rw [BitVec.toNat_ofNat, BitVec.toNat_ofNat, Nat.mod_eq_of_lt hquot,
      Nat.mod_eq_of_lt (hmod.trans base.isLt), Nat.mul_comm]
    exact (Nat.div_add_mod _ _).symm
  · rw [BitVec.toNat_ofNat, Nat.mod_eq_of_lt (hmod.trans base.isLt)]
    exact hmod

theorem doDiv_agrees_million : ∃ rem quot,
    div64_32 0xffffffffffffffff 1000000 = .ok (rem, quot) ∧
      doDiv 0xffffffffffffffff 1000000 = .ok (rem, quot) ∧
      (0xffffffffffffffff : U64).toNat = quot.toNat * (1000000 : U32).toNat + rem.toNat ∧
      rem.toNat < (1000000 : U32).toNat :=
  doDiv_agrees _ (by decide)

end Lmosem
