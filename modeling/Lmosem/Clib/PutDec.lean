import Lmosem.Clib.Ctype
import Lmosem.Clib.Div64
import Lmosem.Lib.Numeral

-- Decimal digits without a division by ten.
namespace Lmosem

open Numeral

-- `d + '0'`, as it is stored in a `char`.
def decChar (d : U32) : Byte := (d + 0x30).setWidth 8

-- What is written from `buf` on.
def putDecTrunc (q : U32) : List Byte :=
  let d1 := (q >>> 4) &&& 0xf
  let d2 := (q >>> 8) &&& 0xf
  let d3 := q >>> 12
  let d0 := 6 * (d3 + d2 + d1) + (q &&& 0xf)
  let q := (d0 * 0xcd) >>> 11
  let d0 := d0 - 10 * q
  let d1 := q + 9 * d3 + 5 * d2 + d1
  decChar d0 ::
    if d1 ≠ 0 then
      let q := (d1 * 0xcd) >>> 11
      let d1 := d1 - 10 * q
      let d2 := q + 2 * d2
      decChar d1 ::
        if d2 ≠ 0 ∨ d3 ≠ 0 then
          let q := (d2 * 0xd) >>> 7
          let d2 := d2 - 10 * q
          let d3 := q + 4 * d3
          decChar d2 ::
            if d3 ≠ 0 then
              let q := (d3 * 0xcd) >>> 11
              let d3 := d3 - 10 * q
              decChar d3 :: if q ≠ 0 then [decChar q] else []
            else []
        else []
    else []

def putDecFull (q : U32) : List Byte :=
  let d1 := (q >>> 4) &&& 0xf
  let d2 := (q >>> 8) &&& 0xf
  let d3 := q >>> 12
  let d0 := 6 * (d3 + d2 + d1) + (q &&& 0xf)
  let q := (d0 * 0xcd) >>> 11
  let d0 := d0 - 10 * q
  let d1 := q + 9 * d3 + 5 * d2 + d1
  let q := (d1 * 0xcd) >>> 11
  let d1 := d1 - 10 * q
  let d2 := q + 2 * d2
  let q := (d2 * 0xd) >>> 7
  let d2 := d2 - 10 * q
  let d3 := q + 4 * d3
  let q := (d3 * 0xcd) >>> 11
  let d3 := d3 - 10 * q
  [decChar d0, decChar d1, decChar d2, decChar d3, decChar q]

-- `fuel` bounds the turns of the `while (1)`.
def putDecLoop : ℕ → U64 → Outcome (List Byte)
  | 0, _ => .hang
  | fuel + 1, num =>
      if num < 100000 then .ok (putDecTrunc (num.setWidth 32))
      else do
        let (rem, num) ← doDiv num 100000
        let rest ← putDecLoop fuel num
        .ok (putDecFull rem ++ rest)

def putDec (num : U64) : Outcome (List Byte) := putDecLoop (2 ^ 32) num

-- The character of a decimal digit.
def decDigit (d : ℕ) : Byte := BitVec.ofNat 8 (0x30 + d)

theorem decChar_eq (x : U32) : decChar x = decDigit x.toNat := by
  apply BitVec.eq_of_toNat_eq
  simp only [decChar, decDigit, BitVec.toNat_setWidth, BitVec.toNat_add, BitVec.toNat_ofNat,
    BitVec.ofNat_eq_ofNat]
  omega

section Tenths

variable {x t : U32}

theorem scaled_toNat (m k : ℕ) (hm : m < 2 ^ 32) (h : x.toNat * m < 2 ^ 32) :
    ((x * BitVec.ofNat 32 m) >>> k).toNat = x.toNat * m / 2 ^ k := by
  rw [BitVec.toNat_ushiftRight, BitVec.toNat_mul, BitVec.toNat_ofNat, Nat.mod_eq_of_lt hm,
    Nat.mod_eq_of_lt h, Nat.shiftRight_eq_div_pow]

-- Multiplying and shifting divides small numbers by ten.
theorem tenth_toNat (h : x.toNat < 1024) : ((x * 0xcd) >>> 11).toNat = x.toNat / 10 := by
  refine (scaled_toNat 0xcd 11 (by decide) (by omega)).trans ?_
  omega

theorem tenth_toNat' (h : x.toNat < 69) : ((x * 0xd) >>> 7).toNat = x.toNat / 10 := by
  refine (scaled_toNat 0xd 7 (by decide) (by omega)).trans ?_
  omega

theorem decChar_sub (ht : t.toNat = x.toNat / 10) :
    decChar (x - 10 * t) = decDigit (x.toNat % 10) := by
  have hx := x.isLt
  rw [decChar_eq]
  congr 1
  bv_omega

-- The sums do not wrap.
theorem sum0_toNat {a b c d : U32} (ha : a.toNat < 25) (hb : b.toNat < 16) (hc : c.toNat < 16)
    (hd : d.toNat < 16) :
    (6 * (a + b + c) + d).toNat = 6 * (a.toNat + b.toNat + c.toNat) + d.toNat := by
  bv_omega

theorem sum1_toNat {a b c : U32} (ht : t.toNat < 1024) (ha : a.toNat < 25) (hb : b.toNat < 16)
    (hc : c.toNat < 16) :
    (t + 9 * a + 5 * b + c).toNat = t.toNat + 9 * a.toNat + 5 * b.toNat + c.toNat := by
  bv_omega

theorem sum2_toNat {b : U32} (ht : t.toNat < 1024) (hb : b.toNat < 16) :
    (t + 2 * b).toNat = t.toNat + 2 * b.toNat := by
  bv_omega

theorem sum3_toNat {a : U32} (ht : t.toNat < 1024) (ha : a.toNat < 25) :
    (t + 4 * a).toNat = t.toNat + 4 * a.toNat := by
  bv_omega

end Tenths

-- The carries of the decimal sums of four hexadecimal digits.
theorem decSums_nat {n a b c d s0 s1 s2 s3 : ℕ} (hn : n = 4096 * a + 256 * b + 16 * c + d)
    (h0 : s0 = 6 * (a + b + c) + d) (h1 : s1 = s0 / 10 + 9 * a + 5 * b + c)
    (h2 : s2 = s1 / 10 + 2 * b) (h3 : s3 = s2 / 10 + 4 * a) :
    n % 10 = s0 % 10 ∧ n / 10 = s1 + 10 * (40 * a + 2 * b) ∧ n / 100 = s2 + 40 * a ∧
      n / 1000 = s3 := by
  have hn0 : n = s0 + 10 * (409 * a + 25 * b + c) := by omega
  have hn1 : n / 10 = s1 + 10 * (40 * a + 2 * b) := by omega
  have hn2 : n / 10 / 10 = s2 + 40 * a := by omega
  have hn3 : n / 10 / 10 / 10 = s3 := by omega
  rw [Nat.div_div_eq_div_mul] at hn2 hn3
  rw [Nat.div_div_eq_div_mul] at hn3
  exact ⟨by omega, hn1, hn2, hn3⟩

-- The sums of `put_dec_full` and `put_dec_trunc`, and the digits they come to.
structure DecSums (n : ℕ) (d3 s0 s1 s2 s3 : U32) : Prop where
  sum0 : s0.toNat < 1024 ∧ s0.toNat % 10 = n % 10
  sum1 : s1.toNat < 1024 ∧ s1.toNat % 10 = n / 10 % 10 ∧ (s1.toNat = 0 ↔ n < 10)
  sum2 : s2.toNat < 69 ∧ s2.toNat % 10 = n / 100 % 10 ∧ (s2.toNat = 0 ∧ d3.toNat = 0 ↔ n < 100)
  sum3 : s3.toNat < 1024 ∧ s3.toNat = n / 1000

theorem decSums (q : U32) (hq : q.toNat < 100000) :
    let d1 := (q >>> 4) &&& 0xf
    let d2 := (q >>> 8) &&& 0xf
    let d3 := q >>> 12
    let s0 := 6 * (d3 + d2 + d1) + (q &&& 0xf)
    let s1 := (s0 * 0xcd) >>> 11 + 9 * d3 + 5 * d2 + d1
    let s2 := (s1 * 0xcd) >>> 11 + 2 * d2
    let s3 := (s2 * 0xd) >>> 7 + 4 * d3
    DecSums q.toNat d3 s0 s1 s2 s3 := by
  intro d1 d2 d3 s0 s1 s2 s3
  have hnibble (x : U32) : (x &&& 0xf).toNat = x.toNat % 16 :=
    Nat.and_two_pow_sub_one_eq_mod x.toNat 4
  have hd0 : (q &&& 0xf).toNat < 16 := by
    rw [hnibble]
    omega
  have hd1 : d1.toNat < 16 := by
    rw [hnibble]
    omega
  have hd2 : d2.toNat < 16 := by
    rw [hnibble]
    omega
  have hn : q.toNat = 4096 * d3.toNat + 256 * d2.toNat + 16 * d1.toNat + (q &&& 0xf).toNat := by
    simp only [d1, d2, d3, hnibble, BitVec.toNat_ushiftRight, Nat.shiftRight_eq_div_pow]
    omega
  have hd3 : d3.toNat < 25 := by omega
  have hs0 : s0.toNat = 6 * (d3.toNat + d2.toNat + d1.toNat) + (q &&& 0xf).toNat :=
    sum0_toNat hd3 hd2 hd1 hd0
  have ht0 : ((s0 * 0xcd) >>> 11).toNat = s0.toNat / 10 := tenth_toNat (by omega)
  have hs1 : s1.toNat = s0.toNat / 10 + 9 * d3.toNat + 5 * d2.toNat + d1.toNat :=
    ht0 ▸ sum1_toNat (by omega) hd3 hd2 hd1
  have ht1 : ((s1 * 0xcd) >>> 11).toNat = s1.toNat / 10 := tenth_toNat (by omega)
  have hs2 : s2.toNat = s1.toNat / 10 + 2 * d2.toNat := ht1 ▸ sum2_toNat (by omega) hd2
  have ht2 : ((s2 * 0xd) >>> 7).toNat = s2.toNat / 10 := tenth_toNat' (by omega)
  have hs3 : s3.toNat = s2.toNat / 10 + 4 * d3.toNat := ht2 ▸ sum3_toNat (by omega) hd3
  obtain ⟨h0, h1, h2, h3⟩ := decSums_nat hn hs0 hs1 hs2 hs3
  refine ⟨⟨by omega, h0.symm⟩, ⟨by omega, ?_, ?_⟩, ⟨by omega, ?_, ?_⟩, by omega, h3.symm⟩
  · rw [h1, Nat.add_mul_mod_self_left]
  · clear hs0 hs2 hs3 ht0 ht1 ht2 hn h0 h2 h3
    omega
  · clear hs0 hs1 hs2 hs3 ht0 ht1 ht2 hn h0 h1 h3
    omega
  · clear hs0 hs1 hs2 hs3 ht0 ht1 ht2 hn h0 h1 h3
    omega

section Digits

variable {n k : ℕ} {d3 s0 s1 s2 s3 : U32}

theorem DecSums.full (h : DecSums n d3 s0 s1 s2 s3) :
    let q0 := (s0 * 0xcd) >>> 11
    let q1 := (s1 * 0xcd) >>> 11
    let q2 := (s2 * 0xd) >>> 7
    let q3 := (s3 * 0xcd) >>> 11
    [decChar (s0 - 10 * q0), decChar (s1 - 10 * q1), decChar (s2 - 10 * q2), decChar (s3 - 10 * q3),
      decChar q3] =
    [decDigit (n % 10), decDigit (n / 10 % 10), decDigit (n / 100 % 10), decDigit (n / 1000 % 10),
      decDigit (n / 10000)] := by
  obtain ⟨⟨hlt0, h0⟩, ⟨hlt1, h1, -⟩, ⟨hlt2, h2, -⟩, hlt3, h3⟩ := h
  intro q0 q1 q2 q3
  have htop : n / 1000 / 10 = n / 10000 := Nat.div_div_eq_div_mul _ _ _
  rw [decChar_sub (tenth_toNat hlt0), decChar_sub (tenth_toNat hlt1),
    decChar_sub (tenth_toNat' hlt2), decChar_sub (tenth_toNat hlt3), decChar_eq q3,
    tenth_toNat hlt3, h0, h1, h2, h3, htop]

-- The digits from the place of `10 ^ k` on, or nothing when they are all zero.
def decRest (n k : ℕ) : List Byte :=
  if n / 10 ^ k = 0 then [] else (numeral 10 (n / 10 ^ k)).map decDigit

theorem decRest_nil (h : n < 10 ^ k) : decRest n k = [] := by
  rw [decRest, if_pos (Nat.div_eq_of_lt h)]

theorem numeral_cons_decRest (n : ℕ) :
    (numeral 10 n).map decDigit = decDigit (n % 10) :: decRest n 1 := by
  rw [decRest, Nat.pow_one]
  split_ifs with hq
  · have hlt : n < 10 := by omega
    rw [numeral_of_lt hlt, Nat.mod_eq_of_lt hlt]
    rfl
  · rw [numeral_of_le (by decide) (by omega)]
    rfl

theorem decRest_cons (h : 10 ^ k ≤ n) :
    decRest n k = decDigit (n / 10 ^ k % 10) :: decRest n (k + 1) := by
  have hpos : n / 10 ^ k ≠ 0 := (Nat.div_pos h (Nat.pow_pos (by decide))).ne'
  have hdiv : n / 10 ^ (k + 1) = n / 10 ^ k / 10 ^ 1 := by
    rw [Nat.div_div_eq_div_mul, Nat.pow_succ, Nat.pow_one]
  rw [decRest, if_neg hpos, numeral_cons_decRest, decRest, decRest, hdiv]

theorem DecSums.trunc (h : DecSums n d3 s0 s1 s2 s3) (hn : n < 100000) :
    let q0 := (s0 * 0xcd) >>> 11
    let q1 := (s1 * 0xcd) >>> 11
    let q2 := (s2 * 0xd) >>> 7
    let q3 := (s3 * 0xcd) >>> 11
    (decChar (s0 - 10 * q0) ::
      if s1 ≠ 0 then
        decChar (s1 - 10 * q1) ::
          if s2 ≠ 0 ∨ d3 ≠ 0 then
            decChar (s2 - 10 * q2) ::
              if s3 ≠ 0 then decChar (s3 - 10 * q3) :: if q3 ≠ 0 then [decChar q3] else []
              else []
          else []
      else []) = (numeral 10 n).map decDigit := by
  obtain ⟨⟨hlt0, h0⟩, ⟨hlt1, h1, hz1⟩, ⟨hlt2, h2, hz2⟩, hlt3, h3⟩ := h
  intro q0 q1 q2 q3
  have hzero (x : U32) : x ≠ 0 ↔ x.toNat ≠ 0 := not_congr BitVec.toNat_eq
  have hq3 : q3.toNat = n / 10000 := by
    rw [tenth_toNat hlt3, h3]
    exact Nat.div_div_eq_div_mul _ _ _
  have hor : s2 ≠ 0 ∨ d3 ≠ 0 ↔ ¬n < 100 := by
    rw [hzero, hzero, ← hz2]
    omega
  rw [numeral_cons_decRest, decChar_sub (tenth_toNat hlt0), decChar_sub (tenth_toNat hlt1),
    decChar_sub (tenth_toNat' hlt2), decChar_sub (tenth_toNat hlt3), decChar_eq q3, h0, h1, h2, h3,
    hq3]
  simp only [hzero s1, hzero s3, hzero q3, hor, hz1, h3, hq3, ne_eq]
  -- one place after the other, as long as there are digits left
  refine congrArg₂ List.cons rfl ?_
  by_cases hten : n < 10
  · rw [if_neg (not_not.mpr hten), decRest_nil (by omega)]
  rw [if_pos hten, decRest_cons (by omega)]
  refine congrArg₂ List.cons rfl ?_
  by_cases hhundred : n < 100
  · rw [if_neg (not_not.mpr hhundred), decRest_nil (by omega)]
  rw [if_pos hhundred, decRest_cons (by omega)]
  refine congrArg₂ List.cons rfl ?_
  by_cases hthousand : n / 1000 = 0
  · rw [if_neg (not_not.mpr hthousand), decRest_nil (by omega)]
  rw [if_pos hthousand, decRest_cons (by omega)]
  refine congrArg₂ List.cons rfl ?_
  by_cases hmyriad : n / 10000 = 0
  · rw [if_neg (not_not.mpr hmyriad), decRest_nil (by omega)]
  have hlast : n / 10 ^ 4 % 10 = n / 10000 := Nat.mod_eq_of_lt (by omega)
  rw [if_pos hmyriad, decRest_cons (by omega), hlast, decRest_nil (by omega)]

end Digits

theorem putDecFull_eq {q : U32} (hq : q.toNat < 100000) :
    putDecFull q = [decDigit (q.toNat % 10), decDigit (q.toNat / 10 % 10),
      decDigit (q.toNat / 100 % 10), decDigit (q.toNat / 1000 % 10), decDigit (q.toNat / 10000)] :=
  (decSums q hq).full

-- `put_dec_trunc` leaves out the zeros on the left.
theorem putDecTrunc_eq {q : U32} (hq : q.toNat < 100000) :
    putDecTrunc q = (numeral 10 q.toNat).map decDigit :=
  (decSums q hq).trunc hq

-- Five digits at a time.
theorem numeral_five {n : ℕ} (h : 100000 ≤ n) :
    numeral 10 n = [n % 10, n / 10 % 10, n / 100 % 10, n / 1000 % 10, n / 10000 % 10] ++
      numeral 10 (n / 100000) := by
  have hten : 1 < 10 := by decide
  have hdiv (a b : ℕ) : n / a / b = n / (a * b) := Nat.div_div_eq_div_mul n a b
  rw [numeral_of_le hten (by omega), numeral_of_le hten (by omega), hdiv,
    numeral_of_le hten (by omega), hdiv, numeral_of_le hten (by omega), hdiv,
    numeral_of_le hten (by omega), hdiv]
  rfl

-- They are those of the remainder.
theorem lowDigits (n : ℕ) :
    [decDigit (n % 100000 % 10), decDigit (n % 100000 / 10 % 10), decDigit (n % 100000 / 100 % 10),
      decDigit (n % 100000 / 1000 % 10), decDigit (n % 100000 / 10000)] =
    [n % 10, n / 10 % 10, n / 100 % 10, n / 1000 % 10, n / 10000 % 10].map decDigit := by
  have hdigit (a b : ℕ) (ha : a * (10 * b) = 100000) :
      n % 100000 / a % 10 = n / a % 10 := by
    rw [← ha, Nat.mod_mul_right_div_self, Nat.mod_mul_right_mod]
  have h0 := hdigit 1 10000 rfl
  rw [Nat.div_one, Nat.div_one] at h0
  have h4 : n % 100000 / 10000 = n / 10000 % 10 := Nat.mod_mul_right_div_self n 10000 10
  rw [h0, hdigit 10 1000 rfl, hdigit 100 100 rfl, hdigit 1000 10 rfl, h4]
  rfl

theorem putDecLoop_eq {m fuel : ℕ} {num : U64} (hnum : num.toNat < 100000 ^ m) (hm : m < fuel) :
    putDecLoop fuel num = .ok ((numeral 10 num.toNat).map decDigit) := by
  induction m generalizing fuel num with
  | zero =>
      obtain ⟨fuel, rfl⟩ : ∃ f, fuel = f + 1 := ⟨fuel - 1, by omega⟩
      have hzero : num = 0 := BitVec.eq_of_toNat_eq (by simpa using hnum)
      subst hzero
      rfl
  | succ m ih =>
      obtain ⟨fuel, rfl⟩ : ∃ f, fuel = f + 1 := ⟨fuel - 1, by omega⟩
      rw [putDecLoop]
      split_ifs with hlt
      · have hlt : num.toNat < 100000 := hlt
        have hword : (num.setWidth 32).toNat = num.toNat := by
          rw [BitVec.toNat_setWidth, Nat.mod_eq_of_lt (by omega)]
        rw [putDecTrunc_eq (hword ▸ hlt), hword]
      · have hle : 100000 ≤ num.toNat := Nat.le_of_not_lt hlt
        have hquot : (BitVec.ofNat 64 (num.toNat / 100000)).toNat = num.toNat / 100000 := by
          have hn := num.isLt
          rw [BitVec.toNat_ofNat, Nat.mod_eq_of_lt (by omega)]
        have hremlt : num.toNat % 100000 < 100000 := Nat.mod_lt _ (by decide)
        have hrem : (BitVec.ofNat 32 (num.toNat % 100000)).toNat = num.toNat % 100000 := by
          rw [BitVec.toNat_ofNat, Nat.mod_eq_of_lt (by omega)]
        have hrest : (BitVec.ofNat 64 (num.toNat / 100000)).toNat < 100000 ^ m := by
          rw [hquot]
          exact Nat.div_lt_of_lt_mul (by rwa [Nat.mul_comm, ← Nat.pow_succ])
        have hdiv : doDiv num 100000 = .ok (BitVec.ofNat 32 (num.toNat % 100000),
            BitVec.ofNat 64 (num.toNat / 100000)) := doDiv_eq num (by decide)
        simp only [hdiv, Outcome.ok_bind, ih hrest (show m < fuel by omega), hquot]
        rw [putDecFull_eq (hrem.trans_lt hremlt), hrem, lowDigits, numeral_five hle,
          List.map_append]

-- `put_dec` writes the decimal digits of every 64-bit number, the last one first.
theorem putDec_eq (num : U64) : putDec num = .ok ((numeral 10 num.toNat).map decDigit) :=
  putDecLoop_eq (m := 4) (num.isLt.trans_le (by decide)) (by decide)

end Lmosem
