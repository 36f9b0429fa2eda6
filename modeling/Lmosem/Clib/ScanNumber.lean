import Lmosem.Clib.Scan
import Lmosem.Lib.Numeral

-- What `simple_strtoul` and the functions beside it read.
namespace Lmosem

open Numeral

def digitValue (c : Byte) : ℕ :=
  if c < char 'A' then c.toNat - 0x30
  else if c < char 'a' then c.toNat - 0x41 + 10
  else c.toNat - 0x61 + 10

def isDigitOf (base : U32) (c : Byte) : Bool := isxdigit c && digitValue c < base.toNat

-- The number at the start of a text, and what is behind it.
def numberAt (cp : List Byte) (base : U32) : ℕ × List Byte :=
  let (base, cp) := strtoulStart cp base
  (read base.toNat 0 ((cp.takeWhile (isDigitOf base)).map digitValue),
    cp.dropWhile (isDigitOf base))

def signedNumberAt (cp : List Byte) (base : U32) : ℤ × List Byte :=
  if cp.headD 0 = char '-' then (-(numberAt cp.tail base).1, (numberAt cp.tail base).2)
  else ((numberAt cp base).1, (numberAt cp base).2)

theorem strtoulDigit_eq : ∀ c : Byte, isxdigit c = true → (strtoulDigit c).toNat = digitValue c := by
  decide +kernel

theorem strtoullDigit_eq :
    ∀ c : Byte, isxdigit c = true → (strtoullDigit c).toNat = digitValue c := by
  decide +kernel

-- The loop takes the digits of its base, and counts modulo the width of a word.
theorem strtoulLoop_eq {w : ℕ} {digit : Byte → BitVec w} {base : U32} {wide : BitVec w}
    (hdigit : ∀ c, isxdigit c = true → (digit c).toNat = digitValue c)
    (hbase : wide.toNat = base.toNat) (cp : List Byte) (r : ℕ) :
    strtoulLoop digit wide cp (BitVec.ofNat w r) =
      (BitVec.ofNat w (read base.toNat r ((cp.takeWhile (isDigitOf base)).map digitValue)),
        cp.dropWhile (isDigitOf base)) := by
  induction cp generalizing r with
  | nil => rfl
  | cons c cp ih =>
      have hiff : isxdigit c = true ∧ digit c < wide ↔ isDigitOf base c = true := by
        rw [isDigitOf, Bool.and_eq_true, decide_eq_true_eq]
        refine and_congr_right fun hx => ?_
        rw [BitVec.lt_def, hdigit c hx, hbase]
      rw [strtoulLoop]
      by_cases hc : isDigitOf base c = true
      · have hvalue : digit c = BitVec.ofNat w (digitValue c) := by
          rw [← hdigit c (hiff.mpr hc).1, BitVec.ofNat_toNat, BitVec.setWidth_eq]
        have hwide : wide = BitVec.ofNat w base.toNat := by
          rw [← hbase, BitVec.ofNat_toNat, BitVec.setWidth_eq]
        have hstep : BitVec.ofNat w r * wide + digit c =
            BitVec.ofNat w (r * base.toNat + digitValue c) := by
          rw [hvalue, hwide, BitVec.ofNat_add, BitVec.ofNat_mul]
        rw [if_pos (hiff.mpr hc), hstep, ih, List.takeWhile_cons_of_pos hc,
          List.dropWhile_cons_of_pos hc]
        rfl
      · rw [if_neg (hiff.not.mpr hc), List.takeWhile_cons_of_neg hc, List.dropWhile_cons_of_neg hc]
        rfl

theorem simpleStrtoul_eq (cp : List Byte) (base : U32) :
    simpleStrtoul cp base = (BitVec.ofNat 32 (numberAt cp base).1, (numberAt cp base).2) :=
  strtoulLoop_eq strtoulDigit_eq rfl _ 0

theorem simpleStrtoull_eq (cp : List Byte) (base : U32) :
    simpleStrtoull cp base = (BitVec.ofNat 64 (numberAt cp base).1, (numberAt cp base).2) := by
  refine strtoulLoop_eq strtoullDigit_eq ?_ _ 0
  rw [BitVec.toNat_setWidth]
  have := (strtoulStart cp base).1.isLt
  omega

theorem simpleStrtol_eq (cp : List Byte) (base : U32) :
    simpleStrtol cp base =
      (BitVec.ofInt 32 (signedNumberAt cp base).1, (signedNumberAt cp base).2) := by
  unfold simpleStrtol signedNumberAt
  simp only [simpleStrtoul_eq]
  split_ifs
  · rw [BitVec.ofInt_neg, BitVec.ofInt_natCast]
  · rw [BitVec.ofInt_natCast]

theorem simpleStrtoll_eq (cp : List Byte) (base : U32) :
    simpleStrtoll cp base =
      (BitVec.ofInt 64 (signedNumberAt cp base).1, (signedNumberAt cp base).2) := by
  unfold simpleStrtoll signedNumberAt
  simp only [simpleStrtoull_eq]
  split_ifs
  · rw [BitVec.ofInt_neg, BitVec.ofInt_natCast]
  · rw [BitVec.ofInt_natCast]

end Lmosem
