import Lmosem.Clib.Out
import Lmosem.Clib.PutDec

-- Numbers as text.
namespace Lmosem

open Numeral While

abbrev ZEROPAD : U32 := 1
abbrev SIGN : U32 := 2
abbrev PLUS : U32 := 4
abbrev SPACE : U32 := 8
abbrev LEFT : U32 := 16
abbrev SPECIAL : U32 := 32
abbrev LARGE : U32 := 64

abbrev SMALL : U32 := 32

-- The `digits` of `number`.
def digits : List Byte :=
  [char '0', char '1', char '2', char '3', char '4', char '5', char '6', char '7', char '8',
    char '9', char 'A', char 'B', char 'C', char 'D', char 'E', char 'F']

-- The loop for base 8 and 16, with the room that is left in `tmp`. A digit behind its end
-- destroys the stack.
def numberDigits (mask : U32) (shift : ℕ) (locase : Byte) : ℕ → U64 → Outcome (List Byte)
  | 0, _ => .fault
  | room + 1, num => do
      let ch := digits.getD ((num.setWidth 8).setWidth 32 &&& mask).toNat 0 ||| locase
      let num := num.sshiftRight shift
      if num ≠ 0 then
        let rest ← numberDigits mask shift locase room num
        .ok (ch :: rest)
      else .ok [ch]

-- What `number` generates in `tmp`, the last digit first.
def numberTmp (num : U64) (base : U32) (locase : Byte) : Outcome (List Byte) :=
  if num = 0 then .ok [char '0']
  else if base ≠ 10 then
    numberDigits (base - 1) (if base = 16 then 4 else 3) locase 100 num
  else putDec num

-- The sign, the number that is left to print, and the width that is left for it.
def numberSign (num : U64) (size : U32) (type : U32) : Option Byte × U64 × U32 :=
  if type &&& SIGN ≠ 0 then
    if num.slt 0 then (some (char '-'), -num, size - 1)
    else if type &&& PLUS ≠ 0 then (some (char '+'), num, size - 1)
    else if type &&& SPACE ≠ 0 then (some (char ' '), num, size - 1)
    else (none, num, size)
  else (none, num, size)

-- What `number` writes when `tmp` is complete, from `if (i > precision)` on.
def numberOut (endp : Adr) (sign : Option Byte) (need_pfx : Bool) (locase : Byte) (base : U32)
    (tmp : List Byte) (size precision : U32) (type : U32) (buf : Out) : Out :=
  let i : U32 := BitVec.ofNat 32 tmp.length
  let precision := if precision.slt i then i else precision
  let size := size - precision
  let (size, buf) :=
    if type &&& (ZEROPAD + LEFT) = 0 then preDec 0 (ADDCH endp (char ' ')) size buf else (size, buf)
  let buf :=
    match sign with
    | some sign => ADDCH endp sign buf
    | none => buf
  let buf :=
    if need_pfx then
      let buf := ADDCH endp (char '0') buf
      if base = 16 then ADDCH endp (char 'X' ||| locase) buf else buf
    else buf
  let (size, buf) :=
    if type &&& LEFT = 0 then
      let c := if type &&& ZEROPAD ≠ 0 then char '0' else char ' '
      preDec 0 (ADDCH endp c) size buf
    else (size, buf)
  let (_, buf) := preDec i (ADDCH endp (char '0')) precision buf
  -- `while (--i >= 0) ADDCH(buf, tmp[i]);`
  let buf := emits (ADDCH endp) tmp.reverse buf
  let (_, buf) := preDec 0 (ADDCH endp (char ' ')) size buf
  buf

-- `num` is a `signed long long`, `size` and `precision` are `int`s, which wrap. The result is the
-- `buf` that is returned.
def number (endp : Adr) (num : U64) (base : U32) (size precision : U32) (type : U32) (buf : Out) :
    Outcome Out := do
  let need_pfx : Bool := type &&& SPECIAL ≠ 0 ∧ base ≠ 10
  let locase : Byte := (type &&& SMALL).setWidth 8
  let type := if type &&& LEFT ≠ 0 then type &&& ~~~ZEROPAD else type
  let (sign, num, size) := numberSign num size type
  let size := if need_pfx then if base = 16 then size - 1 - 1 else size - 1 else size
  let tmp ← numberTmp num base locase
  .ok (numberOut endp sign need_pfx locase base tmp size precision type buf)

-- The character of a digit.
def digitChar (locase : Byte) (d : ℕ) : Byte := digits.getD d 0 ||| locase

-- The text of a number: spaces in front, sign and prefix, zeros, digits, spaces behind. What
-- is missing to `size` goes to the first place that may be filled up. The places behind it are
-- for a `size` that has wrapped.
def numberText (num : U64) (base : U32) (size precision : U32) (type : U32) : List Byte :=
  let locase : Byte := (type &&& SMALL).setWidth 8
  let sign := (numberSign num size type).1.toList
  let pfx :=
    if type &&& SPECIAL ≠ 0 ∧ base ≠ 10 then
      if base = 16 then [char '0', char 'X' ||| locase] else [char '0']
    else []
  let num := (numberSign num size type).2.1
  let text := ((numeral base.toNat num.toNat).map (digitChar locase)).reverse
  let zeros := List.replicate (precision.toInt - text.length).toNat (char '0')
  let size := size - BitVec.ofInt 32 (sign.length + pfx.length + max precision.toInt text.length)
  let fill (place : ℕ) := List.replicate (preTurns 0 ((preRest 0)^[place] size))
  if type &&& LEFT ≠ 0 then sign ++ pfx ++ zeros ++ text ++ fill 0 (char ' ')
  else if type &&& ZEROPAD ≠ 0 then
    sign ++ pfx ++ fill 0 (char '0') ++ zeros ++ text ++ fill 1 (char ' ')
  else
    fill 0 (char ' ') ++ sign ++ pfx ++ fill 1 (char ' ') ++ zeros ++ text ++ fill 2 (char ' ')

theorem decDigit_eq {locase : Byte} (hl : locase = 0 ∨ locase = 0x20) {d : ℕ} (hd : d < 10) :
    decDigit d = digitChar locase d := by
  have hall : ∀ d : Fin 10, decDigit d = digitChar 0 d ∧ decDigit d = digitChar 0x20 d := by decide
  rcases hl with rfl | rfl
  · exact (hall ⟨d, hd⟩).1
  · exact (hall ⟨d, hd⟩).2

section Tmp

variable {mask : U32} {shift room : ℕ} {locase : Byte} {num : U64}

-- A negative number never becomes zero.
theorem numberDigits_fault (h : num.msb = true) : numberDigits mask shift locase room num = .fault := by
  induction room generalizing num with
  | zero => rfl
  | succ room ih =>
      have hmsb : (num.sshiftRight shift).msb = true := by rw [BitVec.msb_sshiftRight, h]
      have hne : num.sshiftRight shift ≠ 0 := by
        intro hzero
        rw [hzero] at hmsb
        cases hmsb
      rw [numberDigits]
      simp only [if_pos hne, ih hmsb]
      rfl

theorem numberDigits_eq (hmask : ∀ num : U64, ((num.setWidth 8).setWidth 32 &&& mask).toNat =
      num.toNat % 2 ^ shift) (hshift : 0 < shift) (h : num.msb = false)
    (hroom : num.toNat < (2 ^ shift) ^ room) (hpos : 0 < room) :
    numberDigits mask shift locase room num =
      .ok ((numeral (2 ^ shift) num.toNat).map (digitChar locase)) := by
  induction room generalizing num with
  | zero => omega
  | succ room ih =>
      have hbase : 1 < 2 ^ shift := Nat.one_lt_two_pow hshift.ne'
      have hmsb : (num.sshiftRight shift).msb = false := by rw [BitVec.msb_sshiftRight, h]
      have hdiv : (num.sshiftRight shift).toNat = num.toNat / 2 ^ shift := by
        rw [BitVec.sshiftRight_eq_of_msb_false h, BitVec.toNat_ushiftRight, Nat.shiftRight_eq_div_pow]
      rw [numberDigits]
      by_cases hle : 2 ^ shift ≤ num.toNat
      · have hne : num.sshiftRight shift ≠ 0 := by
          intro hzero
          rw [hzero] at hdiv
          exact absurd hdiv (Nat.div_pos hle (by omega)).ne
        have hrest : (num.sshiftRight shift).toNat < (2 ^ shift) ^ room := by
          rw [hdiv]
          exact Nat.div_lt_of_lt_mul (by rwa [Nat.mul_comm, ← Nat.pow_succ])
        have hroom' : 0 < room := by
          rcases Nat.eq_zero_or_pos room with rfl | hr
          · rw [Nat.zero_add, Nat.pow_one] at hroom
            omega
          · exact hr
        simp only [if_pos hne, ih hmsb hrest hroom', Outcome.ok_bind]
        rw [numeral_of_le hbase hle, hdiv, List.map_cons, digitChar, hmask]
      · have hzero : num.sshiftRight shift = 0 := by
          apply BitVec.eq_of_toNat_eq
          rw [hdiv]
          exact Nat.div_eq_of_lt (by omega)
        simp only [hzero, ne_eq, not_true_eq_false, if_false]
        rw [numeral_of_lt (by omega), hmask, Nat.mod_eq_of_lt (by omega)]
        rfl

end Tmp

-- The bases `number` is called with.
def NumberBase (base : U32) : Prop := base = 8 ∨ base = 10 ∨ base = 16

-- The number overruns `tmp`: it is negative and is not printed in base 10.
def Overruns (num : U64) (base : U32) : Prop := base ≠ 10 ∧ num.msb = true

instance (num : U64) (base : U32) : Decidable (Overruns num base) :=
  inferInstanceAs (Decidable (_ ∧ _))

theorem numberTmp_fault {num : U64} {base : U32} {locase : Byte} (h : Overruns num base) :
    numberTmp num base locase = .fault := by
  obtain ⟨hbase, hmsb⟩ := h
  have hne : num ≠ 0 := by
    rintro rfl
    cases hmsb
  rw [numberTmp, if_neg hne, if_pos hbase, numberDigits_fault hmsb]

theorem numberTmp_eq {num : U64} {base : U32} {locase : Byte} (hbase : NumberBase base)
    (hl : locase = 0 ∨ locase = 0x20) (h : ¬Overruns num base) :
    numberTmp num base locase =
      .ok ((numeral base.toNat num.toNat).map (digitChar locase)) := by
  have hbyte (num : U64) : ((num.setWidth 8).setWidth 32 : U32).toNat = num.toNat % 256 := by
    simp only [BitVec.toNat_setWidth]
    omega
  unfold numberTmp
  split_ifs with hzero hten hsixteen
  · subst hzero
    have hdigit : digitChar locase 0 = char '0' := (decDigit_eq hl (by decide)).symm
    have hnum : numeral base.toNat (0 : U64).toNat = [0] := rfl
    rw [hnum, List.map_singleton, hdigit]
  · subst hsixteen
    have hmsb : num.msb = false := by simpa [Overruns, hten] using h
    refine numberDigits_eq (fun num => ?_) (by decide) hmsb (num.isLt.trans_le ?_) (by decide)
    · rw [BitVec.toNat_and, hbyte]
      exact (Nat.and_two_pow_sub_one_eq_mod _ 4).trans (by omega)
    · decide
  · obtain rfl : base = 8 := by
      rcases hbase with h8 | h10 | h16
      · exact h8
      · exact absurd h10 hten
      · exact absurd h16 hsixteen
    have hmsb : num.msb = false := by simpa [Overruns, hten] using h
    refine numberDigits_eq (fun num => ?_) (by decide) hmsb (num.isLt.trans_le ?_) (by decide)
    · rw [BitVec.toNat_and, hbyte]
      exact (Nat.and_two_pow_sub_one_eq_mod _ 3).trans (by omega)
    · decide
  · obtain rfl : base = 10 := not_not.mp hten
    rw [putDec_eq]
    congr 1
    exact List.map_congr_left fun d hd => decDigit_eq hl (numeral_lt (by decide) hd)

-- What clearing `ZEROPAD` under `LEFT` leaves of the flags.
structure PadFlags (type type' : U32) : Prop where
  left : type' &&& LEFT = type &&& LEFT
  zero : type' &&& ZEROPAD ≠ 0 ↔ type &&& ZEROPAD ≠ 0 ∧ type &&& LEFT = 0
  both : type' &&& (ZEROPAD + LEFT) = 0 ↔ type &&& ZEROPAD = 0 ∧ type &&& LEFT = 0
  sign : type' &&& SIGN = type &&& SIGN
  plus : type' &&& PLUS = type &&& PLUS
  space : type' &&& SPACE = type &&& SPACE

theorem and_both_eq_zero (x : U32) :
    x &&& (ZEROPAD + LEFT) = 0 ↔ x &&& ZEROPAD = 0 ∧ x &&& LEFT = 0 := by
  have hor : (ZEROPAD + LEFT : U32) = ZEROPAD ||| LEFT := rfl
  rw [hor, BitVec.and_or_distrib_left]
  exact BitVec.or_eq_zero_iff

theorem padFlags (type : U32) :
    PadFlags type (if type &&& LEFT ≠ 0 then type &&& ~~~ZEROPAD else type) := by
  by_cases hleft : type &&& LEFT ≠ 0
  · have hmask (flag : U32) (h : ~~~ZEROPAD &&& flag = flag) :
        type &&& ~~~ZEROPAD &&& flag = type &&& flag := by
      rw [BitVec.and_assoc, h]
    have hzero : type &&& ~~~ZEROPAD &&& ZEROPAD = 0 := by
      rw [BitVec.and_assoc]
      exact BitVec.and_zero
    rw [if_pos hleft]
    refine ⟨hmask _ rfl, ?_, ?_, hmask _ rfl, hmask _ rfl, hmask _ rfl⟩
    · exact ⟨fun h => absurd hzero h, fun h => absurd h.2 hleft⟩
    · rw [and_both_eq_zero, hmask LEFT rfl]
      exact ⟨fun h => absurd h.2 hleft, fun h => absurd h.2 hleft⟩
  · rw [if_neg hleft]
    exact ⟨rfl, ⟨fun h => ⟨h, not_not.mp hleft⟩, And.left⟩, and_both_eq_zero type, rfl, rfl, rfl⟩

theorem numberSign_size (num : U64) (size : U32) (type : U32) :
    (numberSign num size type).2.2 =
      size - BitVec.ofNat 32 (numberSign num size type).1.toList.length := by
  unfold numberSign
  split_ifs <;> simp

theorem numberSign_congr {type type' : U32} (h : PadFlags type type') (num : U64) (size : U32) :
    numberSign num size type' = numberSign num size type := by
  unfold numberSign
  rw [h.sign, h.plus, h.space]

theorem locase_cases (type : U32) :
    ((type &&& SMALL).setWidth 8 : Byte) = 0 ∨ ((type &&& SMALL).setWidth 8 : Byte) = 0x20 := by
  have hand : type &&& SMALL = 0 ∨ type &&& SMALL = SMALL := by
    have hbit : SMALL = BitVec.twoPow 32 5 := rfl
    rw [hbit, BitVec.and_twoPow]
    split_ifs
    · exact Or.inr rfl
    · exact Or.inl rfl
  rcases hand with h | h
  · rw [h]
    exact Or.inl rfl
  · rw [h]
    exact Or.inr rfl

theorem preDec_emits (put : Byte → Out → Out) {lo : U32} (hlo : -2 ^ 31 < lo.toInt) (x : U32)
    (ch : Byte) (o : Out) :
    preDec lo (put ch) x o = (preRest lo x, emits put (List.replicate (preTurns lo x) ch) o) := by
  rw [preDec_eq hlo, emits_replicate]

-- The loops that fill up, after each other.
theorem numberOut_eq (endp : Adr) (sign : Option Byte) (need_pfx : Bool) (locase : Byte)
    (base : U32) {tmp : List Byte} (size precision : U32) (type : U32) (buf : Out)
    (htmp : tmp.length < 2 ^ 31) :
    let pfx :=
      if need_pfx then if base = 16 then [char '0', char 'X' ||| locase] else [char '0'] else []
    let zeros := List.replicate (precision.toInt - tmp.length).toNat (char '0')
    let fill (place : ℕ) := List.replicate
      (preTurns 0 ((preRest 0)^[place] (size - BitVec.ofInt 32 (max precision.toInt tmp.length))))
    numberOut endp sign need_pfx locase base tmp size precision type buf =
      emits (ADDCH endp)
        (if type &&& LEFT ≠ 0 then sign.toList ++ pfx ++ zeros ++ tmp.reverse ++ fill 0 (char ' ')
        else if type &&& ZEROPAD ≠ 0 then
          sign.toList ++ pfx ++ fill 0 (char '0') ++ zeros ++ tmp.reverse ++ fill 1 (char ' ')
        else
          fill 0 (char ' ') ++ sign.toList ++ pfx ++ fill 1 (char ' ') ++ zeros ++ tmp.reverse ++
            fill 2 (char ' ')) buf := by
  intro pfx zeros fill
  have hzero : -2 ^ 31 < (0 : U32).toInt := by decide
  have hcount : (BitVec.ofNat 32 tmp.length).toInt = tmp.length := by
    rw [← BitVec.ofInt_natCast, BitVec.toInt_ofInt]
    exact Int.bmod_eq_of_le (by omega) (by omega)
  have hbound := toInt_bounds precision
  have hmax : (if precision.slt (BitVec.ofNat 32 tmp.length) then BitVec.ofNat 32 tmp.length
      else precision) = BitVec.ofInt 32 (max precision.toInt tmp.length) := by
    simp only [BitVec.slt_iff_toInt_lt, hcount]
    split_ifs with hlt
    · rw [max_eq_right hlt.le, BitVec.ofInt_natCast]
    · rw [max_eq_left (not_lt.mp hlt), BitVec.ofInt_toInt]
  have hsign (buf : Out) : (match sign with
      | some sign => ADDCH endp sign buf
      | none => buf) = emits (ADDCH endp) sign.toList buf := by
    cases sign <;> rfl
  have hpfx (buf : Out) : (if need_pfx then
        let buf := ADDCH endp (char '0') buf
        if base = 16 then ADDCH endp (char 'X' ||| locase) buf else buf
      else buf) = emits (ADDCH endp) pfx buf := by
    simp only [pfx]
    split_ifs <;> rfl
  have hzeros : List.replicate (preTurns (BitVec.ofNat 32 tmp.length)
      (BitVec.ofInt 32 (max precision.toInt tmp.length))) (char '0') = zeros := by
    have htoInt : (BitVec.ofInt 32 (max precision.toInt tmp.length)).toInt =
        max precision.toInt tmp.length := by
      rw [BitVec.toInt_ofInt]
      exact Int.bmod_eq_of_le (by omega) (by omega)
    have hpred := toInt_pred (x := BitVec.ofInt 32 (max precision.toInt tmp.length)) (by omega)
    simp only [zeros]
    congr 1
    unfold preTurns
    omega
  unfold numberOut
  simp only [hmax, hsign, hpfx, preDec_emits _ hzero,
    preDec_emits (ADDCH endp) (show -2 ^ 31 < (BitVec.ofNat 32 tmp.length).toInt by omega), hzeros]
  by_cases hleft : type &&& LEFT = 0
  · by_cases hpad : type &&& ZEROPAD = 0
    · have hboth := (and_both_eq_zero type).mpr ⟨hpad, hleft⟩
      simp only [if_pos hboth, hpad, hleft, emits_append, ne_eq, not_true_eq_false, if_true, if_false]
      rfl
    · have hboth : ¬type &&& (ZEROPAD + LEFT) = 0 := fun h => hpad ((and_both_eq_zero type).mp h).1
      simp only [if_neg hboth, hpad, hleft, emits_append, ne_eq, not_true_eq_false,
        not_false_eq_true, if_true, if_false]
      rfl
  · have hboth : ¬type &&& (ZEROPAD + LEFT) = 0 := fun h => hleft ((and_both_eq_zero type).mp h).2
    simp only [if_neg hboth, hleft, emits_append, ne_eq, not_false_eq_true, if_true, if_false]
    rfl

theorem number_fault (endp : Adr) {num : U64} {base : U32} (size precision : U32) {type : U32}
    (buf : Out) (h : Overruns (numberSign num size type).2.1 base) :
    number endp num base size precision type buf = .fault := by
  unfold number
  simp only [numberSign_congr (padFlags type), numberTmp_fault h]
  rfl

-- `number` sends its text where it does not overrun `tmp`.
theorem number_eq (endp : Adr) {num : U64} {base : U32} (size precision : U32) {type : U32}
    (buf : Out) (hbase : NumberBase base) (h : ¬Overruns (numberSign num size type).2.1 base) :
    number endp num base size precision type buf =
      .ok (emits (ADDCH endp) (numberText num base size precision type) buf) := by
  have hpad := padFlags type
  unfold number
  generalize (if type &&& LEFT ≠ 0 then type &&& ~~~ZEROPAD else type) = type' at hpad
  have hone : 1 < base.toNat := by rcases hbase with rfl | rfl | rfl <;> decide
  have hdigits : (numeral base.toNat (numberSign num size type).2.1.toNat).length ≤ 64 :=
    numeral_length_le hone (by decide)
      ((BitVec.isLt _).trans_le (Nat.pow_le_pow_left hone 64))
  simp only [numberSign_congr hpad, numberTmp_eq hbase (locase_cases type) h, Outcome.ok_bind,
    decide_eq_true_eq, numberSign_size num size type]
  rw [numberOut_eq _ _ _ _ _ _ _ _ _ (by rw [List.length_map]; omega)]
  congr 2
  simp only [numberText, List.length_map, List.length_reverse, decide_eq_true_eq]
  generalize hpfx : (if type &&& SPECIAL ≠ 0 ∧ base ≠ 10 then
      if base = 16 then [char '0', char 'X' ||| (type &&& SMALL).setWidth 8] else [char '0']
    else []) = pfx
  have hlen : (if type &&& SPECIAL ≠ 0 ∧ base ≠ 10 then
        if base = 16 then
          size - BitVec.ofNat 32 (numberSign num size type).1.toList.length - 1 - 1
        else size - BitVec.ofNat 32 (numberSign num size type).1.toList.length - 1
      else size - BitVec.ofNat 32 (numberSign num size type).1.toList.length) =
      size - BitVec.ofNat 32 (numberSign num size type).1.toList.length -
        BitVec.ofNat 32 pfx.length := by
    rw [← hpfx]
    split_ifs
    · exact BitVec.sub_sub _ 1 1
    · rfl
    · exact (BitVec.sub_zero _).symm
  have hsum (n : ℤ) : size - BitVec.ofNat 32 (numberSign num size type).1.toList.length -
      BitVec.ofNat 32 pfx.length - BitVec.ofInt 32 n =
      size - BitVec.ofInt 32 ((numberSign num size type).1.toList.length + pfx.length + n) := by
    rw [BitVec.ofInt_add, BitVec.ofInt_add, BitVec.ofInt_natCast, BitVec.ofInt_natCast,
      BitVec.sub_sub, BitVec.sub_sub, BitVec.add_assoc]
  rw [hlen, hsum, hpad.left]
  by_cases hleft : type &&& LEFT = 0
  · have hzero : type' &&& ZEROPAD ≠ 0 ↔ type &&& ZEROPAD ≠ 0 :=
      hpad.zero.trans (and_iff_left hleft)
    simp only [hleft, hzero]
  · simp only [hleft, ne_eq, not_false_eq_true, if_true]

end Lmosem
