import Lmosem.Clib.Overruns
import Lmosem.Clib.ScanNumber

-- Numbers that were printed are read back.
namespace Lmosem

open Memory Numeral While

-- What a number looks like between the spaces: prefix, zeros and digits.
def digitsText (num : ℕ) (base : U32) (type : U32) (zeros : ℕ) : List Byte :=
  let locase : Byte := (type &&& SMALL).setWidth 8
  (if type &&& SPECIAL ≠ 0 ∧ base ≠ 10 then
    if base = 16 then [char '0', char 'X' ||| locase] else [char '0'] else []) ++
    List.replicate zeros (char '0') ++
    ((numeral base.toNat num).map (digitChar locase)).reverse

-- No `int` wraps where a number is printed with this width and this precision.
def Directive.InRange (d : Directive) : Prop :=
  -1 ≤ d.field_width.toInt ∧ d.precision.toInt ≤ 2 ^ 31 - 8

instance (d : Directive) : Decidable d.InRange := inferInstanceAs (Decidable (_ ∧ _))

-- Only one of the three places is filled up.
theorem fill_places {x : U32} (h : -2 ^ 31 + 2 < x.toInt) :
    preTurns 0 ((preRest 0)^[1] x) = 0 ∧ preTurns 0 ((preRest 0)^[2] x) = 0 := by
  have hzero : (0 : U32).toInt = 0 := rfl
  have hlo : -2 ^ 31 < (0 : U32).toInt := by decide
  have hone : (preRest 0 x).toInt = min x.toInt 0 - 1 := preRest_toInt hlo (by omega)
  have htwo : (preRest 0 (preRest 0 x)).toInt = min (preRest 0 x).toInt 0 - 1 :=
    preRest_toInt hlo (by omega)
  constructor
  · change preTurns 0 (preRest 0 x) = 0
    rw [preTurns_eq (by omega)]
    omega
  · change preTurns 0 (preRest 0 (preRest 0 x)) = 0
    rw [preTurns_eq (by omega)]
    omega

-- Every field is made like that, with the sign in front of the prefix.
theorem numberText_shape (num : U64) {base : U32} (hbase : 1 < base.toNat) {d : Directive}
    (h : d.InRange) (type : U32) :
    ∃ lead zeros trail : ℕ, numberText num base d.field_width d.precision type =
      List.replicate lead (char ' ') ++ ((numberSign num d.field_width type).1.toList ++
        digitsText (numberSign num d.field_width type).2.1.toNat base type zeros) ++
        List.replicate trail (char ' ') := by
  obtain ⟨hwidth, hprecision⟩ := h
  have hsign : (numberSign num d.field_width type).1.toList.length ≤ 1 := Option.length_toList_le
  unfold numberText digitsText
  dsimp only
  generalize hpfx : (ite (type &&& SPECIAL ≠ 0 ∧ base ≠ 10) _ _ : List Byte) = pfx
  have htwo : pfx.length ≤ 2 := by
    rw [← hpfx]
    split_ifs <;> simp
  have hdigits : ((numeral base.toNat (numberSign num d.field_width type).2.1.toNat).map
      (digitChar ((type &&& SMALL).setWidth 8))).reverse.length ≤ 64 := by
    rw [List.length_reverse, List.length_map]
    exact numeral_length_le hbase (by decide)
      ((BitVec.isLt _).trans_le (Nat.pow_le_pow_left hbase 64))
  generalize ((numeral base.toNat (numberSign num d.field_width type).2.1.toNat).map
    (digitChar ((type &&& SMALL).setWidth 8))).reverse = digits at hdigits
  generalize (numberSign num d.field_width type).1.toList = sign at hsign
  generalize (d.precision.toInt - digits.length).toNat = zeros
  have hleft : -2 ^ 31 + 2 < (d.field_width - BitVec.ofInt 32
      (sign.length + pfx.length + max d.precision.toInt digits.length)).toInt := by
    have hbound := toInt_bounds d.field_width
    have hsum : (BitVec.ofInt 32 (sign.length + pfx.length +
        max d.precision.toInt digits.length)).toInt =
        sign.length + pfx.length + max d.precision.toInt digits.length := by
      rw [BitVec.toInt_ofInt]
      exact Int.bmod_eq_of_le (by omega) (by omega)
    rw [BitVec.toInt_sub, hsum, Int.bmod_eq_of_le (by omega) (by omega)]
    omega
  obtain ⟨hfirst, hsecond⟩ := fill_places hleft
  generalize d.field_width - BitVec.ofInt 32 _ = size at hfirst hsecond
  by_cases hleft : type &&& LEFT ≠ 0
  · refine ⟨0, zeros, preTurns 0 size, ?_⟩
    simp only [if_pos hleft, List.replicate_zero, List.nil_append, List.append_assoc]
    rfl
  · rw [if_neg hleft]
    by_cases hzero : type &&& ZEROPAD ≠ 0
    · refine ⟨0, preTurns 0 size + zeros, 0, ?_⟩
      simp only [if_pos hzero, hfirst, List.replicate_zero, List.nil_append, List.append_nil,
        List.append_assoc, List.replicate_add]
      rfl
    · refine ⟨preTurns 0 size, zeros, 0, ?_⟩
      simp only [if_neg hzero, hfirst, hsecond, List.replicate_zero, List.append_nil,
        List.append_assoc]
      rfl

section Digits

variable {base : U32} {c : Byte} {rest : List Byte}

-- What stands behind a number: nothing, or white space.
def Ends (rest : List Byte) : Prop := ∀ c ∈ rest.head?, isspace c = true

theorem not_isxdigit_of_isspace : ∀ c : Byte, isspace c = true →
    isxdigit c = false ∧ toupper c ≠ char 'X' ∧ c ≠ 0 := by
  decide +kernel

theorem digitChar_isDigit (type : U32) {base : U32} (hbase : base.toNat ≤ 16) {d : ℕ}
    (hd : d < base.toNat) :
    isDigitOf base (digitChar ((type &&& SMALL).setWidth 8) d) = true ∧
      digitValue (digitChar ((type &&& SMALL).setWidth 8) d) = d := by
  have hall : ∀ d : Fin 16,
      (isxdigit (digitChar 0 d) = true ∧ digitValue (digitChar 0 d) = d) ∧
      (isxdigit (digitChar 0x20 d) = true ∧ digitValue (digitChar 0x20 d) = d) := by decide
  have hd16 := hall ⟨d, by omega⟩
  rcases locase_cases type with h | h <;> rw [h, isDigitOf]
  · rw [hd16.1.1, hd16.1.2]
    exact ⟨by simpa using hd, rfl⟩
  · rw [hd16.2.1, hd16.2.2]
    exact ⟨by simpa using hd, rfl⟩

theorem Ends.no_digit (hrest : Ends rest) : ∀ c ∈ rest.head?, isDigitOf base c = false :=
  fun c hc => by rw [isDigitOf, (not_isxdigit_of_isspace c (hrest c hc)).1, Bool.false_and]

-- A run of digits ends in front of anything else.
theorem takeWhile_digits {ds : List Byte} (hds : ∀ c ∈ ds, isDigitOf base c = true)
    (hrest : ∀ c ∈ rest.head?, isDigitOf base c = false) :
    (ds ++ rest).takeWhile (isDigitOf base) = ds ∧ (ds ++ rest).dropWhile (isDigitOf base) = rest := by
  have hstop : rest.takeWhile (isDigitOf base) = [] ∧ rest.dropWhile (isDigitOf base) = rest := by
    cases rest with
    | nil => exact ⟨rfl, rfl⟩
    | cons c rest =>
        have hc : ¬isDigitOf base c = true := Bool.not_eq_true _ ▸ hrest c rfl
        exact ⟨List.takeWhile_cons_of_neg hc, List.dropWhile_cons_of_neg hc⟩
  rw [List.takeWhile_append_of_pos hds, List.dropWhile_append_of_pos hds, hstop.1, hstop.2,
    List.append_nil]
  exact ⟨rfl, rfl⟩

-- Zeros and the digits of a number, without a prefix.
def bodyText (num : ℕ) (base : U32) (locase : Byte) (zeros : ℕ) : List Byte :=
  List.replicate zeros (char '0') ++ ((numeral base.toNat num).map (digitChar locase)).reverse

theorem bodyText_ne_nil (num : ℕ) (base : U32) (locase : Byte) (zeros : ℕ) :
    bodyText num base locase zeros ≠ [] := by
  refine List.append_ne_nil_of_right_ne_nil _ (List.reverse_ne_nil_iff.mpr ?_)
  exact fun h => numeral_ne_nil _ _ (List.map_eq_nil_iff.mp h)

theorem bodyText_digits (num zeros : ℕ) (type : U32) (hone : 1 < base.toNat)
    (hbase : base.toNat ≤ 16) :
    (∀ c ∈ bodyText num base ((type &&& SMALL).setWidth 8) zeros, isDigitOf base c = true) ∧
      read base.toNat 0 ((bodyText num base ((type &&& SMALL).setWidth 8) zeros).map digitValue) =
        num := by
  have hdigit {d : ℕ} (hd : d ∈ numeral base.toNat num) :=
    digitChar_isDigit type hbase (numeral_lt hone hd)
  have hzero : isDigitOf base (char '0') = true := by
    rw [isDigitOf, Bool.and_eq_true, decide_eq_true_eq]
    exact ⟨by decide, (by decide : digitValue (char '0') = 0).trans_lt (by omega)⟩
  constructor
  · intro c hc
    rw [bodyText, List.mem_append, List.mem_reverse, List.mem_map] at hc
    rcases hc with hc | ⟨d, hd, rfl⟩
    · rw [List.eq_of_mem_replicate hc]
      exact hzero
    · exact (hdigit hd).1
  · have hvalues : ((numeral base.toNat num).map
        (digitChar ((type &&& SMALL).setWidth 8))).map digitValue = numeral base.toNat num := by
      rw [List.map_map]
      exact (List.map_congr_left fun d hd => (hdigit hd).2).trans (List.map_id _)
    have hnil : digitValue (char '0') = 0 := by decide
    rw [bodyText, List.map_append, List.map_replicate, List.map_reverse, hvalues, hnil,
      read_replicate_zero, read_numeral]

-- No `x` stands in front of white space or a digit.
theorem head_ne_X {ds : List Byte} (hds : ∀ c ∈ ds, isDigitOf base c = true) (hrest : Ends rest) :
    toupper ((ds ++ rest).headD 0) ≠ char 'X' := by
  have hall : ∀ c : Byte, isxdigit c = true → toupper c ≠ char 'X' := by decide +kernel
  cases ds with
  | cons c ds =>
      have hc := hds c List.mem_cons_self
      rw [isDigitOf, Bool.and_eq_true] at hc
      exact hall c hc.1
  | nil =>
      cases rest with
      | nil => decide
      | cons c rest => exact (not_isxdigit_of_isspace c (hrest c rfl)).2.1

-- A printed number is read to its end.
theorem numberAt_digitsText {num zeros : ℕ} {type : U32} (hbase : NumberBase base)
    (hrest : Ends rest) :
    numberAt (digitsText num base type zeros ++ rest) base = (num, rest) := by
  have hone : 1 < base.toNat := by rcases hbase with rfl | rfl | rfl <;> decide
  have hsixteen : base.toNat ≤ 16 := by rcases hbase with rfl | rfl | rfl <;> decide
  -- what the loop reads once it has started on zeros and digits
  have hbody (zeros : ℕ) (cp : List Byte)
      (hstart : strtoulStart cp base =
        (base, bodyText num base ((type &&& SMALL).setWidth 8) zeros ++ rest)) :
      numberAt cp base = (num, rest) := by
    obtain ⟨hdigits, hread⟩ := bodyText_digits num zeros type hone
      hsixteen
    obtain ⟨htake, hdrop⟩ := takeWhile_digits hdigits hrest.no_digit
    rw [numberAt, hstart]
    dsimp only
    rw [htake, hdrop, hread]
  rcases hbase with rfl | rfl | rfl
  · by_cases hspecial : type &&& SPECIAL ≠ 0
    · refine hbody (zeros + 1) _ ?_
      rw [digitsText, if_pos ⟨hspecial, by decide⟩, if_neg (by decide), bodyText,
        List.replicate_succ]
      rfl
    · refine hbody zeros _ ?_
      rw [digitsText, if_neg fun h => hspecial h.1]
      rfl
  · refine hbody zeros _ ?_
    rw [digitsText, if_neg fun h => h.2 rfl]
    rfl
  · by_cases hspecial : type &&& SPECIAL ≠ 0
    · refine hbody zeros _ ?_
      have hX : toupper (char 'X' ||| (type &&& SMALL).setWidth 8) = char 'X' := by
        rcases locase_cases type with h | h <;> rw [h] <;> decide
      rw [digitsText, if_pos ⟨hspecial, by decide⟩, if_pos rfl, strtoulStart, if_neg (by decide),
        if_pos rfl]
      exact if_pos ⟨rfl, hX⟩
    · refine hbody zeros _ ?_
      obtain ⟨hdigits, -⟩ := bodyText_digits num zeros type hone
        hsixteen
      have hX : toupper ((bodyText num 16 ((type &&& SMALL).setWidth 8) zeros ++ rest).tail.headD 0) ≠
          char 'X' := by
        have hne := bodyText_ne_nil num 16 ((type &&& SMALL).setWidth 8) zeros
        generalize bodyText num 16 ((type &&& SMALL).setWidth 8) zeros = body at hdigits hne
        cases body with
        | nil => exact absurd rfl hne
        | cons c body => exact head_ne_X (fun c hc => hdigits c (List.mem_cons_of_mem _ hc)) hrest
      rw [digitsText, if_neg fun h => hspecial h.1, strtoulStart, if_neg (by decide), if_pos rfl]
      exact if_neg fun h => hX h.2

-- It starts with a digit.
theorem digitsText_head (num zeros : ℕ) (type : U32) (hbase : NumberBase base) :
    ∃ c ds, digitsText num base type zeros = c :: ds ∧ isDigitOf base c = true := by
  have hone : 1 < base.toNat := by rcases hbase with rfl | rfl | rfl <;> decide
  have hsixteen : base.toNat ≤ 16 := by rcases hbase with rfl | rfl | rfl <;> decide
  have hzero : isDigitOf base (char '0') = true := by rcases hbase with rfl | rfl | rfl <;> decide
  obtain ⟨hdigits, -⟩ := bodyText_digits num zeros type hone hsixteen
  have hne := bodyText_ne_nil num base ((type &&& SMALL).setWidth 8) zeros
  unfold digitsText
  dsimp only
  rw [List.append_assoc]
  change ∃ c ds, _ ++ bodyText num base ((type &&& SMALL).setWidth 8) zeros = c :: ds ∧ _
  split_ifs
  · exact ⟨_, _, rfl, hzero⟩
  · exact ⟨_, _, rfl, hzero⟩
  · generalize bodyText num base ((type &&& SMALL).setWidth 8) zeros = body at hdigits hne
    cases body with
    | nil => exact absurd rfl hne
    | cons c body => exact ⟨c, body, rfl, hdigits c List.mem_cons_self⟩

theorem not_isspace_of_isDigitOf (h : isDigitOf base c = true) : ¬isspace c = true := by
  rw [isDigitOf, Bool.and_eq_true] at h
  intro hspace
  exact Bool.false_ne_true ((not_isxdigit_of_isspace c hspace).1.symm.trans h.1)

theorem skipSpace_replicate (n : ℕ) (s : List Byte) :
    skipSpace (List.replicate n (char ' ') ++ s) = skipSpace s := by
  have hspace : isspace (char ' ') = true := by decide
  refine List.dropWhile_append_of_pos fun c hc => ?_
  rw [List.eq_of_mem_replicate hc]
  exact hspace

theorem numberText_ne_zero (num : U64) {d : Directive} (hbase : NumberBase base) (h : d.InRange)
    (type : U32) : ∀ c ∈ numberText num base d.field_width d.precision type, c ≠ 0 := by
  have hone : 1 < base.toNat := by rcases hbase with rfl | rfl | rfl <;> decide
  have hsixteen : base.toNat ≤ 16 := by rcases hbase with rfl | rfl | rfl <;> decide
  obtain ⟨lead, zeros, trail, htext⟩ := numberText_shape num hone h type
  have hspaces (n : ℕ) : ∀ c ∈ List.replicate n (char ' '), c ≠ 0 := by
    intro c hc
    rw [List.eq_of_mem_replicate hc]
    decide
  have hsign : ∀ c ∈ (numberSign num d.field_width type).1.toList, c ≠ 0 := by
    unfold numberSign
    split_ifs <;> simp only [Option.toList_some, Option.toList_none] <;> decide
  have hpfx : ∀ c ∈ (if type &&& SPECIAL ≠ 0 ∧ base ≠ 10 then
      if base = 16 then [char '0', char 'X' ||| ((type &&& SMALL).setWidth 8 : Byte)] else [char '0']
      else []), c ≠ 0 := by
    rcases locase_cases type with hl | hl <;> rw [hl] <;> split_ifs <;> decide
  have hbody : ∀ c ∈ bodyText (numberSign num d.field_width type).2.1.toNat base
      ((type &&& SMALL).setWidth 8) zeros, c ≠ 0 := by
    intro c hc
    have hdigit := (bodyText_digits _ zeros type hone hsixteen).1 c hc
    rw [isDigitOf, Bool.and_eq_true] at hdigit
    rintro rfl
    exact absurd hdigit.1 (by decide)
  intro c hc
  rw [htext, digitsText, List.append_assoc _ (List.replicate zeros _), List.mem_append,
    List.mem_append, List.mem_append, List.mem_append] at hc
  rcases hc with (hc | hc | hc | hc) | hc
  · exact hspaces lead c hc
  · exact hsign c hc
  · exact hpfx c hc
  · exact hbody c hc
  · exact hspaces trail c hc

-- The sign that is left when white space has been skipped.
def visibleSign (num : U64) (type : U32) : List Byte :=
  (numberSign num 0 type).1.toList.filter (· != char ' ')

theorem visibleSign_eq_nil {num : U64} {type : U32} (h : type &&& SIGN = 0) :
    visibleSign num type = [] := by
  rw [visibleSign, numberSign, if_neg (not_not.mpr h)]
  rfl

theorem skipSpace_numberText (num : U64) {d : Directive} (h : d.InRange) (type : U32)
    (hbase : NumberBase base) (hrest : Ends rest) :
    ∃ zeros rest', Ends rest' ∧ skipSpace rest' = skipSpace rest ∧
      skipSpace (numberText num base d.field_width d.precision type ++ rest) =
        visibleSign num type ++
          (digitsText (numberSign num 0 type).2.1.toNat base type zeros ++ rest') := by
  have hone : 1 < base.toNat := by rcases hbase with rfl | rfl | rfl <;> decide
  obtain ⟨lead, zeros, trail, htext⟩ := numberText_shape num hone h type
  have hsign : (numberSign num d.field_width type).1 = (numberSign num 0 type).1 ∧
      (numberSign num d.field_width type).2.1 = (numberSign num 0 type).2.1 := by
    unfold numberSign
    split_ifs <;> exact ⟨rfl, rfl⟩
  refine ⟨zeros, List.replicate trail (char ' ') ++ rest, ?_, skipSpace_replicate _ _, ?_⟩
  · cases trail with
    | zero => exact hrest
    | succ trail =>
        intro c hc
        obtain rfl := Option.some.inj hc
        decide
  · obtain ⟨c, ds, hds, hc⟩ := digitsText_head (numberSign num 0 type).2.1.toNat zeros
      type hbase
    have hskip (s : List Byte) : skipSpace (c :: s) = c :: s :=
      List.dropWhile_cons_of_neg (not_isspace_of_isDigitOf hc)
    rw [htext, hsign.1, hsign.2, List.append_assoc, List.append_assoc, skipSpace_replicate,
      List.append_assoc, visibleSign, hds]
    have hcases : (numberSign num 0 type).1 = none ∨ (numberSign num 0 type).1 = some (char ' ') ∨
        (numberSign num 0 type).1 = some (char '-') ∨ (numberSign num 0 type).1 = some (char '+') := by
      unfold numberSign
      split_ifs <;> simp
    rcases hcases with h | h | h | h <;> rw [h]
    · exact hskip _
    · exact (skipSpace_replicate 1 _).trans (hskip _)
    · rfl
    · rfl

end Digits

-- The argument of a conversion goes to `s`, as wide as its qualifier says.
def storeArg (d : Directive) (args : VaList) (s : Adr) (mem : Mem 32) : Mem 32 :=
  if d.qualifier = some (char 'h') then store mem s ((args 0).setWidth 16)
  else if d.qualifier = some (char 'L') then store mem s (args 1 ++ args 0)
  else store mem s (args 0)

-- The bytes it goes to.
def target (d : Directive) (s : Adr) : List Adr :=
  (List.range (if d.qualifier = some (char 'h') then 2
    else if d.qualifier = some (char 'L') then 8 else 4)).map fun i => s + BitVec.ofNat 32 i

theorem storeArg_other {d : Directive} {args : VaList} {s a : Adr} {mem : Mem 32} (h : a ∉ target d s) :
    storeArg d args s mem a = mem a := by
  have hout {n : ℕ} (hn : a ∉ (List.range n).map fun i => s + BitVec.ofNat 32 i) : n ≤ off s a := by
    by_contra hlt
    exact hn (List.mem_map.mpr ⟨off s a, List.mem_range.mpr (not_le.mp hlt), add_off s a⟩)
  unfold storeArg store
  unfold target at h
  split_ifs at h ⊢ <;> exact fill_out (hout h)

section Value

variable {num : U64} {type : U32} {zeros : ℕ} {rest : List Byte} {base : U32} {args : VaList}

-- The three ways a number starts.
theorem visibleSign_cases (num : U64) (type : U32) :
    type &&& SIGN ≠ 0 ∧ num.slt 0 = true ∧ visibleSign num type = [char '-'] ∧
        (numberSign num 0 type).2.1 = -num ∨
      (type &&& SIGN ≠ 0 ∧ num.slt 0 = false ∧ type &&& PLUS ≠ 0) ∧
        visibleSign num type = [char '+'] ∨
      (type &&& SIGN ≠ 0 → num.slt 0 = false ∧ type &&& PLUS = 0) ∧ visibleSign num type = [] ∧
        (numberSign num 0 type).2.1 = num := by
  unfold visibleSign numberSign
  by_cases hsign : type &&& SIGN ≠ 0
  · rw [if_pos hsign]
    cases hneg : num.slt 0 with
    | true => exact Or.inl ⟨hsign, rfl, rfl, rfl⟩
    | false =>
        rw [if_neg Bool.false_ne_true]
        by_cases hplus : type &&& PLUS ≠ 0
        · rw [if_pos hplus]
          exact Or.inr (Or.inl ⟨⟨hsign, rfl, hplus⟩, rfl⟩)
        · rw [if_neg hplus]
          refine Or.inr (Or.inr ⟨fun _ => ⟨rfl, not_not.mp hplus⟩, ?_⟩)
          split_ifs <;> exact ⟨rfl, rfl⟩
  · rw [if_neg hsign]
    exact Or.inr (Or.inr ⟨fun h => absurd h hsign, rfl, rfl⟩)

theorem digitsText_length_pos (num zeros : ℕ) (type : U32) (hbase : NumberBase base) :
    0 < (digitsText num base type zeros).length := by
  obtain ⟨c, ds, hds, -⟩ := digitsText_head num zeros type hbase
  rw [hds]
  exact Nat.succ_pos ds.length

theorem digitsText_head_ne_minus {n : ℕ} (hbase : NumberBase base) :
    (digitsText n base type zeros ++ rest).headD 0 ≠ char '-' := by
  obtain ⟨c, ds, hds, hc⟩ := digitsText_head n zeros type hbase
  rw [hds, isDigitOf, Bool.and_eq_true] at *
  rintro rfl
  exact absurd hc.1 (by decide)

-- A number without a plus is read with its sign, modulo any width.
variable (zeros) in
theorem signedNumberAt_text (hbase : NumberBase base) (hrest : Ends rest)
    (hplus : visibleSign num type ≠ [char '+']) :
    ∃ v : ℤ, signedNumberAt (visibleSign num type ++
        (digitsText (numberSign num 0 type).2.1.toNat base type zeros ++ rest)) base = (v, rest) ∧
      ∀ w ≤ 64, BitVec.ofInt w v = num.setWidth w := by
  rcases visibleSign_cases num type with ⟨-, -, hsign, hn⟩ | ⟨-, hsign⟩ | ⟨-, hsign, hn⟩
  · refine ⟨-((-num).toNat : ℤ), ?_, fun w hw => ?_⟩
    · rw [hsign, hn, signedNumberAt, List.singleton_append, List.headD_cons, if_pos rfl,
        List.tail_cons, numberAt_digitsText hbase hrest]
    · rw [BitVec.ofInt_neg, BitVec.ofInt_natCast, BitVec.ofNat_toNat, BitVec.setWidth_neg_of_le hw,
        BitVec.neg_neg]
  · exact absurd hsign hplus
  · refine ⟨(num.toNat : ℤ), ?_, fun w _ => ?_⟩
    · rw [hsign, hn, List.nil_append, signedNumberAt, if_neg (digitsText_head_ne_minus hbase),
        numberAt_digitsText hbase hrest]
    · rw [BitVec.ofInt_natCast, BitVec.ofNat_toNat]

variable (zeros) in
theorem numberAt_text (hbase : NumberBase base) (hrest : Ends rest)
    (hsign : visibleSign num type = []) :
    numberAt (visibleSign num type ++
      (digitsText (numberSign num 0 type).2.1.toNat base type zeros ++ rest)) base =
      (num.toNat, rest) := by
  have hn : (numberSign num 0 type).2.1 = num := by
    rcases visibleSign_cases num type with ⟨-, -, h, -⟩ | ⟨-, h⟩ | ⟨-, -, hn⟩
    · rw [h] at hsign
      cases hsign
    · rw [h] at hsign
      cases hsign
    · exact hn
  rw [hsign, hn, List.nil_append, numberAt_digitsText hbase hrest]

theorem setWidth_signExtend {w v k : ℕ} (x : BitVec w) (hk : k ≤ w) (hv : w ≤ v) :
    (x.signExtend v).setWidth k = x.setWidth k := by
  apply BitVec.eq_of_getLsbD_eq
  intro i hi
  rw [BitVec.getLsbD_setWidth, BitVec.getLsbD_setWidth, BitVec.getLsbD_signExtend]
  simp only [show i < v by omega, show i < w by omega, decide_true, Bool.true_and, if_true]

-- The low bits of what is printed are the argument.
theorem integerArg_low (qualifier : Option Byte) (type : U32) (args : VaList) :
    (qualifier = some (char 'L') → (integerArg qualifier type args).1 = args 1 ++ args 0) ∧
    (qualifier = some (char 'h') →
      (integerArg qualifier type args).1.setWidth 16 = (args 0).setWidth 16) ∧
    (qualifier ≠ some (char 'L') → qualifier ≠ some (char 'h') →
      (integerArg qualifier type args).1.setWidth 32 = args 0) := by
  have hself {w : ℕ} (x : BitVec w) (hw : w ≤ 64) : (x.setWidth 64).setWidth w = x := by
    rw [BitVec.setWidth_setWidth_of_le _ hw, BitVec.setWidth_eq]
  have hsext {w : ℕ} (x : BitVec w) (hw : w ≤ 64) : (x.signExtend 64).setWidth w = x := by
    rw [setWidth_signExtend _ (Nat.le_refl w) hw, BitVec.setWidth_eq]
  unfold integerArg
  refine ⟨fun h => by rw [if_pos h], ?_, fun hL hh => ?_⟩
  · rintro rfl
    rw [if_neg (by decide), if_neg (by decide), if_neg (by decide), if_pos rfl]
    dsimp only
    split_ifs
    · exact hsext _ (by decide)
    · exact hself _ (by decide)
  · rw [if_neg hL]
    split_ifs <;> first | exact hsext _ (by decide) | exact hself _ (by decide)

-- Whatever the sign, both functions for a width read the same.
variable (zeros) in
theorem strto_text (is_sign : Bool) (hbase : NumberBase base) (hrest : Ends rest)
    (hsigned : is_sign = false → visibleSign num type = [])
    (hplus : visibleSign num type ≠ [char '+']) :
    let str := visibleSign num type ++
      (digitsText (numberSign num 0 type).2.1.toNat base type zeros ++ rest)
    (if is_sign then simpleStrtol str base else simpleStrtoul str base) = (num.setWidth 32, rest) ∧
      (if is_sign then simpleStrtoll str base else simpleStrtoull str base) = (num, rest) := by
  intro str
  cases is_sign with
  | true =>
      obtain ⟨v, hv, hlow⟩ := signedNumberAt_text zeros hbase hrest hplus
      rw [if_pos rfl, if_pos rfl, simpleStrtol_eq, simpleStrtoll_eq, hv]
      dsimp only
      rw [hlow 32 (by decide), hlow 64 (Nat.le_refl _), BitVec.setWidth_eq]
      exact ⟨rfl, rfl⟩
  | false =>
      have hn := numberAt_text zeros hbase hrest (hsigned rfl)
      rw [if_neg Bool.false_ne_true, if_neg Bool.false_ne_true, simpleStrtoul_eq, simpleStrtoull_eq,
        hn]
      dsimp only
      rw [BitVec.ofNat_toNat, BitVec.ofNat_toNat, BitVec.setWidth_eq]
      exact ⟨rfl, rfl⟩

theorem startsNumber_of_isDigitOf (hbase : NumberBase base) :
    ∀ c : Byte, isDigitOf base c = true → startsNumber base c = true := by
  rcases hbase with rfl | rfl | rfl <;> decide +kernel

-- The check in front of the conversion lets every number pass that has no plus.
theorem startsNumber_text {num : U64} {is_sign : Bool} (hbase : NumberBase base)
    (hsigned : is_sign = false → visibleSign num type = [])
    (hplus : visibleSign num type ≠ [char '+']) {str : List Byte}
    (hstr : str = visibleSign num type ++
      (digitsText (numberSign num 0 type).2.1.toNat base type zeros ++ rest)) :
    startsNumber base
      (if is_sign = true ∧ str.headD 0 = char '-' then str.tail.headD 0 else str.headD 0) = true := by
  have hdigit : startsNumber base
      ((digitsText (numberSign num 0 type).2.1.toNat base type zeros ++ rest).headD 0) = true := by
    obtain ⟨c, ds, hds, hc⟩ := digitsText_head (numberSign num 0 type).2.1.toNat zeros
      type hbase
    rw [hds]
    exact startsNumber_of_isDigitOf hbase c hc
  rcases visibleSign_cases num type with ⟨-, -, hsign, -⟩ | ⟨-, hsign⟩ | ⟨-, hsign, -⟩
  · cases is_sign with
    | true =>
        rw [hsign, List.singleton_append] at hstr
        subst hstr
        rw [if_pos ⟨rfl, rfl⟩]
        exact hdigit
    | false =>
        rw [hsigned rfl] at hsign
        cases hsign
  · exact absurd hsign hplus
  · rw [hsign, List.nil_append] at hstr
    subst hstr
    rw [if_neg fun h => digitsText_head_ne_minus hbase h.2]
    exact hdigit

theorem strtoAt_eq {w : ℕ} {strto : List Byte → U32 → BitVec w × List Byte} {mem : Mem 32} {str : Adr}
    {text : List Byte} {result : BitVec w} (h : Holds mem str text)
    (hread : strto text base = (result, rest)) :
    strtoAt strto mem str base = .ok (result, str + BitVec.ofNat 32 (text.length - rest.length)) := by
  have hlen := h.length_lt
  rw [strtoAt, h.textAt_eq hlen.le, hread]
  exact if_neg (by omega)

-- What is stored for a piece without a plus.
theorem scanStore_text {d : Directive} {is_sign : Bool} {str s : Adr} {mem : Mem 32}
    {text : List Byte} (htext : Holds mem str text)
    (hstr : text = visibleSign (integerArg d.qualifier type args).1 type ++
      (digitsText (numberSign (integerArg d.qualifier type args).1 0 type).2.1.toNat base type zeros ++
        rest))
    (hbase : NumberBase base) (hrest : Ends rest) (hsigned : is_sign = false → type &&& SIGN = 0)
    (hq : d.qualifier ≠ some (char 'H'))
    (hplus : visibleSign (integerArg d.qualifier type args).1 type ≠ [char '+']) :
    scanStore d.qualifier is_sign base str s mem =
      .ok (storeArg d args s mem, str + BitVec.ofNat 32 (text.length - rest.length)) := by
  obtain ⟨hL, hh, hlow⟩ := integerArg_low d.qualifier type args
  obtain ⟨hlong, hlongLong⟩ := strto_text zeros is_sign hbase hrest
    (fun h => visibleSign_eq_nil (hsigned h)) hplus
  rw [← hstr] at hlong hlongLong
  have hlong := strtoAt_eq htext
    (show (if is_sign then simpleStrtol else simpleStrtoul) text base = _ by
      rw [← hlong]
      split_ifs <;> rfl)
  have hlongLong := strtoAt_eq htext
    (show (if is_sign then simpleStrtoll else simpleStrtoull) text base = _ by
      rw [← hlongLong]
      split_ifs <;> rfl)
  unfold scanStore storeArg
  dsimp only
  rw [if_neg hq]
  by_cases hqh : d.qualifier = some (char 'h')
  · rw [if_pos hqh, if_pos hqh, hlong, Outcome.ok_bind]
    dsimp only
    rw [BitVec.setWidth_setWidth_of_le _ (by decide), hh hqh]
  rw [if_neg hqh, if_neg hqh]
  by_cases hql : d.qualifier = some (char 'l')
  · have hqL : d.qualifier ≠ some (char 'L') := by
      rw [hql]
      decide
    rw [if_pos hql, if_neg hqL, hlong, Outcome.ok_bind, hlow hqL hqh]
  rw [if_neg hql]
  by_cases hqL : d.qualifier = some (char 'L')
  · rw [if_pos hqL, if_pos hqL, hlongLong, Outcome.ok_bind, hL hqL]
  rw [if_neg hqL, if_neg hqL]
  by_cases hqz : d.qualifier = some (char 'Z') ∨ d.qualifier = some (char 'z')
  · -- a `size_t` is never negative
    have hslt : (integerArg d.qualifier type args).1.slt 0 = false := by
      rw [integerArg, if_neg hqL, if_neg hql, if_pos hqz]
      exact BitVec.slt_zero_eq_msb.trans (msb_setWidth_eq _ (by decide))
    have hsign : visibleSign (integerArg d.qualifier type args).1 type = [] := by
      rcases visibleSign_cases (integerArg d.qualifier type args).1 type with
        ⟨-, h, -⟩ | ⟨-, h⟩ | ⟨-, h, -⟩
      · exact absurd (hslt.symm.trans h) Bool.false_ne_true
      · exact absurd h hplus
      · exact h
    have hsize := strtoAt_eq htext ((simpleStrtoul_eq text base).trans (by
      rw [hstr, numberAt_text _ hbase hrest hsign]))
    rw [if_pos hqz, hsize, Outcome.ok_bind]
    dsimp only
    rw [BitVec.ofNat_toNat, hlow hqL hqh]
  · rw [if_neg hqz, hlong, Outcome.ok_bind, hlow hqL hqh]

end Value

-- What `put_dec` writes of a 64-bit number, the functions for such numbers read back.
theorem putDec_read_back (num : U64) : ∃ ds, putDec num = .ok ds ∧
    ∀ rest, (∀ c ∈ rest.head?, isdigit c = false) →
      simpleStrtoull (ds.reverse ++ rest) 10 = (num, rest) ∧
        simpleStrtoll (char '-' :: (ds.reverse ++ rest)) 10 = (-num, rest) := by
  have hten : ∀ c : Byte, isDigitOf 10 c = isdigit c := by decide +kernel
  refine ⟨_, putDec_eq num, fun rest hrest => ?_⟩
  have hbody : ((numeral 10 num.toNat).map decDigit).reverse = bodyText num.toNat 10 0 0 := by
    rw [bodyText, List.replicate_zero, List.nil_append]
    exact congrArg List.reverse (List.map_congr_left fun d hd =>
      decDigit_eq (Or.inl rfl) (numeral_lt (by decide) hd))
  obtain ⟨hdigits, hread⟩ := bodyText_digits num.toNat 0 0 (show 1 < (10 : U32).toNat by decide)
    (by decide)
  obtain ⟨htake, hdrop⟩ := takeWhile_digits hdigits fun c hc => (hten c).trans (hrest c hc)
  have hnumber : numberAt (((numeral 10 num.toNat).map decDigit).reverse ++ rest) 10 =
      (num.toNat, rest) := by
    rw [hbody]
    refine Prod.ext ?_ hdrop
    exact (congrArg (fun ds : List Byte => read 10 0 (ds.map digitValue)) htake).trans hread
  have hull : simpleStrtoull (((numeral 10 num.toNat).map decDigit).reverse ++ rest) 10 =
      (num, rest) := by
    rw [simpleStrtoull_eq, hnumber, BitVec.ofNat_toNat, BitVec.setWidth_eq]
  refine ⟨hull, ?_⟩
  rw [simpleStrtoll, List.headD_cons, if_pos rfl, List.tail_cons, hull]

-- A comma ends the number as well as white space does.
theorem putDec_read_back_max : ∃ ds, putDec 0xffffffffffffffff = .ok ds ∧
    simpleStrtoull (ds.reverse ++ [char ',']) 10 = (0xffffffffffffffff, [char ',']) := by
  obtain ⟨ds, hds, hall⟩ := putDec_read_back 0xffffffffffffffff
  exact ⟨ds, hds, (hall [char ','] fun c hc => by cases hc; rfl).1⟩

end Lmosem
