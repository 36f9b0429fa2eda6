import Lmosem.Clib.Readback
import Mathlib.Data.List.Chain
import Mathlib.Data.List.DropRight

-- `vsscanf` reads what `vsnprintf` prints.
namespace Lmosem

open Memory Numeral While

-- The text of a piece that is a literal or an integer conversion.
def Piece.text : Piece → List Byte
  | .lit c => [c]
  | .conv d c args =>
      match integerBase c with
      | some (base, flag) =>
          numberText (integerArg d.qualifier (d.flags ||| flag) args).1 base d.field_width
            d.precision (d.flags ||| flag)
      | none => []

-- White space, and integer conversions that are printed without an `int` that wraps. `vsscanf`
-- finds the base of an `i` in the text, so it may be another one.
def Piece.Readable : Piece → Prop
  | .lit c => isspace c = true
  | .conv d c args =>
      ((integerBase c).isSome = true ∧ c ≠ char 'i') ∧ d.InRange ∧ ¬Piece.Overrun (.conv d c args)

-- The format that reads the pieces back, without flags, widths and precisions.
def Piece.scan : Piece → List Byte
  | .lit c => [c]
  | .conv d c _ => char '%' :: (d.qualifier.toList ++ [c])

-- A number that is printed with a plus.
def Piece.PlusSigned : Piece → Bool
  | .lit _ => false
  | .conv d c args =>
      match integerBase c with
      | some (_, flag) =>
          visibleSign (integerArg d.qualifier (d.flags ||| flag) args).1 (d.flags ||| flag) =
            [char '+']
      | none => false

-- Reading stops at the first number that has a plus.
def readBack : List Piece → VaList → U32 → Mem 32 → U32 × Mem 32
  | [], _, num, mem => (num, mem)
  | .lit _ :: ps, targets, num, mem => readBack ps targets num mem
  | .conv d c args :: ps, targets, num, mem =>
      if Piece.PlusSigned (.conv d c args) then (num, mem)
      else readBack ps (targets.skip 1) (num + 1) (storeArg d args (targets 0) mem)

-- The bytes that are written on the way.
def written : List Piece → VaList → List Adr
  | [], _ => []
  | .lit _ :: ps, targets => written ps targets
  | .conv d c args :: ps, targets =>
      if Piece.PlusSigned (.conv d c args) then []
      else target d (targets 0) ++ written ps (targets.skip 1)

-- What `scanConvert` needs to know of an integer conversion.
structure IntegerConv (d : Directive) (c : Byte) (base flag : U32) (is_sign : Bool) : Prop where
  print : integerBase c = some (base, flag)
  scan : scanBase c = some (base, is_sign)
  base : NumberBase base
  sign : is_sign = false → (d.flags ||| flag) &&& SIGN = 0
  other : c ≠ char 'c' ∧ c ≠ char 's' ∧ c ≠ char 'n' ∧ c ≠ char '%'
  stop : c ≠ 0 ∧ c ≠ char '*' ∧ isdigit c = false ∧ isQualifier c = false

section Reads

variable {buf str : Adr} {len : ℕ} {mem mem' : Mem 32} {text xs ys : List Byte}

-- The text at `str` and its terminator lie within `len` bytes behind `buf`.
structure Reads (buf : Adr) (len : ℕ) (mem : Mem 32) (str : Adr) (text : List Byte) : Prop where
  holds : Holds mem str text
  within : off buf str + text.length ≤ len

theorem Reads.drop (h : Reads buf len mem str (xs ++ ys)) (hlen : len < 2 ^ 32) :
    Reads buf len mem (str + BitVec.ofNat 32 xs.length) ys := by
  have hwithin := h.within
  rw [List.length_append] at hwithin
  refine ⟨h.holds.drop, ?_⟩
  rw [off_add_ofNat (by omega)]
  omega

theorem Reads.congr (h : Reads buf len mem str text) (hlen : len < 2 ^ 32)
    (hsame : ∀ a, off buf a ≤ len → mem' a = mem a) : Reads buf len mem' str text := by
  have hwithin := h.within
  refine ⟨h.holds.congr fun i hi => hsame _ ?_, hwithin⟩
  rw [off_add_ofNat (by omega)]
  omega

theorem skipAt_eq {test : Byte → Bool} (h : Holds mem str (xs ++ ys)) (hxs : ∀ c ∈ xs, test c = true)
    (hys : test (ys.headD 0) = false) {fuel : ℕ} (hfuel : xs.length < fuel) :
    skipAt test mem fuel str = .ok (str + BitVec.ofNat 32 xs.length) := by
  induction xs generalizing str fuel with
  | nil =>
      obtain ⟨fuel, rfl⟩ : ∃ k, fuel = k + 1 := ⟨fuel - 1, by omega⟩
      rw [skipAt, h.headD, List.nil_append, hys, if_neg Bool.false_ne_true]
      simp
  | cons x xs ih =>
      obtain ⟨fuel, rfl⟩ : ∃ k, fuel = k + 1 := ⟨fuel - 1, by omega⟩
      obtain ⟨hx, hxs⟩ := List.forall_mem_cons.mp hxs
      cases h with
      | cons hc _ htail =>
          rw [skipAt, hc, if_pos hx, List.length_cons, add_ofNat_succ]
          exact ih htail hxs (by simpa using hfuel)

theorem Reads.skipSpaceAt (h : Reads buf len mem str text) (hlen : len < 2 ^ 32) :
    ∃ str', skipSpaceAt mem str = .ok str' ∧ Reads buf len mem str' (skipSpace text) := by
  have hsplit : text = text.takeWhile isspace ++ skipSpace text := List.takeWhile_append_dropWhile.symm
  have hcount := h.holds.length_lt
  have hstop : isspace ((skipSpace text).headD 0) = false := by
    cases hrest : skipSpace text with
    | nil => decide
    | cons c rest =>
        have hhead := List.head?_dropWhile_not isspace text
        rw [skipSpace] at hrest
        rw [hrest] at hhead
        simpa using hhead
  rw [hsplit] at h
  refine ⟨_, skipAt_eq h.holds (fun c hc => List.mem_takeWhile_imp hc) hstop ?_, h.drop hlen⟩
  exact (List.takeWhile_prefix _).length_le.trans_lt hcount

-- The digit that `vsscanf` looks at.
theorem Reads.digit (h : Reads buf len mem str text) (is_sign : Bool) :
    (if is_sign = true ∧ mem str = char '-' then mem (str + 1) else mem str) =
      if is_sign = true ∧ text.headD 0 = char '-' then text.tail.headD 0 else text.headD 0 := by
  rw [h.holds.headD]
  split_ifs with hminus
  · refine h.holds.headD_tail ?_
    rw [h.holds.headD, hminus.2]
    decide
  · rfl

-- A text does not lie at the end of the address space, so no place in it is the null pointer.
theorem Reads.next_ne_null (h : Reads buf len mem str (xs ++ ys)) (hend : buf.toNat + len < 2 ^ 32)
    (hxs : 0 < xs.length) : str + BitVec.ofNat 32 xs.length ≠ NULL := by
  have hwithin := h.within
  rw [List.length_append] at hwithin
  intro hnull
  have hnat : (str + BitVec.ofNat 32 xs.length).toNat = 0 := by
    rw [hnull]
    rfl
  rw [← add_off buf str, BitVec.add_assoc, ← BitVec.ofNat_add, add_toNat (by omega)] at hnat
  omega

end Reads

section Conv

variable {d : Directive} {c : Byte} {args : VaList} {rest text : List Byte} {s : Scan} {buf : Adr}
  {len : ℕ}

theorem Piece.Readable.integerConv (h : Piece.Readable (.conv d c args))
    (hmade : Piece.Made (.conv d c args)) : ∃ base flag is_sign, IntegerConv d c base flag is_sign := by
  obtain ⟨⟨hbase, hi⟩, -⟩ := h
  have hsign {flag : U32} (hflag : flag &&& SIGN = 0) : (d.flags ||| flag) &&& SIGN = 0 := by
    rw [BitVec.and_comm, BitVec.and_or_distrib_left, BitVec.and_comm SIGN, hmade.1, BitVec.and_comm,
      hflag]
    rfl
  have hcases : c = char 'o' ∨ c = char 'X' ∨ c = char 'x' ∨ c = char 'd' ∨ c = char 'u' := by
    unfold integerBase at hbase
    split_ifs at hbase with ho hX hx hd hu
    · exact Or.inl ho
    · exact Or.inr (Or.inl hX)
    · exact Or.inr (Or.inr (Or.inl hx))
    · exact Or.inr (Or.inr (Or.inr (Or.inl (hd.resolve_right hi))))
    · exact Or.inr (Or.inr (Or.inr (Or.inr hu)))
    · cases hbase
  rcases hcases with rfl | rfl | rfl | rfl | rfl
  · exact ⟨8, 0, false, rfl, rfl, Or.inl rfl, fun _ => hsign rfl, by decide, by decide⟩
  · exact ⟨16, LARGE, false, rfl, rfl, Or.inr (Or.inr rfl), fun _ => hsign rfl, by decide, by decide⟩
  · exact ⟨16, 0, false, rfl, rfl, Or.inr (Or.inr rfl), fun _ => hsign rfl, by decide, by decide⟩
  · exact ⟨10, SIGN, true, rfl, rfl, Or.inr (Or.inl rfl), fun h => absurd h.symm Bool.false_ne_true,
      by decide, by decide⟩
  · exact ⟨10, 0, false, rfl, rfl, Or.inr (Or.inl rfl), fun _ => hsign rfl, by decide, by decide⟩

theorem skipSpace_ne_nil {t : List Byte} (h : (skipSpace t).headD 0 ≠ 0) : t.headD 0 ≠ 0 := by
  cases t with
  | nil => exact h
  | cons c t =>
      rintro rfl
      exact h rfl

-- The text of an integer conversion, with white space or nothing behind it.
variable (args) in
theorem conv_text {base flag : U32} {is_sign : Bool} (hc : IntegerConv d c base flag is_sign)
    (hd : d.InRange) (hrest : Ends rest) :
    ∃ zeros rest', Ends rest' ∧ skipSpace rest' = skipSpace rest ∧
      skipSpace (Piece.text (.conv d c args) ++ rest) =
        visibleSign (integerArg d.qualifier (d.flags ||| flag) args).1 (d.flags ||| flag) ++
          (digitsText (numberSign (integerArg d.qualifier (d.flags ||| flag) args).1 0
            (d.flags ||| flag)).2.1.toNat base (d.flags ||| flag) zeros ++ rest') := by
  rw [Piece.text, hc.print]
  exact skipSpace_numberText _ hd _ hc.base hrest

theorem plusSigned_iff {base flag : U32} (h : integerBase c = some (base, flag)) :
    Piece.PlusSigned (.conv d c args) = true ↔
      visibleSign (integerArg d.qualifier (d.flags ||| flag) args).1 (d.flags ||| flag) =
        [char '+'] := by
  rw [Piece.PlusSigned, h]
  exact decide_eq_true_iff

-- Behind white space, a text starts with a sign or a digit.
theorem skipSpace_text_headD (h : Piece.Readable (.conv d c args))
    (hmade : Piece.Made (.conv d c args)) (hrest : Ends rest) :
    (skipSpace (Piece.text (.conv d c args) ++ rest)).headD 0 ≠ 0 := by
  obtain ⟨base, flag, is_sign, hc⟩ := h.integerConv hmade
  obtain ⟨zeros, rest', -, -, htext⟩ := conv_text args hc h.2.1 hrest
  rw [htext]
  rcases visibleSign_cases (integerArg d.qualifier (d.flags ||| flag) args).1 (d.flags ||| flag) with
    ⟨-, -, hsign, -⟩ | ⟨-, hsign⟩ | ⟨-, hsign, -⟩ <;> rw [hsign]
  · exact (by decide : char '-' ≠ 0)
  · exact (by decide : char '+' ≠ 0)
  · obtain ⟨ch, ds, hds, hch⟩ := digitsText_head (numberSign (integerArg d.qualifier
        (d.flags ||| flag) args).1 0 (d.flags ||| flag)).2.1.toNat zeros (d.flags ||| flag) hc.base
    rw [hds, isDigitOf, Bool.and_eq_true] at *
    rintro rfl
    exact absurd hch.1 (by decide)

-- What is printed has no zero in it.
theorem Piece.Readable.text_ne_zero {x : Piece} (h : x.Readable) (hmade : x.Made) :
    ∀ ch ∈ x.text, ch ≠ 0 := by
  cases x with
  | lit c =>
      intro ch hch
      rw [List.mem_singleton.mp hch]
      exact (not_isxdigit_of_isspace c h).2.2
  | conv d c args =>
      obtain ⟨base, flag, is_sign, hc⟩ := h.integerConv hmade
      rw [Piece.text, hc.print]
      exact numberText_ne_zero _ hc.base h.2.1 _

-- `scanConvert` refuses a plus.
theorem scanConvert_plus (h : Piece.Readable (.conv d c args))
    (hmade : Piece.Made (.conv d c args)) (hrest : Ends rest) (hs : Reads buf len s.mem s.str text)
    (hlen : len < 2 ^ 32)
    (hstr : skipSpace text = skipSpace (Piece.text (.conv d c args) ++ rest))
    (hplus : Piece.PlusSigned (.conv d c args) = true) :
    scanConvert buf (-1) d.qualifier c s = .ok (.inr (s.num, s.mem)) := by
  obtain ⟨base, flag, is_sign, hc⟩ := h.integerConv hmade
  obtain ⟨zeros, rest', -, -, htext⟩ := conv_text args hc h.2.1 hrest
  obtain ⟨hnc, hns, hnn, hnp⟩ := hc.other
  obtain ⟨str, hskip, hreads⟩ := hs.skipSpaceAt hlen
  have hrefuse : ∀ base, NumberBase base → startsNumber base (char '+') = false := by
    rintro base (rfl | rfl | rfl) <;> decide
  rw [htext, (plusSigned_iff hc.print).mp hplus, List.singleton_append] at hstr
  have hhead : s.mem str = char '+' := by rw [hreads.holds.headD, hstr, List.headD_cons]
  have hstart : startsNumber base (if is_sign = true ∧ s.mem str = char '-' then s.mem (str + 1)
      else s.mem str) = false := by
    rw [if_neg (fun hf => absurd (hhead.symm.trans hf.2) (by decide)), hhead]
    exact hrefuse base hc.base
  rw [scanConvert, if_neg hnc, if_neg hns, if_neg hnn, if_neg hnp, hc.scan]
  dsimp only
  rw [hskip, Outcome.ok_bind, hstart, if_pos Bool.false_ne_true]

-- It reads the text of every other piece, up to the white space behind it.
theorem scanConvert_piece (h : Piece.Readable (.conv d c args))
    (hmade : Piece.Made (.conv d c args)) (hrest : Ends rest) (hs : Reads buf len s.mem s.str text)
    (hend : buf.toNat + len < 2 ^ 32)
    (hstr : skipSpace text = skipSpace (Piece.text (.conv d c args) ++ rest))
    (hout : ∀ a ∈ target d (s.args 0), len < off buf a)
    (hplus : Piece.PlusSigned (.conv d c args) = false) :
    ∃ str rest', skipSpace rest' = skipSpace rest ∧
      Reads buf len (storeArg d args (s.args 0) s.mem) str rest' ∧
      scanConvert buf (-1) d.qualifier c s =
        .ok (.inl { s with
          str := str, args := s.args.skip 1, num := s.num + 1
          mem := storeArg d args (s.args 0) s.mem }) := by
  obtain ⟨base, flag, is_sign, hc⟩ := h.integerConv hmade
  obtain ⟨zeros, rest', hends, hskip, htext⟩ := conv_text args hc h.2.1 hrest
  obtain ⟨hnc, hns, hnn, hnp⟩ := hc.other
  obtain ⟨str, hspace, hreads⟩ := hs.skipSpaceAt (by omega)
  have hq : d.qualifier ≠ some (char 'H') := fun hq =>
    absurd (hmade.2 _ (by rw [hq]; rfl)) (by decide)
  have hvisible : visibleSign (integerArg d.qualifier (d.flags ||| flag) args).1
      (d.flags ||| flag) ≠ [char '+'] := by
    rw [ne_eq, ← plusSigned_iff hc.print, hplus]
    exact Bool.false_ne_true
  rw [htext] at hstr
  have hstart := startsNumber_text hc.base (fun h => visibleSign_eq_nil (hc.sign h)) hvisible hstr
  rw [← hreads.digit] at hstart
  have hstore := scanStore_text (s := s.args 0) hreads.holds hstr hc.base hends hc.sign hq hvisible
  rw [hstr, ← List.append_assoc, List.length_append, Nat.add_sub_cancel] at hstore
  rw [hstr, ← List.append_assoc] at hreads
  have hnext := hreads.drop (by omega)
  refine ⟨_, rest', hskip, hnext.congr (by omega) fun a ha => storeArg_other fun hm => ?_, ?_⟩
  · have := hout a hm
    omega
  · have hnull := hreads.next_ne_null hend (by
      rw [List.length_append]
      exact (digitsText_length_pos _ _ _ hc.base).trans_le (Nat.le_add_left _ _))
    rw [scanConvert, if_neg hnc, if_neg hns, if_neg hnn, if_neg hnp, hc.scan]
    dsimp only
    rw [hspace, Outcome.ok_bind, hstart, if_neg (not_not.mpr rfl), hstore, Outcome.ok_bind]
    exact if_neg hnull

theorem scanQualifier_scan {fmt : List Byte} {base flag : U32} {is_sign : Bool}
    (hc : IntegerConv d c base flag is_sign) (hmade : Piece.Made (.conv d c args)) :
    scanQualifier (d.qualifier.toList ++ c :: fmt) = (d.qualifier, c :: fmt) := by
  obtain ⟨-, -, -, hstop⟩ := hc.stop
  cases hq : d.qualifier with
  | none =>
      rw [scanQualifier, Option.toList_none, List.nil_append, List.headD_cons, hstop,
        if_neg Bool.false_ne_true]
  | some q =>
      have hqual := hmade.2 q hq
      have hne : q ≠ c := by
        rintro rfl
        exact Bool.false_ne_true (hstop.symm.trans hqual)
      rw [scanQualifier, Option.toList_some, List.singleton_append, List.headD_cons, if_pos hqual]
      exact if_neg hne

-- In front of a conversion, a turn comes down to `scanConvert`.
theorem scanTurn_conv {fmt : List Byte} (h : Piece.Readable (.conv d c args))
    (hmade : Piece.Made (.conv d c args)) (hfmt : s.fmt = Piece.scan (.conv d c args) ++ fmt)
    (hstr : s.mem s.str ≠ 0) :
    scanTurn buf s = scanConvert buf (-1) d.qualifier c { s with fmt := fmt } := by
  obtain ⟨base, flag, is_sign, hc⟩ := h.integerConv hmade
  obtain ⟨hzero, hstar, hdigit, -⟩ := hc.stop
  have hqual : ∀ q : Byte, isQualifier q = true → q ≠ char '*' ∧ isdigit q = false := by
    decide +kernel
  have hhead : (d.qualifier.toList ++ c :: fmt).headD 0 ≠ char '*' ∧
      isdigit ((d.qualifier.toList ++ c :: fmt).headD 0) = false := by
    cases hq : d.qualifier with
    | none => exact ⟨hstar, hdigit⟩
    | some q => exact hqual q (hmade.2 q hq)
  rw [Piece.scan, List.cons_append, List.append_assoc, List.singleton_append] at hfmt
  obtain ⟨fmt', str, targets, num, mem⟩ := s
  dsimp only at hfmt hstr
  subst hfmt
  rw [scanTurn]
  dsimp only
  rw [List.headD_cons, if_neg (not_or.mpr ⟨by decide, hstr⟩), if_neg (by decide : ¬isspace (char '%')),
    Outcome.ok_bind, if_neg (by decide : ¬isspace (char '%')), List.headD_cons,
    if_neg fun hf => hf.1 rfl, if_neg (by decide), List.tail_cons, if_neg hhead.1, hhead.2,
    if_neg Bool.false_ne_true]
  dsimp only
  rw [scanQualifier_scan hc hmade]
  dsimp only
  rw [List.headD_cons, if_neg (not_or.mpr ⟨hzero, hstr⟩), List.tail_cons]

end Conv

def Piece.isLit : Piece → Bool
  | .lit _ => true
  | .conv _ _ _ => false

-- Integer conversions with white space between them.
structure Legible (ps : List Piece) : Prop where
  made : ∀ x ∈ ps, x.Made
  readable : ∀ x ∈ ps, x.Readable
  apart : ps.IsChain fun x y => x.isLit = true ∨ y.isLit = true

section Run

variable {ps : List Piece} {s : Scan} {buf : Adr} {len : ℕ} {text : List Byte} {d : Directive}
  {c : Byte} {args : VaList}

theorem Legible.tail {x : Piece} (h : Legible (x :: ps)) : Legible ps :=
  ⟨(List.forall_mem_cons.mp h.made).2, (List.forall_mem_cons.mp h.readable).2, h.apart.tail⟩

theorem Legible.dropWhile (h : Legible ps) : Legible (ps.dropWhile Piece.isLit) := by
  have hsuffix := List.dropWhile_suffix Piece.isLit (l := ps)
  exact ⟨fun x hx => h.made x (hsuffix.subset hx), fun x hx => h.readable x (hsuffix.subset hx),
    h.apart.suffix hsuffix⟩

-- Behind a conversion comes white space, or nothing.
theorem Legible.ends (h : Legible (.conv d c args :: ps)) : Ends (ps.flatMap Piece.text) := by
  cases ps with
  | nil => rintro c ⟨⟩
  | cons y ps =>
      have hy := ((List.isChain_cons.mp h.apart).1 y rfl).resolve_left Bool.false_ne_true
      cases y with
      | lit c =>
          rintro c ⟨⟩
          exact h.readable _ (List.mem_cons_of_mem _ List.mem_cons_self)
      | conv d c args => cases hy

-- White space at the start is skipped in the format and in the text alike.
theorem Legible.skipSpace (h : Legible ps) :
    skipSpace (ps.flatMap Piece.scan) = (ps.dropWhile Piece.isLit).flatMap Piece.scan ∧
    skipSpace (ps.flatMap Piece.text) =
      skipSpace ((ps.dropWhile Piece.isLit).flatMap Piece.text) := by
  induction ps with
  | nil => exact ⟨rfl, rfl⟩
  | cons x ps ih =>
      cases x with
      | lit c =>
          have hspace : isspace c = true := h.readable _ List.mem_cons_self
          obtain ⟨hscan, htext⟩ := ih h.tail
          exact ⟨(List.dropWhile_cons_of_pos hspace).trans hscan,
            (List.dropWhile_cons_of_pos hspace).trans htext⟩
      | conv d c args => exact ⟨rfl, rfl⟩

theorem readBack_dropWhile (ps : List Piece) (targets : VaList) (num : U32) (mem : Mem 32) :
    readBack (ps.dropWhile Piece.isLit) targets num mem = readBack ps targets num mem := by
  induction ps with
  | nil => rfl
  | cons x ps ih =>
      cases x with
      | lit c => exact ih
      | conv d c args => rfl

theorem written_dropWhile (ps : List Piece) (targets : VaList) :
    written (ps.dropWhile Piece.isLit) targets = written ps targets := by
  induction ps with
  | nil => rfl
  | cons x ps ih =>
      cases x with
      | lit c => exact ih
      | conv d c args => rfl

-- One turn over a conversion.
theorem scanTurn_cons (h : Legible (.conv d c args :: ps)) (hs : Reads buf len s.mem s.str text)
    (hend : buf.toNat + len < 2 ^ 32)
    (hfmt : s.fmt = (Piece.conv d c args :: ps).flatMap Piece.scan)
    (hstr : skipSpace text = skipSpace ((Piece.conv d c args :: ps).flatMap Piece.text)) :
    (Piece.PlusSigned (.conv d c args) = true → scanTurn buf s = .ok (.inr (s.num, s.mem))) ∧
    (Piece.PlusSigned (.conv d c args) = false →
      (∀ a ∈ target d (s.args 0), len < off buf a) →
      ∃ str rest, skipSpace rest = skipSpace (ps.flatMap Piece.text) ∧
        Reads buf len (storeArg d args (s.args 0) s.mem) str rest ∧
        scanTurn buf s =
          .ok (.inl ⟨ps.flatMap Piece.scan, str, s.args.skip 1, s.num + 1,
            storeArg d args (s.args 0) s.mem⟩)) := by
  have hmade := h.made _ List.mem_cons_self
  have hread := h.readable _ List.mem_cons_self
  rw [List.flatMap_cons] at hfmt hstr
  have hne : s.mem s.str ≠ 0 := by
    rw [hs.holds.headD]
    refine skipSpace_ne_nil ?_
    rw [hstr]
    exact skipSpace_text_headD hread hmade h.ends
  rw [scanTurn_conv hread hmade hfmt hne]
  exact ⟨scanConvert_plus (s := { s with fmt := ps.flatMap Piece.scan }) hread hmade h.ends hs
    (by omega) hstr, fun hplus hout => scanConvert_piece
      (s := { s with fmt := ps.flatMap Piece.scan }) hread hmade h.ends hs hend hstr hout hplus⟩

-- White space in front of a conversion goes in the same turn.
theorem scanTurn_space (hs : Reads buf len s.mem s.str text) (hlen : len < 2 ^ 32)
    (hspace : isspace (s.fmt.headD 0) = true) (hnext : isspace ((skipSpace s.fmt).headD 0) = false)
    (hfmt : (skipSpace s.fmt).headD 0 ≠ 0) (hstr : (skipSpace text).headD 0 ≠ 0) :
    ∃ str, Reads buf len s.mem str (skipSpace text) ∧
      scanTurn buf s = scanTurn buf { s with fmt := skipSpace s.fmt, str := str } := by
  obtain ⟨str, hskip, hreads⟩ := hs.skipSpaceAt hlen
  have hne : s.fmt.headD 0 ≠ 0 := (not_isxdigit_of_isspace _ hspace).2.2
  have hhead : s.mem s.str ≠ 0 := by
    rw [hs.holds.headD]
    exact skipSpace_ne_nil hstr
  have hhead' : s.mem str ≠ 0 := by rwa [hreads.holds.headD]
  refine ⟨str, hreads, ?_⟩
  rw [scanTurn, scanTurn, if_neg (not_or.mpr ⟨hne, hhead⟩), if_neg (not_or.mpr ⟨hfmt, hhead'⟩),
    if_pos hspace, hskip, Outcome.ok_bind, if_pos hspace]
  dsimp only
  rw [hnext, if_neg Bool.false_ne_true, Outcome.ok_bind, if_neg Bool.false_ne_true]

-- A format that has come to its end.
theorem scanTurn_end (hs : Reads buf len s.mem s.str text) (hlen : len < 2 ^ 32)
    (h : skipSpace s.fmt = []) : scanTurn buf s = .ok (.inr (s.num, s.mem)) := by
  obtain ⟨str, hskip, -⟩ := hs.skipSpaceAt hlen
  rw [scanTurn]
  by_cases hend : s.fmt.headD 0 = 0 ∨ s.mem s.str = 0
  · exact if_pos hend
  rw [if_neg hend]
  have hspace : isspace (s.fmt.headD 0) = true := by
    cases hfmt : s.fmt with
    | nil => exact absurd (Or.inl (by rw [hfmt]; rfl)) hend
    | cons c fmt =>
        rw [hfmt] at h
        exact List.dropWhile_eq_nil_iff.mp h c List.mem_cons_self
  rw [if_pos hspace, hskip, Outcome.ok_bind, if_pos hspace, h]
  exact (if_neg fun hf => hf.2 rfl).trans (if_pos rfl)

-- A conversion behind white space, in the format and in the text.
theorem scanTurn_lits {rest : List Piece} (h : Legible ps) (hs : Reads buf len s.mem s.str text)
    (hlen : len < 2 ^ 32) (hps : ps.dropWhile Piece.isLit = .conv d c args :: rest)
    (hfmt : s.fmt = ps.flatMap Piece.scan)
    (hstr : skipSpace text = skipSpace (ps.flatMap Piece.text)) :
    ∃ str text', skipSpace text' = skipSpace ((Piece.conv d c args :: rest).flatMap Piece.text) ∧
      Reads buf len s.mem str text' ∧
      scanTurn buf s = scanTurn buf { s with
        fmt := (Piece.conv d c args :: rest).flatMap Piece.scan, str := str } := by
  obtain ⟨hscan, htext⟩ := h.skipSpace
  have hlits := h.dropWhile
  rw [hps] at hscan htext hlits
  rw [← hfmt] at hscan
  rw [← hstr] at htext
  have hne : (skipSpace text).headD 0 ≠ 0 := by
    rw [htext, List.flatMap_cons]
    exact skipSpace_text_headD (hlits.readable _ List.mem_cons_self)
      (hlits.made _ List.mem_cons_self) hlits.ends
  cases ps with
  | nil => cases hps
  | cons x ps =>
      cases x with
      | lit ch =>
          have hspace : isspace (s.fmt.headD 0) = true := by
            rw [hfmt]
            exact h.readable _ List.mem_cons_self
          obtain ⟨str, hreads, hturn⟩ := scanTurn_space hs hlen hspace
            (by rw [hscan]; exact (by decide : isspace (char '%') = false))
            (by rw [hscan]; exact (by decide : char '%' ≠ 0)) hne
          refine ⟨str, skipSpace text, ?_, hreads, ?_⟩
          · rw [← htext]
            exact List.dropWhile_idempotent _ _
          · rw [← hscan]
            exact hturn
      | conv d' c' args' =>
          have hps : Piece.conv d' c' args' :: ps = Piece.conv d c args :: rest := hps
          rw [hps] at hfmt hstr
          refine ⟨s.str, text, hstr, hs, ?_⟩
          rw [← hfmt]

-- The run over a text: by induction on the fuel, with the pieces that are left. What is written
-- on the way lies beside the text, which therefore stays as it is.
theorem vsscanf_run (fuel : ℕ) (ps : List Piece) (s : Scan) (text : List Byte) (h : Legible ps)
    (hs : Reads buf len s.mem s.str text) (hend : buf.toNat + len < 2 ^ 32)
    (hfmt : s.fmt = ps.flatMap Piece.scan)
    (hstr : skipSpace text = skipSpace (ps.flatMap Piece.text))
    (hout : Beside buf (len + 1) (written ps s.args)) (hfuel : s.fmt.length < fuel) :
    tryLoop (scanTurn buf) fuel s = .ok (readBack ps s.args s.num s.mem) := by
  induction fuel generalizing ps s text with
  | zero => omega
  | succ fuel ih =>
      obtain ⟨hscan, htext⟩ := h.skipSpace
      have hlits := h.dropWhile
      rw [← readBack_dropWhile]
      rw [← written_dropWhile] at hout
      rcases hps : ps.dropWhile Piece.isLit with _ | ⟨x, rest⟩
      · rw [hps, ← hfmt] at hscan
        exact tryLoop_inr (scanTurn_end hs (by omega) hscan)
      · have hhead := List.head?_dropWhile_not Piece.isLit ps
        rw [hps] at hscan hlits hhead hout
        cases x with
        | lit ch => cases hhead
        | conv d c args =>
            obtain ⟨str, text', hstr', hreads, hturn⟩ := scanTurn_lits h hs (by omega) hps hfmt hstr
            obtain ⟨hplus, hpiece⟩ := scanTurn_cons
              (s := { s with fmt := (Piece.conv d c args :: rest).flatMap Piece.scan, str := str })
              hlits hreads hend rfl hstr'
            rw [written] at hout
            rw [readBack]
            cases hp : Piece.PlusSigned (.conv d c args) with
            | true => exact tryLoop_inr (hturn.trans (hplus hp))
            | false =>
                rw [hp, if_neg Bool.false_ne_true] at hout
                obtain ⟨str', rest', hskip, hreads', hnext⟩ := hpiece hp fun a ha =>
                  hout a (List.mem_append_left _ ha)
                rw [tryLoop_inl (hturn.trans hnext), if_neg Bool.false_ne_true]
                refine ih rest _ rest' hlits.tail hreads' rfl hskip
                  (fun a ha => hout a (List.mem_append_right _ ha)) ?_
                have hle : (skipSpace s.fmt).length ≤ s.fmt.length := List.length_dropWhile_le _ _
                rw [← hfmt] at hscan
                rw [hscan, List.flatMap_cons, List.length_append, Piece.scan, List.length_cons] at hle
                dsimp only
                omega

end Run

-- Pieces that can be read are printed, whatever is in memory.
theorem printed_text (ps : List Piece) (hmade : ∀ x ∈ ps, x.Made) (hread : ∀ x ∈ ps, x.Readable)
    (count : ℕ) (mem : Mem 32) : printed count ps mem = .ok ⟨ps.flatMap Piece.text, [], mem⟩ := by
  induction ps generalizing count with
  | nil => rfl
  | cons x ps ih =>
      obtain ⟨hx, hmade'⟩ := List.forall_mem_cons.mp hmade
      obtain ⟨hrx, hread'⟩ := List.forall_mem_cons.mp hread
      cases x with
      | lit c =>
          rw [printed, ih hmade' hread']
          rfl
      | conv d c args =>
          obtain ⟨base, flag, is_sign, hc⟩ := hrx.integerConv hx
          obtain ⟨hnc, hns, hnn, hnp⟩ := hc.other
          have hpointer : c ≠ char 'p' := by
            rintro rfl
            cases hc.print
          have hconv : convPrinted count d c args mem = .ok ⟨Piece.text (.conv d c args), [], mem⟩ := by
            rw [convPrinted, if_neg hnc, if_neg hns, if_neg hpointer, if_neg hnn, if_neg hnp, Piece.text,
              hc.print]
            dsimp only
            rw [numberPrinted, if_neg ((overruns_iff hx hc.print).not.mpr hrx.2.2)]
          rw [printed, hconv, Outcome.ok_bind, ih hmade' hread']
          rfl

theorem Legible.text_ne_zero {ps : List Piece} (h : Legible ps) :
    ∀ ch ∈ ps.flatMap Piece.text, ch ≠ 0 := by
  intro ch hch
  obtain ⟨x, hx, hch⟩ := List.mem_flatMap.mp hch
  exact (h.readable x hx).text_ne_zero (h.made x hx) ch hch

-- A text that has been filled in can be read.
theorem Legible.reads {ps : List Piece} (h : Legible ps) (m : Mem 32) (buf : Adr)
    (hlen : (ps.flatMap Piece.text).length < 2 ^ 32) :
    Reads buf (ps.flatMap Piece.text).length
      (fill m buf ((ps.flatMap Piece.text).length + 1) fun i => (ps.flatMap Piece.text).getD i 0)
      buf (ps.flatMap Piece.text) := by
  have hholds := holds_fill m buf hlen
  rw [List.takeWhile_eq_self_iff.mpr fun c hc => decide_eq_true (h.text_ne_zero c hc)] at hholds
  exact ⟨hholds, by rw [off_self, Nat.zero_add]⟩

-- What `vsnprintf` prints of integers with white space between them, `vsscanf` reads back, up
-- to the first number with a plus, where it stops. What it writes has to lie beside the text.
theorem vsscanf_vsnprintf {mem : Mem 32} {buf : Adr} {size : SizeT} {fmt : List Byte} {args : VaList}
    {text : List Byte} (targets : VaList) (hsize : size.slt 0 = false)
    (hread : ∀ x ∈ formatPieces fmt args, x.Readable)
    (hapart : (formatPieces fmt args).IsChain fun x y => x.isLit = true ∨ y.isLit = true)
    (htext : text = (formatPieces fmt args).flatMap Piece.text) (hroom : text.length < room buf size)
    (hout : Beside buf (text.length + 1) (written (formatPieces fmt args) targets)) :
    ∃ mem', vsnprintf mem buf size fmt args = .ok (BitVec.ofNat 32 text.length, mem') ∧
      vsscanf mem' buf ((formatPieces fmt args).flatMap Piece.scan) targets =
        .ok (readBack (formatPieces fmt args) targets 0 mem') := by
  subst htext
  have hmade : ∀ x ∈ formatPieces fmt args, x.Made := takePieces_made _ fmt args
  have hlegible : Legible (formatPieces fmt args) := ⟨hmade, hread, hapart⟩
  have hfits : buf.toNat + ((formatPieces fmt args).flatMap Piece.text).length < 2 ^ 32 := by
    have hbuf := buf.isLt
    unfold room at hroom
    split_ifs at hroom with hzero
    · rw [hzero]
      exact (Nat.zero_add _).trans_lt hroom
    · omega
  refine ⟨_, vsnprintf_of_sent hsize hfits fun _ hb => printed_sent hb
    (printed_text _ hmade hread 0 mem) (fun a ha => absurd ha List.not_mem_nil) hfits, ?_⟩
  dsimp only
  rw [stored_fits mem buf hroom]
  exact vsscanf_run _ _ _ _ hlegible (hlegible.reads mem buf (by omega)) hfits rfl rfl hout
    (Nat.lt_succ_self _)

-- `%4d %#x` prints -42 and 255, and `%d %x` reads them.
theorem vsscanf_vsnprintf_two : ∃ mem' : Mem 32,
    vsnprintf (fun _ => 0) 0x1000 64
      [char '%', char '4', char 'd', char ' ', char '%', char '#', char 'x']
      (fun i => if i = 0 then -42 else 255) = .ok (BitVec.ofNat 32 9, mem') ∧
    vsscanf mem' 0x1000 [char '%', char 'd', char ' ', char '%', char 'x']
      (fun i => 0x2000 + BitVec.ofNat 32 (4 * i)) =
        .ok (2, store (store mem' 0x2000 (-42 : U32)) 0x2004 (255 : U32)) := by
  refine vsscanf_vsnprintf (fun i => 0x2000 + BitVec.ofNat 32 (4 * i)) rfl ?_ ?_
    (show [char ' ', char '-', char '4', char '2', char ' ', char '0', char 'x', char 'f', char 'f'] =
      _ from rfl) ?_ ?_
  · exact List.forall_mem_cons.mpr ⟨⟨⟨rfl, by decide⟩, by decide, fun h => by cases h.2.1⟩,
      List.forall_mem_cons.mpr ⟨rfl, List.forall_mem_cons.mpr
        ⟨⟨⟨rfl, by decide⟩, by decide, fun h => by cases h.2.1⟩,
          fun _ h => absurd h List.not_mem_nil⟩⟩⟩
  · exact .cons_cons (Or.inr rfl) (.cons_cons (Or.inl rfl) (.singleton _))
  · decide
  · decide +kernel

end Lmosem
