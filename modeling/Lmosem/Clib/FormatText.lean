import Lmosem.Clib.Format

-- The text of a format, whatever buffer it goes to.
namespace Lmosem

open Memory While

inductive Piece
  | lit (c : Byte)
  | conv (d : Directive) (c : Byte) (args : VaList)

-- The arguments behind a conversion.
def convArgs (d : Directive) (c : Byte) (args : VaList) : VaList :=
  if c = char 'c' ∨ c = char 's' ∨ c = char 'p' ∨ c = char 'n' then args.skip 1
  else if (integerBase c).isSome then (integerArg d.qualifier 0 args).2
  else args

-- A format is cut at its conversions. `fuel` is more than the length of the format.
def takePieces : ℕ → List Byte → VaList → List Piece
  | 0, _, _ => []
  | fuel + 1, fmt, args =>
      let c := fmt.headD 0
      if c = 0 then []
      else if c ≠ char '%' then .lit c :: takePieces fuel fmt.tail args
      else
        let (d, fmt, args) := directive fmt.tail args
        let c := fmt.headD 0
        .conv d c args :: takePieces fuel (if c = 0 then fmt else fmt.tail) (convArgs d c args)

def formatPieces (fmt : List Byte) (args : VaList) : List Piece := takePieces (fmt.length + 1) fmt args

-- What is printed, the addresses that are read or written beside the buffer, and the memory
-- with what is written there.
structure Printed where
  text : List Byte
  used : List Adr
  mem : Mem 32

-- The field a text stands in. A loop makes so many turns for a width, and leaves it so. In front
-- of the text it fills the field, and there is nothing left to fill behind it unless the width
-- has wrapped.
def padded (turns : U32 → ℕ) (rest : U32 → U32) (d : Directive) (text : List Byte) : List Byte :=
  if d.flags &&& LEFT = 0 then
    List.replicate (turns d.field_width) (char ' ') ++ text ++
      List.replicate (turns (rest d.field_width)) (char ' ')
  else text ++ List.replicate (turns d.field_width) (char ' ')

def numberPrinted (num : U64) (base : U32) (size precision : U32) (type : U32) (mem : Mem 32) :
    Outcome Printed :=
  if Overruns (numberSign num size type).2.1 base then .fault
  else .ok ⟨numberText num base size precision type, [], mem⟩

def stringPrinted (d : Directive) (s : Adr) (mem : Mem 32) : Printed :=
  let n := strnlen (stringChar s mem) d.precision.toNat 0
  let len : U32 := BitVec.ofNat 32 n
  { text := padded (postTurns len) (postRest len) d
      ((List.range len.toInt.toNat).map (stringChar s mem))
    used := if s.toNat < 1024 then []
      else (List.range (min (n + 1) d.precision.toNat)).map fun i => s + BitVec.ofNat 32 i
    mem := mem }

-- One conversion behind `count` characters.
def convPrinted (count : ℕ) (d : Directive) (c : Byte) (args : VaList) (mem : Mem 32) :
    Outcome Printed :=
  if c = char 'c' then
    .ok ⟨padded (preTurns 1) (preRest 1) d [(args 0).setWidth 8], [], mem⟩
  else if c = char 's' then .ok (stringPrinted d (args 0) mem)
  else if c = char 'p' then
    if d.field_width = -1 then
      numberPrinted ((args 0).setWidth 64) 16 8 d.precision (d.flags ||| ZEROPAD) mem
    else numberPrinted ((args 0).setWidth 64) 16 d.field_width d.precision d.flags mem
  else if c = char 'n' then
    .ok ⟨[], (List.range 4).map fun i => args 0 + BitVec.ofNat 32 i,
      store mem (args 0) (BitVec.ofNat 32 count)⟩
  else if c = char '%' then .ok ⟨[char '%'], [], mem⟩
  else
    match integerBase c with
    | some (base, flag) =>
        numberPrinted (integerArg d.qualifier (d.flags ||| flag) args).1 base d.field_width
          d.precision (d.flags ||| flag) mem
    | none => .ok ⟨char '%' :: if c ≠ 0 then [c] else [], [], mem⟩

def printed : ℕ → List Piece → Mem 32 → Outcome Printed
  | _, [], mem => .ok ⟨[], [], mem⟩
  | count, .lit c :: ps, mem => do
      let p ← printed (count + 1) ps mem
      .ok ⟨c :: p.text, p.used, p.mem⟩
  | count, .conv d c args :: ps, mem => do
      let v ← convPrinted count d c args mem
      let p ← printed (count + v.text.length) ps v.mem
      .ok ⟨v.text ++ p.text, v.used ++ p.used, p.mem⟩

-- The loop of `vsnprintf` on the pieces of a format.
def sendPieces (endp buf : Adr) : List Piece → Out → Outcome Out
  | [], str => .ok str
  | .lit c :: ps, str => sendPieces endp buf ps (putChar endp c str)
  | .conv d c args :: ps, str => do
      let (_, str) ← convert endp buf d c args str
      sendPieces endp buf ps str

section Loop

theorem formatFlags_length (fmt : List Byte) (flags : U32) :
    (formatFlags fmt flags).2.length ≤ fmt.length := by
  induction fmt generalizing flags with
  | nil => exact Nat.le_refl 0
  | cons c fmt ih =>
      rw [formatFlags]
      split
      · exact (ih _).trans (Nat.le_succ _)
      · exact Nat.le_refl _

theorem skipAtoi_length (s : List Byte) (i : U32) : (skipAtoi s i).2.length ≤ s.length := by
  induction s generalizing i with
  | nil => exact Nat.le_refl 0
  | cons c s ih =>
      rw [skipAtoi]
      split_ifs
      · exact (ih _).trans (Nat.le_succ _)
      · exact Nat.le_refl _

theorem tail_length (s : List Byte) : s.tail.length ≤ s.length := by
  rw [List.length_tail]
  exact Nat.sub_le _ _

theorem formatWidth_length (fmt : List Byte) (flags : U32) (args : VaList) :
    (formatWidth fmt flags args).2.2.1.length ≤ fmt.length := by
  unfold formatWidth
  dsimp only
  split_ifs
  · exact skipAtoi_length fmt 0
  · exact tail_length fmt
  · exact tail_length fmt
  · exact Nat.le_refl _

theorem precisionArg_length (fmt : List Byte) (args : VaList) :
    (precisionArg fmt args).2.1.length ≤ fmt.length := by
  unfold precisionArg
  dsimp only
  split_ifs
  · exact skipAtoi_length fmt 0
  · exact tail_length fmt
  · exact Nat.le_refl _

theorem formatPrecision_length (fmt : List Byte) (args : VaList) :
    (formatPrecision fmt args).2.1.length ≤ fmt.length := by
  unfold formatPrecision
  dsimp only
  split_ifs with hdot
  · exact (precisionArg_length _ args).trans (tail_length fmt)
  · exact (precisionArg_length _ args).trans (tail_length fmt)
  · exact Nat.le_refl _

theorem formatQualifier_length (fmt : List Byte) :
    (formatQualifier fmt).2.length ≤ fmt.length := by
  unfold formatQualifier
  dsimp only
  split_ifs
  · exact (tail_length _).trans (tail_length fmt)
  · exact tail_length fmt
  · exact Nat.le_refl _

-- A directive does not make the format longer.
theorem directive_length (fmt : List Byte) (args : VaList) :
    (directive fmt args).2.1.length ≤ fmt.length := by
  unfold directive
  exact (formatQualifier_length _).trans ((formatPrecision_length _ _).trans
    ((formatWidth_length _ _ _).trans (formatFlags_length fmt 0)))

theorem integerArg_args (qualifier : Option Byte) (flags : U32) (args : VaList) :
    (integerArg qualifier flags args).2 = (integerArg qualifier 0 args).2 := by
  unfold integerArg
  split_ifs <;> rfl

-- What is left of the arguments depends on the conversion alone.
theorem convert_args {endp buf : Adr} {d : Directive} {c : Byte} {args args' : VaList} {str o : Out}
    (h : convert endp buf d c args str = .ok (args', o)) : args' = convArgs d c args := by
  unfold convert at h
  unfold convArgs
  by_cases hchar : c = char 'c'
  · rw [if_pos hchar] at h
    rw [if_pos (Or.inl hchar)]
    exact (Outcome.pair_inj h).1.symm
  by_cases hstring : c = char 's'
  · rw [if_neg hchar, if_pos hstring] at h
    rw [if_pos (Or.inr (Or.inl hstring))]
    exact (Outcome.pair_inj h).1.symm
  by_cases hpointer : c = char 'p'
  · rw [if_neg hchar, if_neg hstring, if_pos hpointer] at h
    rw [if_pos (Or.inr (Or.inr (Or.inl hpointer)))]
    obtain ⟨str', -, h⟩ := Outcome.bind_eq_ok.mp h
    exact (Outcome.pair_inj h).1.symm
  by_cases hcount : c = char 'n'
  · rw [if_neg hchar, if_neg hstring, if_neg hpointer, if_pos hcount] at h
    rw [if_pos (Or.inr (Or.inr (Or.inr hcount)))]
    exact (Outcome.pair_inj h).1.symm
  rw [if_neg hchar, if_neg hstring, if_neg hpointer, if_neg hcount] at h
  rw [if_neg (by simp only [hchar, hstring, hpointer, hcount, or_self, not_false_eq_true])]
  by_cases hpercent : c = char '%'
  · rw [if_pos hpercent] at h
    subst hpercent
    exact (Outcome.pair_inj h).1.symm
  rw [if_neg hpercent] at h
  cases hbase : integerBase c with
  | some base =>
      rw [hbase] at h
      obtain ⟨str', -, h⟩ := Outcome.bind_eq_ok.mp h
      rw [Option.isSome_some, if_pos rfl, ← integerArg_args]
      exact (Outcome.pair_inj h).1.symm
  | none =>
      rw [hbase] at h
      exact (Outcome.pair_inj h).1.symm

theorem vsnprintfLoop_eq (endp buf : Adr) {fuel : ℕ} (fmt : List Byte) (args : VaList) (str : Out)
    (hfuel : fmt.length < fuel) :
    vsnprintfLoop endp buf fuel fmt args str = sendPieces endp buf (takePieces fuel fmt args) str := by
  induction fuel generalizing fmt args str with
  | zero => omega
  | succ fuel ih =>
      rw [vsnprintfLoop, takePieces]
      dsimp only
      by_cases hend : fmt.headD 0 = 0
      · rw [if_pos hend, if_pos hend]
        rfl
      rw [if_neg hend, if_neg hend]
      obtain ⟨c, rest, rfl⟩ : ∃ c rest, fmt = c :: rest := by
        cases fmt with
        | nil => exact absurd rfl hend
        | cons c rest => exact ⟨c, rest, rfl⟩
      have hrest : rest.length < fuel := Nat.lt_of_succ_lt_succ hfuel
      by_cases hlit : (c :: rest).headD 0 ≠ char '%'
      · rw [if_pos hlit, if_pos hlit, sendPieces]
        exact ih rest args _ hrest
      · rw [if_neg hlit, if_neg hlit, sendPieces, List.tail_cons]
        have hlen := directive_length rest args
        generalize directive rest args = x at hlen
        obtain ⟨d, fmt, args'⟩ := x
        dsimp only at hlen ⊢
        have hnext : (if fmt.headD 0 = 0 then fmt else fmt.tail).length < fuel := by
          split_ifs
          · omega
          · have := tail_length fmt
            omega
        cases hconv : convert endp buf d (fmt.headD 0) args' str with
        | ok x =>
            obtain ⟨args'', o⟩ := x
            obtain rfl := convert_args hconv
            simp only [Outcome.ok_bind]
            exact ih _ _ o hnext
        | die _ | fault | hang => rfl

end Loop

end Lmosem
