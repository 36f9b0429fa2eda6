import Lmosem.Clib.Number

-- `vsnprintf`: formats, their directives and what is written for them. A format is a constant, so
-- it is a list of bytes, with or without its terminator: `*fmt` is zero at the end.
namespace Lmosem

open Memory While

-- The argument words from `ap` on.
abbrev VaList := ℕ → U32

def VaList.skip (args : VaList) (n : ℕ) : VaList := fun i => args (n + i)

-- What stands between a `%` and the conversion. A qualifier of -1 is `none`.
structure Directive where
  flags : U32
  field_width : U32
  precision : U32
  qualifier : Option Byte
deriving DecidableEq, Repr

-- The bit that a flag character stands for.
def flagBit (c : Byte) : Option U32 :=
  if c = char '-' then some LEFT
  else if c = char '+' then some PLUS
  else if c = char ' ' then some SPACE
  else if c = char '#' then some SPECIAL
  else if c = char '0' then some ZEROPAD
  else none

def formatFlags : List Byte → U32 → U32 × List Byte
  | [], flags => (flags, [])
  | c :: fmt, flags =>
      match flagBit c with
      | some bit => formatFlags fmt (flags ||| bit)
      | none => (flags, c :: fmt)

-- `i` is what has been read so far. It is an `int`, which wraps.
def skipAtoi : List Byte → U32 → U32 × List Byte
  | [], i => (i, [])
  | c :: s, i => if isdigit c then skipAtoi s (i * 10 + c.setWidth 32 - 0x30) else (i, c :: s)

-- The field width, which may come from the arguments and may set `LEFT`. The least `int` stays
-- negative.
def formatWidth (fmt : List Byte) (flags : U32) (args : VaList) : U32 × U32 × List Byte × VaList :=
  if isdigit (fmt.headD 0) then
    let (field_width, fmt) := skipAtoi fmt 0
    (field_width, flags, fmt, args)
  else if fmt.headD 0 = char '*' then
    let field_width := args 0
    if field_width.slt 0 then (-field_width, flags ||| LEFT, fmt.tail, args.skip 1)
    else (field_width, flags, fmt.tail, args.skip 1)
  else (-1, flags, fmt, args)

-- The digits or the argument behind the point of a precision.
def precisionArg (fmt : List Byte) (args : VaList) : U32 × List Byte × VaList :=
  if isdigit (fmt.headD 0) then
    let (precision, fmt) := skipAtoi fmt 0
    (precision, fmt, args)
  else if fmt.headD 0 = char '*' then (args 0, fmt.tail, args.skip 1)
  else (-1, fmt, args)

def formatPrecision (fmt : List Byte) (args : VaList) : U32 × List Byte × VaList :=
  if fmt.headD 0 = char '.' then
    let (precision, fmt, args) := precisionArg fmt.tail args
    (if precision.slt 0 then 0 else precision, fmt, args)
  else (-1, fmt, args)

def isQualifier (c : Byte) : Bool :=
  c = char 'h' || c = char 'l' || c = char 'L' || c = char 'Z' || c = char 'z'

def formatQualifier (fmt : List Byte) : Option Byte × List Byte :=
  if isQualifier (fmt.headD 0) then
    let qualifier := fmt.headD 0
    let fmt := fmt.tail
    if qualifier = char 'l' ∧ fmt.headD 0 = char 'l' then (some (char 'L'), fmt.tail)
    else (some qualifier, fmt)
  else (none, fmt)

-- From behind a `%` to its conversion.
def directive (fmt : List Byte) (args : VaList) : Directive × List Byte × VaList :=
  let (flags, fmt) := formatFlags fmt 0
  let (field_width, flags, fmt, args) := formatWidth fmt flags args
  let (precision, fmt, args) := formatPrecision fmt args
  let (qualifier, fmt) := formatQualifier fmt
  (⟨flags, field_width, precision, qualifier⟩, fmt, args)

-- The base of an integer conversion and the flag it sets.
def integerBase (c : Byte) : Option (U32 × U32) :=
  if c = char 'o' then some (8, 0)
  else if c = char 'X' then some (16, LARGE)
  else if c = char 'x' then some (16, 0)
  else if c = char 'd' ∨ c = char 'i' then some (10, SIGN)
  else if c = char 'u' then some (10, 0)
  else none

def integerArg (qualifier : Option Byte) (flags : U32) (args : VaList) : U64 × VaList :=
  if qualifier = some (char 'L') then (args 1 ++ args 0, args.skip 2)
  else if qualifier = some (char 'l') then
    (if flags &&& SIGN ≠ 0 then (args 0).signExtend 64 else (args 0).setWidth 64, args.skip 1)
  else if qualifier = some (char 'Z') ∨ qualifier = some (char 'z') then
    ((args 0).setWidth 64, args.skip 1)
  else if qualifier = some (char 'h') then
    let short : BitVec 16 := (args 0).setWidth 16
    (if flags &&& SIGN ≠ 0 then short.signExtend 64 else short.setWidth 64, args.skip 1)
  else
    (if flags &&& SIGN ≠ 0 then (args 0).signExtend 64 else (args 0).setWidth 64, args.skip 1)

def nullText : List Byte := [char '<', char 'N', char 'U', char 'L', char 'L', char '>']

-- The byte at `i` of the string `s`. Addresses below 1024 give another string.
def stringChar (s : Adr) (mem : Mem 32) (i : ℕ) : Byte :=
  if s.toNat < 1024 then nullText.getD i 0 else mem (s + BitVec.ofNat 32 i)

-- How many of at most `count` bytes, from number `i` on, stand in front of a terminator.
def strnlen (s : ℕ → Byte) : ℕ → ℕ → ℕ
  | 0, i => i
  | count + 1, i => if s i ≠ 0 then strnlen s count (i + 1) else i

-- The loop that copies a string, with `left` bytes to go from number `i` on.
def copyString (endp s : Adr) : ℕ → ℕ → Out → Out
  | 0, _, str => str
  | left + 1, i, str => copyString endp s left (i + 1) (putChar endp (stringChar s str.mem i) str)

-- `*p = value`, the lowest byte first.
def store {w : ℕ} (mem : Mem 32) (p : Adr) (value : BitVec w) : Mem 32 :=
  fill mem p (w / 8) fun i => (value >>> (8 * i)).setWidth 8

-- The `switch` on the conversion `c`, which is zero at the end of the format.
def convert (endp buf : Adr) (d : Directive) (c : Byte) (args : VaList) (str : Out) :
    Outcome (VaList × Out) :=
  if c = char 'c' then
    -- `while (--field_width > 0)`
    let (field_width, str) :=
      if d.flags &&& LEFT = 0 then preDec 1 (putChar endp (char ' ')) d.field_width str
      else (d.field_width, str)
    let str := putChar endp ((args 0).setWidth 8) str
    let (_, str) := preDec 1 (putChar endp (char ' ')) field_width str
    .ok (args.skip 1, str)
  else if c = char 's' then
    let s := args 0
    let len : U32 := BitVec.ofNat 32 (strnlen (stringChar s str.mem) d.precision.toNat 0)
    -- `while (len < field_width--)`
    let (field_width, str) :=
      if d.flags &&& LEFT = 0 then postDec len (putChar endp (char ' ')) d.field_width str
      else (d.field_width, str)
    let str := copyString endp s len.toInt.toNat 0 str
    let (_, str) := postDec len (putChar endp (char ' ')) field_width str
    .ok (args.skip 1, str)
  else if c = char 'p' then do
    let (field_width, flags) :=
      if d.field_width = -1 then (8, d.flags ||| ZEROPAD) else (d.field_width, d.flags)
    let str ← number endp ((args 0).setWidth 64) 16 field_width d.precision flags str
    .ok (args.skip 1, str)
  else if c = char 'n' then
    .ok (args.skip 1, ⟨store str.mem (args 0) (str.str - buf), str.str⟩)
  else if c = char '%' then .ok (args, putChar endp (char '%') str)
  else
    match integerBase c with
    | some (base, flag) => do
        let flags := d.flags ||| flag
        let (num, args) := integerArg d.qualifier flags args
        let str ← number endp num base d.field_width d.precision flags str
        .ok (args, str)
    | none =>
        let str := putChar endp (char '%') str
        .ok (args, if c ≠ 0 then putChar endp c str else str)

def vsnprintfLoop (endp buf : Adr) : ℕ → List Byte → VaList → Out → Outcome Out
  | 0, _, _, _ => .hang
  | fuel + 1, fmt, args, str =>
      let c := fmt.headD 0
      if c = 0 then .ok str
      else if c ≠ char '%' then vsnprintfLoop endp buf fuel fmt.tail args (putChar endp c str)
      else do
        let (d, fmt, args) := directive fmt.tail args
        let c := fmt.headD 0
        let (args, str) ← convert endp buf d c args str
        vsnprintfLoop endp buf fuel (if c = 0 then fmt else fmt.tail) args str

-- What is returned, and the memory that is left.
def vsnprintf (mem : Mem 32) (buf : Adr) (size : SizeT) (fmt : List Byte) (args : VaList) :
    Outcome (U32 × Mem 32) :=
  if size.slt 0 then .ok (0, mem)
  else do
    let endp := buf + size - 1
    let (endp, size) := if endp < buf - 1 then (-1, -1 - buf + 1) else (endp, size)
    let str ← vsnprintfLoop endp buf (fmt.length + 1) fmt args ⟨mem, buf⟩
    let mem :=
      if str.str ≤ endp then Function.update str.mem str.str 0
      else if size > 0 then Function.update str.mem endp 0
      else str.mem
    .ok (str.str - buf, mem)

end Lmosem
