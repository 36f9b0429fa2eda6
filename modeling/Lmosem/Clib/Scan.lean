import Lmosem.Clib.Format
import Lmosem.Lib.CString

-- `vsscanf` and the functions that read a number.
namespace Lmosem

open Memory While

-- The value of a hexadecimal digit, as `simple_strtoul` has it.
def strtoulDigit (c : Byte) : U32 :=
  if isdigit c then c.setWidth 32 - 0x30 else (toupper c).setWidth 32 - 0x41 + 10

def strtoullDigit (c : Byte) : U64 :=
  if isdigit c then c.setWidth 64 - 0x30
  else (if islower c then toupper c else c).setWidth 64 - 0x41 + 10

-- The base, and what is behind a prefix.
def strtoulStart (cp : List Byte) (base : U32) : U32 × List Byte :=
  if base = 0 then
    if cp.headD 0 = char '0' then
      let cp := cp.tail
      if toupper (cp.headD 0) = char 'X' ∧ isxdigit (cp.tail.headD 0) then (16, cp.tail)
      else (8, cp)
    else (10, cp)
  else if base = 16 then
    if cp.headD 0 = char '0' ∧ toupper (cp.tail.headD 0) = char 'X' then (16, cp.tail.tail)
    else (16, cp)
  else (base, cp)

def strtoulLoop {w : ℕ} (digit : Byte → BitVec w) (base : BitVec w) :
    List Byte → BitVec w → BitVec w × List Byte
  | [], result => (result, [])
  | c :: cp, result =>
      if isxdigit c ∧ digit c < base then strtoulLoop digit base cp (result * base + digit c)
      else (result, c :: cp)

-- What is returned, and what `*endp` points at.
def simpleStrtoul (cp : List Byte) (base : U32) : U32 × List Byte :=
  let (base, cp) := strtoulStart cp base
  strtoulLoop strtoulDigit base cp 0

def simpleStrtol (cp : List Byte) (base : U32) : U32 × List Byte :=
  if cp.headD 0 = char '-' then
    let (result, endp) := simpleStrtoul cp.tail base
    (-result, endp)
  else simpleStrtoul cp base

def simpleStrtoull (cp : List Byte) (base : U32) : U64 × List Byte :=
  let (base, cp) := strtoulStart cp base
  strtoulLoop strtoullDigit (base.setWidth 64) cp 0

def simpleStrtoll (cp : List Byte) (base : U32) : U64 × List Byte :=
  if cp.headD 0 = char '-' then
    let (result, endp) := simpleStrtoull cp.tail base
    (-result, endp)
  else simpleStrtoull cp base

-- The variables of `vsscanf`.
structure Scan where
  fmt : List Byte
  str : Adr
  args : VaList
  num : U32
  mem : Mem 32

def skipSpace (s : List Byte) : List Byte := s.dropWhile isspace

def skipWord (s : List Byte) : List Byte := s.dropWhile fun c => !isspace c && c != 0

-- `while (test(*str)) ++str;`
def skipAt (test : Byte → Bool) (mem : Mem 32) : ℕ → Adr → Outcome Adr
  | 0, _ => .hang
  | fuel + 1, str => if test (mem str) then skipAt test mem fuel (str + 1) else .ok str

def skipSpaceAt (mem : Mem 32) (str : Adr) : Outcome Adr := skipAt isspace mem (2 ^ 32) str

def skipWordAt (mem : Mem 32) (str : Adr) : Outcome Adr :=
  skipAt (fun c => !isspace c && c != 0) mem (2 ^ 32) str

-- What one of the functions above reads at `str`, and `next`. None of them goes on behind a zero.
-- A number that goes round the memory is never read to its end.
def strtoAt {w : ℕ} (strto : List Byte → U32 → BitVec w × List Byte) (mem : Mem 32) (str : Adr)
    (base : U32) : Outcome (BitVec w × Adr) :=
  let text := textAt mem (2 ^ 32) str
  let (result, endp) := strto text base
  let count := text.length - endp.length
  if count = 2 ^ 32 then .hang else .ok (result, str + BitVec.ofNat 32 count)

def scanQualifier (fmt : List Byte) : Option Byte × List Byte :=
  if isQualifier (fmt.headD 0) then
    let qualifier := fmt.headD 0
    let fmt := fmt.tail
    if qualifier = fmt.headD 0 then
      if qualifier = char 'h' then (some (char 'H'), fmt.tail)
      else if qualifier = char 'l' then (some (char 'L'), fmt.tail)
      else (some qualifier, fmt)
    else (some qualifier, fmt)
  else (none, fmt)

-- The base of an integer conversion, and whether it is signed.
def scanBase (c : Byte) : Option (U32 × Bool) :=
  if c = char 'o' then some (8, false)
  else if c = char 'x' ∨ c = char 'X' then some (16, false)
  else if c = char 'i' then some (0, true)
  else if c = char 'd' then some (10, true)
  else if c = char 'u' then some (10, false)
  else none

-- Whether a number in the base can start with `digit`.
def startsNumber (base : U32) (digit : Byte) : Bool :=
  !(digit = 0 || (base = 16 && !isxdigit digit) || (base = 10 && !isdigit digit) ||
    (base = 8 && (!isdigit digit || char '7' < digit)) || (base = 0 && !isdigit digit))

-- The `switch` on the qualifier: the number goes to `s`. With the memory comes `next`.
def scanStore (qualifier : Option Byte) (is_sign : Bool) (base : U32) (str s : Adr) (mem : Mem 32) :
    Outcome (Mem 32 × Adr) :=
  let long := if is_sign then simpleStrtol else simpleStrtoul
  let longLong := if is_sign then simpleStrtoll else simpleStrtoull
  if qualifier = some (char 'H') then do
    let (result, next) ← strtoAt long mem str base
    .ok (store mem s (result.setWidth 8), next)
  else if qualifier = some (char 'h') then do
    let (result, next) ← strtoAt long mem str base
    .ok (store mem s (result.setWidth 16), next)
  else if qualifier = some (char 'l') then do
    let (result, next) ← strtoAt long mem str base
    .ok (store mem s result, next)
  else if qualifier = some (char 'L') then do
    let (result, next) ← strtoAt longLong mem str base
    .ok (store mem s result, next)
  else if qualifier = some (char 'Z') ∨ qualifier = some (char 'z') then do
    let (result, next) ← strtoAt simpleStrtoul mem str base
    .ok (store mem s result, next)
  else do
    let (result, next) ← strtoAt long mem str base
    .ok (store mem s result, next)

-- The loop of `%c`: `do *s++ = *str++; while (--field_width > 0 && *str);`
def copyChars : ℕ → U32 → Adr → Adr → Mem 32 → Outcome (Adr × Mem 32)
  | 0, _, _, _, _ => .hang
  | fuel + 1, field_width, s, str, mem =>
      let mem := Function.update mem s (mem str)
      let field_width := field_width - 1
      if (0 : U32).slt field_width ∧ mem (str + 1) ≠ 0 then
        copyChars fuel field_width (s + 1) (str + 1) mem
      else .ok (str + 1, mem)

-- The loop of `%s`, with the terminator: `while (*str && !isspace(*str) && field_width--)`.
def copyWord : ℕ → U32 → Adr → Adr → Mem 32 → Outcome (Adr × Mem 32)
  | 0, _, _, _, _ => .hang
  | fuel + 1, field_width, s, str, mem =>
      if mem str ≠ 0 ∧ ¬isspace (mem str) ∧ field_width ≠ 0 then
        copyWord fuel (field_width - 1) (s + 1) (str + 1) (Function.update mem s (mem str))
      else .ok (str, Function.update mem s 0)

-- The `switch` on the conversion `c`, with `fmt` behind it. `inr` leaves the function.
def scanConvert (buf : Adr) (field_width : U32) (qualifier : Option Byte) (c : Byte) (s : Scan) :
    Outcome (Scan ⊕ U32 × Mem 32) :=
  if c = char 'c' then do
    let field_width := if field_width = -1 then 1 else field_width
    let (str, mem) ← copyChars (2 ^ 32) field_width (s.args 0) s.str s.mem
    .ok (.inl { s with str := str, args := s.args.skip 1, num := s.num + 1, mem := mem })
  else if c = char 's' then do
    let field_width := if field_width = -1 then 0x7fffffff else field_width
    let str ← skipSpaceAt s.mem s.str
    let (str, mem) ← copyWord (2 ^ 32) field_width (s.args 0) str s.mem
    .ok (.inl { s with str := str, args := s.args.skip 1, num := s.num + 1, mem := mem })
  else if c = char 'n' then
    .ok (.inl { s with args := s.args.skip 1, mem := store s.mem (s.args 0) (s.str - buf) })
  else if c = char '%' then
    if s.mem s.str ≠ char '%' then .ok (.inr (s.num, s.mem))
    else .ok (.inl { s with str := s.str + 1 })
  else
    match scanBase c with
    | some (base, is_sign) => do
        let str ← skipSpaceAt s.mem s.str
        let digit :=
          if is_sign ∧ s.mem str = char '-' then s.mem (str + 1) else s.mem str
        if ¬startsNumber base digit then .ok (.inr (s.num, s.mem))
        else do
          let (mem, next) ← scanStore qualifier is_sign base str (s.args 0) s.mem
          if next = NULL then .ok (.inr (s.num + 1, mem))
          else
            .ok (.inl { s with str := next, args := s.args.skip 1, num := s.num + 1, mem := mem })
    | none => .ok (.inr (s.num, s.mem))

-- One turn of the loop of `vsscanf`.
def scanTurn (buf : Adr) (s : Scan) : Outcome (Scan ⊕ U32 × Mem 32) :=
  if s.fmt.headD 0 = 0 ∨ s.mem s.str = 0 then .ok (.inr (s.num, s.mem))
  else do
    let str ← if isspace (s.fmt.headD 0) then skipSpaceAt s.mem s.str else .ok s.str
    let fmt := if isspace (s.fmt.headD 0) then skipSpace s.fmt else s.fmt
    let s : Scan := { s with fmt := fmt, str := str }
    if s.fmt.headD 0 ≠ char '%' ∧ s.fmt.headD 0 ≠ 0 then
      if s.fmt.headD 0 ≠ s.mem s.str then .ok (.inr (s.num, s.mem))
      else .ok (.inl { s with fmt := s.fmt.tail, str := s.str + 1 })
    else if s.fmt.headD 0 = 0 then .ok (.inr (s.num, s.mem))
    else
      let fmt := s.fmt.tail
      if fmt.headD 0 = char '*' then do
        let str ← skipWordAt s.mem s.str
        .ok (.inl { s with fmt := skipWord fmt, str := str })
      else
        let (field_width, fmt) := if isdigit (fmt.headD 0) then skipAtoi fmt 0 else (-1, fmt)
        let (qualifier, fmt) := scanQualifier fmt
        if fmt.headD 0 = 0 ∨ s.mem s.str = 0 then .ok (.inr (s.num, s.mem))
        else scanConvert buf field_width qualifier (fmt.headD 0) { s with fmt := fmt.tail }

-- How many results are returned, and the memory they are in. What is read is what stands in
-- memory when it is read.
def vsscanf (mem : Mem 32) (buf : Adr) (fmt : List Byte) (args : VaList) : Outcome (U32 × Mem 32) :=
  tryLoop (scanTurn buf) (fmt.length + 1) ⟨fmt, buf, args, 0, mem⟩

end Lmosem
