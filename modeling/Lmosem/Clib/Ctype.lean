import Mathlib.Data.Nat.Notation

-- The classes of characters.
namespace Lmosem

abbrev Byte := BitVec 8

-- A character constant.
def char (c : Char) : Byte := BitVec.ofNat 8 c.toNat

namespace Ctype

abbrev U : Byte := 0x01
abbrev L : Byte := 0x02
abbrev D : Byte := 0x04
abbrev C : Byte := 0x08
abbrev P : Byte := 0x10
abbrev S : Byte := 0x20
abbrev X : Byte := 0x40
abbrev SP : Byte := 0x80

-- The table `_ctype`.
def table : List Byte :=
  [C, C, C, C, C, C, C, C,
   C, C ||| S, C ||| S, C ||| S, C ||| S, C ||| S, C, C,
   C, C, C, C, C, C, C, C,
   C, C, C, C, C, C, C, C,
   S ||| SP, P, P, P, P, P, P, P,
   P, P, P, P, P, P, P, P,
   D, D, D, D, D, D, D, D,
   D, D, P, P, P, P, P, P,
   P, U ||| X, U ||| X, U ||| X, U ||| X, U ||| X, U ||| X, U,
   U, U, U, U, U, U, U, U,
   U, U, U, U, U, U, U, U,
   U, U, U, P, P, P, P, P,
   P, L ||| X, L ||| X, L ||| X, L ||| X, L ||| X, L ||| X, L,
   L, L, L, L, L, L, L, L,
   L, L, L, L, L, L, L, L,
   L, L, L, P, P, P, P, C] ++
  List.replicate 32 0 ++
  [S ||| SP, P, P, P, P, P, P, P, P, P, P, P, P, P, P, P,
   P, P, P, P, P, P, P, P, P, P, P, P, P, P, P, P,
   U, U, U, U, U, U, U, U, U, U, U, U, U, U, U, U,
   U, U, U, U, U, U, U, P, U, U, U, U, U, U, U, L,
   L, L, L, L, L, L, L, L, L, L, L, L, L, L, L, L,
   L, L, L, L, L, L, L, P, L, L, L, L, L, L, L, L]

end Ctype

-- `__ismask`
def ismask (x : Byte) : Byte := Ctype.table.getD x.toNat 0

def isdigit (c : Byte) : Bool := ismask c &&& Ctype.D != 0

def islower (c : Byte) : Bool := ismask c &&& Ctype.L != 0

def isspace (c : Byte) : Bool := ismask c &&& Ctype.S != 0

def isxdigit (c : Byte) : Bool := ismask c &&& (Ctype.D ||| Ctype.X) != 0

def toupper (c : Byte) : Byte := if islower c then c - (0x61 - 0x41) else c

end Lmosem
