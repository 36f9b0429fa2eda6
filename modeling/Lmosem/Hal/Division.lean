import Lmosem.Lib.ArmRun

-- The division routines of `hal/lib`. There is no `__LINUX_ARM_ARCH__`, so the code for old
-- cores is assembled.
namespace Lmosem

open Arm

-- `__div0` has an empty body.
inductive DivCall | div0 | aeabi_uidiv | aeabi_idiv
deriving DecidableEq, Repr

inductive UdivLabel | Loop1 | Lbignum | Loop3 | Lgot_result | Ldiv0
deriving DecidableEq, Repr

-- `__udivsi3` and `__aeabi_uidiv`, with the dividend in r0, the divisor in r1, the result in
-- r2 and `curbit` in r3. `link` is the address behind the call.
def udivsi3 (link : Word) : List (Line UdivLabel DivCall) :=
  [.ins .al (.cmp .r1 (.imm 0)),
   .b .eq .Ldiv0,
   .ins .al (.mov .r3 (.imm 1)),
   .ins .al (.mov .r2 (.imm 0)),
   .ins .al (.cmp .r0 (.reg .r1)),
   .b .cc .Lgot_result,
   .label .Loop1,
   .ins .al (.cmp .r1 (.imm 0x10000000)),
   .ins .cc (.cmp .r1 (.reg .r0)),
   .ins .cc (.mov .r1 (.lsl .r1 4)),
   .ins .cc (.mov .r3 (.lsl .r3 4)),
   .b .cc .Loop1,
   .label .Lbignum,
   .ins .al (.cmp .r1 (.imm 0x80000000)),
   .ins .cc (.cmp .r1 (.reg .r0)),
   .ins .cc (.mov .r1 (.lsl .r1 1)),
   .ins .cc (.mov .r3 (.lsl .r3 1)),
   .b .cc .Lbignum,
   .label .Loop3,
   .ins .al (.cmp .r0 (.reg .r1)),
   .ins .cs (.sub .r0 .r0 (.reg .r1)),
   .ins .cs (.orr .r2 .r2 (.reg .r3)),
   .ins .al (.cmp .r0 (.lsr .r1 1)),
   .ins .cs (.sub .r0 .r0 (.lsr .r1 1)),
   .ins .cs (.orr .r2 .r2 (.lsr .r3 1)),
   .ins .al (.cmp .r0 (.lsr .r1 2)),
   .ins .cs (.sub .r0 .r0 (.lsr .r1 2)),
   .ins .cs (.orr .r2 .r2 (.lsr .r3 2)),
   .ins .al (.cmp .r0 (.lsr .r1 3)),
   .ins .cs (.sub .r0 .r0 (.lsr .r1 3)),
   .ins .cs (.orr .r2 .r2 (.lsr .r3 3)),
   .ins .al (.cmp .r0 (.imm 0)),
   .ins .ne (.movs .r3 (.lsr .r3 4)),
   .ins .ne (.mov .r1 (.lsr .r1 4)),
   .b .ne .Loop3,
   .label .Lgot_result,
   .ins .al (.mov .r0 (.reg .r2)),
   .movPc .al .lr,
   .label .Ldiv0,
   .ins .al (.push [.lr]),
   .bl .div0 link,
   .ins .al (.mov .r0 (.imm 0)),
   .popPc]

-- `__umodsi3`, with `overdone` in r2.
def umodsi3 (link : Word) : List (Line UdivLabel DivCall) :=
  [.ins .al (.cmp .r1 (.imm 0)),
   .b .eq .Ldiv0,
   .ins .al (.mov .r3 (.imm 1)),
   .ins .al (.cmp .r0 (.reg .r1)),
   .movPc .cc .lr,
   .label .Loop1,
   .ins .al (.cmp .r1 (.imm 0x10000000)),
   .ins .cc (.cmp .r1 (.reg .r0)),
   .ins .cc (.mov .r1 (.lsl .r1 4)),
   .ins .cc (.mov .r3 (.lsl .r3 4)),
   .b .cc .Loop1,
   .label .Lbignum,
   .ins .al (.cmp .r1 (.imm 0x80000000)),
   .ins .cc (.cmp .r1 (.reg .r0)),
   .ins .cc (.mov .r1 (.lsl .r1 1)),
   .ins .cc (.mov .r3 (.lsl .r3 1)),
   .b .cc .Lbignum,
   .label .Loop3,
   .ins .al (.mov .r2 (.imm 0)),
   .ins .al (.cmp .r0 (.reg .r1)),
   .ins .cs (.sub .r0 .r0 (.reg .r1)),
   .ins .al (.cmp .r0 (.lsr .r1 1)),
   .ins .cs (.sub .r0 .r0 (.lsr .r1 1)),
   .ins .cs (.orr .r2 .r2 (.ror .r3 1)),
   .ins .al (.cmp .r0 (.lsr .r1 2)),
   .ins .cs (.sub .r0 .r0 (.lsr .r1 2)),
   .ins .cs (.orr .r2 .r2 (.ror .r3 2)),
   .ins .al (.cmp .r0 (.lsr .r1 3)),
   .ins .cs (.sub .r0 .r0 (.lsr .r1 3)),
   .ins .cs (.orr .r2 .r2 (.ror .r3 3)),
   .ins .al (.mov .ip (.reg .r3)),
   .ins .al (.cmp .r0 (.imm 0)),
   .ins .ne (.movs .r3 (.lsr .r3 4)),
   .ins .ne (.mov .r1 (.lsr .r1 4)),
   .b .ne .Loop3,
   .ins .al (.ands .r2 .r2 (.imm 0xe0000000)),
   .movPc .eq .lr,
   .ins .al (.tst .r2 (.ror .ip 3)),
   .ins .ne (.add .r0 .r0 (.lsr .r1 3)),
   .ins .al (.tst .r2 (.ror .ip 2)),
   .ins .ne (.add .r0 .r0 (.lsr .r1 2)),
   .ins .al (.tst .r2 (.ror .ip 1)),
   .ins .ne (.add .r0 .r0 (.lsr .r1 1)),
   .movPc .al .lr,
   .label .Ldiv0,
   .ins .al (.push [.lr]),
   .bl .div0 link,
   .ins .al (.mov .r0 (.imm 0)),
   .popPc]

-- The numbers of `_divsi3.S` are spelled out. `loop1`, `loop2` and `loop3` are the three lines
-- with number 1 in a body.
inductive DivLabel | loop1 | loop2 | loop3 | two | three | four | five | ten | eleven | twelve | Ldiv0
deriving DecidableEq, Repr

def ARM_DIV_BODY (dividend divisor result curbit : Reg) : List (Line DivLabel DivCall) :=
  [.ins .al (.tst divisor (.imm 0xe0000000)),
   .ins .eq (.mov divisor (.lsl divisor 3)),
   .ins .eq (.mov curbit (.imm 8)),
   .ins .ne (.mov curbit (.imm 1)),
   .label .loop1,
   .ins .al (.cmp divisor (.imm 0x10000000)),
   .ins .cc (.cmp divisor (.reg dividend)),
   .ins .cc (.mov divisor (.lsl divisor 4)),
   .ins .cc (.mov curbit (.lsl curbit 4)),
   .b .cc .loop1,
   .label .loop2,
   .ins .al (.cmp divisor (.imm 0x80000000)),
   .ins .cc (.cmp divisor (.reg dividend)),
   .ins .cc (.mov divisor (.lsl divisor 1)),
   .ins .cc (.mov curbit (.lsl curbit 1)),
   .b .cc .loop2,
   .ins .al (.mov result (.imm 0)),
   .label .loop3,
   .ins .al (.cmp dividend (.reg divisor)),
   .ins .cs (.sub dividend dividend (.reg divisor)),
   .ins .cs (.orr result result (.reg curbit)),
   .ins .al (.cmp dividend (.lsr divisor 1)),
   .ins .cs (.sub dividend dividend (.lsr divisor 1)),
   .ins .cs (.orr result result (.lsr curbit 1)),
   .ins .al (.cmp dividend (.lsr divisor 2)),
   .ins .cs (.sub dividend dividend (.lsr divisor 2)),
   .ins .cs (.orr result result (.lsr curbit 2)),
   .ins .al (.cmp dividend (.lsr divisor 3)),
   .ins .cs (.sub dividend dividend (.lsr divisor 3)),
   .ins .cs (.orr result result (.lsr curbit 3)),
   .ins .al (.cmp dividend (.imm 0)),
   .ins .ne (.movs curbit (.lsr curbit 4)),
   .ins .ne (.mov divisor (.lsr divisor 4)),
   .b .ne .loop3]

def ARM_DIV2_ORDER (divisor order : Reg) : List (Line DivLabel DivCall) :=
  [.ins .al (.cmp divisor (.imm 0x10000)),
   .ins .cs (.mov divisor (.lsr divisor 16)),
   .ins .cs (.mov order (.imm 16)),
   .ins .cc (.mov order (.imm 0)),
   .ins .al (.cmp divisor (.imm 0x100)),
   .ins .cs (.mov divisor (.lsr divisor 8)),
   .ins .cs (.add order order (.imm 8)),
   .ins .al (.cmp divisor (.imm 0x10)),
   .ins .cs (.mov divisor (.lsr divisor 4)),
   .ins .cs (.add order order (.imm 4)),
   .ins .al (.cmp divisor (.imm 4)),
   .ins .hi (.add order order (.imm 3)),
   .ins .ls (.add order order (.lsr divisor 1))]

-- `__divsi3` and `__aeabi_idiv`.
def divsi3 (link : Word) : List (Line DivLabel DivCall) :=
  ([.ins .al (.cmp .r1 (.imm 0)),
   .ins .al (.eor .ip .r0 (.reg .r1)),
   .b .eq .Ldiv0,
   .ins .mi (.rsb .r1 .r1 (.imm 0)),
   .ins .al (.subs .r2 .r1 (.imm 1)),
   .b .eq .ten,
   .ins .al (.movs .r3 (.reg .r0)),
   .ins .mi (.rsb .r3 .r0 (.imm 0)),
   .ins .al (.cmp .r3 (.reg .r1)),
   .b .ls .eleven,
   .ins .al (.tst .r1 (.reg .r2)),
   .b .eq .twelve] : List (Line DivLabel DivCall)) ++
  ARM_DIV_BODY .r3 .r1 .r0 .r2 ++
  ([.ins .al (.cmp .ip (.imm 0)),
   .ins .mi (.rsb .r0 .r0 (.imm 0)),
   .movPc .al .lr,
   .label .ten,
   .ins .al (.teq .ip (.reg .r0)),
   .ins .mi (.rsb .r0 .r0 (.imm 0)),
   .movPc .al .lr,
   .label .eleven,
   .ins .cc (.mov .r0 (.imm 0)),
   .ins .eq (.mov .r0 (.asr .ip 31)),
   .ins .eq (.orr .r0 .r0 (.imm 1)),
   .movPc .al .lr,
   .label .twelve] : List (Line DivLabel DivCall)) ++
  ARM_DIV2_ORDER .r1 .r2 ++
  ([.ins .al (.cmp .ip (.imm 0)),
   .ins .al (.mov .r0 (.lsrBy .r3 .r2)),
   .ins .mi (.rsb .r0 .r0 (.imm 0)),
   .movPc .al .lr,
   .label .Ldiv0,
   .ins .al (.push [.lr]),
   .bl .div0 link,
   .ins .al (.mov .r0 (.imm 0)),
   .popPc] : List (Line DivLabel DivCall))

def ARM_MOD_BODY (dividend divisor order : Reg) : List (Line DivLabel DivCall) :=
  [.ins .al (.mov order (.imm 0)),
   .label .loop1,
   .ins .al (.cmp divisor (.imm 0x10000000)),
   .ins .cc (.cmp divisor (.reg dividend)),
   .ins .cc (.mov divisor (.lsl divisor 4)),
   .ins .cc (.add order order (.imm 4)),
   .b .cc .loop1,
   .label .loop2,
   .ins .al (.cmp divisor (.imm 0x80000000)),
   .ins .cc (.cmp divisor (.reg dividend)),
   .ins .cc (.mov divisor (.lsl divisor 1)),
   .ins .cc (.add order order (.imm 1)),
   .b .cc .loop2,
   .ins .al (.subs order order (.imm 3)),
   .b .lt .two,
   .label .loop3,
   .ins .al (.cmp dividend (.reg divisor)),
   .ins .cs (.sub dividend dividend (.reg divisor)),
   .ins .al (.cmp dividend (.lsr divisor 1)),
   .ins .cs (.sub dividend dividend (.lsr divisor 1)),
   .ins .al (.cmp dividend (.lsr divisor 2)),
   .ins .cs (.sub dividend dividend (.lsr divisor 2)),
   .ins .al (.cmp dividend (.lsr divisor 3)),
   .ins .cs (.sub dividend dividend (.lsr divisor 3)),
   .ins .al (.cmp dividend (.imm 1)),
   .ins .al (.mov divisor (.lsr divisor 4)),
   .ins .ge (.subs order order (.imm 4)),
   .b .ge .loop3,
   .ins .al (.tst order (.imm 3)),
   .ins .ne (.teq dividend (.imm 0)),
   .b .eq .five,
   .label .two,
   .ins .al (.cmn order (.imm 2)),
   .b .lt .four,
   .b .eq .three,
   .ins .al (.cmp dividend (.reg divisor)),
   .ins .cs (.sub dividend dividend (.reg divisor)),
   .ins .al (.mov divisor (.lsr divisor 1)),
   .label .three,
   .ins .al (.cmp dividend (.reg divisor)),
   .ins .cs (.sub dividend dividend (.reg divisor)),
   .ins .al (.mov divisor (.lsr divisor 1)),
   .label .four,
   .ins .al (.cmp dividend (.reg divisor)),
   .ins .cs (.sub dividend dividend (.reg divisor)),
   .label .five]

-- `__modsi3`. The macro does not use its last register here.
def modsi3 (link : Word) : List (Line DivLabel DivCall) :=
  ([.ins .al (.cmp .r1 (.imm 0)),
   .b .eq .Ldiv0,
   .ins .mi (.rsb .r1 .r1 (.imm 0)),
   .ins .al (.movs .ip (.reg .r0)),
   .ins .mi (.rsb .r0 .r0 (.imm 0)),
   .ins .al (.subs .r2 .r1 (.imm 1)),
   .ins .ne (.cmp .r0 (.reg .r1)),
   .ins .eq (.mov .r0 (.imm 0)),
   .ins .hi (.tst .r1 (.reg .r2)),
   .ins .eq (.and .r0 .r0 (.reg .r2)),
   .b .ls .ten] : List (Line DivLabel DivCall)) ++
  ARM_MOD_BODY .r0 .r1 .r2 ++
  ([.label .ten,
   .ins .al (.cmp .ip (.imm 0)),
   .ins .mi (.rsb .r0 .r0 (.imm 0)),
   .movPc .al .lr,
   .label .Ldiv0,
   .ins .al (.push [.lr]),
   .bl .div0 link,
   .ins .al (.mov .r0 (.imm 0)),
   .popPc] : List (Line DivLabel DivCall))

-- `__aeabi_uidivmod` and `__aeabi_idivmod`, which differ in what they call.
def aeabiDivmod (f : DivCall) (link : Word) : List (Line Empty DivCall) :=
  [.ins .al (.push [.r0, .r1, .ip, .lr]),
   .bl f link,
   .ins .al (.pop [.r1, .r2, .ip, .lr]),
   .ins .al (.mul .r3 .r0 .r2),
   .ins .al (.sub .r1 .r1 (.reg .r3)),
   .movPc .al .lr]

def aeabi_uidivmod (link : Word) : List (Line Empty DivCall) := aeabiDivmod .aeabi_uidiv link

def aeabi_idivmod (link : Word) : List (Line Empty DivCall) := aeabiDivmod .aeabi_idiv link

-- `__div0` returns at once.
def div0 (s : Cpu) : Outcome (Cpu × Word) := .ok (s, s.reg .lr)

-- What the routines call. `link` is the address behind the call of `__div0`.
def divCall (fuel : ℕ) (link : Word) : DivCall → Cpu → Outcome (Cpu × Word)
  | .div0, s => div0 s
  | .aeabi_uidiv, s => run (fun _ => div0) (udivsi3 link) fuel (udivsi3 link) s
  | .aeabi_idiv, s => run (fun _ => div0) (divsi3 link) fuel (divsi3 link) s

end Lmosem
