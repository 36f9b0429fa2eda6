import Lmosem.Lib.Memory
import Lmosem.Lib.Outcome

-- Routines in ARM assembly: data processing with conditions and shifted operands, branches
-- to labels, calls and returns.
namespace Arm

open Memory

abbrev Word := BitVec 32

inductive Reg | r0 | r1 | r2 | r3 | ip | sp | lr
deriving DecidableEq, Repr

structure Cpu where
  reg : Reg → Word
  n : Bool
  z : Bool
  c : Bool
  v : Bool
  mem : Mem 32

inductive Cond | al | eq | ne | cs | cc | mi | hi | ls | ge | lt
deriving DecidableEq, Repr

def Cond.holds (s : Cpu) : Cond → Bool
  | al => true
  | eq => s.z
  | ne => !s.z
  | cs => s.c
  | cc => !s.c
  | mi => s.n
  | hi => s.c && !s.z
  | ls => !s.c || s.z
  | ge => s.n == s.v
  | lt => s.n != s.v

-- The second operand. `lsrBy` shifts by the low byte of a register.
inductive Operand
  | imm (x : Word)
  | reg (r : Reg)
  | lsl (r : Reg) (k : ℕ)
  | lsr (r : Reg) (k : ℕ)
  | asr (r : Reg) (k : ℕ)
  | ror (r : Reg) (k : ℕ)
  | lsrBy (r k : Reg)
deriving DecidableEq, Repr

def Operand.value (s : Cpu) : Operand → Word
  | imm x => x
  | reg r => s.reg r
  | lsl r k => s.reg r <<< k
  | lsr r k => s.reg r >>> k
  | asr r k => (s.reg r).sshiftRight k
  | ror r k => (s.reg r).rotateRight k
  | lsrBy r k => s.reg r >>> ((s.reg k).setWidth 8).toNat

-- The carry out of the shifter, for shifts from 1 to 31. An immediate that has to be rotated
-- gives its top bit.
def Operand.carry (s : Cpu) : Operand → Bool
  | imm x => if x < 256 then s.c else x.msb
  | reg _ => s.c
  | lsl r k => (s.reg r).getLsbD (32 - k)
  | lsr r k => (s.reg r).getLsbD (k - 1)
  | asr r k => (s.reg r).getLsbD (k - 1)
  | ror r k => (s.reg r).getLsbD (k - 1)
  | lsrBy r k =>
      let n := ((s.reg k).setWidth 8).toNat
      if n = 0 then s.c else (s.reg r).getLsbD (n - 1)

inductive Op
  | mov (d : Reg) (x : Operand)
  | movs (d : Reg) (x : Operand)
  | and (d n : Reg) (x : Operand)
  | ands (d n : Reg) (x : Operand)
  | eor (d n : Reg) (x : Operand)
  | orr (d n : Reg) (x : Operand)
  | add (d n : Reg) (x : Operand)
  | sub (d n : Reg) (x : Operand)
  | subs (d n : Reg) (x : Operand)
  | rsb (d n : Reg) (x : Operand)
  | mul (d m s : Reg)
  | cmp (n : Reg) (x : Operand)
  | cmn (n : Reg) (x : Operand)
  | tst (n : Reg) (x : Operand)
  | teq (n : Reg) (x : Operand)
  | push (rs : List Reg)
  | pop (rs : List Reg)
deriving DecidableEq, Repr

def Cpu.set (s : Cpu) (d : Reg) (x : Word) : Cpu := { s with reg := Function.update s.reg d x }

-- The flags of a logical operation with the result `x`.
def Cpu.logic (s : Cpu) (x : Word) (carry : Bool) : Cpu := { s with n := x.msb, z := x == 0, c := carry }

-- The flags of `a - b`, where the carry says that nothing is borrowed.
def Cpu.compare (s : Cpu) (a b : Word) : Cpu :=
  { s with
    n := (a - b).msb, z := a - b == 0, c := b ≤ a
    v := a.msb != b.msb && (a - b).msb != a.msb }

-- The flags of `a + b`.
def Cpu.compareNeg (s : Cpu) (a b : Word) : Cpu :=
  { s with
    n := (a + b).msb, z := a + b == 0, c := 2 ^ 32 ≤ a.toNat + b.toNat
    v := a.msb == b.msb && (a + b).msb != a.msb }

-- Words from `p` on, the lowest byte first.
def storeWords (m : Mem 32) (p : Word) (ws : List Word) : Mem 32 :=
  fill m p (4 * ws.length) fun i => (ws.getD (i / 4) 0 >>> (8 * (i % 4))).setWidth 8

def loadWord (m : Mem 32) (p : Word) : Word := m (p + 3#32) ++ m (p + 2#32) ++ m (p + 1#32) ++ m p

-- The registers are loaded one after the other.
def loadRegs (m : Mem 32) : Word → List Reg → (Reg → Word) → Reg → Word
  | _, [], regs => regs
  | p, r :: rs, regs => loadRegs m (p + 4) rs (Function.update regs r (loadWord m p))

def Op.exec (s : Cpu) : Op → Cpu
  | mov d x => s.set d (x.value s)
  | movs d x => (s.logic (x.value s) (x.carry s)).set d (x.value s)
  | and d n x => s.set d (s.reg n &&& x.value s)
  | ands d n x => (s.logic (s.reg n &&& x.value s) (x.carry s)).set d (s.reg n &&& x.value s)
  | eor d n x => s.set d (s.reg n ^^^ x.value s)
  | orr d n x => s.set d (s.reg n ||| x.value s)
  | add d n x => s.set d (s.reg n + x.value s)
  | sub d n x => s.set d (s.reg n - x.value s)
  | subs d n x => (s.compare (s.reg n) (x.value s)).set d (s.reg n - x.value s)
  | rsb d n x => s.set d (x.value s - s.reg n)
  | mul d m x => s.set d (s.reg m * s.reg x)
  | cmp n x => s.compare (s.reg n) (x.value s)
  | cmn n x => s.compareNeg (s.reg n) (x.value s)
  | tst n x => s.logic (s.reg n &&& x.value s) (x.carry s)
  | teq n x => s.logic (s.reg n ^^^ x.value s) (x.carry s)
  | push rs =>
      let p := s.reg .sp - BitVec.ofNat 32 (4 * rs.length)
      { s.set .sp p with mem := storeWords s.mem p (rs.map s.reg) }
  | pop rs =>
      let p := s.reg .sp
      { s with
        reg := loadRegs s.mem p rs
          (Function.update s.reg .sp (p + BitVec.ofNat 32 (4 * rs.length))) }

-- A line of a routine over labels `L`, which calls routines named by `F`. A call says where
-- it is returned to.
inductive Line (L F : Type)
  | label (l : L)
  | ins (c : Cond) (o : Op)
  | b (c : Cond) (l : L)
  | bl (f : F) (link : Word)
  | movPc (c : Cond) (r : Reg)
  | popPc

def Cpu.step (s : Cpu) (c : Cond) (o : Op) : Cpu := if c.holds s then o.exec s else s

variable {L F : Type} [DecidableEq L]

-- The lines behind a label.
def behind (l : L) : List (Line L F) → List (Line L F)
  | [] => []
  | .label l' :: code => if l = l' then code else behind l code
  | _ :: code => behind l code

-- A run comes to a state and the address that is jumped to in the end.
def run (call : F → Cpu → Outcome (Cpu × Word)) (prog : List (Line L F)) :
    ℕ → List (Line L F) → Cpu → Outcome (Cpu × Word)
  | 0, _, _ => .hang
  | _ + 1, [], _ => .fault
  | fuel + 1, .label _ :: code, s => run call prog fuel code s
  | fuel + 1, .ins c o :: code, s => run call prog fuel code (s.step c o)
  | fuel + 1, .b c l :: code, s => run call prog fuel (if c.holds s then behind l prog else code) s
  | fuel + 1, .bl f link :: code, s =>
      match call f (s.set .lr link) with
      | .ok (t, pc) => if pc = link then run call prog fuel code t else .fault
      | .die message => .die message
      | .fault => .fault
      | .hang => .hang
  | fuel + 1, .movPc c r :: code, s => if c.holds s then .ok (s, s.reg r) else run call prog fuel code s
  | _ + 1, .popPc :: _, s =>
      .ok (s.set .sp (s.reg .sp + 4), loadWord s.mem (s.reg .sp))

end Arm
