import Lmosem.Clib.Ctype
import Lmosem.Hal.Types
import Lmosem.Lib.Poll

-- UART1: its registers are polled, and characters go in and out one at a time.
namespace Lmosem

-- What the registers give when they are read for the `i`-th time.
structure UartInput where
  usr2 : ℕ → U32
  urxd : ℕ → U32

-- How often `USR2` and `URXD` have been read, and what has been written to `UTXD`.
structure Uart where
  polls : ℕ
  taken : ℕ
  sent : List Byte
deriving DecidableEq, Repr

def txDone (usr2 : U32) : Bool := (usr2 >>> 3) &&& 0x01 != 0

def rxReady (usr2 : U32) : Bool := usr2 &&& 0x1 != 0

-- The loops that wait for a bit of `USR2`.
def waitUsr2 (ready : U32 → Bool) (dev : UartInput) (fuel : ℕ) (u : Uart) : Outcome Uart := do
  let (i, _) ← Poll.loop (fun usr2 () => if ready usr2 then .inr () else .inl ()) dev.usr2 fuel
    u.polls ()
  .ok { u with polls := i + 1 }

-- `putc` without the line that is about line ends.
def transmit (dev : UartInput) (fuel : ℕ) (c : Byte) (u : Uart) : Outcome Uart := do
  let u ← waitUsr2 txDone dev fuel u
  .ok { u with sent := u.sent ++ [c] }

-- The call that `putc` makes of itself makes no other.
def putc (dev : UartInput) (fuel : ℕ) (c : Byte) (u : Uart) : Outcome Uart := do
  let u ← transmit dev fuel c u
  if c = char '\n' then transmit dev fuel (char '\r') u else .ok u

def getc (dev : UartInput) (fuel : ℕ) (u : Uart) : Outcome (Byte × Uart) := do
  let u ← waitUsr2 rxReady dev fuel u
  .ok ((dev.urxd u.taken).setWidth 8, { u with taken := u.taken + 1 })

-- The device never makes a wait longer than `fuel` readings.
def Responds (ready : U32 → Bool) (dev : UartInput) (fuel : ℕ) : Prop :=
  ∀ i, ∃ j < fuel, ready (dev.usr2 (i + j)) = true

-- What a character is on the line.
def wire (c : Byte) : List Byte := if c = char '\n' then [char '\n', char '\r'] else [c]

section Uart

variable {ready : U32 → Bool} {dev : UartInput} {fuel : ℕ}

theorem wait_ends {input : ℕ → U32} {i j : ℕ} (hj : j < fuel) (h : ready (input (i + j)) = true) :
    ∃ n, Poll.loop (fun usr2 () => if ready usr2 then .inr () else .inl ()) input fuel i () =
      .ok (n, ()) := by
  induction fuel generalizing i j with
  | zero => omega
  | succ fuel ih =>
      rw [Poll.loop]
      by_cases hi : ready (input i) = true
      · exact ⟨i, by rw [if_pos hi]⟩
      · rw [if_neg hi]
        cases j with
        | zero => exact absurd h hi
        | succ j => exact ih (show j < fuel by omega) (by rwa [Nat.add_right_comm])

theorem waitUsr2_ok (h : Responds ready dev fuel) (u : Uart) :
    ∃ n, waitUsr2 ready dev fuel u = .ok { u with polls := n } := by
  obtain ⟨j, hj, hready⟩ := h u.polls
  obtain ⟨n, hn⟩ := wait_ends hj hready
  exact ⟨n + 1, by rw [waitUsr2, hn]; rfl⟩

theorem transmit_ok (h : Responds txDone dev fuel) (c : Byte) (u : Uart) :
    ∃ n, transmit dev fuel c u = .ok ⟨n, u.taken, u.sent ++ [c]⟩ := by
  obtain ⟨n, hn⟩ := waitUsr2_ok h u
  exact ⟨n, by rw [transmit, hn]; rfl⟩

-- A line feed is followed by a carriage return.
theorem putc_ok (h : Responds txDone dev fuel) (c : Byte) (u : Uart) :
    ∃ n, putc dev fuel c u = .ok ⟨n, u.taken, u.sent ++ wire c⟩ := by
  obtain ⟨n, hn⟩ := transmit_ok h c u
  rw [putc, hn, Outcome.ok_bind, wire]
  split_ifs with hc
  · obtain ⟨n', hn'⟩ := transmit_ok h (char '\r') ⟨n, u.taken, u.sent ++ [c]⟩
    refine ⟨n', ?_⟩
    rw [hn', List.append_assoc, hc]
    rfl
  · exact ⟨n, rfl⟩

theorem getc_ok (h : Responds rxReady dev fuel) (u : Uart) :
    ∃ n, getc dev fuel u = .ok ((dev.urxd u.taken).setWidth 8, ⟨n, u.taken + 1, u.sent⟩) := by
  obtain ⟨n, hn⟩ := waitUsr2_ok h u
  exact ⟨n, by rw [getc, hn]; rfl⟩

end Uart

end Lmosem
