import Lmosem.Lib.Spinlock
import Lmosem.Hal.Runs
import Mathlib.Data.Fin.VecNotation

namespace Lmosem

open Transition Spinlock

-- The bits of the status word that mask both kinds of interrupt.
abbrev CIRQFIQ : U32 := 0xc0

-- What `spin_lock_irqsave` makes of the status word before it goes for the lock.
def irqsave (cpsr : U32) : U32 := cpsr ||| CIRQFIQ

-- The spin locks of `struct kmem_pool`.
inductive PoolLock
  | lock
  | pageLock
  | wordLock
deriving DecidableEq, Repr

-- Which of them `kmem_pool_alloc_page` and `kmem_pool_free_page` take and release.
def callLock : BlkCall → PoolLock
  | .alloc _ => .pageLock
  | .free _ _ => .lock

-- One step of one core on the locks of `os_kmem_pool`.
abbrev LockStep {ι : Type} [DecidableEq ι] : State ι PoolLock BlkCall → ι × Action →
    State ι PoolLock BlkCall → Prop := Step callLock irqsave

-- The locks as `spin_lock_init` leaves them in `kmem_pool_init`, and cores with these status
-- words that have these calls to make.
abbrev lockStart {ι : Type} (cpsr : ι → U32) (calls : ι → List BlkCall) :
    State ι PoolLock BlkCall := start cpsr calls

-- Calls on the pools keep out of each other's way in every interleaving exactly when no core
-- allocates pages while another one releases some.
theorem pool_calls_exclusive_iff {ι : Type} [DecidableEq ι] (cpsr : ι → U32)
    (calls : ι → List BlkCall) :
    (∀ s, Reachable LockStep (lockStart cpsr calls) s → Exclusive s) ↔
      ¬∃ c d size addr sz, c ≠ d ∧ BlkCall.alloc size ∈ calls c ∧ BlkCall.free addr sz ∈ calls d := by
  rw [exclusive_iff]
  constructor
  · rintro hone ⟨c, d, size, addr, sz, hcd, hc, hd⟩
    have hl := hone c d hcd _ hc _ hd
    cases hl
  · intro hnone c d hcd op hop op' hop'
    cases op with
    | alloc size =>
        cases op' with
        | alloc _ => rfl
        | free addr sz => exact absurd ⟨c, d, size, addr, sz, hcd, hop, hop'⟩ hnone
    | free addr sz =>
        cases op' with
        | alloc size => exact absurd ⟨d, c, size, addr, sz, hcd.symm, hop', hop⟩ hnone
        | free _ _ => rfl

-- One core takes a page while the other gives one back.
theorem pool_calls_overlap : ¬∀ (cpsr : Fin 2 → U32) (calls : Fin 2 → List BlkCall)
    (s : State (Fin 2) PoolLock BlkCall), Reachable LockStep (lockStart cpsr calls) s →
      Exclusive s := by
  intro hall
  let calls : Fin 2 → List BlkCall := ![[.alloc 0x1000], [.free 0x80401000 0x1000]]
  have hlocks : callLock (.alloc 0x1000) ≠ callLock (.free 0x80401000 0x1000) := by decide
  obtain ⟨s, hs, hc, hd⟩ := overlap irqsave (fun _ => 0) (show (0 : Fin 2) ≠ 1 by decide)
    (show BlkCall.alloc 0x1000 ∈ calls 0 from List.mem_cons_self)
    (show BlkCall.free 0x80401000 0x1000 ∈ calls 1 from List.mem_cons_self) hlocks
  exact absurd (hall _ calls s hs 0 1 _ _ hc hd) (by decide)

end Lmosem
