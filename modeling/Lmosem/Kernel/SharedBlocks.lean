import Lmosem.Kernel.PoolLocks
import Lmosem.Lib.Critical
import Lmosem.Hal.Safety

namespace Lmosem

open Transition Region Critical

abbrev Block := Adr × SizeT

-- A call that has returned `r`.
def BlkCall.event : BlkCall → U32 → BlkEvent
  | .alloc size, r => .alloc size r
  | .free addr size, r => .free addr size (r ≠ 0)

def callEvent {ι : Type} (x : ι × BlkCall × U32) : BlkEvent := x.2.1.event x.2.2

-- The code comes back with `r` when it is called on `s`.
def BlkCall.Returns (s : Mm) (r : U32) : BlkCall → Prop
  | .alloc size => ∃ s', allocMemBlkCore s size = .ok (r, s')
  | .free addr size => ∃ s', freeMemBlkCore s addr size = .ok (r ≠ 0, s')

-- The critical sections of `alloc_mem_blk_core` and `free_mem_blk_core`, cut into accesses to
-- `os_phy_mem` in whatever way.
structure BlkCode where
  job : BlkCall → Job Mm U32
  alloc : ∀ s size ret s', allocMemBlkCore s size = .ok (ret, s') →
    (job (.alloc size)).run s = (ret, s')
  free : ∀ s addr size ret s', freeMemBlkCore s addr size = .ok (ret, s') →
    (job (.free addr size)).run s = (if ret then 1 else 0, s')

-- The calls that get past the checks in front of the lock. A core frees what it holds.
def mayCall (held : List Block) : BlkCall → Prop
  | .alloc size => ¬(size < BLK128KB_SIZE ∨ size > BLK4MB_SIZE)
  | .free addr size =>
      ¬(addr = NULL ∨ size < BLK128KB_SIZE ∨ size > BLK4MB_SIZE) ∧ (addr, size) ∈ held

instance (held : List Block) : DecidablePred (mayCall held)
  | .alloc _ => inferInstanceAs (Decidable (¬_))
  | .free _ _ => inferInstanceAs (Decidable (_ ∧ _))

-- Calls under the lock of `os_phy_mem`. Between its calls a core may leave a block to another.
def BlkCode.calls (code : BlkCode) : Calls Unit BlkCall Mm U32 (List Block) where
  lockOf _ := ()
  mask := irqsave
  job := code.job
  may := mayCall
  finish held op r := heldAfter held (op.event r)
  trade held held' x y := ∃ blk ∈ held, x = held.erase blk ∧ y = blk :: held'

-- Any number of cores on `os_phy_mem`.
abbrev Cores (ι : Type) := State ι Unit BlkCall Mm U32 (List Block)

abbrev CoreStep (code : BlkCode) {ι : Type} [DecidableEq ι] :
    Cores ι → ι × Action BlkCall → Cores ι → Prop := Step code.calls

-- The cores with these status words, when `init_mm` has left `s`.
abbrev coresStart {ι : Type} (cpsr : ι → U32) (s : Mm) : Cores ι := start cpsr s fun _ => []

-- Every block that is out after `calls` is with one core, and there once.
structure Shared {ι : Type} (s : Mm) (calls : List (Move BlkState BlkEvent))
    (a : Atomic ι Mm (List Block)) (live : List Block) : Prop where
  run : Run BlkStep ⟨s, []⟩ calls ⟨a.data, live⟩
  held : ∀ blk, blk ∈ live ↔ ∃ i, blk ∈ a.own i
  nodup : ∀ i, (a.own i).Nodup
  owner : ∀ blk i j, blk ∈ a.own i → blk ∈ a.own j → i = j

section Steps

variable {ι : Type} [DecidableEq ι] {s d : Mm} {a : Atomic ι Mm (List Block)} {live : List Block}
  {calls calls' : List (Move BlkState BlkEvent)} {code : BlkCode} {blk x : Block} {i j : ι}

theorem mem_update_own {own : ι → List Block} {l : List Block} :
    x ∈ Function.update own i l j ↔ j = i ∧ x ∈ l ∨ j ≠ i ∧ x ∈ own j := by
  by_cases hji : j = i
  · subst hji
    simp
  · simp [hji]

theorem nodup_update {own : ι → List Block} {l : List Block} (h : ∀ j, (own j).Nodup)
    (hl : l.Nodup) (j : ι) : (Function.update own i l j).Nodup := by
  rw [Function.update_apply]
  split_ifs
  · exact hl
  · exact h j

-- A new block comes to core `i`.
theorem Shared.take (h : Shared s calls a live) (hnew : blk ∉ live)
    (hrun : Run BlkStep ⟨s, []⟩ calls' ⟨d, blk :: live⟩) :
    Shared s calls' ⟨d, Function.update a.own i (blk :: a.own i)⟩ (blk :: live) := by
  have hnone (j : ι) : blk ∉ a.own j := fun hj => hnew ((h.held blk).mpr ⟨j, hj⟩)
  refine ⟨hrun, fun x => ?_, nodup_update h.nodup (List.nodup_cons.mpr ⟨hnone i, h.nodup i⟩), ?_⟩
  · have hheld := h.held x
    simp only [mem_update_own, List.mem_cons]
    grind
  · intro x j k hj hk
    have howner := h.owner x
    simp only [mem_update_own, List.mem_cons] at hj hk
    grind

-- Core `i` has given a block back.
theorem Shared.give (h : Shared s calls a live) (hnodup : live.Nodup) (hblk : blk ∈ a.own i)
    (hrun : Run BlkStep ⟨s, []⟩ calls' ⟨d, live.erase blk⟩) :
    Shared s calls' ⟨d, Function.update a.own i ((a.own i).erase blk)⟩ (live.erase blk) := by
  have hmem (x : Block) : x ∈ (a.own i).erase blk ↔ x ≠ blk ∧ x ∈ a.own i := (h.nodup i).mem_erase_iff
  refine ⟨hrun, fun x => ?_, nodup_update h.nodup ((h.nodup i).erase blk), ?_⟩
  · have hheld := h.held x
    have howner := h.owner blk i
    simp only [mem_update_own, hnodup.mem_erase_iff, hmem]
    grind
  · intro x j k hj hk
    have howner := h.owner x
    simp only [mem_update_own, hmem] at hj hk
    grind

-- Core `i` leaves a block to core `j`.
theorem Shared.trade (h : Shared s calls a live) (hij : i ≠ j) (hblk : blk ∈ a.own i) :
    Shared s calls ⟨a.data, Function.update (Function.update a.own i ((a.own i).erase blk)) j
      (blk :: a.own j)⟩ live := by
  have hmem (x : Block) : x ∈ (a.own i).erase blk ↔ x ≠ blk ∧ x ∈ a.own i := (h.nodup i).mem_erase_iff
  have hnot : blk ∉ a.own j := fun hj => hij (h.owner blk i j hblk hj)
  refine ⟨h.run, fun x => ?_, nodup_update (nodup_update h.nodup ((h.nodup i).erase blk))
    (List.nodup_cons.mpr ⟨hnot, h.nodup j⟩), ?_⟩
  · have hheld := h.held x
    simp only [mem_update_own, List.mem_cons, hmem]
    grind
  · intro x k l hk hl
    have howner := h.owner x
    simp only [mem_update_own, List.mem_cons, hmem] at hk hl
    grind

omit [DecidableEq ι] in
-- Whatever the accesses are, they come to a call of the code, which returns.
theorem Shared.answers (hb : Booted s) (h : Shared s calls a live) (code : BlkCode) {op : BlkCall}
    (hmay : mayCall (a.own i) op) :
    ∃ r d, (code.job op).run a.data = (r, d) ∧ op.Returns a.data r ∧
      BlkStep ⟨a.data, live⟩ (op.event r) ⟨d, heldAfter live (op.event r)⟩ := by
  obtain ⟨hallocs, hfrees⟩ := hb.calls_return ⟨_, h.run⟩
  cases op with
  | alloc size =>
      obtain ⟨ret, d, hcall⟩ := hallocs size
      have hstep : BlkStep ⟨a.data, live⟩ _ _ := .alloc hcall
      rw [allocMemBlk, if_neg hmay] at hcall
      exact ⟨ret, d, code.alloc _ _ _ _ hcall, ⟨d, hcall⟩, hstep⟩
  | free addr size =>
      obtain ⟨hrange, hheld⟩ := hmay
      have hlive := (h.held _).mpr ⟨i, hheld⟩
      obtain ⟨d, hcall⟩ := hfrees addr size hlive
      have hstep : BlkStep ⟨a.data, live⟩ _ _ := .free hlive hcall
      rw [freeMemBlk, if_neg hrange] at hcall
      exact ⟨1, d, code.free _ _ _ _ _ hcall, ⟨d, hcall⟩, hstep⟩

-- A call that is made in one go is the next one of a sequential run.
theorem Shared.call (hb : Booted s) (h : Shared s calls a live) {op : BlkCall}
    (hmay : mayCall (a.own i) op) :
    ∃ c live', Shared s (calls ++ [⟨⟨a.data, live⟩, op.event ((code.job op).run a.data).1, c⟩])
      ⟨((code.job op).run a.data).2, Function.update a.own i
        (heldAfter (a.own i) (op.event ((code.job op).run a.data).1))⟩ live' := by
  obtain ⟨r, d, hjob, -, hstep⟩ := h.answers hb code hmay
  have hrun := h.run.snoc hstep
  rw [hjob]
  refine ⟨⟨d, heldAfter live (op.event r)⟩, heldAfter live (op.event r), ?_⟩
  have hquiet (hlive : heldAfter live (op.event r) = live)
      (hown : heldAfter (a.own i) (op.event r) = a.own i) :
      Shared s (calls ++ [⟨⟨a.data, live⟩, op.event r, ⟨d, heldAfter live (op.event r)⟩⟩])
        ⟨d, Function.update a.own i (heldAfter (a.own i) (op.event r))⟩
        (heldAfter live (op.event r)) := by
    rw [hlive] at hrun ⊢
    rw [hown, Function.update_eq_self]
    exact ⟨hrun, h.held, h.nodup, h.owner⟩
  cases op with
  | alloc size =>
      by_cases hret : r = NULL
      · exact hquiet (if_pos hret) (if_pos hret)
      · simp only [heldAfter, BlkCall.event, if_neg hret] at hrun ⊢
        obtain ⟨m, t, hinv⟩ := hb.reachable ⟨_, hrun⟩
        exact h.take (List.nodup_cons.mp hinv.distinct).1 hrun
  | free addr size =>
      by_cases hret : decide (r ≠ 0) = true
      · simp only [heldAfter, BlkCall.event, if_pos hret] at hrun ⊢
        obtain ⟨m, t, hinv⟩ := hb.reachable ⟨_, h.run⟩
        exact h.give hinv.distinct hmay.2 hrun
      · exact hquiet (if_neg hret) (if_neg hret)

-- Calls that are made one after the other are a sequential run.
theorem Shared.of_run (hb : Booted s)
    {trace : List (Move (Atomic ι Mm (List Block)) (ι × Option (BlkCall × U32)))}
    (hr : Run (Atomic.Step code.calls) ⟨s, fun _ => []⟩ trace a) :
    ∃ calls live, Shared s calls a live ∧
      calls.map Move.event = (trace.filterMap Atomic.called).map callEvent := by
  induction hr with
  | nil =>
      refine ⟨[], [], ⟨.nil, ?_, ?_, ?_⟩, rfl⟩
      · simp
      · exact fun _ => List.nodup_nil
      · simp
  | snoc hrun hs ih =>
      obtain ⟨calls, live, h, hevents⟩ := ih
      cases hs with
      | call hmay =>
          obtain ⟨c, live', h'⟩ := h.call hb hmay
          refine ⟨_, live', h', ?_⟩
          rw [List.map_append, List.filterMap_append, List.map_append, hevents]
          rfl
      | trade hij htrade =>
          obtain ⟨blk, hblk, rfl, rfl⟩ := htrade
          refine ⟨calls, live, h.trade hij hblk, ?_⟩
          rw [List.filterMap_append, hevents]
          simp [Atomic.called]

end Steps

section Cores

variable {ι : Type} {code : BlkCode} {cpsr : ι → U32} {s : Mm} {u : Cores ι}
  {trace : List (Move (Cores ι) (ι × Action BlkCall))}

variable [DecidableEq ι]

theorem irqsave_masks (cpsr : U32) : irqsave cpsr &&& CIRQFIQ = CIRQFIQ := by
  rw [irqsave, Bits.and_mask_eq_mask, Bits.ones_or]
  exact Finset.subset_union_right

-- A call that gets hold of the lock is one from which the code returns.
theorem locked_returns (hb : Booted s) (hr : Run (CoreStep code) (coresStart cpsr s) trace u)
    {mv : Move (Cores ι) (ι × Action BlkCall)} (hmv : mv ∈ trace) {i : ι} {op : BlkCall} {r : U32}
    (h : locked mv = some (i, op, r)) : op.Returns mv.before.data r := by
  obtain ⟨hbefore, hstep⟩ := hr.moves mv hmv
  obtain ⟨trace', hrun⟩ := hbefore
  obtain ⟨moves, a, ha, habs, -⟩ := run_abs (fun _ _ => rfl) hrun
  obtain ⟨calls, live, hshared, -⟩ := Shared.of_run hb ha
  obtain ⟨hnone, hmay, rfl⟩ := (reachable_inv ⟨_, hrun⟩).locked_cases (fun _ _ => rfl) hstep h
  rw [← habs.own i] at hmay
  obtain ⟨r, d, hjob, hreturns, -⟩ := hshared.answers hb code hmay
  change op.Returns mv.before.data ((code.job op).run mv.before.data).1
  rwa [← habs.outside hnone, hjob]

-- The lock of `os_phy_mem` lets one core in at a time, with its interrupts masked until it is
-- back with the status word it came with, and no core that goes for it is stuck. After
-- `init_mm` the code itself returns from every call that gets hold of it.
theorem shared_calls_return (hr : Run (CoreStep code) (coresStart cpsr s) trace u) :
    (∀ i j l, (u.core i).lock? code.calls = some l → (u.core j).lock? code.calls = some l → i = j) ∧
      (∀ i, ((u.core i).phase = .idle → (u.core i).status = cpsr i) ∧
        ((u.core i).phase ≠ .idle → (u.core i).status &&& CIRQFIQ = CIRQFIQ) ∧
        ∃ v, Reachable (CoreStep code) u v ∧ (v.core i).phase = .idle) ∧
      (Booted s → ∀ mv ∈ trace, ∀ i op r, locked mv = some (i, op, r) →
        op.Returns mv.before.data r) := by
  have h := reachable_inv ⟨_, hr⟩
  refine ⟨h.single, fun i => ⟨h.status_idle, fun hi => ?_, calls_return h i⟩,
    fun hb mv hmv i op r hlocked => locked_returns hb hr hmv hlocked⟩
  rw [h.status_call hi]
  exact irqsave_masks (cpsr i)

end Cores

-- Each critical section in a single access.
def wholeCode : BlkCode where
  job
    | .alloc size =>
        .access (fun s => ((allocMemBlkCore s size).getD (NULL, s)).2)
          fun s => .done ((allocMemBlkCore s size).getD (NULL, s)).1
    | .free addr size =>
        .access (fun s => ((freeMemBlkCore s addr size).getD (false, s)).2)
          fun s => .done (if ((freeMemBlkCore s addr size).getD (false, s)).1 then 1 else 0)
  alloc s size ret s' h := by
    simp only [Job.run, h, Outcome.getD]
  free s addr size ret s' h := by
    simp only [Job.run, h, Outcome.getD]

theorem shared_calls_return_two : ∃ trace u,
    Run (CoreStep wholeCode) (coresStart (fun _ : Fin 2 => 0) bootMm) trace u ∧
      (u.core 0).lock? wholeCode.calls = some () ∧
      (u.core 1).phase = .loaded (.alloc BLK4MB_SIZE) 0 1 ∧
      (u.core 1).status &&& CIRQFIQ = CIRQFIQ ∧
      (∃ v, Reachable (CoreStep wholeCode) u v ∧ (v.core 1).phase = .idle) ∧
      ∃ d, ∃ s', allocMemBlkCore d BLK128KB_SIZE = .ok (0x80020000, s') := by
  let op₀ := BlkCall.alloc BLK128KB_SIZE
  let op₁ := BlkCall.alloc BLK4MB_SIZE
  obtain ⟨trace, u, hu, hlocked, hin, hwaits⟩ := one_waits (P := wholeCode.calls) (c := 0) (d := 1)
    (s := coresStart (fun _ : Fin 2 => 0) bootMm) (by decide) rfl rfl
    (show wholeCode.calls.may [] op₀ from (by decide : mayCall [] op₀))
    (show wholeCode.calls.may [] op₁ from (by decide : mayCall [] op₁)) rfl rfl
  have hanswer : ((wholeCode.job op₀).run bootMm).1 = 0x80020000 := by decide +kernel
  obtain ⟨hone, hcores, hreturns⟩ := shared_calls_return hu
  obtain ⟨-, hmasked, hback⟩ := hcores 1
  obtain ⟨mv, hmv, hlock⟩ := List.mem_filterMap.mp (hlocked ▸ List.mem_singleton_self _)
  have hbusy : (u.core 1).phase ≠ .idle := by simp [hwaits]
  refine ⟨trace, u, hu, lock?_eq hin, by rw [hwaits], hmasked hbusy, hback, mv.before.data, ?_⟩
  rw [← hanswer]
  exact hreturns bootMm_booted mv hmv _ _ _ hlock

end Lmosem
