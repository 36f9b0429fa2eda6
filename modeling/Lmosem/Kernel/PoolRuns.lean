import Lmosem.Kernel.PoolCalls

namespace Lmosem

open Intrusive Region Transition

-- The two allocators together with the blocks and the pages their clients hold.
structure MemState where
  kmem : Kmem
  blks : List (Adr × SizeT)
  pages : List (Adr × SizeT)

inductive MemEvent
  | blk (e : BlkEvent)
  | page (e : BlkEvent)
deriving DecidableEq, Repr

-- One call of a client that frees only what it holds.
inductive MemStep : MemState → MemEvent → MemState → Prop
  | blk {k : Kmem} {blks pages : List (Adr × SizeT)} {e : BlkEvent} {c : BlkState}
      (hs : BlkStep ⟨k.mm, blks⟩ e c) :
      MemStep ⟨k, blks, pages⟩ (.blk e) ⟨{ k with mm := c.mm }, c.live, pages⟩
  | allocPage {k k' : Kmem} {blks pages : List (Adr × SizeT)} {size : SizeT} {ret : Adr}
      (hcall : kmemPoolAllocPage k size = .ok (ret, k')) :
      MemStep ⟨k, blks, pages⟩ (.page (.alloc size ret)) ⟨k', blks, heldAfter pages (.alloc size ret)⟩
  | freePage {k k' : Kmem} {blks pages : List (Adr × SizeT)} {addr : Adr} {size : SizeT} {ret : Bool}
      (hlive : (addr, size) ∈ pages) (hcall : kmemPoolFreePage k addr size = .ok (ret, k')) :
      MemStep ⟨k, blks, pages⟩ (.page (.free addr size ret))
        ⟨k', blks, heldAfter pages (.free addr size ret)⟩

-- `k` is what `kmem_pool_init` makes of a kernel after `init_mm`.
def KmemBooted (k : Kmem) : Prop :=
  ∃ k₀ : Kmem, Booted k₀.mm ∧ k₀.blkCalls = [] ∧ k = kmemPoolInit k₀

-- The state in which clients start.
def memStart (k : Kmem) : MemState := ⟨k, [], []⟩

-- One call on the pools and the shelves below them.
inductive Pools.MemStep (m : MemMap) (p : Pools) : MemEvent → Pools → Prop
  | blk {e : BlkEvent} {t' : Shelves} (hs : p.shelves.Step m e t') :
      Pools.MemStep m p (.blk e) { p with shelves := t' }
  | page {e : BlkEvent} {p' : Pools} (hs : p.Step m e p') : Pools.MemStep m p (.page e) p'

section Simulation

variable {m : MemMap} {p : Pools} {k : Kmem} {c c' : MemState} {e : MemEvent}

-- The code's step is simulated by a step of the pools.
theorem KmemInv.step (h : KmemInv m p c.kmem c.blks c.pages) (hs : Lmosem.MemStep c e c') :
    ∃ p', p.MemStep m e p' ∧ KmemInv m p' c'.kmem c'.blks c'.pages := by
  cases hs with
  | blk hs =>
      obtain ⟨t', hstep, hinv⟩ := h.blk_step hs
      exact ⟨_, .blk hstep, hinv⟩
  | @allocPage k k' blks pages size ret hcall =>
      obtain ⟨ret', k'', p', hcall', hstep, hinv, -⟩ := h.alloc_page size
      obtain ⟨rfl, rfl⟩ := Outcome.pair_unique hcall hcall'
      exact ⟨p', .page hstep, hinv⟩
  | @freePage k k' blks pages addr size ret hlive hcall =>
      obtain ⟨a, i, hhome⟩ := h.exists_home hlive
      have hspec := h.free_page hhome
      split_ifs at hspec
      · obtain ⟨k'', p', hcall', hstep, hinv⟩ := hspec
        obtain ⟨rfl, rfl⟩ := Outcome.pair_unique hcall hcall'
        exact ⟨p', .page hstep, hinv⟩
      · simp [hspec] at hcall

-- A pool to have at addresses where there is none.
def Pool.blank : Pool where
  base := 2 ^ 12
  cls := 0
  size := 2 ^ 12
  free := []
  base_pos := by decide
  aligned := by decide
  room := by decide
  sized := by decide

theorem KmemBooted.start (hb : KmemBooted k) :
    ∃ m t, KmemInv m ⟨t, [], fun _ => .blank⟩ k [] [] := by
  obtain ⟨k₀, hmm, hcalls, rfl⟩ := hb
  obtain ⟨m, hinv⟩ := hmm.start
  refine ⟨m, Shelves.start m, ⟨?_, INIT_LIST_HEAD_empty _ (), by simp, by simp, rfl, Or.inl rfl, ?_,
    by simp, List.nodup_nil⟩⟩
  · simpa only [kmemPoolInit, hcalls, outstanding, List.foldl_nil, List.append_nil] using hinv
  · simp [kmemPoolInit, hcalls, outstanding]

theorem KmemBooted.reachable (hb : KmemBooted k)
    (hr : Reachable Lmosem.MemStep (memStart k) c) :
    ∃ m p, KmemInv m p c.kmem c.blks c.pages := by
  obtain ⟨m, t, h0⟩ := hb.start
  exact ⟨m, hr.invariant (I := fun c => ∃ p, KmemInv m p c.kmem c.blks c.pages) ⟨_, h0⟩
    fun _ _ _ hs ⟨_, h⟩ => (h.step hs).imp fun _ h' => h'.2⟩

end Simulation

-- The calls of a test run, and the run they make.
inductive MemCall
  | blk (call : BlkCall)
  | page (call : BlkCall)

def memNext : MemCall → MemState → Option (MemEvent × MemState)
  | .blk call, c =>
      match blkNext call ⟨c.kmem.mm, c.blks⟩ with
      | some (e, b) => some (.blk e, ⟨{ c.kmem with mm := b.mm }, b.live, c.pages⟩)
      | none => none
  | .page (.alloc size), c =>
      match kmemPoolAllocPage c.kmem size with
      | .ok (ret, k') =>
          some (.page (.alloc size ret), ⟨k', c.blks, heldAfter c.pages (.alloc size ret)⟩)
      | _ => none
  | .page (.free addr size), c =>
      if (addr, size) ∈ c.pages then
        match kmemPoolFreePage c.kmem addr size with
        | .ok (ret, k') =>
            some (.page (.free addr size ret), ⟨k', c.blks, heldAfter c.pages (.free addr size ret)⟩)
        | _ => none
      else none

theorem memStep_of_next (call : MemCall) (c : MemState) (e : MemEvent) (c' : MemState)
    (h : memNext call c = some (e, c')) : MemStep c e c' := by
  cases call with
  | blk call =>
      simp only [memNext] at h
      split at h
      · next e' b hcall =>
          obtain ⟨rfl, rfl⟩ := Prod.mk.inj (Option.some.inj h)
          exact .blk (blkStep_of_next call _ _ _ hcall)
      · simp at h
  | page call =>
      cases call with
      | alloc size =>
          simp only [memNext] at h
          split at h
          · next ret k' hcall =>
              obtain ⟨rfl, rfl⟩ := Prod.mk.inj (Option.some.inj h)
              exact .allocPage hcall
          · simp at h
      | free addr size =>
          simp only [memNext] at h
          split at h
          · next hlive =>
              split at h
              · next ret k' hcall =>
                  obtain ⟨rfl, rfl⟩ := Prod.mk.inj (Option.some.inj h)
                  exact .freePage hlive hcall
              · simp at h
          · simp at h

-- A test run that comes out as `check` wants it is a run.
theorem exists_memRun (calls : List MemCall) (c : MemState)
    (check : List (Move MemState MemEvent) → MemState → Bool)
    (h : (drive memNext calls c).any (fun r => check r.1 r.2) = true) :
    ∃ trace c', Run MemStep c trace c' ∧ check trace c' = true := by
  cases hd : drive memNext calls c with
  | none => simp [hd] at h
  | some r => exact ⟨r.1, r.2, run_of_drive memStep_of_next calls hd, by simpa [hd] using h⟩

-- The kernel on the shipped table, over memory that is all zero.
def bootKmem : Kmem := kmemPoolInit {
  mm := bootMm
  heads := fun _ => ⟨0, 0, 0, none, 0, 0, 0, 0, fun _ => ⟨0, none⟩⟩
  poolLinks := ⟨id, id⟩
  pagePoolCount := 0
  pagePoolCache := 0
  blkCalls := [] }

theorem bootKmem_booted : KmemBooted bootKmem := ⟨_, bootMm_booted, rfl, rfl⟩

end Lmosem
