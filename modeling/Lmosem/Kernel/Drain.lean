import Lmosem.Kernel.PageSafety
import Lmosem.Kernel.FailedAlloc

namespace Lmosem

open Intrusive Region Chain Shelves Transition

-- What one call adds to the record of block calls: nothing, a request, or the
-- accepted release of a block that was taken.
inductive Recorded (calls : List BlkEvent) : List BlkEvent → Prop
  | nothing : Recorded calls calls
  | alloc (size : SizeT) (ret : Adr) : Recorded calls (calls ++ [.alloc size ret])
  | free {addr : Adr} {size : SizeT} (hheld : (addr, size) ∈ outstanding calls) :
      Recorded calls (calls ++ [.free addr size true])

-- Each block has been handed back as often as it was taken, but for those still out.
structure Ledger (calls : List BlkEvent) : Prop where
  count : ∀ addr size, addr ≠ NULL → calls.count (.alloc size addr) =
    calls.count (.free addr size true) + (outstanding calls).count (addr, size)
  accepted : ∀ addr size, .free addr size false ∉ calls

section Ledger

variable {calls calls' : List BlkEvent}

theorem ledger_nil : Ledger [] := ⟨by simp [outstanding], by simp⟩

theorem count_taken {live : List (Adr × SizeT)} {addr ret : Adr} {size sz : SizeT}
    (hne : addr ≠ NULL) : (heldAfter live (.alloc size ret)).count (addr, sz) =
      live.count (addr, sz) + if BlkEvent.alloc size ret = .alloc sz addr then 1 else 0 := by
  rw [heldAfter]
  by_cases hnull : ret = NULL
  · have hother : ¬BlkEvent.alloc size ret = .alloc sz addr := by
      rintro ⟨⟩
      exact hne hnull
    rw [if_pos hnull, if_neg hother, Nat.add_zero]
  · rw [if_neg hnull, List.count_cons]
    congr 1
    simp only [beq_iff_eq, Prod.mk.injEq, BlkEvent.alloc.injEq, and_comm]

theorem count_given {live : List (Adr × SizeT)} {a : Adr} {size : SizeT}
    (hlive : (a, size) ∈ live) (addr : Adr) (sz : SizeT) : (heldAfter live (.free a size true)).count (addr, sz) +
      (if BlkEvent.free a size true = .free addr sz true then 1 else 0) = live.count (addr, sz) := by
  rw [heldAfter, if_pos rfl]
  by_cases he : (a, size) = (addr, sz)
  · obtain ⟨rfl, rfl⟩ := Prod.mk.inj he
    have hpos := List.count_pos_iff.mpr hlive
    rw [if_pos rfl, List.count_erase_self]
    omega
  · have hother : ¬BlkEvent.free a size true = .free addr sz true := by
      rintro ⟨⟩
      exact he rfl
    rw [if_neg hother, List.count_erase_of_ne (Ne.symm he), Nat.add_zero]

theorem Ledger.record (h : Ledger calls) (hr : Recorded calls calls') : Ledger calls' := by
  cases hr with
  | nothing => exact h
  | alloc size ret =>
      refine ⟨fun addr sz hne => ?_, fun addr sz hm => ?_⟩
      · have hcount := h.count addr sz hne
        rw [outstanding_append, count_taken hne, List.count_append, List.count_append,
          List.count_singleton, List.count_singleton]
        simp only [beq_iff_eq, reduceCtorEq, if_false]
        omega
      · exact h.accepted addr sz (by simpa using hm)
  | @free a size hheld =>
      refine ⟨fun addr sz hne => ?_, fun addr sz hm => ?_⟩
      · have hcount := h.count addr sz hne
        have hgiven := count_given hheld addr sz
        rw [outstanding_append, List.count_append, List.count_append,
          List.count_singleton, List.count_singleton]
        simp only [beq_iff_eq, reduceCtorEq, if_false]
        omega
      · exact h.accepted addr sz (by simpa using hm)

end Ledger

section Calls

variable {m : MemMap} {p : Pools} {k k' : Kmem} {blks pages : List (Adr × SizeT)} {a ret : Adr}
  {size : SizeT} {done : Bool}

theorem findPoolHeadBySize_calls (h : findPoolHeadBySize k size = .ok (ret, k')) :
    k'.blkCalls = k.blkCalls := by
  simp only [findPoolHeadBySize, Outcome.bind_eq_ok] at h
  obtain ⟨cached, -, h⟩ := h
  split_ifs at h
  · obtain ⟨-, rfl⟩ := Outcome.pair_inj h
    rfl
  · obtain ⟨found, -, h⟩ := Outcome.bind_eq_ok.mp h
    cases found with
    | some _ =>
        obtain ⟨-, rfl⟩ := Outcome.pair_inj h
        rfl
    | none =>
        obtain ⟨-, rfl⟩ := Outcome.pair_inj h
        rfl

theorem pageNewOnMplhead_calls (h : pageNewOnMplhead k a = .ok (ret, k')) :
    k'.blkCalls = k.blkCalls := by
  simp only [pageNewOnMplhead, Outcome.bind_eq_ok] at h
  obtain ⟨head, -, h⟩ := h
  split_ifs at h
  · obtain ⟨-, rfl⟩ := Outcome.pair_inj h
    rfl
  · cases hn : head.nextMap with
    | some _ =>
        rw [hn] at h
        obtain ⟨-, rfl⟩ := Outcome.pair_inj h
        rfl
    | none =>
        rw [hn] at h
        obtain ⟨-, rfl⟩ := Outcome.pair_inj h
        rfl

theorem pageMpoolInit_calls {start stop : Adr}
    (h : pageMpoolInit k a size start stop = .ok (ret, k')) : k'.blkCalls = k.blkCalls := by
  simp only [pageMpoolInit] at h
  split_ifs at h
  · obtain ⟨-, rfl⟩ := Outcome.pair_inj h
    rfl
  · simp only [Outcome.bind_eq_ok] at h
    obtain ⟨old, -, laid, -, h⟩ := h
    obtain ⟨-, rfl⟩ := Outcome.pair_inj h
    rfl

theorem newPageMpool_calls (h : newPageMpool k size = .ok (ret, k')) :
    Recorded k.blkCalls k'.blkCalls := by
  rw [newPageMpool_eq] at h
  cases hcls : poolClass size.toNat with
  | none =>
      rw [hcls] at h
      obtain ⟨-, rfl⟩ := Outcome.pair_inj h
      exact .nothing
  | some cls =>
      rw [hcls] at h
      simp only [NEW_PAGE_MEM_POOL, Outcome.bind_eq_ok] at h
      obtain ⟨⟨blkAddr, mm⟩, -, h⟩ := h
      dsimp only at h
      split_ifs at h
      · obtain ⟨-, rfl⟩ := Outcome.pair_inj h
        exact .alloc _ _
      · obtain ⟨⟨headp, k''⟩, hinit, h⟩ := Outcome.bind_eq_ok.mp h
        dsimp only at h
        split_ifs at h
        obtain ⟨-, rfl⟩ := Outcome.pair_inj h
        rw [pageMpoolInit_calls hinit]
        exact .alloc _ _

theorem kmemPoolAllocPage_calls (h : kmemPoolAllocPage k size = .ok (ret, k')) :
    Recorded k.blkCalls k'.blkCalls := by
  simp only [kmemPoolAllocPage, Outcome.bind_eq_ok] at h
  obtain ⟨⟨headp, k₁⟩, hfind, h⟩ := h
  rw [← findPoolHeadBySize_calls hfind]
  dsimp only at h
  split_ifs at h
  · rw [pageNewOnMplhead_calls h]
    exact .nothing
  · obtain ⟨⟨headp', k₂⟩, hnew, h⟩ := Outcome.bind_eq_ok.mp h
    have hrec := newPageMpool_calls hnew
    dsimp only at h
    split_ifs at h
    · obtain ⟨-, rfl⟩ := Outcome.pair_inj h
      exact hrec
    · rwa [pageNewOnMplhead_calls h]

theorem deletePageOnMplhead_calls {headp addr : Adr}
    (h : deletePageOnMplhead k headp addr = .ok (done, k')) : k'.blkCalls = k.blkCalls := by
  simp only [deletePageOnMplhead, Outcome.bind_eq_ok] at h
  obtain ⟨head, -, h⟩ := h
  split_ifs at h
  · obtain ⟨-, rfl⟩ := Outcome.pair_inj h
    rfl
  · cases hm : findMap head addr head.poolMapCount 0 with
    | none =>
        rw [hm] at h
        obtain ⟨-, rfl⟩ := Outcome.pair_inj h
        rfl
    | some map =>
        rw [hm] at h
        dsimp only at h
        split_ifs at h
        all_goals
          obtain ⟨-, rfl⟩ := Outcome.pair_inj h
          rfl

-- A pool that goes hands back the block it came from.
theorem KmemInv.delPageMpool_calls (h : KmemInv m p k blks pages) (ha : a ∈ p.order)
    (hdel : delPageMpool k a = .ok (done, k')) : Recorded k.blkCalls k'.blkCalls := by
  rw [delPageMpool, head_ok (h.ne_null ha), Outcome.ok_bind] at hdel
  dsimp only at hdel
  by_cases hused : (k.heads a).afindx > 0
  · rw [if_pos hused] at hdel
    obtain ⟨-, rfl⟩ := Outcome.pair_inj hdel
    exact .nothing
  · rw [if_neg hused, h.length_eq ha, h.start_eq ha] at hdel
    by_cases hcount : k.pagePoolCount < 1
    · simp [hcount] at hdel
    · rw [if_neg hcount] at hdel
      obtain ⟨⟨freed, mm⟩, -, hdel⟩ := Outcome.bind_eq_ok.mp hdel
      cases freed with
      | false => simp at hdel
      | true =>
          obtain ⟨-, rfl⟩ := Outcome.pair_inj hdel
          exact .free (h.poolBlk_mem ha)

theorem KmemInv.kmemPoolFreePage_calls {addr : Adr} {i : ℕ} (h : KmemInv m p k blks pages)
    (hh : p.Home (addr, size) a i) (hcall : kmemPoolFreePage k addr size = .ok (done, k')) :
    Recorded k.blkCalls k'.blkCalls := by
  simp only [kmemPoolFreePage, Outcome.bind_eq_ok] at hcall
  obtain ⟨headp, hfind, hcall⟩ := hcall
  rw [h.find_deleted hh] at hfind
  split_ifs at hfind
  obtain rfl := Outcome.ok.inj hfind
  obtain ⟨k₁, hdelete, hinv⟩ := h.give_page hh.listed hh.inUse hh.range
  rw [if_neg (h.ne_null hh.listed), hdelete, Outcome.ok_bind] at hcall
  dsimp only at hcall
  rw [if_neg (by simp)] at hcall
  obtain ⟨⟨closed, k₂⟩, hdel, hcall⟩ := Outcome.bind_eq_ok.mp hcall
  have hrec := hinv.delPageMpool_calls hh.listed hdel
  rw [deletePageOnMplhead_calls hdelete] at hrec
  dsimp only at hcall
  split_ifs at hcall
  all_goals
    obtain ⟨-, rfl⟩ := Outcome.pair_inj hcall
    exact hrec

theorem KmemInv.recorded {c c' : MemState} {e : MemEvent}
    (h : KmemInv m p c.kmem c.blks c.pages) (hs : Lmosem.MemStep c e c') :
    Recorded c.kmem.blkCalls c'.kmem.blkCalls := by
  cases hs with
  | blk _ => exact .nothing
  | allocPage hcall => exact kmemPoolAllocPage_calls hcall
  | freePage hlive hcall =>
      obtain ⟨a, i, hh⟩ := h.exists_home hlive
      exact h.kmemPoolFreePage_calls hh hcall

end Calls

-- Every pool has a page in use.
def Pools.Busy (p : Pools) : Prop := ∀ a ∈ p.order, ∃ i, (p.pool a).InUse i

section Busy

variable {m : MemMap} {p p' : Pools} {k : Kmem} {blks pages : List (Adr × SizeT)}

theorem Pools.Busy.set {a : Adr} {P : Pool} (hb : ∀ b ∈ p.order, b ≠ a → ∃ i, (p.pool b).InUse i)
    (hP : ∃ i, P.InUse i) : (p.set a P).Busy := by
  intro b hmem
  by_cases hba : b = a
  · subst hba
    rwa [Pools.set_self]
  · rw [Pools.set_of_ne _ hba]
    exact hb b hmem hba

-- A new pool gets its first page in the call that opens it, and the call that takes
-- the last page back closes it.
theorem Pools.Busy.step {e : BlkEvent} (hb : p.Busy) (h : KmemInv m p k blks pages)
    (hs : p.Step m e p') (hsize : ∀ size ret, e = .alloc size ret → size.toNat ≤ 0x1f000) :
    p'.Busy := by
  cases hs with
  | @take a ret size i rest ha hsz hfree hrange =>
      refine Pools.Busy.set (fun b hm _ => hb b hm) ?_
      obtain ⟨j, hj, hnot⟩ := hb a ha
      exact ⟨j, hj, fun hm => hnot (hfree ▸ List.mem_cons_of_mem i hm)⟩
  | unserved _ => exact hb
  | refuse _ _ _ => exact hb
  | @barren a size P _ hopen hnone =>
      have hlow := P.capacity_eq_zero.mp hnone
      have hle := hsize size NULL rfl
      have heq := hopen.size
      omega
  | @create a ret size P p'' i rest hopen hfree hrange =>
      obtain ⟨kb, t', -, rfl⟩ := hopen.block
      refine Pools.Busy.set (fun b hm hba => ?_) ?_
      · rw [Pools.insert_of_ne _ _ hba]
        rcases List.mem_append.mp hm with hm | hm
        · exact hb b hm
        · exact absurd (List.mem_singleton.mp hm) hba
      · have hall := hopen.free
        have hnd : (i :: rest).Nodup := by
          rw [← hfree, hall]
          exact List.nodup_range
        have hi : i ∈ List.range P.capacity := by
          rw [← hall, hfree]
          exact List.mem_cons_self
        exact ⟨i, List.mem_range.mp hi, (List.nodup_cons.mp hnd).1⟩
  | @give a addr size i j ha hi hrange hj hij =>
      exact Pools.Busy.set (fun b hm _ => hb b hm) ⟨j, (Pool.inUse_give i j).mpr ⟨hj, hij⟩⟩
  | @close a addr size i kb t' ha hi hrange hlast hfree =>
      intro b hm
      obtain ⟨hba, hm⟩ := h.nodup.mem_erase_iff.mp hm
      obtain ⟨j, hj⟩ := hb b hm
      refine ⟨j, ?_⟩
      dsimp only [Pools.remove]
      rwa [Pools.set_of_ne _ hba]

theorem Pools.Busy.memStep {e : MemEvent} (hb : p.Busy) (h : KmemInv m p k blks pages)
    (hs : p.MemStep m e p')
    (hsize : ∀ size ret, e = .page (.alloc size ret) → size.toNat ≤ 0x1f000) : p'.Busy := by
  cases hs with
  | blk _ => exact hb
  | page hs => exact hb.step h hs fun size ret he => hsize size ret (he ▸ rfl)

-- A pool in use has a live page.
theorem Pools.Busy.exists_page (hb : p.Busy) (h : KmemInv m p k blks pages) {a : Adr}
    (ha : a ∈ p.order) :
    ∃ pg ∈ pages, pg.2 = (k.heads a).allocSize ∧ InPageArea (k.heads a) pg := by
  obtain ⟨i, hi⟩ := hb a ha
  have hrep := h.rep a ha
  have hh : p.Home (((k.heads a).poolMap i).start, (k.heads a).allocSize) a i :=
    ⟨ha, hi, Prod.ext (hrep.pages i hi.1) hrep.allocSize⟩
  exact ⟨_, (h.held _).mpr ⟨a, ha, i, hi, hh.range⟩, rfl, (h.inPageArea_iff hh ha).mpr rfl⟩

theorem Pools.Busy.drained (hb : p.Busy) (h : KmemInv m p k blks []) : p.order = [] := by
  refine List.eq_nil_iff_forall_not_mem.mpr fun a ha => ?_
  obtain ⟨pg, hpg, -⟩ := hb.exists_page h ha
  exact absurd hpg List.not_mem_nil

end Busy

-- Every listed pool has a live page, and when the last page is back so is every block.
theorem pools_drain {k : Kmem} {c : MemState} {trace : List (Move MemState MemEvent)}
    (hb : KmemBooted k) (hr : Run MemStep (memStart k) trace c)
    (hsize : ∀ mv ∈ trace, ∀ size ret, mv.event = .page (.alloc size ret) → size ≤ 31 * PAGE_SIZE) :
    (∀ x ∈ states (memStart k) trace, ∀ a, OnPoolList x.kmem a →
      ∃ pg ∈ x.pages, pg.2 = (x.kmem.heads a).allocSize ∧ InPageArea (x.kmem.heads a) pg) ∧
    (c.pages = [] → (∀ a, ¬OnPoolList c.kmem a) ∧
      listEmpty c.kmem.poolLinks (.head ()) = true ∧ c.kmem.pagePoolCount = 0 ∧
      c.kmem.pagePoolCache = NULL ∧ outstanding c.kmem.blkCalls = [] ∧
      ∀ addr size, .free addr size false ∉ c.kmem.blkCalls ∧ (addr ≠ NULL →
        c.kmem.blkCalls.count (.alloc size addr) = c.kmem.blkCalls.count (.free addr size true))) := by
  obtain ⟨m, t, h0⟩ := hb.start
  have hcalls : k.blkCalls = [] := by
    obtain ⟨k₀, -, hnil, rfl⟩ := hb
    exact hnil
  let I : MemState → Prop := fun x =>
    (∃ p, KmemInv m p x.kmem x.blks x.pages ∧ p.Busy) ∧ Ledger x.kmem.blkCalls
  have hI0 : I (memStart k) := by
    refine ⟨⟨_, h0, by simp [Pools.Busy]⟩, ?_⟩
    simp only [memStart, hcalls]
    exact ledger_nil
  have hkeep : ∀ mv ∈ trace, MemStep mv.before mv.event mv.after → I mv.before → I mv.after := by
    rintro mv hmv hs ⟨⟨p, h, hbusy⟩, hl⟩
    obtain ⟨p', hstep, h'⟩ := h.step hs
    have hbusy' := hbusy.memStep h hstep fun size ret he => BitVec.le_def.mp (hsize mv hmv size ret he)
    exact ⟨⟨p', h', hbusy'⟩, hl.record (h.recorded hs)⟩
  obtain ⟨⟨p, h, hbusy⟩, hledger⟩ := (hr.keeps hI0 hkeep).1
  constructor
  · intro x hx a ha
    obtain ⟨⟨q, hq, hqb⟩, -⟩ := hr.forall_states hI0 hkeep x hx
    exact hqb.exists_page hq ((hq.onPoolList a).mp ha)
  · intro hnil
    rw [hnil] at h
    have horder := hbusy.drained h
    have hout : outstanding c.kmem.blkCalls = [] := by
      have htaken := h.taken
      rw [horder, List.map_nil] at htaken
      exact htaken.eq_nil
    refine ⟨fun a ha => ?_, ?_, ?_, ?_, hout, fun addr size => ⟨hledger.accepted addr size, fun hne => ?_⟩⟩
    · rw [h.onPoolList, horder] at ha
      exact absurd ha List.not_mem_nil
    · rw [listEmpty_rings h.rings, horder]
      rfl
    · rw [h.count, horder]
      rfl
    · refine h.cache.resolve_right fun hm => ?_
      rw [horder] at hm
      exact absurd hm List.not_mem_nil
    · rw [hledger.count addr size hne, hout]
      rfl

-- Two pools are opened and closed again.
theorem pools_drain_shipped : ∃ trace c, Run MemStep (memStart bootKmem) trace c ∧
    trace.map Move.event = [.page (.alloc 0x1000 0x80021000), .page (.alloc 0x2000 0x80041000),
      .page (.free 0x80021000 0x1000 true), .page (.free 0x80041000 0x2000 true)] ∧
    c.pages = [] ∧ c.kmem.pagePoolCount = 0 ∧ c.kmem.pagePoolCache = NULL ∧
    outstanding c.kmem.blkCalls = [] := by
  obtain ⟨trace, c, hrun, hc⟩ := exists_memRun [.page (.alloc 0x1000), .page (.alloc 0x2000),
    .page (.free 0x80021000 0x1000), .page (.free 0x80041000 0x2000)] (memStart bootKmem)
    (fun trace c => c.pages = [] ∧ trace.map Move.event = [.page (.alloc 0x1000 0x80021000),
      .page (.alloc 0x2000 0x80041000), .page (.free 0x80021000 0x1000 true),
      .page (.free 0x80041000 0x2000 true)]) (by decide +kernel)
  obtain ⟨hnil, hevents⟩ := of_decide_eq_true hc
  have hsize : ∀ mv ∈ trace, ∀ size ret, mv.event = .page (.alloc size ret) →
      size ≤ 31 * PAGE_SIZE := by
    intro mv hmv size ret he
    have hmem := List.mem_map_of_mem (f := Move.event) hmv
    rw [hevents, he] at hmem
    have hsz : size = 0x1000 ∨ size = 0x2000 := by
      simp at hmem
      tauto
    rcases hsz with rfl | rfl <;> decide
  obtain ⟨-, hdrained⟩ := pools_drain bootKmem_booted hrun hsize
  obtain ⟨-, -, hcount, hcache, hout, -⟩ := hdrained hnil
  exact ⟨trace, c, hrun, hevents, hnil, hcount, hcache, hout⟩

end Lmosem
