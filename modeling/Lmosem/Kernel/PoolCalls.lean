import Lmosem.Kernel.PoolSteps

namespace Lmosem

open Intrusive Region Chain Shelves

variable {m : MemMap} {p : Pools} {k : Kmem} {blks pages : List (Adr × SizeT)} {a b addr : Adr}
  {size : SizeT} {i : ℕ}

-- Nothing but the record of calls differs.
structure Kmem.Same (k k' : Kmem) : Prop where
  mm : k'.mm = k.mm
  heads : k'.heads = k.heads
  poolLinks : k'.poolLinks = k.poolLinks
  pagePoolCount : k'.pagePoolCount = k.pagePoolCount
  pagePoolCache : k'.pagePoolCache = k.pagePoolCache

section Alloc

-- A request that the block allocator turns down leaves nothing to give back.
theorem KmemInv.refused (h : KmemInv m p k blks pages) (size : SizeT) :
    KmemInv m p { k with blkCalls := k.blkCalls ++ [.alloc size NULL] } blks pages := by
  have hsame : outstanding (k.blkCalls ++ [.alloc size NULL]) = outstanding k.blkCalls := by
    rw [outstanding_append, heldAfter, if_pos rfl]
  exact ⟨hsame ▸ h.blk, h.rings, h.rep, h.base, h.count, h.cache, hsame ▸ h.taken, h.held, h.distinct⟩

-- The page allocator's call is simulated by a step of the pools.
theorem KmemInv.alloc_page (h : KmemInv m p k blks pages) (size : SizeT) :
    ∃ ret k' p', kmemPoolAllocPage k size = .ok (ret, k') ∧ p.Step m (.alloc size ret) p' ∧
      KmemInv m p' k' blks (heldAfter pages (.alloc size ret)) ∧ (ret = NULL → p' = p → k.Same k') := by
  rcases h.find_spec size with ⟨hfind, hfull⟩ | ⟨a, ha, ⟨hne, hsize⟩, hfind⟩
  · rw [kmemPoolAllocPage, hfind, Outcome.ok_bind]
    dsimp only
    rw [if_neg (by simp)]
    cases hc : poolClass size.toNat with
    | none =>
        rw [newPageMpool_eq, hc]
        exact ⟨NULL, k, p, rfl, .unserved hc, h, fun _ _ => ⟨rfl, rfl, rfl, rfl, rfl⟩⟩
    | some c =>
        rcases h.create hc with ⟨hnone, hcall⟩ |
          ⟨a, k', P, kb, t', hcall, hnot, hbase, hsize, hfree, halloc, hinv⟩
        · rw [hcall]
          exact ⟨NULL, _, p, rfl, .refuse hfull hc hnone, h.refused _,
            fun _ _ => ⟨rfl, rfl, rfl, rfl, rfl⟩⟩
        · have ha : a ∈ (p.insert t' a P).order := List.mem_append_right _ (List.mem_singleton_self a)
          have hopen : p.Opens size a P (p.insert t' a P) :=
            ⟨hfull, hnot, hbase, hsize, hfree, kb, t', halloc, rfl⟩
          have hself : (p.insert t' a P).pool a = P := p.insert_self t' a P
          have hrep := hinv.rep a ha
          rw [hself] at hrep
          rw [hcall, Outcome.ok_bind]
          dsimp only
          rw [if_neg (hinv.ne_null ha)]
          cases hf : P.free with
          | nil =>
              have hcap : P.capacity = 0 := by simpa [hfree] using hf
              refine ⟨NULL, k', _, hrep.pageNew_empty (hinv.ne_null ha) hf, .barren hopen hcap, hinv,
                fun _ hp => ?_⟩
              have horder := congrArg Pools.order hp
              simp [Pools.insert] at horder
          | cons i rest =>
              obtain ⟨ret, k'', hnew, hret, hrange, hinv'⟩ :=
                hinv.take_page ha (hself.symm ▸ hsize) (hself.symm ▸ hf)
              rw [hself] at hrange hinv'
              refine ⟨ret, k'', _, hnew, .create hopen hf hrange, ?_, fun he => absurd he hret⟩
              rwa [heldAfter, if_neg hret]
  · obtain ⟨i, rest, hfree⟩ := List.exists_cons_of_ne_nil hne
    obtain ⟨ret, k', hnew, hret, hrange, hinv⟩ := (h.setCache (Or.inr ha)).take_page ha hsize hfree
    rw [kmemPoolAllocPage, hfind, Outcome.ok_bind]
    dsimp only
    rw [if_pos (h.ne_null ha)]
    refine ⟨ret, k', _, hnew, .take ha hsize hfree hrange, ?_, fun he => absurd he hret⟩
    rwa [heldAfter, if_neg hret]

end Alloc

section Free

-- The page lies in the part of the pool behind its first page.
def InPageArea (h : MemPoolHead) (pg : Adr × SizeT) : Prop :=
  h.start.toNat + PAGE_SIZE.toNat ≤ pg.1.toNat ∧ pg.1.toNat + pg.2.toNat ≤ h.stop.toNat + 1

instance (h : MemPoolHead) (pg : Adr × SizeT) : Decidable (InPageArea h pg) :=
  inferInstanceAs (Decidable (_ ∧ _))

-- Page `i` of the pool at `a` is in use at `pg`.
structure Pools.Home (p : Pools) (pg : Adr × SizeT) (a : Adr) (i : ℕ) : Prop where
  listed : a ∈ p.order
  inUse : (p.pool a).InUse i
  range : range pg = (p.pool a).page i

theorem KmemInv.exists_home (h : KmemInv m p k blks pages) {pg : Adr × SizeT} (hpg : pg ∈ pages) :
    ∃ a i, p.Home pg a i := by
  obtain ⟨a, ha, i, hi, hrange⟩ := (h.held pg).mp hpg
  exact ⟨a, i, ha, hi, hrange⟩

theorem PoolRep.inPageArea_iff {head : MemPoolHead} {P : Pool} (hr : PoolRep head P)
    (pg : Adr × SizeT) : InPageArea head pg ↔ Within (range pg) P.pageArea := by
  have hsz := blkSize_le P.cls
  simp only [InPageArea, Within, range, Pool.pageArea, hr.start, hr.stop, PAGE_SIZE_toNat]
  omega

-- A page in use lies in the area of its own pool and of no other.
theorem KmemInv.inPageArea_iff (h : KmemInv m p k blks pages) {pg : Adr × SizeT}
    (hh : p.Home pg a i) (hb : b ∈ p.order) : InPageArea (k.heads b) pg ↔ b = a := by
  rw [(h.rep b hb).inPageArea_iff, hh.range]
  have hwithin := Pool.page_within hh.inUse.1
  constructor
  · intro hin
    by_contra hne
    have hapart := (h.pool_apart hb hh.listed hne).mono (hin.trans (p.pool b).pageArea_within)
      (hwithin.trans (p.pool a).pageArea_within)
    exact not_apart_self (p.pool a).size_pos hapart
  · rintro rfl
    exact hwithin

-- The bounds test of `deleted_pool_head_isok`, which does not wrap for a page in use.
theorem KmemInv.outside_iff (h : KmemInv m p k blks pages) (hh : p.Home (addr, size) a i)
    (hb : b ∈ p.order) : (addr < (k.heads b).start + PAGE_SIZE ∨ addr + size - 1 > (k.heads b).stop) ↔
      ¬InPageArea (k.heads b) (addr, size) := by
  have hrep := h.rep b hb
  have hroom := (p.pool b).room
  have hsz := blkSize_le (p.pool b).cls
  have hend := Pool.page_address_lt hh.inUse.1
  have hpos := (p.pool a).size_pos
  have haddr : addr.toNat = ((p.pool a).page i).1 := congrArg Prod.fst hh.range
  have hsize : size.toNat = (p.pool a).size := congrArg Prod.snd hh.range
  have hlast : (addr + size - 1).toNat = addr.toNat + size.toNat - 1 := by
    rw [last_toNat _ _ (by omega), Nat.mod_eq_of_lt (by omega)]
  have hlow : ((k.heads b).start + PAGE_SIZE).toNat = (p.pool b).base + 2 ^ 12 := by
    rw [BitVec.toNat_add, hrep.start, PAGE_SIZE_toNat, Nat.mod_eq_of_lt (by omega)]
  rw [BitVec.lt_def, gt_iff_lt, BitVec.lt_def, hlast, hlow, hrep.stop]
  simp only [InPageArea, hrep.start, hrep.stop, PAGE_SIZE_toNat]
  omega

theorem KmemInv.deletedPoolHeadIsok (h : KmemInv m p k blks pages) (hh : p.Home (addr, size) a i)
    (hb : b ∈ p.order) :
    deletedPoolHeadIsok k b addr size = .ok (if b = a then b else NULL) := by
  have hrep := h.rep b hb
  rw [Lmosem.deletedPoolHeadIsok, head_ok (h.ne_null hb), Outcome.ok_bind,
    if_neg (not_not.mpr hrep.type)]
  simp only [h.outside_iff hh hb, h.inPageArea_iff hh hb]
  by_cases hba : b = a
  · subst hba
    have hsize : (k.heads b).allocSize = size :=
      BitVec.eq_of_toNat_eq (hrep.allocSize.trans (congrArg Prod.snd hh.range).symm)
    have hused : (k.heads b).afindx ≠ 0 :=
      Nat.ne_of_gt ((h.inUse_iff hb).mpr ⟨i, hh.inUse⟩)
    rw [if_neg (not_not.mpr hsize), if_neg hused, if_neg (by simp), if_pos rfl]
  · simp only [hba, not_false_eq_true, if_true, if_false, ite_self]

-- A scan looks at the first pool of the list only: behind it the walk goes on from NULL.
theorem KmemInv.find_deleted (h : KmemInv m p k blks pages) (hh : p.Home (addr, size) a i) :
    findDeletedPoolHead k addr size =
      if k.pagePoolCache = a ∨ p.order.head? = some a then .ok a else .fault := by
  have hcached : (if k.pagePoolCache ≠ NULL then
      Lmosem.deletedPoolHeadIsok k k.pagePoolCache addr size else .ok NULL) =
        .ok (if k.pagePoolCache = a then a else NULL) := by
    rcases h.cache with hnull | hmem
    · rw [if_neg (not_not.mpr hnull), hnull, if_neg (h.ne_null hh.listed).symm]
    · rw [if_pos (h.ne_null hmem), h.deletedPoolHeadIsok hh hmem]
      by_cases hc : k.pagePoolCache = a <;> simp [hc]
  rw [findDeletedPoolHead, hcached, Outcome.ok_bind]
  by_cases hc : k.pagePoolCache = a
  · rw [if_pos hc, if_pos (h.ne_null hh.listed), if_pos (Or.inl hc)]
  · rw [if_neg hc, if_neg (by simp)]
    obtain ⟨b, rest, horder⟩ := List.exists_cons_of_ne_nil (List.ne_nil_of_mem hh.listed)
    have hb : b ∈ p.order := by simp [horder]
    obtain ⟨fuel, hfuel⟩ : ∃ fuel, WALK_LIMIT = fuel + 1 := ⟨2 ^ 32 - 1, rfl⟩
    have hnext : k.poolLinks.next (.head ()) = .entry b := by
      rw [h.rings.next_head, horder]
    rw [hnext, hfuel, listForEachEntry, if_neg (by simp), horder]
    simp only [poolEntry, Outcome.ok_bind, h.deletedPoolHeadIsok hh hb]
    by_cases hba : b = a
    · subst hba
      simp only [if_true, if_pos (h.ne_null hb), Outcome.ok_bind, List.head?_cons, or_true]
    · have hhead : ¬(k.pagePoolCache = a ∨ (b :: rest).head? = some a) := by simp [hc, hba]
      simp only [hba, if_false, ne_eq, not_true, if_true, Outcome.ok_bind, Outcome.fault_bind, hhead]

-- A release of a page in use is carried out, or it follows a NULL pointer.
theorem KmemInv.free_page (h : KmemInv m p k blks pages) (hh : p.Home (addr, size) a i) :
    if k.pagePoolCache = a ∨ p.order.head? = some a then
      ∃ k' p', kmemPoolFreePage k addr size = .ok (true, k') ∧ p.Step m (.free addr size true) p' ∧
        KmemInv m p' k' blks (pages.erase (addr, size))
    else kmemPoolFreePage k addr size = .fault := by
  have hfind := h.find_deleted hh
  split_ifs with hcond
  · rw [if_pos hcond] at hfind
    obtain ⟨k', hdel, hinv⟩ := h.give_page hh.listed hh.inUse hh.range
    set p' := p.set a ((p.pool a).give i) with hp'
    have ha : a ∈ p'.order := hh.listed
    have huse (j : ℕ) : (p'.pool a).InUse j ↔ (p.pool a).InUse j ∧ j ≠ i := by
      rw [hp', Pools.set_self, Pool.inUse_give]
    rw [kmemPoolFreePage, hfind, Outcome.ok_bind, if_neg (h.ne_null hh.listed), hdel, Outcome.ok_bind]
    dsimp only
    rw [if_neg (by simp)]
    by_cases hrest : ∃ j, (p'.pool a).InUse j
    · obtain ⟨j, hj⟩ := hrest
      rw [hinv.delete_used ha hj]
      exact ⟨k', p', rfl, .give hh.listed hh.inUse hh.range ((huse j).mp hj).1 ((huse j).mp hj).2, hinv⟩
    · have hnone : ∀ j, ¬(p'.pool a).InUse j := fun j hj => hrest ⟨j, hj⟩
      obtain ⟨k'', kb, t', hdel', hfree, hinv'⟩ := hinv.delete ha hnone
      have hlast (j : ℕ) (hj : (p.pool a).InUse j) : j = i := by
        by_contra hji
        exact hnone j ((huse j).mpr ⟨hj, hji⟩)
      have hcls : (p'.pool a).cls = (p.pool a).cls := by
        rw [hp', Pools.set_self]
        rfl
      rw [hcls] at hfree
      rw [hdel']
      exact ⟨k'', _, rfl, .close hh.listed hh.inUse hh.range hlast hfree, hinv'⟩
  · rw [if_neg hcond] at hfind
    rw [kmemPoolFreePage, hfind, Outcome.fault_bind]

end Free

end Lmosem
