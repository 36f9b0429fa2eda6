import Lmosem.Kernel.PoolInv

namespace Lmosem

open Intrusive Region Chain Shelves

variable {m : MemMap} {p : Pools} {k : Kmem} {blks pages : List (Adr × SizeT)} {a addr : Adr}
  {size : SizeT} {i : ℕ}

section Clients

-- A client's call of the block allocator, seen from the shelves.
theorem KmemInv.blk_step (h : KmemInv m p k blks pages) {e : BlkEvent} {c : BlkState}
    (hs : BlkStep ⟨k.mm, blks⟩ e c) : ∃ t', p.shelves.Step m e t' ∧
      KmemInv m { p with shelves := t' } { k with mm := c.mm } c.live pages := by
  have keep {t' : Shelves} {mm' : Mm} {live : List (Adr × SizeT)}
      (hinv : BlkInv m t' mm' (live ++ outstanding k.blkCalls)) :
      KmemInv m { p with shelves := t' } { k with mm := mm' } live pages :=
    ⟨hinv, h.rings, h.rep, h.base, h.count, h.cache, h.taken, h.held, h.distinct⟩
  cases hs with
  | @alloc _ mm' _ size ret hcall =>
      obtain ⟨t', hstep, hinv, -⟩ := h.blk.step (c := ⟨k.mm, _⟩) (.alloc hcall)
      refine ⟨t', hstep, keep ?_⟩
      by_cases hret : ret = NULL
      · simpa only [heldAfter, if_pos hret] using hinv
      · simpa only [heldAfter, if_neg hret, List.cons_append] using hinv
  | @free _ mm' _ addr size ret hlive hcall =>
      obtain ⟨t', hstep, hinv, -⟩ :=
        h.blk.step (c := ⟨k.mm, _⟩) (.free (List.mem_append_left _ hlive) hcall)
      refine ⟨t', hstep, keep ?_⟩
      cases ret with
      | true => simpa only [heldAfter, if_true, List.erase_append_left _ hlive] using hinv
      | false => exact hinv

end Clients

section Update

-- The blocks of the listed pools when one pool changes but stays in its block.
theorem map_poolBlk_update {order : List Adr} {pool : Adr → Pool} {P : Pool}
    (hcls : a ∈ order → P.cls = (pool a).cls) :
    order.map (poolBlk (Function.update pool a P)) = order.map (poolBlk pool) := by
  refine List.map_congr_left fun b hb => ?_
  by_cases hba : b = a
  · subst hba
    simp only [poolBlk, Function.update_self, hcls hb]
  · simp only [poolBlk, Function.update_of_ne hba]

-- Rewriting the head of one pool that keeps its block.
theorem KmemInv.setHead (h : KmemInv m p k blks pages) (ha : a ∈ p.order) {head : MemPoolHead}
    {P : Pool} (hrep : PoolRep head P) (hbase : P.base = (p.pool a).base)
    (hcls : P.cls = (p.pool a).cls) {pages' : List (Adr × SizeT)} (hnd : pages'.Nodup)
    (hheld : ∀ pg, pg ∈ pages' ↔ ∃ b ∈ p.order, ∃ i, ((p.set a P).pool b).InUse i ∧
      range pg = ((p.set a P).pool b).page i) :
    KmemInv m (p.set a P) (k.setHead a head) blks pages' := by
  refine ⟨h.blk, h.rings, fun b hb => ?_, fun b hb => ?_, h.count, h.cache, ?_, hheld, hnd⟩
  · by_cases hba : b = a
    · subst hba
      simpa only [Kmem.setHead, Pools.set, Function.update_self] using hrep
    · simpa only [Kmem.setHead, Pools.set, Function.update_of_ne hba] using h.rep b hb
  · by_cases hba : b = a
    · subst hba
      rw [Pools.set_self, hbase]
      exact h.base b hb
    · rw [Pools.set_of_ne _ hba]
      exact h.base b hb
  · rw [Pools.set, map_poolBlk_update fun _ => hcls]
    exact h.taken

theorem KmemInv.setCache (h : KmemInv m p k blks pages) (ha : a = NULL ∨ a ∈ p.order) :
    KmemInv m p { k with pagePoolCache := a } blks pages :=
  ⟨h.blk, h.rings, h.rep, h.base, h.count, ha, h.taken, h.held, h.distinct⟩

theorem Pool.inUse_take {P : Pool} {rest : List ℕ} (hi : i < P.capacity) (hfree : P.free = i :: rest)
    (hnd : P.free.Nodup) (j : ℕ) : (P.take rest).InUse j ↔ P.InUse j ∨ j = i := by
  rw [hfree] at hnd
  have hir := (List.nodup_cons.mp hnd).1
  constructor
  · rintro ⟨hj, hnot⟩
    by_cases hji : j = i
    · exact Or.inr hji
    · have hnot : j ∉ rest := hnot
      exact Or.inl ⟨hj, by simp [hfree, hji, hnot]⟩
  · rintro (⟨hj, hnot⟩ | rfl)
    · rw [hfree] at hnot
      exact ⟨hj, fun hm => hnot (List.mem_cons_of_mem _ hm)⟩
    · exact ⟨hi, hir⟩

theorem Pool.inUse_give {P : Pool} (i j : ℕ) : (P.give i).InUse j ↔ P.InUse j ∧ j ≠ i := by
  have hmem : j ∈ (P.give i).free ↔ j = i ∨ j ∈ P.free := List.mem_cons
  have hcap : (P.give i).capacity = P.capacity := rfl
  simp only [Pool.InUse, hmem, hcap]
  tauto

-- Changing which pages of a pool are free leaves all pages where they are.
theorem Pools.page_set {P : Pool} (hpage : P.page = (p.pool a).page) (b : Adr) :
    ((p.set a P).pool b).page = (p.pool b).page := by
  by_cases hba : b = a
  · subst hba
    rw [Pools.set_self, hpage]
  · rw [Pools.set_of_ne _ hba]

-- Handing out the first free page of a pool.
theorem KmemInv.take_page (h : KmemInv m p k blks pages) (ha : a ∈ p.order) {rest : List ℕ}
    (hsize : (p.pool a).size = size.toNat) (hfree : (p.pool a).free = i :: rest) :
    ∃ ret k', pageNewOnMplhead k a = .ok (ret, k') ∧ ret ≠ NULL ∧
      range (ret, size) = (p.pool a).page i ∧
      KmemInv m (p.set a ((p.pool a).take rest)) k' blks ((ret, size) :: pages) := by
  have hrep := h.rep a ha
  have hi : i < (p.pool a).capacity := hrep.chain.bounded i (by simp [hfree])
  have hnew := hrep.pageNew (h.ne_null ha) hfree
  have haddr := hrep.pages i hi
  set ret := ((k.heads a).poolMap i).start with hret
  have hrange : range (ret, size) = (p.pool a).page i := Prod.ext haddr hsize.symm
  have huse (b : Adr) (j : ℕ) : ((p.set a ((p.pool a).take rest)).pool b).InUse j ↔
      (p.pool b).InUse j ∨ (b = a ∧ j = i) := by
    by_cases hba : b = a
    · subst hba
      rw [Pools.set_self, Pool.inUse_take hi hfree hrep.chain.nodup]
      simp
    · simp [hba]
  have hpage := Pools.page_set (p := p) (P := (p.pool a).take rest) rfl
  refine ⟨ret, _, hnew, Pool.page_ne_null hrange, hrange, h.setHead ha (hrep.take hfree) rfl rfl ?_ ?_⟩
  · refine List.nodup_cons.mpr ⟨fun hm => ?_, h.distinct⟩
    obtain ⟨b, hb, j, hj, he⟩ := (h.held _).mp hm
    -- the page would have been handed out before
    obtain ⟨rfl, rfl⟩ := h.page_unique ha hb hi hj.1 (hrange.symm.trans he)
    exact hj.2 (by simp [hfree])
  · intro pg
    simp only [List.mem_cons, h.held, huse, hpage]
    constructor
    · rintro (rfl | ⟨b, hb, j, hj, he⟩)
      · exact ⟨a, ha, i, Or.inr ⟨rfl, rfl⟩, hrange⟩
      · exact ⟨b, hb, j, Or.inl hj, he⟩
    · rintro ⟨b, hb, j, hj | ⟨rfl, rfl⟩, he⟩
      · exact Or.inr ⟨b, hb, j, hj, he⟩
      · exact Or.inl (range_injective (he.trans hrange.symm))

-- Taking a live page back into its pool.
theorem KmemInv.give_page (h : KmemInv m p k blks pages) (ha : a ∈ p.order)
    (hi : (p.pool a).InUse i) (hrange : range (addr, size) = (p.pool a).page i) :
    ∃ k', deletePageOnMplhead k a addr = .ok (true, k') ∧
      KmemInv m (p.set a ((p.pool a).give i)) k' blks (pages.erase (addr, size)) := by
  have hrep := h.rep a ha
  have hcount : i < (k.heads a).poolMapCount := hrep.mapCount.symm ▸ hi.1
  have hstart : ((k.heads a).poolMap i).start = addr :=
    BitVec.eq_of_toNat_eq ((hrep.pages i hi.1).trans (congrArg Prod.fst hrange).symm)
  have hpos := hrep.mapRep.afindx_pos_iff.mpr ⟨i, hcount, hi.2⟩
  refine ⟨_, delete_cutOff hrep.mapRep (h.ne_null ha) hcount hstart hpos
    (hrep.chain.cutOff i hi.1 hi.2), h.setHead ha (hrep.give hi) rfl rfl (h.distinct.erase _) ?_⟩
  intro pg
  have huse (b : Adr) (j : ℕ) : ((p.set a ((p.pool a).give i)).pool b).InUse j ↔
      (p.pool b).InUse j ∧ ¬(b = a ∧ j = i) := by
    by_cases hba : b = a
    · subst hba
      rw [Pools.set_self, Pool.inUse_give]
      simp
    · simp [hba]
  have hpage := Pools.page_set (p := p) (P := (p.pool a).give i) rfl
  simp only [h.distinct.mem_erase_iff, h.held, huse, hpage]
  constructor
  · rintro ⟨hne, b, hb, j, hj, he⟩
    refine ⟨b, hb, j, ⟨hj, ?_⟩, he⟩
    rintro ⟨rfl, rfl⟩
    exact hne (range_injective (he.trans hrange.symm))
  · rintro ⟨b, hb, j, ⟨hj, hnot⟩, he⟩
    refine ⟨?_, b, hb, j, hj, he⟩
    rintro rfl
    exact hnot (h.page_unique hb ha hj.1 hi.1 (he.symm.trans hrange))

end Update

section Create

variable {c : Slab}

theorem Pool.not_inUse_fresh {P : Pool} (hfree : P.free = List.range P.capacity) (i : ℕ) :
    ¬P.InUse i := by
  rintro ⟨hi, hnot⟩
  exact hnot (hfree ▸ List.mem_range.mpr hi)

-- A block fresh from the allocator can be made into a pool with all its pages free.
theorem exists_freshPool {t : Shelves} {ret : Adr} {live : List (Adr × SizeT)} {s : Mm}
    (h : BlkInv m t s live) (hc : poolClass size.toNat = some c) (hret : ret ≠ NULL)
    (hlive : (ret, slabSize c) ∈ live) :
    ∃ P : Pool, P.base = ret.toNat ∧ P.cls = c ∧ P.size = size.toNat ∧
      P.free = List.range P.capacity := by
  obtain ⟨-, k, hk, -, -, hwithin, hdvd⟩ := h.live_within hlive
  have hm := m.bounded k hk
  obtain ⟨n, hn⟩ := m.aligned k hk
  have hsz := slabSize_toNat c
  simp only [Within, range, hsz] at hwithin hdvd
  refine ⟨{
    base := ret.toNat
    cls := c
    size := size.toNat
    free := List.range ((blkSize c - 2 ^ 12) / size.toNat)
    base_pos := ne_null_iff.mp hret
    aligned := (Nat.pow_dvd_pow 2 (by omega)).trans hdvd
    room := by omega
    sized := hc }, rfl, rfl, rfl, rfl⟩

-- The pools and their blocks after a pool with no page in use has come to the list.
theorem KmemInv.insert (h : KmemInv m p k blks pages) {t' : Shelves} {mm' : Mm} {P : Pool}
    (hnull : a ≠ NULL) (hnot : a ∉ p.order) (hbase : P.base = a.toNat) (hsize : P.size = size.toNat)
    (hfree : P.free = List.range P.capacity)
    (hinv : BlkInv m t' mm' ((a, slabSize P.cls) :: (blks ++ outstanding k.blkCalls))) :
    KmemInv m (p.insert t' a P) { k with
      mm := mm'
      heads := Function.update k.heads a (freshHead P (k.heads a) a size)
      poolLinks := listAddTail (INIT_LIST_HEAD k.poolLinks (.entry a)) (.entry a) (.head ())
      pagePoolCount := k.pagePoolCount + 1
      blkCalls := k.blkCalls ++ [.alloc (slabSize P.cls) a] } blks pages := by
  have hother : ∀ b ∈ p.order, b ≠ a := fun b hb he => hnot (he ▸ hb)
  have hrings := listAddTail_rings (INIT_LIST_HEAD_rings h.rings fun _ => hnot) (fun _ => hnot) ()
  have hqueue : Queues.move (fun _ => p.order) a () = fun _ => p.order ++ [a] := by
    funext
    rw [Queues.move_self, Queues.remove_of_notMem (q := fun _ => p.order) hnot]
  have hcalls : outstanding (k.blkCalls ++ [.alloc (slabSize P.cls) a]) =
      (a, slabSize P.cls) :: outstanding k.blkCalls := by
    rw [outstanding_append, heldAfter, if_neg hnull]
  refine ⟨?_, hqueue ▸ hrings, fun b hb => ?_, fun b hb => ?_, ?_, ?_, ?_, fun pg => ?_, h.distinct⟩
  · dsimp only
    rw [hcalls]
    exact hinv.perm List.perm_middle.symm
  · rcases List.mem_append.mp hb with hb | hb
    · simpa only [Pools.insert_of_ne _ _ (hother b hb), Function.update_of_ne (hother b hb)]
        using h.rep b hb
    · obtain rfl := List.mem_singleton.mp hb
      simpa only [Pools.insert_self, Function.update_self]
        using freshHead_rep _ hbase.symm hsize.symm hfree
  · rcases List.mem_append.mp hb with hb | hb
    · simpa only [Pools.insert_of_ne _ _ (hother b hb)] using h.base b hb
    · obtain rfl := List.mem_singleton.mp hb
      simpa only [Pools.insert_self] using hbase.symm
  · simp only [Pools.insert, h.count, List.length_append, List.length_singleton]
  · exact h.cache.imp_right fun hm => List.mem_append_left _ hm
  · dsimp only [Pools.insert]
    rw [hcalls, List.map_append, map_poolBlk_update fun ha => absurd ha hnot, List.map_singleton,
      poolBlk, Function.update_self]
    exact (h.taken.cons _).trans (List.perm_append_singleton _ _).symm
  · rw [h.held]
    constructor
    · rintro ⟨b, hb, j, hj, he⟩
      refine ⟨b, List.mem_append_left _ hb, j, ?_⟩
      rw [Pools.insert_of_ne _ _ (hother b hb)]
      exact ⟨hj, he⟩
    · rintro ⟨b, hb, j, hj, he⟩
      rcases List.mem_append.mp hb with hb | hb
      · rw [Pools.insert_of_ne _ _ (hother b hb)] at hj he
        exact ⟨b, hb, j, hj, he⟩
      · obtain rfl := List.mem_singleton.mp hb
        rw [Pools.insert_self] at hj
        exact absurd hj (Pool.not_inUse_fresh hfree j)

-- A block that the allocator hands out starts no pool yet.
theorem KmemInv.fresh (h : KmemInv m p k blks pages) {t' : Shelves} {mm' : Mm}
    (hinv : BlkInv m t' mm' ((a, slabSize c) :: (blks ++ outstanding k.blkCalls))) : a ∉ p.order := by
  intro ha
  have hapart := (List.pairwise_cons.mp hinv.live_apart).1 _
    (List.mem_append_right _ (h.poolBlk_mem ha))
  have hpos := blkSize_pos c
  have hpos' := blkSize_pos (p.pool a).cls
  simp only [Apart, range, poolBlk, slabSize_toNat] at hapart
  omega

-- The two ways a request for a new pool ends.
theorem KmemInv.create (h : KmemInv m p k blks pages) (hc : poolClass size.toNat = some c) :
    (p.shelves.alloc c = none ∧ newPageMpool k size =
        .ok (NULL, { k with blkCalls := k.blkCalls ++ [.alloc (slabSize c) NULL] })) ∨
      ∃ a k' P kb t', newPageMpool k size = .ok (a, k') ∧ a ∉ p.order ∧ P.base = a.toNat ∧
        P.size = size.toNat ∧ P.free = List.range P.capacity ∧
        p.shelves.alloc P.cls = some (kb, t') ∧ KmemInv m (p.insert t' a P) k' blks pages := by
  obtain ⟨ret, mm', hcall, -, hspec⟩ := h.blk.alloc_spec (slabSize c)
  rw [newPageMpool_eq, hc]
  dsimp only
  rw [NEW_PAGE_MEM_POOL, hcall, Outcome.ok_bind]
  dsimp only
  rcases hspec with ⟨rfl, rfl, hnone⟩ | ⟨i, j, b, t', hi, halloc, hret, -, hinv⟩
  · rw [if_pos rfl]
    exact Or.inl ⟨hnone c rfl, rfl⟩
  · obtain rfl := slabSize_injective hi
    have hnot := h.fresh hinv
    obtain ⟨P, hbase, rfl, hsize, hfree⟩ := exists_freshPool hinv hc hret List.mem_cons_self
    rw [if_neg hret, pageMpoolInit_eq hbase.symm hsize.symm, Outcome.ok_bind]
    dsimp only
    rw [if_neg hret]
    exact Or.inr ⟨ret, _, P, _, t', rfl, hnot, hbase, hsize, hfree, halloc,
      h.insert hret hnot hbase hsize hfree hinv⟩

end Create

section Delete

theorem KmemInv.inUse_iff (h : KmemInv m p k blks pages) (ha : a ∈ p.order) :
    0 < (k.heads a).afindx ↔ ∃ i, (p.pool a).InUse i := by
  have hrep := h.rep a ha
  rw [← Nat.succ_le_iff, Nat.succ_eq_add_one, Nat.zero_add, hrep.mapRep.afindx_pos_iff, hrep.mapCount]
  rfl

theorem KmemInv.delete_used (h : KmemInv m p k blks pages) (ha : a ∈ p.order)
    (hi : (p.pool a).InUse i) : delPageMpool k a = .ok (true, k) := by
  rw [delPageMpool, head_ok (h.ne_null ha), Outcome.ok_bind, if_pos ((h.inUse_iff ha).mpr ⟨i, hi⟩)]

-- The length a pool gives back is the one its block was taken with.
theorem KmemInv.length_eq (h : KmemInv m p k blks pages) (ha : a ∈ p.order) :
    (k.heads a).stop - (k.heads a).start + 1 = slabSize (p.pool a).cls := by
  have hrep := h.rep a ha
  have hpos := blkSize_pos (p.pool a).cls
  have hle := blkSize_le (p.pool a).cls
  have hunit : (1 : Adr).toNat = 1 := rfl
  have horder : (k.heads a).start ≤ (k.heads a).stop := by
    rw [BitVec.le_def, hrep.start, hrep.stop]
    omega
  apply BitVec.eq_of_toNat_eq
  rw [BitVec.toNat_add, BitVec.toNat_sub_of_le horder, hrep.start, hrep.stop, hunit, slabSize_toNat,
    Nat.mod_eq_of_lt (by omega)]
  omega

-- The pools and their blocks after a pool with no page in use has left the list.
theorem KmemInv.remove (h : KmemInv m p k blks pages) (ha : a ∈ p.order)
    (hnone : ∀ i, ¬(p.pool a).InUse i) {t' : Shelves} {mm' : Mm}
    (hinv : BlkInv m t' mm' (blks ++ (outstanding k.blkCalls).erase (poolBlk p.pool a))) :
    KmemInv m (p.remove t' a) { k with
      mm := mm'
      poolLinks := listDel k.poolLinks (.entry a)
      pagePoolCount := k.pagePoolCount - 1
      pagePoolCache := if k.pagePoolCache = a then NULL else k.pagePoolCache
      blkCalls := k.blkCalls ++ [.free a (slabSize (p.pool a).cls) true] } blks pages := by
  have hmem (b : Adr) : b ∈ p.order.erase a ↔ b ≠ a ∧ b ∈ p.order := h.nodup.mem_erase_iff
  have hcalls : outstanding (k.blkCalls ++ [.free a (slabSize (p.pool a).cls) true]) =
      (outstanding k.blkCalls).erase (poolBlk p.pool a) := outstanding_append _ _
  refine ⟨hcalls ▸ hinv, listDel_rings h.rings (i := ()) ha, fun b hb => ?_, fun b hb => ?_, ?_, ?_, ?_,
    fun pg => ?_, h.distinct⟩
  · exact h.rep b ((hmem b).mp hb).2
  · exact h.base b ((hmem b).mp hb).2
  · dsimp only [Pools.remove]
    rw [h.count, List.length_erase_of_mem ha]
  · dsimp only
    by_cases hc : k.pagePoolCache = a
    · exact Or.inl (if_pos hc)
    · rw [if_neg hc]
      exact h.cache.imp_right fun hm => (hmem _).mpr ⟨hc, hm⟩
  · dsimp only [Pools.remove]
    have hinj : Function.Injective (poolBlk p.pool) := fun x y he => congrArg Prod.fst he
    rw [hcalls, List.map_erase hinj]
    exact h.taken.erase _
  · rw [h.held]
    constructor
    · rintro ⟨b, hb, j, hj, he⟩
      refine ⟨b, (hmem b).mpr ⟨?_, hb⟩, j, hj, he⟩
      rintro rfl
      exact hnone j hj
    · rintro ⟨b, hb, hrest⟩
      exact ⟨b, ((hmem b).mp hb).2, hrest⟩

-- A pool none of whose pages is in use goes back to the block allocator.
theorem KmemInv.delete (h : KmemInv m p k blks pages) (ha : a ∈ p.order)
    (hnone : ∀ i, ¬(p.pool a).InUse i) : ∃ k' kb t', delPageMpool k a = .ok (true, k') ∧
      p.shelves.free m (p.pool a).cls a.toNat = some (kb, t') ∧
      KmemInv m (p.remove t' a) k' blks pages := by
  have hunused : ¬(k.heads a).afindx > 0 := fun hpos =>
    ((h.inUse_iff ha).mp hpos).elim hnone
  have hcount : ¬k.pagePoolCount < 1 := by
    have hlen := List.length_pos_of_mem ha
    rw [h.count]
    omega
  obtain ⟨c, l, b, t', mm', hc, hfree, hcall, -, -, hinv⟩ :=
    h.blk.free_spec (List.mem_append_right blks (h.poolBlk_mem ha))
  change BlkInv m t' mm' ((blks ++ outstanding k.blkCalls).erase (poolBlk p.pool a)) at hinv
  rw [List.erase_append_right _ (h.poolBlk_not_client ha)] at hinv
  obtain rfl := slabSize_injective hc
  rw [delPageMpool, head_ok (h.ne_null ha), Outcome.ok_bind, if_neg hunused]
  dsimp only
  rw [if_neg hcount, h.length_eq ha, h.start_eq ha, hcall, Outcome.ok_bind]
  dsimp only
  rw [if_neg (by simp)]
  exact ⟨_, _, t', rfl, hfree, h.remove ha hnone hinv⟩

end Delete

end Lmosem
