import Lmosem.Kernel.PoolRuns

namespace Lmosem

open Intrusive Region Chain Transition

-- The pool at `a` is met on the way round `page_pool_head`.
def OnPoolList (k : Kmem) (a : Adr) : Prop :=
  ∃ as : List Adr, Intrusive.Ring k.poolLinks (.head ()) (as.map .entry) ∧ a ∈ as

-- The page at the start of a pool's block, and the part of it that is written.
def firstPage (h : MemPoolHead) : ℕ × ℕ := (h.start.toNat, PAGE_SIZE.toNat)

def headAndMap (h : MemPoolHead) : ℕ × ℕ :=
  (h.start.toNat, SIZEOF_MEM_POOL_HEAD + h.poolMapCount * SIZEOF_MEM_POOL_MAP)

section Facts

variable {m : MemMap} {p : Pools} {k : Kmem} {blks pages : List (Adr × SizeT)} {a : Adr}
  {pg : Adr × SizeT} {i : ℕ}

theorem KmemInv.onPoolList (h : KmemInv m p k blks pages) (a : Adr) :
    OnPoolList k a ↔ a ∈ p.order := by
  constructor
  · rintro ⟨as, hring, ha⟩
    have has : as = p.order := h.rings.eq_of_ring hring
    exact has ▸ ha
  · exact fun ha => ⟨_, h.rings.ring (), ha⟩

theorem KmemInv.exists_pool (h : KmemInv m p k blks pages) (hcount : 0 < k.pagePoolCount) :
    ∃ a, a ∈ p.order := by
  apply List.exists_mem_of_length_pos
  rwa [← h.count]

-- Two pages that clients hold have no byte in common.
theorem KmemInv.pages_apart (h : KmemInv m p k blks pages) :
    pages.Pairwise fun x y => Apart (range x) (range y) := by
  refine h.distinct.imp_of_mem fun hx hy hne => ?_
  obtain ⟨a, i, hx⟩ := h.exists_home hx
  obtain ⟨b, j, hy⟩ := h.exists_home hy
  rw [hx.range, hy.range]
  refine h.page_apart hx.listed hy.listed hx.inUse.1 hy.inUse.1 ?_
  rintro ⟨rfl, rfl⟩
  exact hne (range_injective (hx.range.trans hy.range.symm))

theorem Pools.Home.within_block (hh : p.Home pg a i) :
    Within (Lmosem.range pg) (p.pool a).block := by
  rw [hh.range]
  exact (Pool.page_within hh.inUse.1).trans (p.pool a).pageArea_within

theorem KmemInv.firstPage_eq (h : KmemInv m p k blks pages) (ha : a ∈ p.order) :
    firstPage (k.heads a) = (p.pool a).headPage :=
  Prod.ext (h.rep a ha).start rfl

-- Neither its own pool's first page nor that of another pool reaches into a page.
theorem KmemInv.firstPage_apart (h : KmemInv m p k blks pages) (hpg : pg ∈ pages)
    (ha : a ∈ p.order) : Apart (range pg) (firstPage (k.heads a)) := by
  obtain ⟨b, i, hh⟩ := h.exists_home hpg
  rw [h.firstPage_eq ha]
  by_cases hba : b = a
  · subst hba
    rw [hh.range]
    exact ((p.pool b).headPage_apart.symm).mono (Pool.page_within hh.inUse.1) (Within.refl _)
  · exact (h.pool_apart hh.listed ha hba).mono hh.within_block (p.pool a).headPage_within

-- The entries of a pool fit behind its head.
theorem Pool.headAndMap_within (P : Pool) :
    SIZEOF_MEM_POOL_HEAD + P.capacity * SIZEOF_MEM_POOL_MAP ≤ 2 ^ 12 := by
  have hcap : P.capacity ≤ 2 ^ 6 := poolClass_count P.sized
  change 60 + P.capacity * 8 ≤ 2 ^ 12
  omega

theorem KmemInv.headAndMap_within (h : KmemInv m p k blks pages) (ha : a ∈ p.order) :
    Within (headAndMap (k.heads a)) (firstPage (k.heads a)) := by
  have hle := (p.pool a).headAndMap_within
  simp only [Within, headAndMap, firstPage, (h.rep a ha).mapCount, PAGE_SIZE_toNat]
  omega

end Facts

-- Live pages never overlap, each lies behind the first page of a pool of its
-- size, and none reaches into a pool's head and map or into a client's block.
theorem live_pages_safe {k : Kmem} {c : MemState} (hb : KmemBooted k)
    (hr : Reachable MemStep (memStart k) c) :
    c.pages.Pairwise (fun x y => Apart (range x) (range y)) ∧
      (∀ pg ∈ c.pages, ∃ a, OnPoolList c.kmem a ∧ (c.kmem.heads a).allocSize = pg.2 ∧
        InPageArea (c.kmem.heads a) pg) ∧
      (∀ a, OnPoolList c.kmem a → Within (headAndMap (c.kmem.heads a)) (firstPage (c.kmem.heads a)) ∧
        ∀ pg ∈ c.pages, Apart (range pg) (firstPage (c.kmem.heads a))) ∧
      ∀ pg ∈ c.pages, ∀ blk ∈ c.blks, Apart (range pg) (range blk) := by
  obtain ⟨m, p, h⟩ := hb.reachable hr
  refine ⟨h.pages_apart, fun pg hpg => ?_, fun a ha => ?_, fun pg hpg blk hblk => ?_⟩
  · obtain ⟨a, i, hh⟩ := h.exists_home hpg
    have hsize := (h.rep a hh.listed).allocSize.trans (congrArg Prod.snd hh.range).symm
    exact ⟨a, (h.onPoolList a).mpr hh.listed, BitVec.eq_of_toNat_eq hsize,
      (h.inPageArea_iff hh hh.listed).mpr rfl⟩
  · have ha := (h.onPoolList a).mp ha
    exact ⟨h.headAndMap_within ha, fun pg hpg => h.firstPage_apart hpg ha⟩
  · obtain ⟨a, i, hh⟩ := h.exists_home hpg
    exact (h.client_apart hblk hh.listed).symm.mono hh.within_block (Within.refl _)

theorem live_pages_safe_shipped : ∃ c, Reachable MemStep (memStart bootKmem) c ∧
    c.pages.length = 3 ∧ c.blks.length = 1 ∧ c.pages.Pairwise fun x y => Apart (range x) (range y) := by
  obtain ⟨trace, c, hrun, hlen⟩ := exists_memRun [.page (.alloc 0x1000), .blk (.alloc BLK128KB_SIZE),
    .page (.alloc 0x1500), .page (.alloc 0x1000)] (memStart bootKmem)
    (fun _ c => c.pages.length = 3 ∧ c.blks.length = 1) (by decide +kernel)
  have hr : Reachable MemStep (memStart bootKmem) c := ⟨trace, hrun⟩
  obtain ⟨hpages, hblks⟩ := of_decide_eq_true hlen
  exact ⟨c, hr, hpages, hblks, (live_pages_safe bootKmem_booted hr).1⟩

-- The block a pool would give back.
def poolRange (h : MemPoolHead) : Adr × SizeT := (h.start, h.stop - h.start + 1)

-- The blocks the pools hold are the blocks of the pools on the list.
structure OwnsBlocks (k : Kmem) (order : List Adr) : Prop where
  ring : Intrusive.Ring k.poolLinks (.head ()) (order.map .entry)
  nodup : order.Nodup
  blocks : (outstanding k.blkCalls).Perm (order.map fun a => poolRange (k.heads a))
  once : (outstanding k.blkCalls).Nodup
  start : ∀ a ∈ order, (k.heads a).start = a
  length : ∀ a ∈ order, (poolRange (k.heads a)).2 = BLK128KB_SIZE ∨
    (poolRange (k.heads a)).2 = BLK256KB_SIZE
  count : k.pagePoolCount = order.length
  cache : k.pagePoolCache = NULL ∨ k.pagePoolCache ∈ order

section Owns

variable {m : MemMap} {p : Pools} {k : Kmem} {blks pages : List (Adr × SizeT)} {a : Adr}

theorem KmemInv.poolRange_eq (h : KmemInv m p k blks pages) (ha : a ∈ p.order) :
    poolRange (k.heads a) = poolBlk p.pool a :=
  Prod.ext (h.start_eq ha) (h.length_eq ha)

theorem KmemInv.ownsBlocks (h : KmemInv m p k blks pages) : OwnsBlocks k p.order := by
  refine ⟨h.rings.ring (), h.nodup, ?_, (List.nodup_append.mp h.blk.distinct).2.1,
    fun a ha => h.start_eq ha, fun a ha => ?_, h.count, h.cache⟩
  · rw [List.map_congr_left fun a ha => h.poolRange_eq ha]
    exact h.taken
  · rw [h.poolRange_eq ha, poolBlk]
    rcases Nat.le_one_iff_eq_zero_or_eq_one.mp (p.pool a).small with hcls | hcls
    · have hcls : (p.pool a).cls = 0 := Fin.ext hcls
      exact Or.inl (by rw [hcls]; rfl)
    · have hcls : (p.pool a).cls = 1 := Fin.ext hcls
      exact Or.inr (by rw [hcls]; rfl)

end Owns

-- The pools hold the blocks of the listed pools and no others, and no call of a
-- run gets as far as one of the three `sys_die`.
theorem pools_own_blocks {k : Kmem} {c : MemState} (hb : KmemBooted k)
    (hr : Reachable MemStep (memStart k) c) :
    (∃ order, OwnsBlocks c.kmem order) ∧
      (∀ size message, kmemPoolAllocPage c.kmem size ≠ .die message) ∧
      ∀ addr size, (addr, size) ∈ c.pages → ∀ message,
        kmemPoolFreePage c.kmem addr size ≠ .die message := by
  obtain ⟨m, p, h⟩ := hb.reachable hr
  refine ⟨⟨p.order, h.ownsBlocks⟩, fun size message hdie => ?_, fun addr size hpg message hdie => ?_⟩
  · obtain ⟨ret, k', -, hcall, -⟩ := h.alloc_page size
    simp [hcall] at hdie
  · obtain ⟨a, i, hh⟩ := h.exists_home hpg
    have hspec := h.free_page hh
    split_ifs at hspec
    · obtain ⟨k', -, hcall, -⟩ := hspec
      simp [hcall] at hdie
    · simp [hspec] at hdie

theorem pools_own_blocks_shipped : ∃ c, Reachable MemStep (memStart bootKmem) c ∧
    c.kmem.pagePoolCount = 1 ∧ ∃ order, OwnsBlocks c.kmem order := by
  obtain ⟨trace, c, hrun, hcount⟩ := exists_memRun [.page (.alloc 0x1000), .page (.alloc 0x2000),
    .page (.free 0x80021000 0x1000)] (memStart bootKmem)
    (fun _ c => c.kmem.pagePoolCount = 1) (by decide +kernel)
  have hr : Reachable MemStep (memStart bootKmem) c := ⟨trace, hrun⟩
  exact ⟨c, hr, of_decide_eq_true hcount, (pools_own_blocks bootKmem_booted hr).1⟩

end Lmosem
