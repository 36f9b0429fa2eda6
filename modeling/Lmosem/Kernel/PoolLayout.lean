import Lmosem.Kernel.PoolRuns

-- How `page_mpool_init` lays out a pool, wherever its block lies.
namespace Lmosem

open Region

-- The objects of `size` bytes that fit behind the first page of a block.
def objectCount (start stop : Adr) (size : SizeT) : ℕ :=
  (stop.toNat - start.toNat + 1 - PAGE_SIZE.toNat) / size.toNat

-- Where an entry of `pool_map` lies, and the part of the block's first page that is left to them.
def mapEntry (start : Adr) (i : ℕ) : ℕ × ℕ :=
  (start.toNat + SIZEOF_MEM_POOL_HEAD + i * SIZEOF_MEM_POOL_MAP, SIZEOF_MEM_POOL_MAP)

def mapArea (start : Adr) : ℕ × ℕ :=
  (start.toNat + SIZEOF_MEM_POOL_HEAD, PAGE_SIZE.toNat - SIZEOF_MEM_POOL_HEAD)

def objectArea (start stop : Adr) : ℕ × ℕ :=
  (start.toNat + PAGE_SIZE.toNat, stop.toNat + 1 - (start.toNat + PAGE_SIZE.toNat))

-- A pool laid out on a block that held `old` before. The entries in front of
-- `max 1 objCount` are the ones that have been written.
structure PoolLayout (old h : MemPoolHead) (start stop : Adr) (size : SizeT) : Prop where
  objCount : h.objCount = objectCount start stop size
  mapCount : h.poolMapCount = h.objCount
  starts : ∀ i < h.objCount,
    (h.poolMap i).start.toNat = start.toNat + PAGE_SIZE.toNat + i * size.toNat
  links : ∀ i < h.objCount,
    (h.poolMap i).next = if i + 1 < h.objCount then some (i + 1) else none
  nextMap : h.nextMap = if 0 < h.objCount then some 0 else none
  apart : ∀ i < h.objCount, ∀ j < h.objCount, i ≠ j →
    Apart (range ((h.poolMap i).start, size)) (range ((h.poolMap j).start, size))
  inside : ∀ i < h.objCount,
    Within (range ((h.poolMap i).start, size)) (objectArea start stop)
  entries : ∀ i < max 1 h.objCount, Within (mapEntry start i) (mapArea start)
  clear : ∀ i < max 1 h.objCount, ∀ j < h.objCount,
    Apart (mapEntry start i) (range ((h.poolMap j).start, size))
  rest : ∀ i, max 1 h.objCount ≤ i → h.poolMap i = old.poolMap i

section Layout

variable {k k' : Kmem} {start stop : Adr} {size : SizeT} {cls : Slab} {i n : ℕ}

theorem objectCount_eq (hwrap : start.toNat + blkSize cls ≤ 2 ^ 32) (size : SizeT) :
    objectCount start (start + slabSize cls - 1) size = (blkSize cls - 2 ^ 12) / size.toNat := by
  have hstop := blk_stop hwrap
  have hroom : (start + slabSize cls - 1).toNat - start.toNat + 1 - 2 ^ 12 = blkSize cls - 2 ^ 12 := by
    have hsz := blkSize_le cls
    omega
  rw [objectCount, PAGE_SIZE_toNat, hroom]

theorem mapEntry_within (hi : i ≤ 2 ^ 6) : Within (mapEntry start i) (mapArea start) := by
  simp only [Within, mapEntry, mapArea, PAGE_SIZE_toNat, SIZEOF_MEM_POOL_HEAD, SIZEOF_MEM_POOL_MAP]
  omega

theorem mapArea_apart (start stop : Adr) : Apart (mapArea start) (objectArea start stop) := by
  simp only [Apart, mapArea, objectArea, PAGE_SIZE_toNat, SIZEOF_MEM_POOL_HEAD]
  omega

-- An object that fits starts where its entry says.
theorem linkedEntry_range (hpos : 0 < size.toNat)
    (hi : i < objectCount start stop size) (hpage : start.toNat + 2 ^ 12 ≤ stop.toNat + 1) :
    range ((linkedEntry (start.toNat + 2 ^ 12) size i).start, size) =
        slot (start.toNat + 2 ^ 12) size.toNat i ∧
      Within (slot (start.toNat + 2 ^ 12) size.toNat i) (objectArea start stop) := by
  have hfit := slot_within (start.toNat + 2 ^ 12) size.toNat hi
  have hroom : objectCount start stop size * size.toNat ≤
      stop.toNat - start.toNat + 1 - 2 ^ 12 := Nat.div_mul_le_self _ _
  have hstop := stop.isLt
  simp only [Within, slot, objectArea, PAGE_SIZE_toNat] at hfit ⊢
  refine ⟨Prod.ext ?_ rfl, by omega, by omega⟩
  simp only [range, linkedEntry, slot, BitVec.toNat_ofNat]
  exact Nat.mod_eq_of_lt (by omega)

-- The head with its entries, as the loop and what follows it leave them.
theorem tail_layout {old h : MemPoolHead} (hnext : h.nextMap = none) (hpos : 0 < size.toNat)
    (hpage : start.toNat + 2 ^ 12 ≤ stop.toNat + 1) (hn : objectCount start stop size = n)
    (hfew : n ≤ 2 ^ 6) :
    PoolLayout old (pageMpoolInitTail h n fun i =>
      if i < n then linkedEntry (start.toNat + 2 ^ 12) size i else old.poolMap i) start stop size := by
  have hentry := pageMpoolInitTail_poolMap h (start.toNat + 2 ^ 12) size n old.poolMap
  have hcounters := pageMpoolInitTail_counters h n fun i =>
    if i < n then linkedEntry (start.toNat + 2 ^ 12) size i else old.poolMap i
  set h' := pageMpoolInitTail h n fun i =>
    if i < n then linkedEntry (start.toNat + 2 ^ 12) size i else old.poolMap i
  have hcount : h'.objCount = n := congrArg MemPoolHead.objCount hcounters
  have hobject (i : ℕ) (hi : i < n) : range ((h'.poolMap i).start, size) =
        slot (start.toNat + 2 ^ 12) size.toNat i ∧
      Within (slot (start.toNat + 2 ^ 12) size.toNat i) (objectArea start stop) := by
    rw [hentry, if_pos hi]
    exact linkedEntry_range hpos (hn ▸ hi) hpage
  have hinside (i : ℕ) (hi : i < n) :
      Within (range ((h'.poolMap i).start, size)) (objectArea start stop) := by
    rw [(hobject i hi).1]
    exact (hobject i hi).2
  have hmap (i : ℕ) (hi : i < max 1 n) : Within (mapEntry start i) (mapArea start) :=
    mapEntry_within (by omega)
  refine ⟨?_, ?_, ?_, ?_, ?_, ?_, ?_, ?_, ?_, ?_⟩ <;> rw [hcount]
  · exact hn.symm
  · exact congrArg MemPoolHead.poolMapCount hcounters
  · exact fun i hi => congrArg Prod.fst (hobject i hi).1
  · intro i hi
    rw [hentry, if_pos hi]
  · rw [← hnext]
    exact congrArg MemPoolHead.nextMap hcounters
  · intro i hi j hj hij
    rw [(hobject i hi).1, (hobject j hj).1]
    exact slot_apart _ _ hij
  · exact hinside
  · exact hmap
  · exact fun i hi j hj => (mapArea_apart start stop).mono (hmap i hi) (hinside j hj)
  · intro i hi
    rw [hentry, if_neg (by omega), if_neg (by omega)]

theorem pageMpoolInit_layout (k : Kmem) (hcls : poolClass size.toNat = some cls) (hnull : start ≠ NULL)
    (hmask : start &&& 0xfff = 0) (hwrap : start.toNat + blkSize cls ≤ 2 ^ 32)
    (hend : start.toNat + 2 ^ 12 +
      (objectCount start (start + slabSize cls - 1) size + 1) * size.toNat ≤ 2 ^ 32) :
    ∃ k', pageMpoolInit k start size start (start + slabSize cls - 1) = .ok (start, k') ∧
      PoolLayout (k.heads start) (k'.heads start) start (start + slabSize cls - 1) size := by
  have hstop := blk_stop hwrap
  have hsz := blkSize_le cls
  have hcount := objectCount_eq hwrap size
  have hfew := poolClass_count hcls
  have hpos := poolClass_pos hcls
  rw [hcount] at hend
  rw [pageMpoolInit_eq_loop hnull hmask hwrap, pageMpoolInitLoop_laid hpos (by omega) hend
    (by rw [WALK_LIMIT]; omega), Outcome.ok_bind]
  refine ⟨_, rfl, ?_⟩
  rw [filePool_head]
  exact tail_layout rfl hpos (by omega) hcount hfew

theorem PoolLayout.ends (hcls : poolClass size.toNat = some cls) (hnull : start ≠ NULL)
    (hmask : start &&& 0xfff = 0) (hwrap : start.toNat + blkSize cls ≤ 2 ^ 32)
    (hcall : pageMpoolInit k start size start (start + slabSize cls - 1) = .ok (start, k'))
    (h : PoolLayout (k.heads start) (k'.heads start) start (start + slabSize cls - 1) size) :
    start.toNat + 2 ^ 12 +
      (objectCount start (start + slabSize cls - 1) size + 1) * size.toNat ≤ 2 ^ 32 := by
  have hstop := blk_stop hwrap
  have hsz := blkSize_le cls
  have hcount := objectCount_eq hwrap size
  have hpos := poolClass_pos hcls
  rw [pageMpoolInit_eq_loop hnull hmask hwrap, Outcome.bind_eq_ok] at hcall
  obtain ⟨⟨n, poolMap⟩, hloop, hk⟩ := hcall
  obtain ⟨-, rfl⟩ := Outcome.pair_inj hk
  have hn : objectCount start (start + slabSize cls - 1) size = n := by
    rw [← h.objCount, filePool_head, pageMpoolInitTail_counters]
  have hroom : (start + slabSize cls - 1).toNat + 1 =
      start.toNat + 2 ^ 12 + (blkSize cls - 2 ^ 12) := by omega
  by_contra hover
  rw [hcount] at hn hover
  have hlt := pageMpoolInitLoop_over hpos hroom (Nat.lt_of_not_le hover) (Nat.zero_le _) hloop
  exact Nat.lt_irrefl _ (hn ▸ hlt)

end Layout

-- A pool for 1 to 31 pages of 4 KB is laid out as it should be on every block of the length that
-- is taken for it, exactly when the next object in line would not end past 2^32. NULL is refused
-- by `new_page_mpool` beforehand.
theorem pool_layout_iff {size : SizeT} (hlo : PAGE_SIZE ≤ size) (hhi : size >>> 12 ≤ 31) :
    ∃ cls, (∀ k, newPageMpool k size = NEW_PAGE_MEM_POOL k size (slabSize cls)) ∧
      ∀ (k : Kmem) (start : Adr), start ≠ NULL → start &&& 0xfff = 0 →
        start.toNat + (slabSize cls).toNat ≤ 2 ^ 32 →
          ((∃ k', pageMpoolInit k start size start (start + slabSize cls - 1) = .ok (start, k') ∧
              PoolLayout (k.heads start) (k'.heads start) start (start + slabSize cls - 1) size) ↔
            start.toNat + PAGE_SIZE.toNat +
              (objectCount start (start + slabSize cls - 1) size + 1) * size.toNat ≤ 2 ^ 32) := by
  have hlo : 2 ^ 12 ≤ size.toNat := BitVec.le_def.mp hlo
  have hhi : size.toNat / 2 ^ 12 ≤ 31 := by
    rw [BitVec.le_def, BitVec.toNat_ushiftRight, Nat.shiftRight_eq_div_pow] at hhi
    exact hhi
  obtain ⟨cls, hcls⟩ := poolClass_served hlo (by omega)
  refine ⟨cls, fun k => by rw [newPageMpool_eq, hcls], fun k start hnull hmask hwrap => ?_⟩
  rw [slabSize_toNat] at hwrap
  constructor
  · rintro ⟨k', hcall, h⟩
    exact h.ends hcls hnull hmask hwrap hcall
  · exact pageMpoolInit_layout k hcls hnull hmask hwrap

-- The pool that the first page is taken from.
theorem pool_layout_shipped : ∃ cls k',
    pageMpoolInit bootKmem 0x80020000 0x1000 0x80020000 (0x80020000 + slabSize cls - 1) =
        .ok (0x80020000, k') ∧
      PoolLayout (bootKmem.heads 0x80020000) (k'.heads 0x80020000) 0x80020000
        (0x80020000 + slabSize cls - 1) 0x1000 := by
  obtain ⟨cls, -, hlayout⟩ := @pool_layout_iff 0x1000 (by decide) (by decide)
  have hroom : ∀ cls : Slab, (0x80020000 : Adr).toNat + (slabSize cls).toNat ≤ 2 ^ 32 ∧
      (0x80020000 : Adr).toNat + PAGE_SIZE.toNat + (objectCount 0x80020000
        (0x80020000 + slabSize cls - 1) 0x1000 + 1) * (0x1000 : SizeT).toNat ≤ 2 ^ 32 := by decide
  exact ⟨cls, (hlayout bootKmem 0x80020000 (by decide) (by decide) (hroom cls).1).mpr (hroom cls).2⟩

-- A block that ends 4 KB below 2^32 and objects of 12287 bytes, of which ten fit.
theorem layout_overruns : ¬∀ (size : SizeT) (cls : Slab), PAGE_SIZE ≤ size → size >>> 12 ≤ 31 →
    (∀ k, newPageMpool k size = NEW_PAGE_MEM_POOL k size (slabSize cls)) →
    ∀ (k : Kmem) (start : Adr), start ≠ NULL → start &&& 0xfff = 0 →
      start.toNat + (slabSize cls).toNat ≤ 2 ^ 32 →
      ∃ k', pageMpoolInit k start size start (start + slabSize cls - 1) = .ok (start, k') ∧
        PoolLayout (k.heads start) (k'.heads start) start (start + slabSize cls - 1) size := by
  intro h
  have hcls : poolClass (0x2fff : SizeT).toNat = some 0 := by decide
  obtain ⟨k', hcall, hlayout⟩ := h 0x2fff 0 (by decide) (by decide)
    (fun k => by rw [newPageMpool_eq, hcls]) bootKmem 0xfffdf000 (by decide) (by decide) (by decide)
  exact absurd (hlayout.ends hcls (by decide) (by decide) (by decide) hcall) (by decide)

end Lmosem
