import Lmosem.Hal.Mm

namespace Lmosem

open Intrusive

abbrev PAGE_SIZE : SizeT := 0x1000

abbrev MPLHTY_PAGE : ℕ := 1

-- `sizeof(struct mem_pool_head)`: the lock word, two links and twelve words.
abbrev SIZEOF_MEM_POOL_HEAD : ℕ := 60

abbrev SIZEOF_MEM_POOL_MAP : ℕ := 8

-- A `next` points at another entry of the same array, named by its index.
structure MemPoolMap where
  start : Adr
  next : Option ℕ
deriving DecidableEq, Repr

-- `pool_map` points right behind the head, so the entries are part of it here.
structure MemPoolHead where
  type : ℕ
  start : Adr
  stop : Adr
  nextMap : Option ℕ
  objCount : ℕ
  allocSize : SizeT
  afindx : ℕ
  poolMapCount : ℕ
  poolMap : ℕ → MemPoolMap

-- The list cells of the page pools: `page_pool_head` and one in each pool.
abbrev PoolNode := Node Unit Adr

-- `os_kmem_pool` and the pool heads, each at the start of its block, over the
-- block allocator. No code reads `blkCalls`, the calls the pools have made to it.
structure Kmem where
  mm : Mm
  heads : Adr → MemPoolHead
  poolLinks : ListHeads PoolNode
  pagePoolCount : ℕ
  pagePoolCache : Adr
  blkCalls : List BlkEvent

namespace Kmem

-- Reading through a pool pointer, which faults for NULL.
def head (k : Kmem) (headp : Adr) : Outcome MemPoolHead :=
  if headp = NULL then .fault else .ok (k.heads headp)

def setHead (k : Kmem) (headp : Adr) (h : MemPoolHead) : Kmem :=
  { k with heads := Function.update k.heads headp h }

end Kmem

def kmemPoolInit (k : Kmem) : Kmem :=
  { k with
    pagePoolCount := 0
    poolLinks := INIT_LIST_HEAD k.poolLinks (.head ())
    pagePoolCache := NULL }

def memPoolHeadInit (h : MemPoolHead) : MemPoolHead :=
  { h with
    type := 0
    start := 0
    stop := 0
    nextMap := none
    objCount := 0
    allocSize := 0
    afindx := 0
    poolMapCount := 0 }

-- The loop that lays the pages of a pool out. It returns `pi` and the array.
def pageMpoolInitLoop (size : SizeT) (stop : Adr) : ℕ → Adr → ℕ → (ℕ → MemPoolMap) →
    Outcome (ℕ × (ℕ → MemPoolMap))
  | 0, _, _, _ => .hang
  | fuel + 1, sadr, pi, poolMap =>
      if sadr + size - 1 > stop then .ok (pi, poolMap)
      else pageMpoolInitLoop size stop fuel (sadr + size) (pi + 1)
        (Function.update poolMap pi ⟨sadr, some (pi + 1)⟩)

-- What follows the loop, down to the counters that `add_step` sets.
def pageMpoolInitTail (h : MemPoolHead) (pi : ℕ) (poolMap : ℕ → MemPoolMap) : MemPoolHead :=
  if pi > 0 then
    { h with
      poolMap := Function.update poolMap (pi - 1) { poolMap (pi - 1) with next := none }
      nextMap := some 0
      objCount := pi
      poolMapCount := pi }
  else
    { h with
      poolMap := Function.update poolMap pi ⟨NULL, none⟩
      objCount := pi
      poolMapCount := pi }

def pageMpoolInit (k : Kmem) (initp : Adr) (size : SizeT) (start stop : Adr) :
    Outcome (Adr × Kmem) :=
  if start &&& 0xfff ≠ 0 ∨ stop - start < PAGE_SIZE * 2 - 1 then .ok (NULL, k)
  else do
    let old ← k.head initp
    let k := { k with poolLinks := INIT_LIST_HEAD k.poolLinks (.entry initp) }
    let h := { memPoolHeadInit old with
      type := MPLHTY_PAGE
      start := start
      stop := stop
      allocSize := size }
    let (pi, poolMap) ← pageMpoolInitLoop size stop WALK_LIMIT (start + PAGE_SIZE) 0 h.poolMap
    let k := k.setHead initp (pageMpoolInitTail h pi poolMap)
    .ok (initp, { k with
      poolLinks := listAddTail k.poolLinks (.entry initp) (.head ())
      pagePoolCount := k.pagePoolCount + 1 })

def NEW_PAGE_MEM_POOL (k : Kmem) (size blkSize : SizeT) : Outcome (Adr × Kmem) := do
  let (blkAddr, mm) ← allocMemBlk k.mm blkSize
  let k := { k with mm := mm, blkCalls := k.blkCalls ++ [.alloc blkSize blkAddr] }
  if blkAddr = NULL then .ok (NULL, k)
  else
    let (headp, k) ← pageMpoolInit k blkAddr size blkAddr (blkAddr + blkSize - 1)
    if headp = NULL then .die "new pg mpool err 1"
    else .ok (headp, k)

def newPageMpool (k : Kmem) (size : SizeT) : Outcome (Adr × Kmem) :=
  let pageNr := (size >>> 12).toNat
  if pageNr < 1 then .ok (NULL, k)
  else if pageNr ≤ 2 then NEW_PAGE_MEM_POOL k size BLK128KB_SIZE
  else if pageNr ≤ 4 then NEW_PAGE_MEM_POOL k size BLK256KB_SIZE
  else if pageNr ≤ 8 then NEW_PAGE_MEM_POOL k size BLK256KB_SIZE
  else if pageNr ≤ 16 then NEW_PAGE_MEM_POOL k size BLK256KB_SIZE
  else if pageNr ≤ 31 then NEW_PAGE_MEM_POOL k size BLK128KB_SIZE
  else .ok (NULL, k)

def poolHeadIsOk (k : Kmem) (headp : Adr) (size : SizeT) : Outcome Adr := do
  let h ← k.head headp
  if h.nextMap = none then .ok NULL
  else if h.type ≠ MPLHTY_PAGE then .ok NULL
  else if h.allocSize ≠ size then .ok NULL
  else if h.afindx ≥ h.objCount then .ok NULL
  else .ok headp

-- `list_entry` of the list head would point in front of `os_kmem_pool`.
def poolEntry : PoolNode → Outcome Adr
  | .entry headp => .ok headp
  | .head _ => .fault

def findPoolHeadBySize (k : Kmem) (size : SizeT) : Outcome (Adr × Kmem) := do
  let cached ← (if k.pagePoolCache ≠ NULL then poolHeadIsOk k k.pagePoolCache size else .ok NULL)
  if cached ≠ NULL then .ok (cached, k)
  else
    match ← listForEachEntry (fun pos => .ok (k.poolLinks.next pos)) (.head ())
      (fun pos => do
        let headp ← poolEntry pos
        let retHead ← poolHeadIsOk k headp size
        if retHead ≠ NULL then .ok (.inr retHead) else .ok (.inl pos))
      WALK_LIMIT (k.poolLinks.next (.head ())) with
    | some retHead => .ok (retHead, { k with pagePoolCache := retHead })
    | none => .ok (NULL, k)

def pageNewOnMplhead (k : Kmem) (headp : Adr) : Outcome (Adr × Kmem) := do
  let h ← k.head headp
  if h.afindx ≥ h.objCount then .ok (NULL, k)
  else
    match h.nextMap with
    | some map =>
        .ok ((h.poolMap map).start, k.setHead headp { h with
          nextMap := (h.poolMap map).next
          poolMap := Function.update h.poolMap map { h.poolMap map with next := none }
          afindx := h.afindx + 1 })
    | none => .ok (NULL, k)

-- The lock around the body of this and of the release below is left out.
def kmemPoolAllocPage (k : Kmem) (size : SizeT) : Outcome (Adr × Kmem) := do
  let (headp, k) ← findPoolHeadBySize k size
  if headp ≠ NULL then pageNewOnMplhead k headp
  else
    let (headp, k) ← newPageMpool k size
    if headp = NULL then .ok (NULL, k) else pageNewOnMplhead k headp

def delPageMpool (k : Kmem) (headp : Adr) : Outcome (Bool × Kmem) := do
  let h ← k.head headp
  if h.afindx > 0 then .ok (true, k)
  else
    let frsz := h.stop - h.start + 1
    let fradr := h.start
    let k := { k with poolLinks := listDel k.poolLinks (.entry headp) }
    if k.pagePoolCount < 1 then .die "del_page_mpool kpoolp->page_pool_count < 1"
    else
      let k := { k with
        pagePoolCount := k.pagePoolCount - 1
        pagePoolCache := if k.pagePoolCache = headp then NULL else k.pagePoolCache }
      let (done, mm) ← freeMemBlk k.mm fradr frsz
      let k := { k with mm := mm, blkCalls := k.blkCalls ++ [.free fradr frsz done] }
      if done = false then .die "del_page_mpool free_mem_blk err"
      else .ok (true, k)

-- The scan over `i`, with the number of entries still to look at as its fuel.
def findMap (h : MemPoolHead) (addr : Adr) : ℕ → ℕ → Option ℕ
  | 0, _ => none
  | left + 1, i => if addr = (h.poolMap i).start then some i else findMap h addr left (i + 1)

def deletePageOnMplhead (k : Kmem) (headp : Adr) (addr : Adr) : Outcome (Bool × Kmem) := do
  let h ← k.head headp
  if h.afindx < 1 ∨ h.poolMapCount < 1 then .ok (false, k)
  else
    match findMap h addr h.poolMapCount 0 with
    | none => .ok (false, k)
    | some map =>
        if (h.poolMap map).next ≠ none then .ok (false, k)
        else
          .ok (true, k.setHead headp { h with
            poolMap := Function.update h.poolMap map { h.poolMap map with next := h.nextMap }
            nextMap := some map
            afindx := h.afindx - 1 })

def deletedPoolHeadIsok (k : Kmem) (headp addr : Adr) (size : SizeT) : Outcome Adr := do
  let h ← k.head headp
  if h.type ≠ MPLHTY_PAGE then .ok NULL
  else if h.allocSize ≠ size then .ok NULL
  else if h.afindx = 0 then .ok NULL
  else if addr < h.start + PAGE_SIZE ∨ addr + size - 1 > h.stop then .ok NULL
  else .ok headp

-- The loop variable is `ret_head` itself, so after a pool that does not fit the
-- walk goes on from NULL.
def findDeletedPoolHead (k : Kmem) (addr : Adr) (size : SizeT) : Outcome Adr := do
  let cached ← (if k.pagePoolCache ≠ NULL then deletedPoolHeadIsok k k.pagePoolCache addr size
    else .ok NULL)
  if cached ≠ NULL then .ok cached
  else
    match ← listForEachEntry
      (fun pos => if pos = .entry NULL then .fault else .ok (k.poolLinks.next pos)) (.head ())
      (fun pos => do
        let headp ← poolEntry pos
        let retHead ← deletedPoolHeadIsok k headp addr size
        if retHead ≠ NULL then .ok (.inr retHead) else .ok (.inl (.entry retHead)))
      WALK_LIMIT (k.poolLinks.next (.head ())) with
    | some retHead => .ok retHead
    | none => .ok NULL

def kmemPoolFreePage (k : Kmem) (addr : Adr) (size : SizeT) : Outcome (Bool × Kmem) := do
  let headp ← findDeletedPoolHead k addr size
  if headp = NULL then .ok (false, k)
  else
    let (done, k) ← deletePageOnMplhead k headp addr
    if done = false then .ok (false, k)
    else
      let (done, k) ← delPageMpool k headp
      if done = false then .ok (false, k) else .ok (true, k)

end Lmosem
