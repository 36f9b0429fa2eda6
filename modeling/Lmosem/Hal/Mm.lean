import Lmosem.Hal.Types

namespace Lmosem

open Intrusive AddrSpaceType SlabQueue

namespace Mm

-- Reading a descriptor that was never initialised is a fault.
def desc (s : Mm) (k : ℕ) : Outcome MemDesc :=
  match s.descs k with
  | some d => .ok d
  | none => .fault

def setDesc (s : Mm) (k : ℕ) (d : MemDesc) : Mm :=
  { s with descs := Function.update s.descs k (some d) }

end Mm

def memDescTInit (s : Mm) (k : ℕ) (startAddr endAddr : Adr) (allCount flag : U32) : Mm :=
  { s with links := INIT_LIST_HEAD s.links (.entry k) }.setDesc k
    ⟨startAddr, endAddr, allCount, flag⟩

def initCoreMemDescLoop (endAddr : Adr) : ℕ → Adr → Mm → ℕ → Outcome (Mm × ℕ)
  | 0, _, _, _ => .hang
  | fuel + 1, startAddr, s, index =>
      if startAddr < endAddr then
        let tmpAdrr := if startAddr + MAPONE_SIZE < endAddr then startAddr + MAPONE_SIZE - 1 else endAddr
        let s := memDescTInit s index startAddr tmpAdrr 0 (MAP_FLAGES_VAL 0 MAPF_ACSZ_4MB MAPF_SZ_4MB)
        initCoreMemDescLoop endAddr fuel (startAddr + MAPONE_SIZE) s (index + 1)
      else .ok (s, index)

-- The start address runs through at most 2^32 values before it repeats.
def initCoreMemDesc (s : Mm) (startAddr endAddr : Adr) (curIndex : ℕ) : Outcome (Mm × ℕ) :=
  initCoreMemDescLoop endAddr WALK_LIMIT startAddr s curIndex

def initMemDescLoop : List PhyAddrSpace → Mm → ℕ → Outcome (Mm × ℕ)
  | [], s, index => .ok (s, index)
  | space :: spaces, s, index =>
      if space.flag = ADDR_SPACE_SDRAM then do
        let (s, index) ← initCoreMemDesc s space.addrStart space.addrEnd index
        initMemDescLoop spaces s index
      else initMemDescLoop spaces s index

def initMemDesc (s : Mm) : Outcome Mm := do
  let (s, index) ← initMemDescLoop s.mach.addrSpaces s 0
  .ok { s with mach := { s.mach with
    memDescCount := index
    kmemEnd := s.mach.memDescs + SIZEOF_MEM_DESC * BitVec.ofNat 32 index } }

def memSlabInit (s : Mm) (slabp : Slab) (size : SizeT) : Mm :=
  { s with
    slabs := Function.update s.slabs slabp ⟨size⟩
    links := INIT_LIST_HEAD (INIT_LIST_HEAD (INIT_LIST_HEAD s.links (.head (slabp, fullList)))
      (.head (slabp, emptyList))) (.head (slabp, partialList)) }

def phyMemInit (s : Mm) : Mm :=
  let s := memSlabInit s 0 BLK128KB_SIZE
  let s := memSlabInit s 1 BLK256KB_SIZE
  let s := memSlabInit s 2 BLK512KB_SIZE
  let s := memSlabInit s 3 BLK1MB_SIZE
  let s := memSlabInit s 4 BLK2MB_SIZE
  memSlabInit s 5 BLK4MB_SIZE

def addMemToSlab (s : Mm) (slabp : Slab) (memp : ℕ) (flag : ℕ) : Mm :=
  let links := if listEmpty s.links (.entry memp) then s.links
    else listDelInit s.links (.entry memp)
  let links :=
    if flag = ADD_EMPTY_FLAG then listAddTail links (.entry memp) (.head (slabp, emptyList))
    else if flag = ADD_FULL_FLAG then listAddTail links (.entry memp) (.head (slabp, fullList))
    else if flag = ADD_PARTIAL_FLAG then listAddTail links (.entry memp) (.head (slabp, partialList))
    else links
  { s with links := links }

abbrev lastSlab : Slab := 5

def memListInit (s : Mm) : Mm :=
  (List.range' 1 (s.mach.memDescCount - 1)).foldl
    (fun s i => addMemToSlab s lastSlab i ADD_EMPTY_FLAG) s

-- The two progress lines that are printed first are left out.
def initKernelMem (s : Mm) : Outcome Mm := do
  let d ← s.desc 0
  if s.mach.kmemEnd - s.mach.kmemStart > BLK128KB_SIZE ∨ s.mach.kmemStart < d.startAddr then
    .die "oh oh i am die!\n"
  else
    let s := s.setDesc 0 { d with
      mapCount := 1
      flag := MAP_FLAGES_VAL 0 MAPF_ACSZ_128KB MAPF_SZ_4MB }
    .ok (addMemToSlab s 0 0 ADD_PARTIAL_FLAG)

def initPhyMem (s : Mm) : Mm := memListInit (phyMemInit s)

def initMm (s : Mm) : Outcome Mm := do
  let s ← initMemDesc s
  initKernelMem (initPhyMem s)

-- The slab to allocate from, the slab of the wanted size, and that size (0 if there is none).
def findSlabBySize (s : Mm) (size : SizeT) : Option Slab × Option Slab × SizeT :=
  match (List.finRange BLKSZ_HEAD_MAX).find? fun i => (s.slabs i).size = size with
  | none => (none, none, 0)
  | some tmp =>
      let retSize := (s.slabs tmp).size
      if listEmpty s.links (.head (tmp, emptyList)) = false ∨
          listEmpty s.links (.head (tmp, partialList)) = false then
        (some tmp, some tmp, retSize)
      else if listEmpty s.links (.head (lastSlab, emptyList)) = false then
        (some lastSlab, some tmp, retSize)
      else (none, some tmp, retSize)

-- `list_entry` of a list head would point in front of the slab array.
def listEntry : MmNode → Outcome ℕ
  | .entry k => .ok k
  | .head _ => .fault

def findDescInSlab (s : Mm) (slab : Slab) : Outcome (Option ℕ) :=
  if listEmpty s.links (.head (slab, partialList)) = false then do
    let k ← listEntry (s.links.next (.head (slab, partialList)))
    .ok (some k)
  else if listEmpty s.links (.head (slab, emptyList)) = false then do
    let k ← listEntry (s.links.next (.head (slab, emptyList)))
    .ok (some k)
  else .ok none

-- The scan over `bi`, with the number of bits still to look at as its fuel.
def scanMapCount (mapCount : U32) : ℕ → ℕ → ℕ
  | 0, _ => 0xffffffff
  | left + 1, bi =>
      if (mapCount >>> bi) &&& 1#32 = 0#32 then bi else scanMapCount mapCount left (bi + 1)

def moveTail (s : Mm) (k : ℕ) (head : SlabHead) : Mm :=
  { s with links := listMoveTail s.links (.entry k) (.head head) }

def allocBlkOnDesc (s : Mm) (mflag mask : U32) (bits : ℕ) (allocSlab movetoSlab : Slab) :
    Outcome (Adr × Mm) :=
  if bits > 32 then .ok (NULL, s)
  else do
    match ← findDescInSlab s allocSlab with
    | none => .ok (NULL, s)
    | some k =>
        let desc ← s.desc k
        let bi := scanMapCount desc.mapCount bits 0
        if bi = 0xffffffff then .ok (NULL, s)
        else
          let retAdr := desc.startAddr + (s.slabs movetoSlab).size * BitVec.ofNat 32 bi
          if retAdr < desc.startAddr ∨ retAdr ≥ desc.endAddr then .ok (NULL, s)
          else
            let mapCount := desc.mapCount ||| 1#32 <<< bi
            let flag := (desc.flag &&& 0xffffff0f) ||| mflag
            let s := s.setDesc k { desc with mapCount := mapCount, flag := flag }
            if mapCount &&& mask = mask then .ok (retAdr, moveTail s k (movetoSlab, fullList))
            else .ok (retAdr, moveTail s k (movetoSlab, partialList))

def allocBlkInSlab (s : Mm) (allocSlab movetoSlab : Slab) (size : SizeT) : Outcome (Adr × Mm) :=
  if size = BLK128KB_SIZE then
    allocBlkOnDesc s MAPF_ACSZ_128KB BLK128KB_MASK BLK128KB_BITL allocSlab movetoSlab
  else if size = BLK256KB_SIZE then
    allocBlkOnDesc s MAPF_ACSZ_256KB BLK256KB_MASK BLK256KB_BITL allocSlab movetoSlab
  else if size = BLK512KB_SIZE then
    allocBlkOnDesc s MAPF_ACSZ_512KB BLK512KB_MASK BLK512KB_BITL allocSlab movetoSlab
  else if size = BLK1MB_SIZE then
    allocBlkOnDesc s MAPF_ACSZ_1MB BLK1MB_MASK BLK1MB_BITL allocSlab movetoSlab
  else if size = BLK2MB_SIZE then
    allocBlkOnDesc s MAPF_ACSZ_2MB BLK2MB_MASK BLK2MB_BITL allocSlab movetoSlab
  else if size = BLK4MB_SIZE then
    allocBlkOnDesc s MAPF_ACSZ_4MB BLK4MB_MASK BLK4MB_BITL allocSlab movetoSlab
  else .ok (NULL, s)

def allocMemBlkCore (s : Mm) (blkSize : SizeT) : Outcome (Adr × Mm) :=
  match findSlabBySize s blkSize with
  | (some tmpSlab, some allSlab, retSize) =>
      if retSize = 0 then .ok (NULL, s)
      else if (s.slabs tmpSlab).size ≠ retSize ∧ (s.slabs tmpSlab).size ≠ BLK4MB_SIZE then
        .ok (NULL, s)
      else allocBlkInSlab s tmpSlab allSlab retSize
  | _ => .ok (NULL, s)

def allocMemBlk (s : Mm) (blkSize : SizeT) : Outcome (Adr × Mm) :=
  if blkSize < BLK128KB_SIZE ∨ blkSize > BLK4MB_SIZE then .ok (NULL, s)
  else allocMemBlkCore s blkSize

-- One of the two identical loops of `find_desc_for_free`, over the list at `head`.
def findDescOnList (s : Mm) (addr : Adr) (head : SlabHead) : Outcome (Option ℕ) :=
  if listEmpty s.links (.head head) = false then
    listForEachEntry (fun pos => .ok (s.links.next pos)) (.head head)
      (fun pos => do
        let k ← listEntry pos
        let tmp ← s.desc k
        if tmp.startAddr ≤ addr ∧ addr < tmp.endAddr then .ok (.inr k) else .ok (.inl pos))
      WALK_LIMIT (s.links.next (.head head))
  else .ok none

def findDescForFree (s : Mm) (addr : Adr) (slab : Slab) : Outcome (Option ℕ) := do
  match ← findDescOnList s addr (slab, fullList) with
  | some k => .ok (some k)
  | none => findDescOnList s addr (slab, partialList)

-- `__free_blk_in_slab` carries a prime here.
def freeBlkInSlab' (s : Mm) (addr : Adr) (inSlab mvtoSlab : Slab) (flag mask : U32) :
    Outcome (Bool × Mm) := do
  match ← findDescForFree s addr inSlab with
  | none => .ok (false, s)
  | some k =>
      let descp ← s.desc k
      let bitNr := ((addr - descp.startAddr) / (s.slabs inSlab).size).toNat
      if bitNr > 31 then .ok (false, s)
      else if (descp.mapCount >>> bitNr) &&& 1#32 ≠ 1#32 then .ok (false, s)
      else
        let mapCount := descp.mapCount &&& ~~~(1#32 <<< bitNr)
        if mapCount &&& mask = 0 then
          let flag := (descp.flag &&& 0xffffff0f) ||| flag
          let s := s.setDesc k { descp with mapCount := mapCount, flag := flag }
          .ok (true, moveTail s k (mvtoSlab, emptyList))
        else .ok (true, s.setDesc k { descp with mapCount := mapCount })

def freeBlkInSlab (s : Mm) (addr : Adr) (blkSize : SizeT) (inSlab mvtoSlab : Slab) :
    Outcome (Bool × Mm) :=
  if blkSize = BLK128KB_SIZE then freeBlkInSlab' s addr inSlab mvtoSlab MAPF_ACSZ_4MB BLK128KB_MASK
  else if blkSize = BLK256KB_SIZE then
    freeBlkInSlab' s addr inSlab mvtoSlab MAPF_ACSZ_4MB BLK256KB_MASK
  else if blkSize = BLK512KB_SIZE then
    freeBlkInSlab' s addr inSlab mvtoSlab MAPF_ACSZ_4MB BLK512KB_MASK
  else if blkSize = BLK1MB_SIZE then freeBlkInSlab' s addr inSlab mvtoSlab MAPF_ACSZ_4MB BLK1MB_MASK
  else if blkSize = BLK2MB_SIZE then freeBlkInSlab' s addr inSlab mvtoSlab MAPF_ACSZ_4MB BLK2MB_MASK
  else if blkSize = BLK4MB_SIZE then freeBlkInSlab' s addr inSlab mvtoSlab MAPF_ACSZ_4MB BLK4MB_MASK
  else .ok (false, s)

def freeMemBlkCore (s : Mm) (addr : Adr) (blkSize : SizeT) : Outcome (Bool × Mm) :=
  match (List.finRange BLKSZ_HEAD_MAX).find? fun i => (s.slabs i).size = blkSize with
  | none => .ok (false, s)
  | some tmp => freeBlkInSlab s addr blkSize tmp lastSlab

def freeMemBlk (s : Mm) (addr : Adr) (blkSize : SizeT) : Outcome (Bool × Mm) :=
  if addr = NULL ∨ blkSize < BLK128KB_SIZE ∨ blkSize > BLK4MB_SIZE then .ok (false, s)
  else freeMemBlkCore s addr blkSize

-- A call of the block allocator with what it returned.
inductive BlkEvent
  | alloc (size : SizeT) (ret : Adr)
  | free (addr : Adr) (size : SizeT) (ret : Bool)
deriving DecidableEq, Repr

-- The blocks a caller holds after a call, when it held `live` before.
def heldAfter (live : List (Adr × SizeT)) : BlkEvent → List (Adr × SizeT)
  | .alloc size ret => if ret = NULL then live else (ret, size) :: live
  | .free addr size ret => if ret then live.erase (addr, size) else live

end Lmosem
