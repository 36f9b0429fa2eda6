import Lmosem.Types.List
import Mathlib.Data.Fin.VecNotation

namespace Lmosem

abbrev U32 := BitVec 32
abbrev Adr := BitVec 32
abbrev SizeT := BitVec 32

abbrev NULL : Adr := 0

abbrev BLKSZ_HEAD_MAX : ℕ := 6

abbrev MAPF_SZ_BIT : ℕ := 0
abbrev MAPF_ACSZ_BIT : ℕ := 4
abbrev MAPF_SZ_4MB : U32 := 8 <<< MAPF_SZ_BIT

abbrev MAPF_ACSZ_128KB : U32 := 1 <<< MAPF_ACSZ_BIT
abbrev MAPF_ACSZ_256KB : U32 := 2 <<< MAPF_ACSZ_BIT
abbrev MAPF_ACSZ_512KB : U32 := 3 <<< MAPF_ACSZ_BIT
abbrev MAPF_ACSZ_1MB : U32 := 4 <<< MAPF_ACSZ_BIT
abbrev MAPF_ACSZ_2MB : U32 := 5 <<< MAPF_ACSZ_BIT
abbrev MAPF_ACSZ_4MB : U32 := 6 <<< MAPF_ACSZ_BIT

abbrev BLK128KB_SIZE : SizeT := 0x20000
abbrev BLK256KB_SIZE : SizeT := 0x40000
abbrev BLK512KB_SIZE : SizeT := 0x80000
abbrev BLK1MB_SIZE : SizeT := 0x100000
abbrev BLK2MB_SIZE : SizeT := 0x200000
abbrev BLK4MB_SIZE : SizeT := 0x400000

abbrev BLK128KB_BITL : ℕ := 32
abbrev BLK256KB_BITL : ℕ := 16
abbrev BLK512KB_BITL : ℕ := 8
abbrev BLK1MB_BITL : ℕ := 4
abbrev BLK2MB_BITL : ℕ := 2
abbrev BLK4MB_BITL : ℕ := 1

abbrev BLK128KB_MASK : U32 := 0xffffffff
abbrev BLK256KB_MASK : U32 := 0xffff
abbrev BLK512KB_MASK : U32 := 0xff
abbrev BLK1MB_MASK : U32 := 0xf
abbrev BLK2MB_MASK : U32 := 0x3
abbrev BLK4MB_MASK : U32 := 0x1

abbrev ADD_EMPTY_FLAG : ℕ := 1
abbrev ADD_FULL_FLAG : ℕ := 2
abbrev ADD_PARTIAL_FLAG : ℕ := 3

abbrev MAPONE_SIZE : Adr := 0x400000

abbrev MAP_FLAGES_VAL (rv sallocsz msz : U32) : U32 := rv ||| sallocsz ||| msz

inductive AddrSpaceType
  | ADDR_SPACE_NOT
  | ADDR_SPACE_IO
  | ADDR_SPACE_SDRAM
  | ADDR_SPACE_RAM
  | ADDR_SPACE_ROM
  | ADDR_SPACE_NORFLASH
  | ADDR_SPACE_NANDFLASH
deriving DecidableEq, Repr

structure PhyAddrSpace where
  flag : AddrSpaceType
  addrStart : Adr
  addrEnd : Adr
deriving DecidableEq, Repr

structure MemDesc where
  startAddr : Adr
  endAddr : Adr
  mapCount : U32
  flag : U32
deriving DecidableEq, Repr

-- `sizeof(struct mem_desc)` on the 32-bit machine: two links, the lock word and four words.
abbrev SIZEOF_MEM_DESC : Adr := 28

structure MemSlab where
  size : SizeT
deriving DecidableEq, Repr

structure MachDesc where
  kmemStart : Adr
  kmemEnd : Adr
  memDescs : Adr
  memDescCount : ℕ
  addrSpaces : List PhyAddrSpace
deriving DecidableEq, Repr

instance : @NeZero ℕ Zero.ofOfNat0 BLKSZ_HEAD_MAX := ⟨Nat.succ_ne_zero 5⟩

-- A `struct mem_slab *` points into the six slabs of `os_phy_mem`.
abbrev Slab := Fin BLKSZ_HEAD_MAX

inductive SlabQueue
  | fullList
  | emptyList
  | partialList
deriving DecidableEq, Repr

abbrev SlabHead := Slab × SlabQueue

-- The list cells of the block allocator: three heads in each slab, one cell in each descriptor.
abbrev MmNode := Intrusive.Node SlabHead ℕ

-- `os_mach`, `os_phy_mem` and the descriptor array. A descriptor that no code
-- has written yet is `none`. The array is an object of its own here: a block is
-- an address range, and what its owner stores in it is not part of the state.
structure Mm where
  mach : MachDesc
  slabs : Slab → MemSlab
  descs : ℕ → Option MemDesc
  links : ListHeads MmNode

end Lmosem
