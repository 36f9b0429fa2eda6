import Lmosem.Hal.Mm

namespace Lmosem

open AddrSpaceType

abbrev KRNL_INRAM_START : Adr := 0x87800000

-- `mach_addr_space` as shipped.
def machAddrSpace : List PhyAddrSpace :=
  ⟨ADDR_SPACE_SDRAM, 0x80000000, 0x9fffffff⟩ :: List.replicate 6 ⟨ADDR_SPACE_NOT, 0, 0⟩

abbrev ALIGN (x a : Adr) : Adr := (x + a - 1) &&& ~~~(a - 1)

-- `endKernel` is the address the linker gives `__end_kernel`.
def machInit (endKernel : Adr) (machAddrSpace : List PhyAddrSpace) : MachDesc where
  kmemStart := KRNL_INRAM_START
  kmemEnd := endKernel
  memDescs := ALIGN endKernel 4096
  memDescCount := 0
  addrSpaces := machAddrSpace

-- What `init_mach` leaves: `os_phy_mem` and the descriptor array are still untouched.
def initMach (endKernel : Adr) (machAddrSpace : List PhyAddrSpace) : Mm where
  mach := machInit endKernel machAddrSpace
  slabs := fun _ => ⟨0⟩
  descs := fun _ => none
  links := ⟨id, id⟩

end Lmosem
