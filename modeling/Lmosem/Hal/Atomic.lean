import Lmosem.Hal.Tiled

namespace Lmosem

open Intrusive SlabQueue Transition

-- Between two states one bit of one descriptor has flipped, the one of the block of `size` bytes
-- that holds `addr`. Besides it only that descriptor's list and the block size it notes may differ.
structure Flip (addr : Adr) (size : SizeT) (s s' : Mm) (k b : ℕ) (d d' : MemDesc) : Prop where
  before : s.descs k = some d
  after : s'.descs k = some d'
  others : ∀ j, j ≠ k → s'.descs j = s.descs j
  bit : b < 32
  mapCount : d'.mapCount = d.mapCount ^^^ 1#32 <<< b
  first : d.startAddr.toNat + b * size.toNat ≤ addr.toNat
  last : addr.toNat < d.startAddr.toNat + (b + 1) * size.toNat
  range : d'.startAddr = d.startAddr ∧ d'.endAddr = d.endAddr
  flag : d'.flag &&& 0xffffff0f = d.flag &&& 0xffffff0f
  slabs : s'.slabs = s.slabs
  mach : s'.mach = s.mach
  lists : ∃ q q', Rings s.links q ∧ Rings s'.links q' ∧ ∀ p, (q' p).erase k = (q p).erase k

theorem recode_flag (flag : U32) (i : Slab) :
    ((flag &&& 0xffffff0f) ||| slabAcsz i) &&& 0xffffff0f = flag &&& 0xffffff0f := by
  have hnibble : slabAcsz i &&& 0xffffff0f = 0#32 := by
    revert i
    decide
  rw [BitVec.and_or_distrib_right, BitVec.and_assoc, BitVec.and_self, hnibble, BitVec.or_zero]

section Calls

variable {tiles : List (ℕ × ℕ)} {q : SlabHead → List ℕ} {s : Mm} {p : SlabHead} {i : Slab} {k b : ℕ}
  {d : MemDesc} {addr : Adr}

theorem Tiled.flip_take (h : Tiled tiles q s) (hk : k ∈ q p) (hd : s.descs k = some d)
    (hb : Bits.firstZero (Bits.ones d.mapCount) (blkBits i) = some b)
    (haddr : (blkAddr d i b).toNat = d.startAddr.toNat + b * blkSize i) :
    Flip (blkAddr d i b) (slabSize i) s (Lmosem.takeBlk s i k b d) k b d (takenDesc d i b) := by
  obtain ⟨hlt, hzero⟩ := Bits.firstZero_some hb
  have hbits := blkBits_le i
  have hpos := blkSize_pos i
  refine ⟨hd, Function.update_self k _ s.descs, fun j hj => Function.update_of_ne hj _ s.descs,
    by omega, Bits.set_eq_xor hzero, ?_, ?_, ⟨rfl, rfl⟩, recode_flag d.flag i, rfl, rfl, ?_⟩
  · rw [haddr, slabSize_toNat]
  · rw [haddr, slabSize_toNat, Nat.add_one_mul]
    omega
  · exact ⟨q, _, h.rings, (h.takeBlk hk hd i b).rings, h.rings.apart.erase_move k _⟩

-- The bit that a release looks at is the one of the block around the address.
theorem bit_of_addr (hlo : d.startAddr ≤ addr) :
    d.startAddr.toNat + ((addr - d.startAddr) / slabSize i).toNat * blkSize i ≤ addr.toNat ∧
      addr.toNat <
        d.startAddr.toNat + (((addr - d.startAddr) / slabSize i).toNat + 1) * blkSize i := by
  have hle := BitVec.le_def.mp hlo
  have hdiv : ((addr - d.startAddr) / slabSize i).toNat =
      (addr.toNat - d.startAddr.toNat) / blkSize i := by
    rw [BitVec.toNat_udiv, BitVec.toNat_sub_of_le hlo, slabSize_toNat]
  have hmul := Nat.div_mul_le_self (addr.toNat - d.startAddr.toNat) (blkSize i)
  have hlt := Nat.lt_div_mul_add (a := addr.toNat - d.startAddr.toNat) (blkSize_pos i)
  rw [hdiv, Nat.add_one_mul]
  omega

theorem Tiled.flip_give (h : Tiled tiles q s) (hk : k ∈ q p) (hd : s.descs k = some d)
    (hlo : d.startAddr ≤ addr)
    (hset : ((addr - d.startAddr) / slabSize i).toNat ∈ Bits.ones d.mapCount) :
    ∃ d', Flip addr (slabSize i) s
      (Lmosem.giveBlk s i k ((addr - d.startAddr) / slabSize i).toNat d) k
      ((addr - d.startAddr) / slabSize i).toNat d d' := by
  have hblock := bit_of_addr (i := i) hlo
  set b := ((addr - d.startAddr) / slabSize i).toNat
  have hbit : b < 32 := BitVec.lt_of_getLsbD ((Bits.mem_ones _ b).mp hset)
  rw [← slabSize_toNat i] at hblock
  obtain ⟨q', hq', hmove⟩ := h.giveBlk hk hd i b
  have hlists : ∀ p, (q' p).erase k = (q p).erase k := by
    rcases hmove with rfl | rfl
    · exact fun _ => rfl
    · exact h.rings.apart.erase_move k _
  have hrings := hq'.rings
  rw [Lmosem.giveBlk] at hrings ⊢
  by_cases hempty : (clearedDesc d b).mapCount &&& slabMask i = 0
  · rw [if_pos hempty] at hrings ⊢
    exact ⟨_, hd, Function.update_self k _ s.descs, fun j hj => Function.update_of_ne hj _ s.descs,
      hbit, Bits.clear_eq_xor hset, hblock.1, hblock.2, ⟨rfl, rfl⟩, recode_flag d.flag lastSlab, rfl,
      rfl, q, q', h.rings, hrings, hlists⟩
  · rw [if_neg hempty] at hrings ⊢
    exact ⟨_, hd, Function.update_self k _ s.descs, fun j hj => Function.update_of_ne hj _ s.descs,
      hbit, Bits.clear_eq_xor hset, hblock.1, hblock.2, ⟨rfl, rfl⟩, rfl, rfl,
      rfl, q, q', h.rings, hrings, hlists⟩

end Calls

-- A refused call has changed nothing, and an accepted one a single bit, for whatever table of
-- RAM rows clear of address 0, where NULL would be an address of memory.
theorem calls_atomic {s₀ s : Mm} {c : BlkState} (hd : s₀.descs = fun _ => none)
    (hnull : ∀ row ∈ sdramRows s₀.mach.addrSpaces, row.addrStart ≠ NULL) (hs : initMm s₀ = .ok s)
    (hr : Reachable AnyStep ⟨s, []⟩ c) :
    (∀ size ret s', allocMemBlk c.mm size = .ok (ret, s') →
      (ret = NULL → s' = c.mm) ∧ (ret ≠ NULL → ∃ k b d d', Flip ret size c.mm s' k b d d')) ∧
    ∀ addr size done s', freeMemBlk c.mm addr size = .ok (done, s') →
      (done = false → s' = c.mm) ∧ (done = true → ∃ k b d d', Flip addr size c.mm s' k b d d') := by
  obtain ⟨q, h⟩ := reachable_tiled hd hs hr
  have hw := (initMm_tiled hd hs).1
  refine ⟨fun size ret s' hcall => ?_, fun addr size done s' hcall => ?_⟩
  · rcases h.alloc_cases hcall with ⟨rfl, rfl⟩ | ⟨i, k, b, d, p, rfl, -, hk, hdk, hb, -, rfl, rfl⟩
    · exact ⟨fun _ => rfl, fun hne => absurd rfl hne⟩
    · obtain ⟨tile, htile, hstart, -⟩ := h.tile hk hdk
      obtain ⟨row, hrow, ht⟩ := tableTiles_tile hw (List.mem_of_getElem? htile)
      have hbelow := ht.below
      have hfirst := ht.first
      have hpos := ne_null_iff.mp (hnull row hrow)
      have haddr := blkAddr_toNat (d := d) (Bits.firstZero_some hb).1 (by omega)
      refine ⟨fun he => absurd he (ne_null_iff.mpr ?_),
        fun _ => ⟨k, b, d, _, h.flip_take hk hdk hb haddr⟩⟩
      omega
  · rcases h.free_cases hcall with ⟨rfl, rfl⟩ | ⟨i, k, d, p, rfl, rfl, hk, hdk, hlo, -, hset, rfl⟩
    · exact ⟨fun _ => rfl, fun he => absurd he (by simp)⟩
    · exact ⟨fun he => absurd he (by simp), fun _ => ⟨k, _, d, h.flip_give hk hdk hlo hset⟩⟩

-- The first block that is not the kernel's is the second of the first descriptor.
theorem calls_atomic_shipped : ∃ s' k b d d',
    allocMemBlk bootMm BLK128KB_SIZE = .ok (0x80020000, s') ∧
      Flip 0x80020000 BLK128KB_SIZE bootMm s' k b d d' := by
  have hrows : ∀ row ∈ sdramRows (initMach 0x87801000 machAddrSpace).mach.addrSpaces,
      row.addrStart ≠ NULL := by
    intro row hrow
    obtain rfl := List.mem_singleton.mp hrow
    decide
  let outcome := allocMemBlk bootMm BLK128KB_SIZE
  let r := outcome.getD (NULL, bootMm)
  obtain ⟨hok, hret⟩ : outcome.isOk = true ∧ r.1 = 0x80020000 := by decide +kernel
  have hcall : allocMemBlk bootMm BLK128KB_SIZE = .ok (0x80020000, r.2) :=
    (Outcome.eq_ok_getD hok _).trans (congrArg Outcome.ok (Prod.ext hret rfl))
  have hflip := (calls_atomic rfl hrows bootMm_eq ⟨[], .nil⟩).1 BLK128KB_SIZE _ r.2 hcall
  obtain ⟨k, b, d, d', h⟩ := hflip.2 (by decide)
  exact ⟨r.2, k, b, d, d', hcall, h⟩

end Lmosem
