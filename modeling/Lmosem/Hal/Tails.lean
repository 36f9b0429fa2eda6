import Lmosem.Hal.Tiled

-- Blocks at the end of a row that is no multiple of 4 MB.
namespace Lmosem

open Intrusive SlabQueue Transition AddrSpaceType

def MemDesc.length (d : MemDesc) : ℕ := d.endAddr.toNat + 1 - d.startAddr.toNat

-- The lists offer a descriptor with no whole block of class `i` left, but with a bit and two
-- bytes or more behind the last one.
def ShortFit (s : Mm) (i : Slab) : Prop :=
  ∃ k d, Offers s i k ∧ s.descs k = some d ∧ d.length / blkSize i < blkBits i ∧
    (∀ b < d.length / blkSize i, b ∈ Bits.ones d.mapCount) ∧
    d.length / blkSize i ∉ Bits.ones d.mapCount ∧ 2 ≤ d.length % blkSize i

-- An allocation made in such a state.
def Overhang (mv : Move BlkState BlkEvent) : Prop :=
  ∃ i ret, mv.event = .alloc (slabSize i) ret ∧ ShortFit mv.before.mm i

-- The block an allocation cuts lies inside the descriptor it changes, and inside a row.
def Contained (spaces : List PhyAddrSpace) (mv : Move BlkState BlkEvent) : Prop :=
  ∀ size ret, mv.event = .alloc size ret → ∀ k d, mv.before.mm.descs k = some d →
    mv.after.mm.descs k ≠ some d →
    d.startAddr.toNat ≤ ret.toNat ∧ ret.toNat + size.toNat ≤ d.endAddr.toNat + 1 ∧
      ∃ row ∈ sdramRows spaces, row.addrStart.toNat ≤ ret.toNat ∧
        ret.toNat + size.toNat ≤ row.addrEnd.toNat + 1

-- A block that begins in front of the last byte fits, unless it is the one cut short.
theorem block_fits_iff {size len b : ℕ} (hpos : 0 < size) (hb : b * size + 1 < len) :
    (b + 1) * size ≤ len ↔ ¬(len / size = b ∧ 2 ≤ len % size) := by
  have hdiv := Nat.div_add_mod len size
  have hmod := Nat.mod_lt len hpos
  constructor
  · rintro hfit ⟨rfl, -⟩
    have hmul : size * (len / size) = len / size * size := Nat.mul_comm _ _
    rw [Nat.add_one_mul] at hfit
    omega
  · intro hshort
    by_contra hlong
    have hb' : len / size = b := by
      rw [Nat.div_eq_iff hpos]
      rw [Nat.add_one_mul] at hlong
      omega
    have hmul : size * b = b * size := Nat.mul_comm _ _
    rw [hb', hmul] at hdiv
    exact hshort ⟨hb', by omega⟩

section Calls

variable {tiles : List (ℕ × ℕ)} {q : SlabHead → List ℕ} {s : Mm} {i : Slab} {k b : ℕ} {d : MemDesc}
  {spaces : List PhyAddrSpace}

theorem takeBlk_changed (hb : b ∉ Bits.ones d.mapCount) (hlt : b < 32) :
    (takeBlk s i k b d).descs k ≠ some d := by
  have hdesc : (takeBlk s i k b d).descs k = some (takenDesc d i b) := Function.update_self k _ s.descs
  have hmem : b ∈ Bits.ones (takenDesc d i b).mapCount := by
    rw [takenDesc, Bits.ones_set _ hlt]
    exact Finset.mem_insert_self b _
  rw [hdesc, ne_eq, Option.some.injEq]
  exact fun he => hb (he ▸ hmem)

theorem Offers.unique {j : ℕ} (h : Offers s i k) (h' : Offers s i j) : k = j := by
  obtain ⟨a, ha, hk⟩ := h
  obtain ⟨a', ha', hj⟩ := h'
  obtain rfl := Option.some.inj (ha.symm.trans ha')
  exact Option.some.inj (Outcome.ok.inj (hk.symm.trans hj))

-- In the state a block is taken in, falling short is a matter of that one block.
theorem shortFit_iff (ho : Offers s i k) (hd : s.descs k = some d)
    (hb : Bits.firstZero (Bits.ones d.mapCount) (blkBits i) = some b) :
    ShortFit s i ↔ d.length / blkSize i = b ∧ 2 ≤ d.length % blkSize i := by
  constructor
  · rintro ⟨j, e, ho', he, hlt, hall, hzero, hrest⟩
    obtain rfl := ho.unique ho'
    obtain rfl := Option.some.inj (hd.symm.trans he)
    have hb' := Bits.firstZero_eq_some.mpr ⟨hlt, hzero, hall⟩
    exact ⟨Option.some.inj (hb'.symm.trans hb), hrest⟩
  · rintro ⟨rfl, hrest⟩
    obtain ⟨hlt, hzero, hall⟩ := Bits.firstZero_eq_some.mp hb
    exact ⟨k, d, ho, hd, hlt, hall, hzero, hrest⟩

theorem Tiled.range (h : Tiled tiles q s) (ht : ∀ tile ∈ tiles, ∃ row ∈ sdramRows spaces, Tile row tile)
    {p : SlabHead} (hk : k ∈ q p) (hd : s.descs k = some d) :
    ∃ row ∈ sdramRows spaces, Tile row (d.startAddr.toNat, d.endAddr.toNat) := by
  obtain ⟨tile, htile, hstart, hstop⟩ := h.tile hk hd
  rw [hstart, hstop]
  exact ht tile (List.mem_of_getElem? htile)

theorem Tiled.taken_contained_iff {c c' : BlkState} {ret : Adr}
    (h : Tiled tiles q c.mm) (ht : ∀ tile ∈ tiles, ∃ row ∈ sdramRows spaces, Tile row tile)
    {p : SlabHead} (hk : k ∈ q p) (ho : Offers c.mm i k) (hd : c.mm.descs k = some d)
    (hb : Bits.firstZero (Bits.ones d.mapCount) (blkBits i) = some b)
    (hrange : ¬(blkAddr d i b < d.startAddr ∨ blkAddr d i b ≥ d.endAddr))
    (hret : ret = blkAddr d i b) (hafter : c'.mm = Lmosem.takeBlk c.mm i k b d) :
    Contained spaces ⟨c, .alloc (slabSize i) ret, c'⟩ ↔ ¬ShortFit c.mm i := by
  obtain ⟨hlt, hzero⟩ := Bits.firstZero_some hb
  have hbits := blkBits_le i
  obtain ⟨row, hrow, htile⟩ := h.range ht hk hd
  obtain ⟨hfirst, hlast, hend, -, hbelow⟩ := htile
  simp only at hfirst hlast hend hbelow
  have haddr := blkAddr_toNat (d := d) hlt (by omega)
  have hbyte : b * blkSize i + 1 < d.length := by
    rw [not_or, ge_iff_le, BitVec.not_lt, BitVec.not_le, BitVec.lt_def, haddr] at hrange
    unfold MemDesc.length
    omega
  rw [shortFit_iff ho hd hb, ← block_fits_iff (blkSize_pos i) hbyte, Nat.add_one_mul]
  subst hret
  constructor
  · intro hin
    have hchanged : c'.mm.descs k ≠ some d := hafter ▸ takeBlk_changed hzero (by omega)
    obtain ⟨-, hfit, -⟩ := hin _ _ rfl k d hd hchanged
    rw [haddr, slabSize_toNat] at hfit
    unfold MemDesc.length
    omega
  · intro hfit size ret he j e hj hchanged
    obtain ⟨rfl, rfl⟩ := BlkEvent.alloc.inj he
    obtain rfl : j = k := by
      by_contra hjk
      refine hchanged ?_
      rw [← hj, hafter]
      exact Function.update_of_ne hjk _ c.mm.descs
    obtain rfl := Option.some.inj (hd.symm.trans hj)
    unfold MemDesc.length at hfit
    rw [haddr, slabSize_toNat]
    exact ⟨by omega, by omega, row, hrow, by omega, by omega⟩

-- A short fit is not refused: the address alone passes the check.
theorem Tiled.shortFit_taken (h : Tiled tiles q s)
    (ht : ∀ tile ∈ tiles, ∃ row ∈ sdramRows spaces, Tile row tile) (hfit : ShortFit s i) :
    ∃ k b d, s.descs k = some d ∧ (Lmosem.takeBlk s i k b d).descs k ≠ some d ∧
      allocMemBlk s (slabSize i) = .ok (blkAddr d i b, Lmosem.takeBlk s i k b d) := by
  obtain ⟨k, d, ho, hd, hlt, hall, hzero, hrest⟩ := hfit
  obtain ⟨p, hk⟩ := findDescInSlab_mem h.rings ho.choose_spec.2
  obtain ⟨row, -, htile⟩ := h.range ht hk hd
  have hbelow := htile.below
  have hbits := blkBits_le i
  have hb := Bits.firstZero_eq_some.mpr ⟨hlt, hzero, hall⟩
  have haddr := blkAddr_toNat (d := d) hlt (by omega)
  have hdiv := Nat.div_add_mod d.length (blkSize i)
  rw [Nat.mul_comm] at hdiv
  set b := d.length / blkSize i
  have hrange : ¬(blkAddr d i b < d.startAddr ∨ blkAddr d i b ≥ d.endAddr) := by
    rw [not_or, ge_iff_le, BitVec.not_lt, BitVec.not_le, BitVec.lt_def, BitVec.le_def, haddr]
    unfold MemDesc.length at hdiv hrest
    omega
  exact ⟨k, b, d, hd, takeBlk_changed hzero (by omega), allocMemBlk_taken h.size ho hd hb hrange⟩

-- One call of a run: its block sticks out exactly when the lists offered a short fit.
theorem Tiled.contained_iff {mv : Move BlkState BlkEvent} (h : Tiled tiles q mv.before.mm)
    (ht : ∀ tile ∈ tiles, ∃ row ∈ sdramRows spaces, Tile row tile)
    (hs : AnyStep mv.before mv.event mv.after) : Contained spaces mv ↔ ¬Overhang mv := by
  obtain ⟨before, event, after⟩ := mv
  cases hs with
  | free hcall =>
      refine ⟨fun _ => ?_, fun _ size ret he => ?_⟩
      · rintro ⟨i, ret, he, -⟩
        cases he
      · cases he
  | @alloc s s' live size ret hcall =>
      have hover (i : Slab) (hsize : size = slabSize i) :
          Overhang ⟨⟨s, live⟩, .alloc size ret, ⟨s', heldAfter live (.alloc size ret)⟩⟩ ↔
            ShortFit s i := by
        constructor
        · rintro ⟨j, r, he, hfit⟩
          obtain ⟨hj, -⟩ := BlkEvent.alloc.inj he
          exact slabSize_injective (hj.symm.trans hsize) ▸ hfit
        · exact fun hfit => ⟨i, ret, hsize ▸ rfl, hfit⟩
      rcases h.alloc_cases hcall with ⟨rfl, rfl⟩ |
        ⟨i, k, b, d, p, hsize, ho, hk, hd, hb, hrange, hret, hafter⟩
      · refine ⟨fun _ => ?_, fun _ _ _ _ k d hd hne => absurd hd hne⟩
        rintro ⟨i, r, he, hfit⟩
        obtain ⟨rfl, -⟩ := BlkEvent.alloc.inj he
        obtain ⟨k, b, d, hd, hchanged, hcall'⟩ := h.shortFit_taken ht hfit
        obtain ⟨-, hsame⟩ := Outcome.pair_unique hcall hcall'
        exact hchanged (hsame ▸ hd)
      · rw [hover i hsize]
        subst hsize
        exact h.taken_contained_iff ht hk ho hd hb hrange hret hafter

end Calls

-- In a run on memory of any shape no block sticks out exactly when no call meets a short fit.
theorem blocks_contained_iff {s₀ s : Mm} {c : BlkState} {trace : List (Move BlkState BlkEvent)}
    (hd : s₀.descs = fun _ => none) (hs : initMm s₀ = .ok s) (hr : Run BlkStep ⟨s, []⟩ trace c) :
    (∀ mv ∈ trace, Contained s₀.mach.addrSpaces mv) ↔ ∀ mv ∈ trace, ¬Overhang mv := by
  obtain ⟨hw, hq⟩ := initMm_tiled hd hs
  have htiles : ∀ tile ∈ tableTiles s₀.mach.addrSpaces,
      ∃ row ∈ sdramRows s₀.mach.addrSpaces, Tile row tile := fun _ => tableTiles_tile hw
  exact (hr.forall_iff (I := fun c => ∃ q, Tiled (tableTiles s₀.mach.addrSpaces) q c.mm) hq
    (fun _ hstep ⟨_, h⟩ => h.contained_iff htiles hstep.any)
    fun _ hstep ⟨_, h⟩ _ => h.step hstep.any).1

-- Two descriptors, the second of which is half as long as the first.
def shortSpaces : List PhyAddrSpace := [⟨ADDR_SPACE_SDRAM, 0x87800000, 0x87dfffff⟩]

def shortMm : Mm :=
  (initMm (initMach 0x87801000 shortSpaces)).getD (initMach 0x87801000 shortSpaces)

theorem shortMm_eq : initMm (initMach 0x87801000 shortSpaces) = .ok shortMm :=
  Outcome.eq_ok_getD (by decide +kernel) _

-- The second descriptor is given away as a block of 4 MB.
theorem shortMm_alloc : ∃ s', allocMemBlk shortMm BLK4MB_SIZE = .ok (0x87c00000, s') ∧
    shortMm.descs 1 = some ⟨0x87c00000, 0x87dfffff, 0, slabFlag lastSlab⟩ ∧
    s'.descs 1 = some ⟨0x87c00000, 0x87dfffff, 1, slabFlag lastSlab⟩ := by
  let outcome := allocMemBlk shortMm BLK4MB_SIZE
  let r := outcome.getD (NULL, shortMm)
  obtain ⟨hok, hret, hdescs⟩ : outcome.isOk = true ∧ r.1 = 0x87c00000 ∧
      shortMm.descs 1 = some ⟨0x87c00000, 0x87dfffff, 0, slabFlag lastSlab⟩ ∧
      r.2.descs 1 = some ⟨0x87c00000, 0x87dfffff, 1, slabFlag lastSlab⟩ := by
    decide +kernel
  have hcall : allocMemBlk shortMm BLK4MB_SIZE = .ok (0x87c00000, r.2) :=
    (Outcome.eq_ok_getD hok _).trans (congrArg Outcome.ok (Prod.ext hret rfl))
  exact ⟨r.2, hcall, hdescs⟩

theorem shortMm_run : ∃ trace c, Run BlkStep ⟨shortMm, []⟩ trace c ∧
    ¬∀ mv ∈ trace, Contained shortSpaces mv := by
  obtain ⟨s', hcall, hbefore, hafter⟩ := shortMm_alloc
  refine ⟨_, _, .snoc .nil (.alloc hcall), fun hall => ?_⟩
  have hchanged : s'.descs 1 ≠ some ⟨0x87c00000, 0x87dfffff, 0, slabFlag lastSlab⟩ := by
    rw [hafter]
    decide
  obtain ⟨-, hfit, -⟩ := hall _ (List.mem_singleton_self _) _ _ rfl 1 _ hbefore hchanged
  exact absurd hfit (by decide)

theorem blocks_contained_short : ∃ trace c, Run BlkStep ⟨shortMm, []⟩ trace c ∧
    ∃ mv ∈ trace, Overhang mv := by
  obtain ⟨trace, c, hr, hout⟩ := shortMm_run
  refine ⟨trace, c, hr, ?_⟩
  by_contra hnone
  exact hout ((blocks_contained_iff rfl shortMm_eq hr).mpr fun mv hmv hover => hnone ⟨mv, hmv, hover⟩)

-- A 4 MB block from the last 2 MB of a row.
theorem block_sticks_out : ¬∀ (s₀ s : Mm) (c : BlkState) (trace : List (Move BlkState BlkEvent)),
    (s₀.descs = fun _ => none) →
    ((sdramRows s₀.mach.addrSpaces).Pairwise fun x y => x.addrEnd < y.addrStart ∨ y.addrEnd < x.addrStart) →
    (∀ row ∈ sdramRows s₀.mach.addrSpaces, row.addrEnd.toNat + 2 ^ 22 < 2 ^ 32) →
    initMm s₀ = .ok s → Run BlkStep ⟨s, []⟩ trace c →
    ∀ mv ∈ trace, Contained s₀.mach.addrSpaces mv := by
  intro hall
  obtain ⟨trace, c, hr, hout⟩ := shortMm_run
  refine hout (hall _ shortMm c trace rfl (List.pairwise_singleton _ _) (fun row hrow => ?_)
    shortMm_eq hr)
  obtain rfl := List.mem_singleton.mp hrow
  decide

end Lmosem
