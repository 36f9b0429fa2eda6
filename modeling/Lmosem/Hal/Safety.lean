import Lmosem.Hal.Runs
import Mathlib.Data.Set.Function

namespace Lmosem

open Intrusive SlabQueue Region Shelves Transition

-- The block lies in the memory of the descriptor.
def Inside (d : MemDesc) (blk : Adr × SizeT) : Prop :=
  d.startAddr.toNat ≤ blk.1.toNat ∧ blk.1.toNat + blk.2.toNat ≤ d.endAddr.toNat + 1

-- The block that bit `b` stands for while the descriptor is cut into blocks of `size`.
def blkAt (size : SizeT) (d : MemDesc) (b : ℕ) : Adr × SizeT :=
  (d.startAddr + size * BitVec.ofNat 32 b, size)

section Lookup

variable {m : MemMap} {t : Shelves} {s : Mm} {live : List (Adr × SizeT)} {k : ℕ} {d : MemDesc}

-- Every descriptor of the array stands in a queue and agrees with it.
theorem Rep.desc_of_lt (h : Rep m s t) (hi : t.Inv m) (hk : k < m.count) :
    ∃ p d, k ∈ t.queue p ∧ s.descs k = some d ∧ DescRep m t p k d := by
  obtain ⟨p, hp⟩ := (hi.cover k).mp hk
  obtain ⟨d, hd, hrep⟩ := h.descs p k hp
  exact ⟨p, d, hp, hd, hrep⟩

theorem Rep.descRep (h : Rep m s t) (hi : t.Inv m) (hk : k < m.count) (hd : s.descs k = some d) :
    ∃ p, k ∈ t.queue p ∧ DescRep m t p k d := by
  obtain ⟨p, d', hp, hd', hrep⟩ := h.desc_of_lt hi hk
  obtain rfl : d = d' := Option.some.inj (hd.symm.trans hd')
  exact ⟨p, hp, hrep⟩

theorem inside_iff {p : SlabHead} (hd : DescRep m t p k d) (blk : Adr × SizeT) :
    Inside d blk ↔ Within (range blk) (m.base k, 2 ^ 22) := by
  simp only [Inside, Within, range, hd.start, hd.stop]
  omega

theorem range_blkAt {p : SlabHead} {i : Slab} {b : ℕ} (hi : t.Inv m) (hk : k ∈ t.queue p)
    (hd : DescRep m t p k d) (hb : b < blkBits i) : range (blkAt (slabSize i) d b) = block m i k b :=
  Prod.ext (block_address hi hk hd hb) (slabSize_toNat i)

theorem BlkInv.exists_block (h : BlkInv m t s live) {blk : Adr × SizeT} (hblk : blk ∈ live) :
    ∃ i k b, t.OnShelf i k ∧ b ∈ t.used k ∧ range blk = block m i k b :=
  ((h.held blk).mp hblk).1

theorem BlkInv.live_apart (h : BlkInv m t s live) :
    live.Pairwise fun x y => Apart (range x) (range y) := by
  refine h.distinct.imp_of_mem fun hx hy hne => ?_
  exact Marked.apart h.inv ((h.held _).mp hx).1 ((h.held _).mp hy).1
    fun he => hne (range_injective he)

-- A live block lies in one piece of memory, at a multiple of its size.
theorem BlkInv.live_within (h : BlkInv m t s live) {blk : Adr × SizeT} (hblk : blk ∈ live) :
    ∃ i, ∃ k < m.count, t.OnShelf i k ∧ blk.2 = slabSize i ∧
      Within (range blk) (m.base k, 2 ^ 22) ∧ blk.2.toNat ∣ blk.1.toNat := by
  obtain ⟨i, k, b, hk, hb, hrange⟩ := h.exists_block hblk
  have hlt := h.inv.onShelf_lt hk
  have hbits := Finset.mem_range.mp ((h.inv.split i k hk).2 hb)
  have hsize : blk.2.toNat = blkSize i := congrArg Prod.snd hrange
  have haddr : blk.1.toNat = m.base k + b * blkSize i := congrArg Prod.fst hrange
  refine ⟨i, k, hlt, hk, BitVec.eq_of_toNat_eq (hsize.trans (slabSize_toNat i).symm), ?_, ?_⟩
  · rw [hrange]
    exact block_within hbits k
  · rw [hsize, haddr]
    have hpiece : blkSize i ∣ 2 ^ 22 := ⟨blkBits i, (blkBits_mul_blkSize i).symm.trans (Nat.mul_comm _ _)⟩
    exact Nat.dvd_add (hpiece.trans (m.aligned k hlt)) ⟨b, Nat.mul_comm _ _⟩

end Lookup

-- Live blocks never overlap, each lies in one descriptor at a multiple of its
-- size, and none reaches into the block that `init_kernel_mem` takes.
theorem live_blocks_safe {s : Mm} {c : BlkState} (hb : Booted s)
    (hr : Reachable BlkStep ⟨s, []⟩ c) :
    c.live.Pairwise (fun x y => Apart (range x) (range y)) ∧
      (∀ blk ∈ c.live, (∃ i, blk.2 = slabSize i) ∧ blk.2.toNat ∣ blk.1.toNat ∧
        ∃ k d, k < c.mm.mach.memDescCount ∧ c.mm.descs k = some d ∧ Inside d blk) ∧
      ∃ d, c.mm.descs 0 = some d ∧
        ∀ blk ∈ c.live, Apart (range blk) (d.startAddr.toNat, BLK128KB_SIZE.toNat) := by
  obtain ⟨m, t, h⟩ := hb.reachable hr
  refine ⟨h.live_apart, fun blk hblk => ?_, ?_⟩
  · obtain ⟨i, k, hk, -, hsize, hwithin, hdvd⟩ := h.live_within hblk
    obtain ⟨p, d, -, hd, hrep⟩ := h.rep.desc_of_lt h.inv hk
    exact ⟨⟨i, hsize⟩, hdvd, k, d, h.rep.count ▸ hk, hd, (inside_iff hrep blk).mpr hwithin⟩
  · obtain ⟨p, d, -, hd, hrep⟩ := h.rep.desc_of_lt h.inv m.count_pos
    refine ⟨d, hd, fun blk hblk => ?_⟩
    have hmark := (h.held blk).mp hblk
    have hfirst : block m 0 0 0 = (d.startAddr.toNat, BLK128KB_SIZE.toNat) := by
      simp only [block, slot, Nat.zero_mul, Nat.add_zero, hrep.start]
      rfl
    exact hfirst ▸ Marked.apart h.inv hmark.1 h.reserved_marked hmark.2

theorem live_blocks_safe_shipped : ∃ c, Reachable BlkStep ⟨bootMm, []⟩ c ∧ c.live.length = 2 ∧
    c.live.Pairwise fun x y => Apart (range x) (range y) := by
  obtain ⟨trace, c, hrun, hlen⟩ := exists_run [.alloc BLK256KB_SIZE, .alloc BLK128KB_SIZE]
    ⟨bootMm, []⟩ (fun _ c => c.live.length = 2) (by decide +kernel)
  have hr : Reachable BlkStep ⟨bootMm, []⟩ c := ⟨trace, hrun⟩
  exact ⟨c, hr, by simpa using hlen, (live_blocks_safe bootMm_booted hr).1⟩

-- The block that `init_kernel_mem` takes from its descriptor.
def reservedBlk (d : MemDesc) : Adr × SizeT := (d.startAddr, BLK128KB_SIZE)

-- Descriptor `k` is cut into blocks of class `i`. Its set bits are its live blocks, and in
-- descriptor 0 the reserved one beside them, which is no live block.
structure SplitInto (s : Mm) (live : List (Adr × SizeT)) (i : Slab) (k : ℕ) (d : MemDesc) : Prop where
  acsz : d.flag &&& 0xf0 = slabAcsz i
  sz : d.flag &&& 0xf = MAPF_SZ_4MB
  masked : d.mapCount &&& ~~~slabMask i = 0
  used : d.mapCount ≠ 0
  blocks : Set.BijOn (blkAt (s.slabs i).size d) (Bits.ones d.mapCount)
    {blk | blk ∈ live ∧ Inside d blk ∨ k = 0 ∧ blk = reservedBlk d}
  reserved : k = 0 → reservedBlk d ∉ live

-- The 18 rings hold every descriptor once, on the list its blocks call for.
-- An exempt descriptor is on no empty list.
structure Sorted (exempt : ℕ → Prop) (c : BlkState) (q : SlabHead → List ℕ) : Prop where
  rings : Rings c.mm.links q
  cover : ∀ k, k < c.mm.mach.memDescCount ↔ ∃ p, k ∈ q p
  split : ∀ i k, k ∈ q (i, fullList) ∨ k ∈ q (i, partialList) →
    ∃ d, c.mm.descs k = some d ∧ SplitInto c.mm c.live i k d
  fresh : ∀ k ∈ q (lastSlab, emptyList),
    ∃ d, c.mm.descs k = some d ∧ d.mapCount = 0 ∧ d.flag &&& 0xf0 = MAPF_ACSZ_4MB
  free : ∀ k d, k < c.mm.mach.memDescCount → c.mm.descs k = some d →
    (k ∈ q (lastSlab, emptyList) ↔ ¬exempt k ∧ ∀ blk ∈ c.live, ¬Inside d blk)
  others : ∀ i, i ≠ lastSlab → q (i, emptyList) = []

section Sorted

variable {m : MemMap} {t : Shelves} {s : Mm} {live : List (Adr × SizeT)} {i : Slab} {k : ℕ}
  {d : MemDesc} {p : SlabHead}

-- A live block inside a piece is one of the blocks the piece is cut into.
theorem BlkInv.live_inside (h : BlkInv m t s live) (hk : t.OnShelf i k) {blk : Adr × SizeT}
    (hblk : blk ∈ live) (hin : Within (range blk) (m.base k, 2 ^ 22)) :
    ∃ b ∈ t.used k, range blk = block m i k b := by
  obtain ⟨j, l, b, hl, hb, hrange⟩ := h.exists_block hblk
  have hlt := Finset.mem_range.mp ((h.inv.split j l hl).2 hb)
  have hkl : l = k := by
    by_contra hne
    have ha := (pieces_apart (h.inv.onShelf_lt hl) (h.inv.onShelf_lt hk) hne).mono
      (block_within hlt l) (hrange ▸ hin)
    exact not_apart_self (blkSize_pos j) ha
  subst hkl
  obtain rfl := h.inv.onShelf_unique hl hk
  exact ⟨b, hb, hrange⟩

theorem BlkInv.blocks_bijOn (h : BlkInv m t s live) (hk : t.OnShelf i k) (hp : k ∈ t.queue p)
    (hd : DescRep m t p k d) :
    Set.BijOn (blkAt (slabSize i) d) {b | b ∈ t.used k ∧ ¬(k = 0 ∧ b = 0)}
      {blk | blk ∈ live ∧ Inside d blk} := by
  have hlt {b : ℕ} (hb : b ∈ t.used k) : b < blkBits i :=
    Finset.mem_range.mp ((h.inv.split i k hk).2 hb)
  refine ⟨?_, ?_, ?_⟩
  · rintro b ⟨hb, hne⟩
    have hrange := range_blkAt h.inv hp hd (hlt hb)
    refine ⟨(h.held _).mpr ⟨⟨i, k, b, hk, hb, hrange⟩, fun he => hne ?_⟩, ?_⟩
    · exact h.inv.block_injective hk h.reserved.1 hb h.reserved.2 (hrange.symm.trans he)
    · exact (inside_iff hd _).mpr (hrange ▸ block_within (hlt hb) k)
  · rintro b ⟨hb, -⟩ b' ⟨hb', -⟩ he
    have hr := congrArg range he
    rw [range_blkAt h.inv hp hd (hlt hb), range_blkAt h.inv hp hd (hlt hb')] at hr
    exact (h.inv.block_injective hk hk hb hb' hr).2
  · rintro blk ⟨hblk, hin⟩
    obtain ⟨b, hb, hrange⟩ := h.live_inside hk hblk ((inside_iff hd blk).mp hin)
    refine ⟨b, ⟨hb, ?_⟩, range_injective ((range_blkAt h.inv hp hd (hlt hb)).trans hrange.symm)⟩
    rintro ⟨rfl, rfl⟩
    obtain rfl := h.inv.onShelf_unique hk h.reserved.1
    exact ((h.held blk).mp hblk).2 hrange

-- The reserved block stands for a bit of descriptor 0 and is not handed out.
theorem BlkInv.reserved_blk (h : BlkInv m t s live) (hp : 0 ∈ t.queue p) (hd : DescRep m t p 0 d) :
    blkAt (slabSize 0) d 0 = reservedBlk d ∧ reservedBlk d ∉ live := by
  have hfirst : blkAt (slabSize 0) d 0 = reservedBlk d :=
    Prod.ext (by simp [blkAt, reservedBlk]) rfl
  have hrange := range_blkAt h.inv hp hd
    (Finset.mem_range.mp ((h.inv.split 0 0 h.reserved.1).2 h.reserved.2))
  exact ⟨hfirst, fun hlive => ((h.held _).mp hlive).2 (hfirst ▸ hrange)⟩

-- Every set bit is a live block or the reserved one.
theorem BlkInv.used_bijOn (h : BlkInv m t s live) (hk : t.OnShelf i k) (hp : k ∈ t.queue p)
    (hd : DescRep m t p k d) :
    Set.BijOn (blkAt (slabSize i) d) (t.used k)
      {blk | blk ∈ live ∧ Inside d blk ∨ k = 0 ∧ blk = reservedBlk d} := by
  have hblocks := h.blocks_bijOn hk hp hd
  by_cases hk0 : k = 0
  · subst hk0
    obtain rfl := h.inv.onShelf_unique hk h.reserved.1
    obtain ⟨hfirst, hnot⟩ := h.reserved_blk hp hd
    have hall := hblocks.insert (a := 0) fun hm => hnot (hfirst ▸ hm.1)
    have hbits : insert 0 {b | b ∈ t.used 0 ∧ ¬((0 : ℕ) = 0 ∧ b = 0)} = (t.used 0 : Set ℕ) := by
      ext b
      by_cases hb : b = 0
      · simp [hb, h.reserved.2]
      · simp [hb]
    rw [hbits, hfirst] at hall
    convert hall using 1
    ext blk
    simp [or_comm]
  · convert hblocks using 1
    · ext b
      simp [hk0]
    · ext blk
      simp [hk0]

theorem slabFlag_fields (i : Slab) :
    slabFlag i &&& 0xf0 = slabAcsz i ∧ slabFlag i &&& 0xf = MAPF_SZ_4MB := by
  revert i
  decide

theorem BlkInv.splitInto (h : BlkInv m t s live) (hk : t.OnShelf i k) :
    ∃ d, s.descs k = some d ∧ SplitInto s live i k d := by
  obtain ⟨q, hq⟩ : ∃ q, k ∈ t.queue (i, q) := hk.elim (fun hm => ⟨_, hm⟩) (fun hm => ⟨_, hm⟩)
  obtain ⟨d, hd, hrep⟩ := h.rep.descs _ k hq
  obtain ⟨hne, hsub⟩ := h.inv.split i k hk
  refine ⟨d, hd, ?_, ?_, ?_, ?_, ?_, ?_⟩
  · rw [hrep.flag]
    exact (slabFlag_fields i).1
  · rw [hrep.flag]
    exact (slabFlag_fields i).2
  · rw [show (0 : U32) = 0#32 from rfl, Bits.and_not_eq_zero, ones_slabMask, hrep.bits]
    exact hsub
  · exact hrep.mapCount_eq_zero.not.mpr hne.ne_empty
  · rw [h.rep.size, hrep.bits]
    exact h.used_bijOn hk hq hrep
  · rintro rfl
    exact (h.reserved_blk hq hrep).2

-- Past the first, a descriptor without a live block is wholly free.
theorem BlkInv.empty_iff (h : BlkInv m t s live) (hk : k < m.count) (hp : k ∈ t.queue p)
    (hd : DescRep m t p k d) :
    k ∈ t.queue (lastSlab, emptyList) ↔ ¬k = 0 ∧ ∀ blk ∈ live, ¬Inside d blk := by
  constructor
  · intro he
    refine ⟨?_, fun blk hblk hin => ?_⟩
    · rintro rfl
      exact h.inv.not_onShelf_of_empty he h.reserved.1
    · obtain ⟨j, l, b, hl, hb, hrange⟩ := h.exists_block hblk
      have hlt := Finset.mem_range.mp ((h.inv.split j l hl).2 hb)
      have hkl : l ≠ k := by
        rintro rfl
        exact h.inv.not_onShelf_of_empty he hl
      have ha := (pieces_apart (h.inv.onShelf_lt hl) hk hkl).mono (block_within hlt l)
        (hrange ▸ (inside_iff hd blk).mp hin)
      exact not_apart_self (blkSize_pos j) ha
  · rintro ⟨hk0, hnone⟩
    rcases h.inv.place hk with ⟨i, hs⟩ | he
    · obtain ⟨b, hb⟩ := (h.inv.split i k hs).1
      have hm := (h.blocks_bijOn hs hp hd).mapsTo ⟨hb, fun hz => hk0 hz.1⟩
      exact absurd hm.2 (hnone _ hm.1)
    · exact he

theorem BlkInv.sorted {c : BlkState} (h : BlkInv m t c.mm c.live) : Sorted (· = 0) c t.queue := by
  refine ⟨h.rep.rings, h.rep.count ▸ h.inv.cover, fun i k => h.splitInto, ?_, ?_, h.inv.noEmpty⟩
  · intro k hk
    obtain ⟨d, hd, hrep⟩ := h.rep.descs _ k hk
    refine ⟨d, hd, ?_, ?_⟩
    · exact hrep.mapCount_eq_zero.mpr (h.inv.unused k hk)
    · rw [hrep.flag]
      rfl
  · intro k d hk hd
    obtain ⟨p, hp, hrep⟩ := h.rep.descRep h.inv (h.rep.count ▸ hk) hd
    exact h.empty_iff (h.rep.count ▸ hk) hp hrep

end Sorted

theorem descriptors_sorted {s : Mm} {c : BlkState} (hb : Booted s)
    (hr : Reachable BlkStep ⟨s, []⟩ c) : ∃ q, Sorted (· = 0) c q := by
  obtain ⟨m, t, h⟩ := hb.reachable hr
  exact ⟨t.queue, h.sorted⟩

-- Two sizes, and a block that has been released.
theorem descriptors_sorted_shipped : ∃ c q, Reachable BlkStep ⟨bootMm, []⟩ c ∧
    c.live = [(0x80400000, BLK1MB_SIZE), (0x80040000, BLK128KB_SIZE)] ∧ Sorted (· = 0) c q := by
  obtain ⟨trace, c, hrun, hlive⟩ := exists_run [.alloc BLK128KB_SIZE, .alloc BLK128KB_SIZE,
    .alloc BLK1MB_SIZE, .free 0x80020000 BLK128KB_SIZE] ⟨bootMm, []⟩
    (fun _ c => c.live = [(0x80400000, BLK1MB_SIZE), (0x80040000, BLK128KB_SIZE)])
    (by decide +kernel)
  have hr : Reachable BlkStep ⟨bootMm, []⟩ c := ⟨trace, hrun⟩
  obtain ⟨q, hq⟩ := descriptors_sorted bootMm_booted hr
  exact ⟨c, q, hr, of_decide_eq_true hlive, hq⟩

-- Right after `init_mm` descriptor 0 holds no live block, yet it is on no empty list.
theorem first_descriptor_not_empty : ¬∀ s c, Booted s → Reachable BlkStep ⟨s, []⟩ c →
    ∃ q, Sorted (fun _ => False) c q := by
  intro h
  obtain ⟨q, hq⟩ := h bootMm ⟨bootMm, []⟩ bootMm_booted ⟨[], .nil⟩
  obtain ⟨m, hm⟩ := bootMm_booted.start
  have hc : 0 < bootMm.mach.memDescCount := hm.rep.count ▸ m.count_pos
  obtain ⟨p, d, -, hd, -⟩ := hm.rep.desc_of_lt hm.inv m.count_pos
  have hempty := (hq.free 0 d hc hd).mpr ⟨fun h => h, fun _ h => absurd h List.not_mem_nil⟩
  rw [hq.rings.queue_unique hm.rep.rings] at hempty
  exact hm.inv.not_onShelf_of_empty hempty hm.reserved.1

end Lmosem
