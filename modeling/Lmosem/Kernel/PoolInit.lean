import Lmosem.Kernel.Pools
import Lmosem.Hal.Refinement

namespace Lmosem

open Intrusive Region Chain

section Loop

variable {size : SizeT} {stop : Adr} {first room pi fuel n : ℕ}

-- The entry of object `i` when objects lie from `first` on and every entry links to the next.
def linkedEntry (first : ℕ) (size : SizeT) (i : ℕ) : MemPoolMap :=
  ⟨BitVec.ofNat 32 (slot first size.toNat i).1, some (i + 1)⟩

theorem linkedEntry_start_add (first : ℕ) (size : SizeT) (i : ℕ) :
    (linkedEntry first size i).start + size = (linkedEntry first size (i + 1)).start := by
  have hnext : (slot first size.toNat (i + 1)).1 = (slot first size.toNat i).1 + size.toNat := by
    simp only [slot, Nat.add_one_mul, Nat.add_assoc]
  simp only [linkedEntry, hnext, BitVec.ofNat_add, BitVec.ofNat_toNat, BitVec.setWidth_eq]

-- The loop ends behind the last object that fits, unless the end of the next one lies past 2^32:
-- then its last address, cut to 32 bits, passes for one inside.
theorem loop_ends_iff (hpos : 0 < size.toNat) (hstop : stop.toNat + 1 = first + room)
    (hpi : pi ≤ room / size.toNat) :
    (linkedEntry first size pi).start + size - 1 > stop ↔
      pi = room / size.toNat ∧ first + (pi + 1) * size.toNat ≤ 2 ^ 32 := by
  have haddr : (linkedEntry first size pi).start.toNat = (first + pi * size.toNat) % 2 ^ 32 :=
    BitVec.toNat_ofNat _ _
  have hfit : pi < room / size.toNat ↔ (pi + 1) * size.toNat ≤ room := Nat.le_div_iff_mul_le hpos
  have hle : pi * size.toNat ≤ room := (Nat.le_div_iff_mul_le hpos).mp hpi
  have hsize := size.isLt
  have hlast := stop.isLt
  rw [gt_iff_lt, BitVec.lt_def, last_toNat _ _ (by omega), haddr]
  rw [Nat.add_one_mul] at hfit ⊢
  omega

-- The objects that fit are laid one behind the other.
theorem pageMpoolInitLoop_run (hpos : 0 < size.toNat) (hstop : stop.toNat + 1 = first + room)
    (left pi : ℕ) (hpi : pi + left = room / size.toNat) (poolMap : ℕ → MemPoolMap) :
    pageMpoolInitLoop size stop (fuel + left) (linkedEntry first size pi).start pi poolMap =
      pageMpoolInitLoop size stop fuel (linkedEntry first size (room / size.toNat)).start
        (room / size.toNat)
        fun i => if pi ≤ i ∧ i < room / size.toNat then linkedEntry first size i else poolMap i := by
  induction left generalizing pi poolMap with
  | zero =>
      obtain rfl : pi = room / size.toNat := hpi
      have hnone (i : ℕ) : ¬(room / size.toNat ≤ i ∧ i < room / size.toNat) := by omega
      simp only [hnone, if_false, Nat.add_zero]
  | succ left ih =>
      have hgo := (loop_ends_iff hpos hstop (by omega : pi ≤ _)).not.mpr fun h => by omega
      rw [← Nat.add_assoc, pageMpoolInitLoop, if_neg hgo, linkedEntry_start_add,
        ih (pi + 1) (by omega)]
      congr 1
      funext i
      by_cases hi : i = pi
      · subst hi
        rw [if_neg (by omega), if_pos (by omega), Function.update_self]
        rfl
      · rw [Function.update_of_ne hi]
        exact if_congr (by omega) rfl rfl

theorem pageMpoolInitLoop_laid (hpos : 0 < size.toNat) (hstop : stop.toNat + 1 = first + room)
    (hend : first + (room / size.toNat + 1) * size.toNat ≤ 2 ^ 32) (hfuel : room / size.toNat < fuel)
    (poolMap : ℕ → MemPoolMap) :
    pageMpoolInitLoop size stop fuel (linkedEntry first size 0).start 0 poolMap =
      .ok (room / size.toNat,
        fun i => if i < room / size.toNat then linkedEntry first size i else poolMap i) := by
  obtain ⟨left, rfl⟩ := Nat.exists_eq_add_of_lt hfuel
  have hstopped := (loop_ends_iff hpos hstop (Nat.le_refl _)).mpr ⟨rfl, hend⟩
  have hfuel' : room / size.toNat + left + 1 = left + 1 + room / size.toNat := by omega
  rw [hfuel', pageMpoolInitLoop_run hpos hstop _ 0 (Nat.zero_add _), pageMpoolInitLoop,
    if_pos hstopped]
  simp only [Nat.zero_le, true_and]

theorem pageMpoolInitLoop_le {sadr : Adr} {poolMap poolMap' : ℕ → MemPoolMap}
    (h : pageMpoolInitLoop size stop fuel sadr pi poolMap = .ok (n, poolMap')) : pi ≤ n := by
  induction fuel generalizing sadr pi poolMap with
  | zero => cases h
  | succ fuel ih =>
      rw [pageMpoolInitLoop] at h
      split_ifs at h
      · exact (Outcome.pair_inj h).1.le
      · have hle := ih h
        omega

-- Past 2^32 the loop goes on to objects that do not fit.
theorem pageMpoolInitLoop_over (hpos : 0 < size.toNat) (hstop : stop.toNat + 1 = first + room)
    (hover : 2 ^ 32 < first + (room / size.toNat + 1) * size.toNat) (hpi : pi ≤ room / size.toNat)
    {poolMap poolMap' : ℕ → MemPoolMap} (h : pageMpoolInitLoop size stop fuel
      (linkedEntry first size pi).start pi poolMap = .ok (n, poolMap')) :
    room / size.toNat < n := by
  induction fuel generalizing pi poolMap with
  | zero => cases h
  | succ fuel ih =>
      have hgo : ¬(linkedEntry first size pi).start + size - 1 > stop := by
        rw [loop_ends_iff hpos hstop hpi]
        rintro ⟨rfl, hle⟩
        omega
      rw [pageMpoolInitLoop, if_neg hgo, linkedEntry_start_add] at h
      by_cases hlast : pi < room / size.toNat
      · exact ih hlast h
      · have hle := pageMpoolInitLoop_le h
        omega

theorem pageMpoolInitTail_counters (h : MemPoolHead) (n : ℕ) (poolMap : ℕ → MemPoolMap) :
    pageMpoolInitTail h n poolMap =
      { h with
        nextMap := if 0 < n then some 0 else h.nextMap
        objCount := n
        poolMapCount := n
        poolMap := (pageMpoolInitTail h n poolMap).poolMap } := by
  unfold pageMpoolInitTail
  split_ifs <;> rfl

-- Behind the loop the last entry is cut off, or the first one cleared when none fits.
theorem pageMpoolInitTail_poolMap (h : MemPoolHead) (first : ℕ) (size : SizeT) (n : ℕ)
    (old : ℕ → MemPoolMap) (i : ℕ) :
    (pageMpoolInitTail h n fun i => if i < n then linkedEntry first size i else old i).poolMap i =
      if i < n then
        ⟨(linkedEntry first size i).start, if i + 1 < n then some (i + 1) else none⟩
      else if i = n ∧ n = 0 then ⟨NULL, none⟩
      else old i := by
  unfold pageMpoolInitTail
  by_cases hn : n > 0
  · rw [if_pos hn]
    dsimp only
    by_cases hi : i = n - 1
    · subst hi
      rw [Function.update_self, if_pos (by omega), if_pos (by omega), if_neg (by omega)]
    · rw [Function.update_of_ne hi]
      by_cases hlt : i < n
      · rw [if_pos hlt, if_pos hlt, if_pos (by omega)]
        rfl
      · rw [if_neg hlt, if_neg hlt, if_neg (by omega)]
  · obtain rfl : n = 0 := by omega
    rw [if_neg (Nat.lt_irrefl 0)]
    by_cases hi : i = 0
    · subst hi
      simp
    · simp [hi]

end Loop

section Init

variable {k : Kmem} {start stop : Adr} {size : SizeT} {cls : Slab}

-- The last address of a block, computed on machine words.
theorem blk_stop (hwrap : start.toNat + blkSize cls ≤ 2 ^ 32) :
    (start + slabSize cls - 1).toNat + 1 = start.toNat + blkSize cls := by
  have hsize := slabSize_toNat cls
  have hpos := blkSize_pos cls
  rw [last_toNat _ _ (by omega), hsize]
  omega

-- The kernel's state once the loop of `page_mpool_init` has come to `pi` entries.
def Kmem.filePool (k : Kmem) (start stop : Adr) (size : SizeT) (pi : ℕ) (poolMap : ℕ → MemPoolMap) :
    Kmem :=
  { k with
    heads := Function.update k.heads start (pageMpoolInitTail
      { memPoolHeadInit (k.heads start) with
        type := MPLHTY_PAGE
        start := start
        stop := stop
        allocSize := size } pi poolMap)
    poolLinks := listAddTail (INIT_LIST_HEAD k.poolLinks (.entry start)) (.entry start) (.head ())
    pagePoolCount := k.pagePoolCount + 1 }

@[simp] theorem filePool_head (k : Kmem) (start stop : Adr) (size : SizeT) (pi : ℕ)
    (poolMap : ℕ → MemPoolMap) :
    (k.filePool start stop size pi poolMap).heads start = pageMpoolInitTail
      { memPoolHeadInit (k.heads start) with
        type := MPLHTY_PAGE
        start := start
        stop := stop
        allocSize := size } pi poolMap :=
  Function.update_self start _ k.heads

-- On a block of its own `page_mpool_init` does not refuse, and all depends on the loop.
theorem pageMpoolInit_eq_loop (hnull : start ≠ NULL) (hmask : start &&& 0xfff = 0)
    (hwrap : start.toNat + blkSize cls ≤ 2 ^ 32) :
    pageMpoolInit k start size start (start + slabSize cls - 1) =
      pageMpoolInitLoop size (start + slabSize cls - 1) WALK_LIMIT
        (linkedEntry (start.toNat + 2 ^ 12) size 0).start 0 (k.heads start).poolMap >>= fun r =>
          .ok (start, k.filePool start (start + slabSize cls - 1) size r.1 r.2) := by
  have hstop := blk_stop hwrap
  have hsz := blkSize_le cls
  have hcheck : ¬(start &&& 0xfff ≠ 0 ∨
      start + slabSize cls - 1 - start < PAGE_SIZE * 2 - 1) := by
    rintro (hm | hlt)
    · exact hm hmask
    · have hle : start ≤ start + slabSize cls - 1 := by
        rw [BitVec.le_def]
        omega
      rw [BitVec.lt_def, BitVec.toNat_sub_of_le hle] at hlt
      have htwo : (PAGE_SIZE * 2 - 1 : SizeT).toNat = 2 ^ 13 - 1 := by decide
      omega
  have hfirst : (linkedEntry (start.toNat + 2 ^ 12) size 0).start = start + PAGE_SIZE := by
    simp only [linkedEntry, slot, Nat.zero_mul, Nat.add_zero, BitVec.ofNat_add, BitVec.ofNat_toNat,
      BitVec.setWidth_eq]
    rfl
  rw [pageMpoolInit, if_neg hcheck, Kmem.head, if_neg hnull, Outcome.ok_bind, hfirst]
  rfl

end Init

namespace Pool

-- The entry of page `i` in a pool where every entry links to the following one.
def freshEntry (P : Pool) (i : ℕ) : MemPoolMap := ⟨BitVec.ofNat 32 (P.page i).1, some (i + 1)⟩

end Pool

section Fresh

variable {P : Pool} {k : Kmem} {initp : Adr} {size : SizeT}

theorem linkedEntry_pool (hbase : initp.toNat = P.base) (hsize : size.toNat = P.size) :
    linkedEntry (initp.toNat + 2 ^ 12) size = P.freshEntry := by
  funext i
  rw [linkedEntry, hbase, hsize]
  rfl

theorem block_stop (P : Pool) (hbase : initp.toNat = P.base) :
    (initp + slabSize P.cls - 1).toNat = P.base + blkSize P.cls - 1 := by
  have hroom := P.room
  have hstop := blk_stop (by omega : initp.toNat + blkSize P.cls ≤ 2 ^ 32)
  omega

-- The head that `page_mpool_init` leaves behind, in front of what the block held before.
def freshHead (P : Pool) (old : MemPoolHead) (initp : Adr) (size : SizeT) : MemPoolHead where
  type := MPLHTY_PAGE
  start := initp
  stop := initp + slabSize P.cls - 1
  nextMap := if 0 < P.capacity then some 0 else none
  objCount := P.capacity
  allocSize := size
  afindx := 0
  poolMapCount := P.capacity
  poolMap i :=
    if i < P.capacity then
      ⟨BitVec.ofNat 32 (P.page i).1, if i + 1 < P.capacity then some (i + 1) else none⟩
    else if i = P.capacity ∧ P.capacity = 0 then ⟨NULL, none⟩
    else old.poolMap i

theorem freshHead_rep (old : MemPoolHead) (hbase : initp.toNat = P.base)
    (hsize : size.toNat = P.size) (hfree : P.free = List.range P.capacity) :
    PoolRep (freshHead P old initp size) P := by
  have hroom := P.room
  have hsz := blkSize_le P.cls
  have hpos := P.base_pos
  refine ⟨rfl, hbase, ?_, hsize, rfl, rfl, fun i hi => ?_, ?_, ?_⟩
  · exact block_stop P hbase
  · have haddr := Pool.page_address_lt hi
    simp only [freshHead, if_pos hi, BitVec.toNat_ofNat]
    exact Nat.mod_eq_of_lt (by omega)
  · rw [hfree]
    refine freeChain_range fun i hi => ?_
    simp only [freshHead, if_pos hi]
  · simp [freshHead, hfree]

-- The loop lays out the pages of a pool and stops behind the last.
theorem pageMpoolInitLoop_eq (hbase : initp.toNat = P.base) (hsize : size.toNat = P.size)
    (poolMap : ℕ → MemPoolMap) :
    pageMpoolInitLoop size (initp + slabSize P.cls - 1) WALK_LIMIT
        (linkedEntry (initp.toNat + 2 ^ 12) size 0).start 0 poolMap =
      .ok (P.capacity, fun i => if i < P.capacity then P.freshEntry i else poolMap i) := by
  have hroom := P.room
  have hsz := blkSize_le P.cls
  have hlt := P.size_lt
  have hstop : (initp + slabSize P.cls - 1).toNat + 1 =
      initp.toNat + 2 ^ 12 + (blkSize P.cls - 2 ^ 12) := by
    rw [block_stop P hbase]
    omega
  have hcap : (blkSize P.cls - 2 ^ 12) / size.toNat = P.capacity := by rw [hsize, Pool.capacity]
  have hfit : P.capacity * P.size ≤ blkSize P.cls - 2 ^ 12 := Nat.div_mul_le_self _ _
  have hfew : P.capacity ≤ blkSize P.cls - 2 ^ 12 := Nat.div_le_self _ _
  have hend : initp.toNat + 2 ^ 12 + ((blkSize P.cls - 2 ^ 12) / size.toNat + 1) * size.toNat ≤
      2 ^ 32 := by
    rw [hcap, hsize, Nat.add_one_mul]
    omega
  rw [pageMpoolInitLoop_laid (hsize ▸ P.size_pos) hstop hend (by rw [hcap, WALK_LIMIT]; omega), hcap,
    linkedEntry_pool hbase hsize]

theorem pageMpoolInitTail_eq (old : MemPoolHead) (hbase : initp.toNat = P.base)
    (hsize : size.toNat = P.size) :
    pageMpoolInitTail
      { memPoolHeadInit old with
        type := MPLHTY_PAGE
        start := initp
        stop := initp + slabSize P.cls - 1
        allocSize := size } P.capacity
      (fun i => if i < P.capacity then P.freshEntry i else old.poolMap i) =
      freshHead P old initp size := by
  rw [pageMpoolInitTail_counters, ← linkedEntry_pool hbase hsize,
    funext (pageMpoolInitTail_poolMap _ _ _ _ _), linkedEntry_pool hbase hsize]
  rfl

theorem pageMpoolInit_eq (hbase : initp.toNat = P.base) (hsize : size.toNat = P.size) :
    pageMpoolInit k initp size initp (initp + slabSize P.cls - 1) =
      .ok (initp, { k with
        heads := Function.update k.heads initp (freshHead P (k.heads initp) initp size)
        poolLinks := listAddTail (INIT_LIST_HEAD k.poolLinks (.entry initp)) (.entry initp) (.head ())
        pagePoolCount := k.pagePoolCount + 1 }) := by
  have hroom := P.room
  have hnull : initp ≠ NULL := ne_null_iff.mpr (hbase ▸ P.base_pos)
  have hmask : initp &&& 0xfff = 0 := by
    apply BitVec.eq_of_toNat_eq
    rw [BitVec.toNat_and, hbase, show (0xfff : Adr).toNat = 2 ^ 12 - 1 by decide,
      Nat.and_two_pow_sub_one_eq_mod]
    exact Nat.mod_eq_zero_of_dvd P.aligned
  rw [pageMpoolInit_eq_loop hnull hmask (by omega), pageMpoolInitLoop_eq hbase hsize, Outcome.ok_bind,
    Kmem.filePool, pageMpoolInitTail_eq _ hbase hsize]

end Fresh

theorem newPageMpool_eq (k : Kmem) (size : SizeT) :
    newPageMpool k size = match poolClass size.toNat with
      | none => .ok (NULL, k)
      | some c => NEW_PAGE_MEM_POOL k size (slabSize c) := by
  simp only [newPageMpool, poolClass, BitVec.toNat_ushiftRight, Nat.shiftRight_eq_div_pow]
  split_ifs <;> first | rfl | omega

end Lmosem
