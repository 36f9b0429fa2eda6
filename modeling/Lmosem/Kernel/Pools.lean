import Lmosem.Kernel.MemPool
import Lmosem.Hal.Mach
import Lmosem.Hal.Shelves
import Lmosem.Lib.Chain

-- A page pool as what it is for: pages of one size cut from a block behind its
-- first page, and which of them are free.
namespace Lmosem

open Region Chain

theorem PAGE_SIZE_toNat : (PAGE_SIZE : SizeT).toNat = 2 ^ 12 := rfl

-- The class of the block that `new_page_mpool` takes for pages of this size.
def poolClass (size : ℕ) : Option Slab :=
  let pageNr := size / 2 ^ 12
  if pageNr < 1 then none
  else if pageNr ≤ 2 then some 0
  else if pageNr ≤ 16 then some 1
  else if pageNr ≤ 31 then some 0
  else none

theorem poolClass_some {size : ℕ} {c : Slab} (h : poolClass size = some c) :
    c.val ≤ 1 ∧ 2 ^ 12 ≤ size ∧ size < 2 ^ 17 := by
  simp only [poolClass] at h
  split_ifs at h <;> (obtain rfl := Option.some.inj h; refine ⟨by decide, by omega, by omega⟩)

theorem poolClass_pos {size : ℕ} {c : Slab} (h : poolClass size = some c) : 0 < size :=
  Nat.lt_of_lt_of_le (by decide) (poolClass_some h).2.1

theorem poolClass_served {size : ℕ} (hlo : 2 ^ 12 ≤ size) (hhi : size < 2 ^ 17) :
    ∃ cls, poolClass size = some cls := by
  have hpages : 1 ≤ size / 2 ^ 12 ∧ size / 2 ^ 12 ≤ 31 := by omega
  unfold poolClass
  dsimp only
  split_ifs
  · omega
  · exact ⟨0, rfl⟩
  · exact ⟨1, rfl⟩
  · exact ⟨0, rfl⟩
  · omega

-- So many pages fit behind the first one that their entries fit into it.
theorem poolClass_count {size : ℕ} {c : Slab} (h : poolClass size = some c) :
    (blkSize c - 2 ^ 12) / size ≤ 2 ^ 6 := by
  obtain ⟨hsmall, hge, -⟩ := poolClass_some h
  have hcls : blkSize c ≤ 2 ^ 18 := Nat.pow_le_pow_right (by decide) (by omega)
  calc (blkSize c - 2 ^ 12) / size ≤ (blkSize c - 2 ^ 12) / 2 ^ 12 :=
        Nat.div_le_div_left hge (by decide)
    _ ≤ 2 ^ 6 := by omega

structure Pool where
  base : ℕ
  cls : Slab
  size : ℕ
  free : List ℕ
  base_pos : 0 < base
  aligned : 2 ^ 12 ∣ base
  room : base + blkSize cls + 2 ^ 22 ≤ 2 ^ 32
  sized : poolClass size = some cls

namespace Pool

theorem small (P : Pool) : P.cls.val ≤ 1 := (poolClass_some P.sized).1

theorem size_lt (P : Pool) : P.size < 2 ^ 17 := (poolClass_some P.sized).2.2

def block (P : Pool) : ℕ × ℕ := (P.base, blkSize P.cls)

-- The page that holds `mem_pool_head` and `pool_map`.
def headPage (P : Pool) : ℕ × ℕ := (P.base, 2 ^ 12)

def pageArea (P : Pool) : ℕ × ℕ := (P.base + 2 ^ 12, blkSize P.cls - 2 ^ 12)

def capacity (P : Pool) : ℕ := (blkSize P.cls - 2 ^ 12) / P.size

def page (P : Pool) (i : ℕ) : ℕ × ℕ := slot (P.base + 2 ^ 12) P.size i

def take (P : Pool) (rest : List ℕ) : Pool := { P with free := rest }

def give (P : Pool) (i : ℕ) : Pool := { P with free := i :: P.free }

-- Page `i` is handed out.
def InUse (P : Pool) (i : ℕ) : Prop := i < P.capacity ∧ i ∉ P.free

variable {P : Pool} {i j : ℕ}

theorem size_pos (P : Pool) : 0 < P.size := poolClass_pos P.sized

theorem page_within (hi : i < P.capacity) : Within (P.page i) P.pageArea := by
  have hw := slot_within (P.base + 2 ^ 12) P.size hi
  have hle : P.capacity * P.size ≤ blkSize P.cls - 2 ^ 12 := Nat.div_mul_le_self _ _
  simp only [Within, page, pageArea, slot] at hw ⊢
  omega

theorem page_apart (P : Pool) (h : i ≠ j) : Apart (P.page i) (P.page j) := slot_apart _ _ h

theorem page_injective (h : P.page i = P.page j) : i = j := slot_injective _ P.size_pos h

theorem pageArea_within (P : Pool) : Within P.pageArea P.block := by
  have hsz := blkSize_le P.cls
  simp only [Within, pageArea, block]
  omega

theorem headPage_within (P : Pool) : Within P.headPage P.block := by
  have hsz := blkSize_le P.cls
  simp only [Within, headPage, block]
  omega

theorem headPage_apart (P : Pool) : Apart P.headPage P.pageArea := Or.inl (Nat.le_refl _)

theorem page_address_lt (hi : i < P.capacity) : (P.page i).1 + P.size < 2 ^ 32 := by
  have hw := (page_within hi).trans P.pageArea_within
  have hroom := P.room
  simp only [Within, page, block, slot] at hw ⊢
  omega

end Pool

-- The entries and counters of a pool, whatever its pages are: the entries in
-- `free` are chained, `afindx` counts the others.
structure MapRep (h : MemPoolHead) (free : List ℕ) : Prop where
  chain : FreeChain h.poolMapCount (fun i => (h.poolMap i).next) h.nextMap free
  afindx : h.afindx + free.length = h.poolMapCount
  distinct : ∀ i < h.poolMapCount, ∀ j < h.poolMapCount,
    (h.poolMap i).start = (h.poolMap j).start → i = j

-- The head agrees with the pool.
structure PoolRep (h : MemPoolHead) (P : Pool) : Prop where
  type : h.type = MPLHTY_PAGE
  start : h.start.toNat = P.base
  stop : h.stop.toNat = P.base + blkSize P.cls - 1
  allocSize : h.allocSize.toNat = P.size
  objCount : h.objCount = P.capacity
  mapCount : h.poolMapCount = P.capacity
  pages : ∀ i < P.capacity, (h.poolMap i).start.toNat = (P.page i).1
  chain : FreeChain P.capacity (fun i => (h.poolMap i).next) h.nextMap P.free
  afindx : h.afindx + P.free.length = P.capacity

theorem PoolRep.mapRep {h : MemPoolHead} {P : Pool} (hr : PoolRep h P) : MapRep h P.free := by
  refine ⟨hr.mapCount ▸ hr.chain, hr.mapCount ▸ hr.afindx, fun i hi j hj he => ?_⟩
  rw [hr.mapCount] at hi hj
  have hpage : (P.page i).1 = (P.page j).1 := by rw [← hr.pages i hi, ← hr.pages j hj, he]
  exact P.page_injective (Prod.ext hpage rfl)

section Entries

variable {h : MemPoolHead} {free : List ℕ} {k : Kmem} {headp addr : Adr} {i : ℕ}

-- `Function.update` seen through the `next` fields.
theorem next_update (poolMap : ℕ → MemPoolMap) (i : ℕ) (next : Option ℕ) :
    (fun j => (Function.update poolMap i { poolMap i with next := next } j).next) =
      Function.update (fun j => (poolMap j).next) i next := by
  funext j
  by_cases hj : j = i
  · subst hj
    simp
  · simp [Function.update_of_ne hj]

theorem start_update (poolMap : ℕ → MemPoolMap) (i j : ℕ) (next : Option ℕ) :
    (Function.update poolMap i { poolMap i with next := next } j).start = (poolMap j).start := by
  by_cases hj : j = i
  · subst hj
    simp
  · simp [Function.update_of_ne hj]

theorem findMap_eq (h : MemPoolHead) (addr : Adr) (left i : ℕ) :
    findMap h addr left i = (List.range' i left).find? fun j => addr = (h.poolMap j).start := by
  induction left generalizing i with
  | zero => rfl
  | succ left ih =>
      rw [findMap, List.range'_succ, List.find?_cons, ih]
      split_ifs with he <;> simp [he]

-- The scan finds the one entry that starts at the address.
theorem MapRep.findMap_start (hr : MapRep h free) (hi : i < h.poolMapCount)
    (hstart : (h.poolMap i).start = addr) : findMap h addr h.poolMapCount 0 = some i := by
  rw [findMap_eq, ← List.range_eq_range']
  cases hf : (List.range h.poolMapCount).find? fun j => addr = (h.poolMap j).start with
  | none =>
      have hnone := List.find?_eq_none.mp hf i (List.mem_range.mpr hi)
      simp [hstart] at hnone
  | some j =>
      have hj := List.mem_range.mp (List.mem_of_find?_eq_some hf)
      have he : addr = (h.poolMap j).start := by simpa using List.find?_some hf
      rw [hr.distinct i hi j hj (hstart.trans he)]

theorem findMap_none (hnone : ∀ i < h.poolMapCount, (h.poolMap i).start ≠ addr) :
    findMap h addr h.poolMapCount 0 = none := by
  rw [findMap_eq, ← List.range_eq_range', List.find?_eq_none]
  intro i hi
  simpa using fun he => hnone i (List.mem_range.mp hi) he.symm

theorem MapRep.afindx_pos_iff (hr : MapRep h free) :
    1 ≤ h.afindx ↔ ∃ i < h.poolMapCount, i ∉ free := by
  have hcount := hr.afindx
  constructor
  · intro hpos
    by_contra hall
    have hall : ∀ i < h.poolMapCount, i ∈ free := by
      intro i hi
      by_contra hnot
      exact hall ⟨i, hi, hnot⟩
    have hsub : List.range h.poolMapCount ⊆ free := fun i hi => hall i (List.mem_range.mp hi)
    have hle := (List.nodup_range.subperm hsub).length_le
    rw [List.length_range] at hle
    omega
  · rintro ⟨i, hi, hnot⟩
    have := hr.chain.length_lt hi hnot
    omega

-- The head after its entry `i` has been handed out, and after it has been chained again.
def MemPoolHead.take (h : MemPoolHead) (i : ℕ) : MemPoolHead :=
  { h with
    nextMap := (h.poolMap i).next
    poolMap := Function.update h.poolMap i { h.poolMap i with next := none }
    afindx := h.afindx + 1 }

def MemPoolHead.give (h : MemPoolHead) (i : ℕ) : MemPoolHead :=
  { h with
    poolMap := Function.update h.poolMap i { h.poolMap i with next := h.nextMap }
    nextMap := some i
    afindx := h.afindx - 1 }

theorem MapRep.take {rest : List ℕ} (hr : MapRep h (i :: rest)) : MapRep (h.take i) rest := by
  have hcount := hr.afindx
  refine ⟨?_, by simp only [MemPoolHead.take, List.length_cons] at hcount ⊢; omega,
    fun a ha b hb he => ?_⟩
  · simp only [MemPoolHead.take, next_update]
    exact hr.chain.take
  · simp only [MemPoolHead.take, start_update] at he
    exact hr.distinct a ha b hb he

theorem MapRep.give (hr : MapRep h free) (hi : i < h.poolMapCount) (hnot : i ∉ free) :
    MapRep (h.give i) (i :: free) := by
  have hcount := hr.afindx
  have hpos := hr.afindx_pos_iff.mpr ⟨i, hi, hnot⟩
  refine ⟨?_, by simp only [MemPoolHead.give, List.length_cons]; omega, fun a ha b hb he => ?_⟩
  · simp only [MemPoolHead.give, next_update]
    exact hr.chain.give hi hnot
  · simp only [MemPoolHead.give, start_update] at he
    exact hr.distinct a ha b hb he

theorem head_ok (hp : headp ≠ NULL) : k.head headp = .ok (k.heads headp) := if_neg hp

-- An entry with no successor is taken for one that is handed out.
theorem delete_cutOff (hr : MapRep (k.heads headp) free) (hp : headp ≠ NULL)
    (hi : i < (k.heads headp).poolMapCount) (hstart : ((k.heads headp).poolMap i).start = addr)
    (hpos : 1 ≤ (k.heads headp).afindx) (hnext : ((k.heads headp).poolMap i).next = none) :
    deletePageOnMplhead k headp addr = .ok (true, k.setHead headp ((k.heads headp).give i)) := by
  rw [deletePageOnMplhead, head_ok hp, Outcome.ok_bind, if_neg (by omega),
    hr.findMap_start hi hstart]
  simp only [hnext, ne_eq, not_true, if_false, MemPoolHead.give]

theorem delete_chained (hr : MapRep (k.heads headp) free) (hp : headp ≠ NULL)
    (hi : i < (k.heads headp).poolMapCount) (hstart : ((k.heads headp).poolMap i).start = addr)
    (hnext : ((k.heads headp).poolMap i).next ≠ none) :
    deletePageOnMplhead k headp addr = .ok (false, k) := by
  rw [deletePageOnMplhead, head_ok hp, Outcome.ok_bind]
  split_ifs
  · rfl
  · rw [hr.findMap_start hi hstart]
    simp only [if_pos hnext]

theorem delete_unknown (hp : headp ≠ NULL)
    (hnone : ∀ i < (k.heads headp).poolMapCount, ((k.heads headp).poolMap i).start ≠ addr) :
    deletePageOnMplhead k headp addr = .ok (false, k) := by
  rw [deletePageOnMplhead, head_ok hp, Outcome.ok_bind, findMap_none hnone]
  simp only [ite_self]

theorem delete_unused (hp : headp ≠ NULL) (hzero : (k.heads headp).afindx = 0) :
    deletePageOnMplhead k headp addr = .ok (false, k) := by
  rw [deletePageOnMplhead, head_ok hp, Outcome.ok_bind, if_pos (by omega)]

end Entries

-- The release takes exactly the starts of entries that are handed out, refuses
-- others without a change, and leaves a sound chain with one entry more.
def DeletesOnlyUsed (k : Kmem) (headp addr : Adr) (free : List ℕ) : Prop :=
  ∃ done k', deletePageOnMplhead k headp addr = .ok (done, k') ∧
    (done = true ↔ ∃ i < (k.heads headp).poolMapCount, i ∉ free ∧
      ((k.heads headp).poolMap i).start = addr) ∧
    (done = false → k' = k) ∧
    (done = true → ∃ free', MapRep (k'.heads headp) free' ∧
      ∀ i < (k.heads headp).poolMapCount,
        i ∈ free' ↔ i ∈ free ∨ ((k.heads headp).poolMap i).start = addr)

section Delete

variable {k : Kmem} {headp addr : Adr} {free : List ℕ} {i : ℕ}

theorem deletesOnlyUsed_refused (hrefused : deletePageOnMplhead k headp addr = .ok (false, k))
    (hfree : ∀ i < (k.heads headp).poolMapCount, ((k.heads headp).poolMap i).start = addr → i ∈ free) :
    DeletesOnlyUsed k headp addr free := by
  refine ⟨false, k, hrefused, iff_of_false (by simp) ?_, fun _ => rfl, by simp⟩
  rintro ⟨i, hi, hnot, hstart⟩
  exact hnot (hfree i hi hstart)

theorem deletesOnlyUsed_used (hr : MapRep (k.heads headp) free) (hp : headp ≠ NULL)
    (hi : i < (k.heads headp).poolMapCount) (hstart : ((k.heads headp).poolMap i).start = addr)
    (hnot : i ∉ free) : DeletesOnlyUsed k headp addr free := by
  have hpos := hr.afindx_pos_iff.mpr ⟨i, hi, hnot⟩
  refine ⟨true, _, delete_cutOff hr hp hi hstart hpos (hr.chain.cutOff i hi hnot),
    iff_of_true rfl ⟨i, hi, hnot, hstart⟩, by simp, fun _ => ⟨i :: free, ?_, fun j hj => ?_⟩⟩
  · simp only [Kmem.setHead, Function.update_self]
    exact hr.give hi hnot
  · rw [List.mem_cons, or_comm]
    refine or_congr_right ⟨fun he => he ▸ hstart, fun he => ?_⟩
    exact hr.distinct j hj i hi (he.trans hstart.symm)

-- The last entry of the chain has no successor either.
theorem not_deletesOnlyUsed_last (hr : MapRep (k.heads headp) free) (hp : headp ≠ NULL)
    (hpos : 0 < (k.heads headp).afindx) (hlast : free.getLast? = some i)
    (hstart : ((k.heads headp).poolMap i).start = addr) : ¬DeletesOnlyUsed k headp addr free := by
  have hmem := List.mem_of_getLast? hlast
  have hi := hr.chain.bounded i hmem
  have hnext := (hr.chain.chained.next_eq_none hr.chain.nodup hmem).mpr hlast
  rintro ⟨done, k', hcall, hiff, -⟩
  obtain ⟨rfl, -⟩ : true = done ∧ _ = k' := by
    simpa using (delete_cutOff hr hp hi hstart hpos hnext).symm.trans hcall
  obtain ⟨j, hj, hnot, hstart'⟩ := hiff.mp rfl
  exact hnot (hr.distinct j hj i hi (hstart'.trans hstart.symm) ▸ hmem)

end Delete

-- The one address that is wrongly taken is the start of the last free entry.
theorem deletesOnlyUsed_iff {k : Kmem} {headp : Adr} {free : List ℕ}
    (hr : MapRep (k.heads headp) free) (hp : headp ≠ NULL) (addr : Adr) :
    DeletesOnlyUsed k headp addr free ↔
      ¬(0 < (k.heads headp).afindx ∧
        ∃ i, free.getLast? = some i ∧ ((k.heads headp).poolMap i).start = addr) := by
  constructor
  · rintro h ⟨hpos, i, hlast, hstart⟩
    exact not_deletesOnlyUsed_last hr hp hpos hlast hstart h
  · intro hcond
    by_cases hknown : ∃ i < (k.heads headp).poolMapCount, ((k.heads headp).poolMap i).start = addr
    · obtain ⟨i, hi, hstart⟩ := hknown
      by_cases hfree : i ∈ free
      · have honly : ∀ j < (k.heads headp).poolMapCount,
            ((k.heads headp).poolMap j).start = addr → j ∈ free := fun j hj hj' =>
          hr.distinct j hj i hi (hj'.trans hstart.symm) ▸ hfree
        by_cases hzero : (k.heads headp).afindx = 0
        · exact deletesOnlyUsed_refused (delete_unused hp hzero) honly
        · refine deletesOnlyUsed_refused (delete_chained hr hp hi hstart fun hnext => ?_) honly
          have hlast := (hr.chain.chained.next_eq_none hr.chain.nodup hfree).mp hnext
          exact hcond ⟨Nat.pos_of_ne_zero hzero, i, hlast, hstart⟩
      · exact deletesOnlyUsed_used hr hp hi hstart hfree
    · have hnone : ∀ i < (k.heads headp).poolMapCount,
          ((k.heads headp).poolMap i).start ≠ addr := fun i hi he => hknown ⟨i, hi, he⟩
      exact deletesOnlyUsed_refused (delete_unknown hp hnone) fun i hi he => absurd he (hnone i hi)

-- A pool of three 64 KB pages, the first of them handed out.
def threePages : MemPoolHead where
  type := MPLHTY_PAGE
  start := 0x80400000
  stop := 0x8043ffff
  nextMap := some 1
  objCount := 3
  allocSize := 0x10000
  afindx := 1
  poolMapCount := 3
  poolMap i := ⟨0x80401000 + BitVec.ofNat 32 i * 0x10000, if i = 1 then some 2 else none⟩

def threePagesKmem : Kmem where
  mm := initMach 0x87801000 machAddrSpace
  heads _ := threePages
  poolLinks := ⟨id, id⟩
  pagePoolCount := 1
  pagePoolCache := NULL
  blkCalls := []

theorem threePages_rep : MapRep (threePagesKmem.heads 0x80400000) [1, 2] := by
  refine ⟨⟨⟨rfl, rfl, rfl⟩, by decide, ?_, ?_⟩, rfl, ?_⟩
  all_goals
    simp only [threePagesKmem, threePages]
    decide

theorem deletesOnlyUsed_first : DeletesOnlyUsed threePagesKmem 0x80400000 0x80401000 [1, 2] := by
  refine (deletesOnlyUsed_iff threePages_rep (by decide) _).mpr ?_
  rintro ⟨-, i, hlast, hstart⟩
  obtain rfl : 2 = i := Option.some.inj hlast
  exact absurd hstart (by decide)

-- The third page was never handed out, yet its release succeeds.
theorem deletes_unused_page : ¬∀ k headp free addr, MapRep (k.heads headp) free → headp ≠ NULL →
    DeletesOnlyUsed k headp addr free := fun hall =>
  not_deletesOnlyUsed_last threePages_rep (by decide) (by decide) rfl rfl
    (hall threePagesKmem 0x80400000 [1, 2] 0x80421000 threePages_rep (by decide))

section Rep

variable {P : Pool} {k : Kmem} {headp : Adr} {i : ℕ} {rest : List ℕ}

theorem PoolRep.take {h : MemPoolHead} (hr : PoolRep h P) (hfree : P.free = i :: rest) :
    PoolRep (h.take i) (P.take rest) := by
  have hm := (hfree ▸ hr.mapRep).take
  have hcount : (h.take i).poolMapCount = (P.take rest).capacity := hr.mapCount
  refine ⟨hr.type, hr.start, hr.stop, hr.allocSize, hr.objCount, hr.mapCount, fun j hj => ?_,
    hcount ▸ hm.chain, hcount ▸ hm.afindx⟩
  simp only [MemPoolHead.take, start_update]
  exact hr.pages j hj

theorem PoolRep.give {h : MemPoolHead} (hr : PoolRep h P) (hi : P.InUse i) :
    PoolRep (h.give i) (P.give i) := by
  have hm := hr.mapRep.give (hr.mapCount.symm ▸ hi.1) hi.2
  have hcount : (h.give i).poolMapCount = (P.give i).capacity := hr.mapCount
  refine ⟨hr.type, hr.start, hr.stop, hr.allocSize, hr.objCount, hr.mapCount, fun j hj => ?_,
    hcount ▸ hm.chain, hcount ▸ hm.afindx⟩
  simp only [MemPoolHead.give, start_update]
  exact hr.pages j hj

theorem PoolRep.nextMap_eq {h : MemPoolHead} (hr : PoolRep h P) : h.nextMap = P.free.head? :=
  hr.chain.chained.head_eq

theorem PoolRep.pageNew (hr : PoolRep (k.heads headp) P) (hp : headp ≠ NULL)
    (hfree : P.free = i :: rest) : pageNewOnMplhead k headp =
      .ok (((k.heads headp).poolMap i).start, k.setHead headp ((k.heads headp).take i)) := by
  have hcount := hr.afindx
  rw [hfree, List.length_cons] at hcount
  have hlt : ¬(k.heads headp).afindx ≥ (k.heads headp).objCount := by
    rw [hr.objCount]
    omega
  have hnext : (k.heads headp).nextMap = some i := by rw [hr.nextMap_eq, hfree]; rfl
  rw [pageNewOnMplhead, head_ok hp, Outcome.ok_bind, if_neg hlt]
  simp only [hnext, MemPoolHead.take]

theorem PoolRep.pageNew_empty (hr : PoolRep (k.heads headp) P) (hp : headp ≠ NULL)
    (hfree : P.free = []) : pageNewOnMplhead k headp = .ok (NULL, k) := by
  have hcount := hr.afindx
  rw [hfree, List.length_nil] at hcount
  rw [pageNewOnMplhead, head_ok hp, Outcome.ok_bind, if_pos (by rw [hr.objCount]; omega)]

end Rep

end Lmosem
