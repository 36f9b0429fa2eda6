import Lmosem.Kernel.PoolInit
import Lmosem.Kernel.PoolSet
import Lmosem.Hal.Safety

namespace Lmosem

open Intrusive Region Chain Shelves

-- The blocks that the pools have taken and not given back.
def outstanding (calls : List BlkEvent) : List (Adr × SizeT) := calls.foldl heldAfter []

theorem outstanding_append (calls : List BlkEvent) (e : BlkEvent) :
    outstanding (calls ++ [e]) = heldAfter (outstanding calls) e := by
  simp [outstanding]

-- The block a pool lies in.
def poolBlk (pool : Adr → Pool) (a : Adr) : Adr × SizeT := (a, slabSize (pool a).cls)

-- The kernel's pools are those of `p`. Clients hold `blks` of the block allocator
-- and `pages` of the pools.
structure KmemInv (m : MemMap) (p : Pools) (k : Kmem) (blks pages : List (Adr × SizeT)) : Prop where
  blk : BlkInv m p.shelves k.mm (blks ++ outstanding k.blkCalls)
  rings : Rings k.poolLinks fun _ => p.order
  rep : ∀ a ∈ p.order, PoolRep (k.heads a) (p.pool a)
  base : ∀ a ∈ p.order, a.toNat = (p.pool a).base
  count : k.pagePoolCount = p.order.length
  cache : k.pagePoolCache = NULL ∨ k.pagePoolCache ∈ p.order
  taken : (outstanding k.blkCalls).Perm (p.order.map (poolBlk p.pool))
  held : ∀ pg, pg ∈ pages ↔ ∃ a ∈ p.order, ∃ i, (p.pool a).InUse i ∧ range pg = (p.pool a).page i
  distinct : pages.Nodup

section Facts

variable {m : MemMap} {p : Pools} {k : Kmem}
  {blks pages : List (Adr × SizeT)} {a b : Adr}

theorem KmemInv.nodup (h : KmemInv m p k blks pages) : p.order.Nodup :=
  h.rings.apart.nodup ()

theorem KmemInv.ne_null (h : KmemInv m p k blks pages) (ha : a ∈ p.order) : a ≠ NULL := by
  rw [ne_null_iff, h.base a ha]
  exact (p.pool a).base_pos

theorem KmemInv.start_eq (h : KmemInv m p k blks pages) (ha : a ∈ p.order) :
    (k.heads a).start = a :=
  BitVec.eq_of_toNat_eq ((h.rep a ha).start.trans (h.base a ha).symm)

theorem KmemInv.range_poolBlk (h : KmemInv m p k blks pages) (ha : a ∈ p.order) :
    range (poolBlk p.pool a) = (p.pool a).block :=
  Prod.ext (h.base a ha) (slabSize_toNat _)

theorem KmemInv.poolBlk_mem (h : KmemInv m p k blks pages) (ha : a ∈ p.order) :
    poolBlk p.pool a ∈ outstanding k.blkCalls :=
  h.taken.mem_iff.mpr (List.mem_map_of_mem ha)

theorem KmemInv.poolBlk_not_client (h : KmemInv m p k blks pages) (ha : a ∈ p.order) :
    poolBlk p.pool a ∉ blks := fun hm =>
  (List.nodup_append.mp h.blk.distinct).2.2 _ hm _ (h.poolBlk_mem ha) rfl

-- Two blocks that somebody holds are apart.
theorem KmemInv.held_apart (h : KmemInv m p k blks pages) {x y : Adr × SizeT}
    (hx : x ∈ blks ++ outstanding k.blkCalls) (hy : y ∈ blks ++ outstanding k.blkCalls)
    (hne : x ≠ y) : Apart (range x) (range y) :=
  Marked.apart h.blk.inv ((h.blk.held x).mp hx).1 ((h.blk.held y).mp hy).1
    fun he => hne (range_injective he)

theorem KmemInv.pool_apart (h : KmemInv m p k blks pages) (ha : a ∈ p.order)
    (hb : b ∈ p.order) (hne : a ≠ b) : Apart (p.pool a).block (p.pool b).block := by
  rw [← h.range_poolBlk ha, ← h.range_poolBlk hb]
  exact h.held_apart (List.mem_append_right _ (h.poolBlk_mem ha))
    (List.mem_append_right _ (h.poolBlk_mem hb)) fun he => hne (congrArg Prod.fst he)

theorem KmemInv.client_apart (h : KmemInv m p k blks pages) {blk : Adr × SizeT}
    (hblk : blk ∈ blks) (ha : a ∈ p.order) : Apart (range blk) (p.pool a).block := by
  rw [← h.range_poolBlk ha]
  refine h.held_apart (List.mem_append_left _ hblk) (List.mem_append_right _ (h.poolBlk_mem ha)) ?_
  rintro rfl
  exact h.poolBlk_not_client ha hblk

-- Pages of two pools, and two pages of one pool, have no byte in common.
theorem KmemInv.page_apart (h : KmemInv m p k blks pages) {i j : ℕ} (ha : a ∈ p.order)
    (hb : b ∈ p.order) (hi : i < (p.pool a).capacity) (hj : j < (p.pool b).capacity)
    (hne : ¬(a = b ∧ i = j)) : Apart ((p.pool a).page i) ((p.pool b).page j) := by
  by_cases hab : a = b
  · subst hab
    exact (p.pool a).page_apart fun he => hne ⟨rfl, he⟩
  · exact (h.pool_apart ha hb hab).mono ((Pool.page_within hi).trans (p.pool a).pageArea_within)
      ((Pool.page_within hj).trans (p.pool b).pageArea_within)

-- So where a page lies tells its pool and its number.
theorem KmemInv.page_unique (h : KmemInv m p k blks pages) {i j : ℕ} (ha : a ∈ p.order)
    (hb : b ∈ p.order) (hi : i < (p.pool a).capacity) (hj : j < (p.pool b).capacity)
    (he : (p.pool a).page i = (p.pool b).page j) : a = b ∧ i = j := by
  by_contra hne
  have hapart := h.page_apart ha hb hi hj hne
  rw [he] at hapart
  exact not_apart_self (p.pool b).size_pos hapart

-- A walk round the pools comes back to the list head.
theorem KmemInv.length_lt (h : KmemInv m p k blks pages) :
    p.order.length < WALK_LIMIT := by
  have hnd : (p.order.map BitVec.toNat).Nodup :=
    h.nodup.map fun x y he => BitVec.eq_of_toNat_eq he
  have hsub : p.order.map BitVec.toNat ⊆ List.range' 1 (2 ^ 32 - 1) := by
    intro x hx
    obtain ⟨a, ha, rfl⟩ := List.mem_map.mp hx
    have hbase := h.base a ha
    have hpos := (p.pool a).base_pos
    have hlt := a.isLt
    exact List.mem_range'_1.mpr ⟨by omega, by omega⟩
  have hle := (hnd.subperm hsub).length_le
  rw [List.length_map, List.length_range'] at hle
  simp only [WALK_LIMIT]
  omega

end Facts

section Find

variable {m : MemMap} {p : Pools} {k : Kmem}
  {blks pages : List (Adr × SizeT)} {a : Adr} {size : SizeT}

-- The redundant tests of `pool_head_is_ok` come down to one.
theorem PoolRep.poolHeadIsOk {P : Pool} (hr : PoolRep (k.heads a) P) (ha : a ≠ NULL)
    (size : SizeT) : poolHeadIsOk k a size = .ok (if P.Fits size then a else NULL) := by
  have hsize : (k.heads a).allocSize = size ↔ P.size = size.toNat := by
    rw [← hr.allocSize]
    exact ⟨fun he => he ▸ rfl, fun he => BitVec.eq_of_toNat_eq he⟩
  have hcount := hr.afindx
  rw [Lmosem.poolHeadIsOk, head_ok ha, Outcome.ok_bind, hr.nextMap_eq, hr.type, hr.objCount]
  cases hf : P.free with
  | nil => simp [Pool.Fits, hf]
  | cons i rest =>
      rw [hf, List.length_cons] at hcount
      have hlt : ¬(k.heads a).afindx ≥ P.capacity := by omega
      simp only [List.head?_cons, reduceCtorEq, if_false, ne_eq, not_true, hsize, hlt, Pool.Fits, hf]
      by_cases hs : P.size = size.toNat <;> simp [hs]

-- What the search for a pool comes to, through the cache or along the list.
theorem KmemInv.find_spec (h : KmemInv m p k blks pages) (size : SizeT) :
    (findPoolHeadBySize k size = .ok (NULL, k) ∧ ∀ a ∈ p.order, ¬(p.pool a).Fits size) ∨
      ∃ a ∈ p.order, (p.pool a).Fits size ∧
        findPoolHeadBySize k size = .ok (a, { k with pagePoolCache := a }) := by
  by_cases hc : k.pagePoolCache ∈ p.order ∧ (p.pool k.pagePoolCache).Fits size
  · have hne := h.ne_null hc.1
    refine Or.inr ⟨_, hc.1, hc.2, ?_⟩
    rw [findPoolHeadBySize, if_pos hne, (h.rep _ hc.1).poolHeadIsOk hne, if_pos hc.2, Outcome.ok_bind,
      if_pos hne]
  · have hcached : (if k.pagePoolCache ≠ NULL then poolHeadIsOk k k.pagePoolCache size else .ok NULL) =
        .ok NULL := by
      rcases h.cache with hnull | hmem
      · rw [if_neg (not_not.mpr hnull)]
      · have hne := h.ne_null hmem
        rw [if_pos hne, (h.rep _ hmem).poolHeadIsOk hne, if_neg fun hf => hc ⟨hmem, hf⟩]
    have hwalk := listForEachEntry_rings h.rings ()
      (fun pos => do
        let headp ← poolEntry pos
        let retHead ← poolHeadIsOk k headp size
        if retHead ≠ NULL then .ok (.inr retHead) else .ok (.inl pos))
      (fun a => if (p.pool a).Fits size then some a else none) WALK_LIMIT h.length_lt fun a ha => by
        have hne := h.ne_null ha
        simp only [poolEntry, Outcome.ok_bind, (h.rep a ha).poolHeadIsOk hne]
        by_cases hf : (p.pool a).Fits size
        · simp only [hf, if_true, if_pos hne]
        · simp only [hf, if_false, ne_eq, not_true]
    rw [findPoolHeadBySize, hcached, Outcome.ok_bind, if_neg (by simp), hwalk, Outcome.ok_bind]
    cases hf : p.order.findSome? fun a => if (p.pool a).Fits size then some a else none with
    | none =>
        refine Or.inl ⟨rfl, fun a ha hfit => ?_⟩
        have hnone := List.findSome?_eq_none_iff.mp hf a ha
        simp [hfit] at hnone
    | some r =>
        obtain ⟨a, ha, hr⟩ := List.exists_of_findSome?_eq_some hf
        rw [Option.ite_none_right_eq_some] at hr
        obtain ⟨hfit, he⟩ := hr
        obtain rfl := Option.some.inj he
        exact Or.inr ⟨a, ha, hfit, rfl⟩

end Find

end Lmosem
