import Lmosem.Kernel.PoolRuns

namespace Lmosem

open Intrusive SlabQueue Region Shelves Transition

section Barren

variable {m : MemMap} {p p' : Pools} {k : Kmem} {blks pages : List (Adr × SizeT)} {size : SizeT}

-- Between 31 and 32 pages of 4 KB a block of 128 KB is taken, which holds one
-- such range but not behind the page of the pool's own head.
theorem Pool.capacity_eq_zero (P : Pool) : P.capacity = 0 ↔ 0x1f000 < P.size := by
  have hsized := P.sized
  have hlt := P.size_lt
  have hpos := P.size_pos
  rw [capacity, Nat.div_eq_zero_iff]
  simp only [poolClass] at hsized
  split_ifs at hsized <;>
    (have hcls := Option.some.inj hsized; rw [← hcls]; simp only [blkSize]; norm_num; omega)

theorem poolClass_gap {n : ℕ} (hlow : 0x1f000 < n) (hhigh : n < 0x20000) : poolClass n = some 0 := by
  rw [poolClass, if_neg (by omega), if_neg (by omega), if_neg (by omega), if_pos (by omega)]

-- A call that returns NULL has left the pools alone, or added one without pages.
theorem Pools.Step.of_null (hs : p.Step m (.alloc size NULL) p') :
    p' = p ∨ ∃ a P, p.Opens size a P p' ∧ P.capacity = 0 := by
  cases hs with
  | take _ _ _ hrange => exact absurd rfl (Pool.page_ne_null hrange)
  | unserved _ => exact Or.inl rfl
  | refuse _ _ _ => exact Or.inl rfl
  | barren hopen hnone => exact Or.inr ⟨_, _, hopen, hnone⟩
  | create _ _ hrange => exact absurd rfl (Pool.page_ne_null hrange)

-- A pool that has room for a page of this size is not the kind that has none.
theorem KmemInv.no_gap (h : KmemInv m p k blks pages) {a : Adr} (ha : a ∈ p.order)
    (hsize : (p.pool a).size = size.toNat) (hgap : 0x1f000 < size.toNat) : (p.pool a).free = [] := by
  have hcap : (p.pool a).capacity = 0 := (p.pool a).capacity_eq_zero.mpr (hsize ▸ hgap)
  refine List.eq_nil_iff_forall_not_mem.mpr fun i hi => ?_
  have hlt := (h.rep a ha).chain.bounded i hi
  omega

-- Whether the block allocator can serve the class, read off its lists.
theorem KmemInv.alloc_ne_none (h : KmemInv m p k blks pages) (i : Slab) :
    p.shelves.alloc i ≠ none ↔ listEmpty k.mm.links (.head (i, partialList)) = false ∨
      listEmpty k.mm.links (.head (lastSlab, emptyList)) = false := by
  rw [ne_eq, h.blk.inv.alloc_eq_none, h.blk.rep.listEmpty, h.blk.rep.listEmpty]
  simp only [List.isEmpty_eq_false_iff, ne_eq]
  tauto

end Barren

-- The sizes and states for which a block is taken although no page of it fits.
def TakesBarrenPool (k : Kmem) (size : SizeT) : Prop :=
  0x1f000 < size.toNat ∧ size.toNat < 0x20000 ∧
    (listEmpty k.mm.links (.head (0, partialList)) = false ∨
      listEmpty k.mm.links (.head (lastSlab, emptyList)) = false)

instance (k : Kmem) (size : SizeT) : Decidable (TakesBarrenPool k size) :=
  inferInstanceAs (Decidable (_ ∧ _))

-- A failed call changes nothing, unless it has set up a pool without pages.
theorem failed_alloc_iff {k : Kmem} {c : MemState} (hb : KmemBooted k)
    (hr : Reachable MemStep (memStart k) c) (size : SizeT) :
    (∀ k', kmemPoolAllocPage c.kmem size = .ok (NULL, k') → c.kmem.Same k') ↔
      ¬TakesBarrenPool c.kmem size := by
  obtain ⟨m, p, h⟩ := hb.reachable hr
  obtain ⟨ret, k', p', hcall, hstep, hinv, hsame⟩ := h.alloc_page size
  constructor
  · rintro hkeep ⟨hlow, hhigh, havail⟩
    have hgap := poolClass_gap hlow hhigh
    cases hstep with
    | take ha hsize hfree _ => simp [h.no_gap ha hsize hlow] at hfree
    | unserved hcls => simp [hgap] at hcls
    | refuse _ hcls hnone =>
        obtain rfl := Option.some.inj (hgap.symm.trans hcls)
        exact (h.alloc_ne_none 0).mpr havail hnone
    | barren hopen _ =>
        obtain ⟨kb, t', -, rfl⟩ := hopen.block
        have hcount := (hkeep k' hcall).pagePoolCount
        rw [hinv.count, h.count] at hcount
        simp [Pools.insert] at hcount
    | @create _ _ _ P _ _ _ hopen hfree _ =>
        have hcap : P.capacity = 0 := P.capacity_eq_zero.mpr (hopen.size ▸ hlow)
        simp [hopen.free, hcap] at hfree
  · intro hcond k'' hcall'
    obtain ⟨rfl, rfl⟩ := Outcome.pair_unique hcall hcall'
    rcases hstep.of_null with hp | ⟨a, P, hopen, hcap⟩
    · exact hsame rfl hp
    · have hlow := P.capacity_eq_zero.mp hcap
      have hhigh := P.size_lt
      have hcls := poolClass_gap hlow hhigh
      rw [P.sized, Option.some.injEq] at hcls
      obtain ⟨kb, t', halloc, -⟩ := hopen.block
      rw [hopen.size] at hlow hhigh
      rw [hcls] at halloc
      exact absurd ⟨hlow, hhigh, (h.alloc_ne_none 0).mp (by simp [halloc])⟩ hcond

-- Two pools are set up, clients take every block that is left, and a third pool finds none.
theorem failed_alloc_shipped : ∃ c k', Reachable MemStep (memStart bootKmem) c ∧
    c.kmem.pagePoolCount = 2 ∧ kmemPoolAllocPage c.kmem 0x10000 = .ok (NULL, k') ∧
    c.kmem.Same k' := by
  obtain ⟨trace, c, hrun, hcheck⟩ := exists_memRun
    ([.page (.alloc 0x1000), .page (.alloc 0x2000)] ++
      List.replicate 126 (.blk (.alloc BLK4MB_SIZE)) ++ List.replicate 61 (.blk (.alloc BLK128KB_SIZE)))
    (memStart bootKmem) (fun _ c => c.kmem.pagePoolCount = 2 ∧
      (kmemPoolAllocPage c.kmem 0x10000).isOk = true ∧
      ((kmemPoolAllocPage c.kmem 0x10000).getD (0x1000, c.kmem)).1 = NULL) (by decide +kernel)
  obtain ⟨hcount, hok, hnull⟩ := of_decide_eq_true hcheck
  have hr : Reachable MemStep (memStart bootKmem) c := ⟨trace, hrun⟩
  have hcall := Outcome.eq_ok_getD hok (0x1000, c.kmem)
  rw [← Prod.mk.eta (p := (kmemPoolAllocPage c.kmem 0x10000).getD (0x1000, c.kmem)), hnull] at hcall
  have hcond : ¬TakesBarrenPool c.kmem 0x10000 := by
    rintro ⟨hlow, -, -⟩
    exact absurd hlow (by decide)
  exact ⟨c, _, hr, hcount, hcall, (failed_alloc_iff bootKmem_booted hr _).mpr hcond _ hcall⟩

-- A page of 126 KB is refused, and yet a pool has come to the list for it.
theorem failed_alloc_keeps_block : ¬∀ k c size k', KmemBooted k →
    Reachable MemStep (memStart k) c → kmemPoolAllocPage c.kmem size = .ok (NULL, k') →
    c.kmem.Same k' := by
  intro h
  let outcome := kmemPoolAllocPage bootKmem 0x1f800
  let r := outcome.getD (0, bootKmem)
  obtain ⟨hok, hret, hcount⟩ : outcome.isOk = true ∧ r.1 = NULL ∧ r.2.pagePoolCount = 1 := by
    decide +kernel
  have hcall : kmemPoolAllocPage bootKmem 0x1f800 = .ok (NULL, r.2) :=
    (Outcome.eq_ok_getD hok _).trans (congrArg Outcome.ok (Prod.ext hret rfl))
  have hsame := h bootKmem (memStart bootKmem) 0x1f800 r.2 bootKmem_booted ⟨[], .nil⟩ hcall
  exact absurd (hcount.symm.trans hsame.pagePoolCount) (by decide)

end Lmosem
