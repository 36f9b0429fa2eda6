import Lmosem.Kernel.Chains
import Lmosem.Kernel.FailedAlloc

namespace Lmosem

open Intrusive Region Chain Shelves Transition

-- Some entry of the pool at `a` is no live page.
def HasFreePage (c : MemState) (a : Adr) : Prop :=
  ∃ i < (c.kmem.heads a).objCount,
    (((c.kmem.heads a).poolMap i).start, (c.kmem.heads a).allocSize) ∉ c.pages

-- The state with another value in `page_pool_cache`.
def Kmem.withCache (k : Kmem) (v : Adr) : Kmem := { k with pagePoolCache := v }

section Facts

variable {m : MemMap} {p p' : Pools} {k : Kmem} {blks pages : List (Adr × SizeT)} {a : Adr}
  {size : SizeT} {cls : Slab}

theorem PoolRep.fits_iff {h : MemPoolHead} {P : Pool} (hr : PoolRep h P) (size : SizeT) :
    P.Fits size ↔ h.allocSize = size ∧ P.free ≠ [] := by
  have hsize : h.allocSize = size ↔ P.size = size.toNat := by
    rw [← hr.allocSize]
    exact ⟨fun he => he ▸ rfl, fun he => BitVec.eq_of_toNat_eq he⟩
  rw [Pool.Fits, hsize]
  exact and_comm

-- An entry is a live page exactly when it is in use.
theorem KmemInv.entry_live_iff (h : KmemInv m p k blks pages) (ha : a ∈ p.order) {i : ℕ}
    (hi : i < (p.pool a).capacity) :
    (((k.heads a).poolMap i).start, (k.heads a).allocSize) ∈ pages ↔ (p.pool a).InUse i := by
  have hrange := (h.rep a ha).range_entry hi
  rw [h.held]
  constructor
  · rintro ⟨b, hb, j, hj, he⟩
    obtain ⟨rfl, rfl⟩ := h.page_unique ha hb hi hj.1 (hrange.symm.trans he)
    exact hj
  · exact fun hj => ⟨a, ha, i, hj, hrange⟩

theorem KmemInv.hasFreePage_iff {c : MemState} (h : KmemInv m p c.kmem c.blks c.pages)
    (ha : a ∈ p.order) : HasFreePage c a ↔ (p.pool a).free ≠ [] := by
  have hrep := h.rep a ha
  unfold HasFreePage
  rw [hrep.objCount]
  constructor
  · rintro ⟨i, hi, hnot⟩ hnil
    rw [h.entry_live_iff ha hi] at hnot
    exact hnot ⟨hi, by simp [hnil]⟩
  · intro hne
    obtain ⟨i, hi⟩ := List.exists_mem_of_ne_nil _ hne
    have hlt := hrep.chain.bounded i hi
    refine ⟨i, hlt, fun hlive => ?_⟩
    exact ((h.entry_live_iff ha hlt).mp hlive).2 hi

-- What a request for a size that has pages comes to: only the lack of a free page and
-- of a block refuses it, and only the lack of a free page opens a pool.
theorem Pools.Step.alloc_outcome {ret : Adr} (hs : p.Step m (.alloc size ret) p')
    (hcls : poolClass size.toNat = some cls) (hhi : size.toNat ≤ 0x1f000) :
    (ret = NULL ↔ (∀ a ∈ p.order, ¬(p.pool a).Fits size) ∧ p.shelves.alloc cls = none) ∧
      ((∀ a ∈ p.order, ¬(p.pool a).Fits size) ∧ p.shelves.alloc cls ≠ none →
        p'.order.length = p.order.length + 1) ∧
      (¬((∀ a ∈ p.order, ¬(p.pool a).Fits size) ∧ p.shelves.alloc cls ≠ none) →
        p'.order.length = p.order.length) := by
  cases hs with
  | @take a _ _ i rest ha hsize hfree hrange =>
      have hfits : (p.pool a).Fits size := ⟨by simp [hfree], hsize⟩
      have hnot (h : ∀ a ∈ p.order, ¬(p.pool a).Fits size) : False := h a ha hfits
      exact ⟨⟨fun he => absurd he (Pool.page_ne_null hrange), fun he => (hnot he.1).elim⟩,
        fun he => (hnot he.1).elim, fun _ => rfl⟩
  | unserved hnone => simp [hcls] at hnone
  | refuse hfull hcls' hnone =>
      obtain rfl := Option.some.inj (hcls.symm.trans hcls')
      exact ⟨⟨fun _ => ⟨hfull, hnone⟩, fun _ => rfl⟩, fun he => absurd hnone he.2, fun _ => rfl⟩
  | @barren a _ P _ hopen hnone =>
      have hlow := P.capacity_eq_zero.mp hnone
      have hsize := hopen.size
      omega
  | @create a _ _ P _ i rest hopen hfree hrange =>
      obtain ⟨kb, t', halloc, rfl⟩ := hopen.block
      have hPcls : P.cls = cls := by
        have hsized := P.sized
        rw [hopen.size, hcls] at hsized
        exact (Option.some.inj hsized).symm
      rw [hPcls] at halloc
      have hsome : p.shelves.alloc cls ≠ none := by simp [halloc]
      refine ⟨⟨fun he => absurd he (Pool.page_ne_null hrange), fun he => absurd he.2 hsome⟩,
        fun _ => ?_, fun hnot => absurd ⟨hopen.full, hsome⟩ hnot⟩
      simp [Pools.insert, Pools.set]

-- No listed pool fits, read off the heads and what the clients hold.
theorem KmemInv.full_iff {c : MemState} (h : KmemInv m p c.kmem c.blks c.pages) (size : SizeT) :
    (∀ a ∈ p.order, ¬(p.pool a).Fits size) ↔
      ∀ a, OnPoolList c.kmem a → (c.kmem.heads a).allocSize = size → ¬HasFreePage c a := by
  refine forall_congr' fun a => ?_
  rw [h.onPoolList]
  refine forall_congr' fun ha => ?_
  rw [h.hasFreePage_iff ha, (h.rep a ha).fits_iff]
  exact not_and

-- The call's outcome, which does not depend on the cache it starts with.
theorem KmemInv.cached_alloc {c : MemState} (h : KmemInv m p c.kmem c.blks c.pages) {v : Adr}
    (hv : v = NULL ∨ OnPoolList c.kmem v) (hcls : poolClass size.toNat = some cls)
    (hhi : size.toNat ≤ 0x1f000) :
    ∃ ret k', kmemPoolAllocPage (c.kmem.withCache v) size = .ok (ret, k') ∧
      (ret = NULL ↔ (∀ a ∈ p.order, ¬(p.pool a).Fits size) ∧ p.shelves.alloc cls = none) ∧
      ((∀ a ∈ p.order, ¬(p.pool a).Fits size) ∧ p.shelves.alloc cls ≠ none →
        k'.pagePoolCount = c.kmem.pagePoolCount + 1) ∧
      (¬((∀ a ∈ p.order, ¬(p.pool a).Fits size) ∧ p.shelves.alloc cls ≠ none) →
        k'.pagePoolCount = c.kmem.pagePoolCount) := by
  have hcache := h.setCache (hv.imp_right (h.onPoolList v).mp)
  obtain ⟨ret, k', p', hcall, hstep, hinv, -⟩ := hcache.alloc_page size
  have hspec := hstep.alloc_outcome hcls hhi
  rw [← hinv.count, ← h.count] at hspec
  exact ⟨ret, k', hcall, hspec⟩

end Facts

-- A request for 1 to 31 pages of 4 KB is refused only when no pool of the size has a
-- free page and no block is left, whatever pool is cached.
theorem refusal_iff {k : Kmem} {c : MemState} (hb : KmemBooted k)
    (hr : Reachable MemStep (memStart k) c) {size : SizeT} (hlo : PAGE_SIZE ≤ size)
    (hhi : size ≤ 31 * PAGE_SIZE) :
    ∃ cls, (∀ k, newPageMpool k size = NEW_PAGE_MEM_POOL k size (slabSize cls)) ∧
      (∀ v, v = NULL ∨ OnPoolList c.kmem v →
        ((∃ k', kmemPoolAllocPage (c.kmem.withCache v) size = .ok (NULL, k')) ↔
          (∀ a, OnPoolList c.kmem a → (c.kmem.heads a).allocSize = size → ¬HasFreePage c a) ∧
            ∃ s', allocMemBlk c.kmem.mm (slabSize cls) = .ok (NULL, s'))) ∧
      ∀ v w, v = NULL ∨ OnPoolList c.kmem v → w = NULL ∨ OnPoolList c.kmem w →
        ∃ ret₁ k₁ ret₂ k₂, kmemPoolAllocPage (c.kmem.withCache v) size = .ok (ret₁, k₁) ∧
          kmemPoolAllocPage (c.kmem.withCache w) size = .ok (ret₂, k₂) ∧
          (ret₁ = NULL ↔ ret₂ = NULL) ∧ k₁.pagePoolCount = k₂.pagePoolCount := by
  obtain ⟨m, p, h⟩ := hb.reachable hr
  have hlo : 2 ^ 12 ≤ size.toNat := BitVec.le_def.mp hlo
  have hhi : size.toNat ≤ 0x1f000 := BitVec.le_def.mp hhi
  obtain ⟨cls, hcls⟩ := poolClass_served hlo (by omega)
  refine ⟨cls, fun k => by rw [newPageMpool_eq, hcls], fun v hv => ?_, fun v w hv hw => ?_⟩
  · obtain ⟨ret, k', hcall, hnull, -⟩ := h.cached_alloc hv hcls hhi
    rw [← h.full_iff, h.blk.alloc_null, ← hnull, hcall]
    constructor
    · rintro ⟨k'', he⟩
      exact (Outcome.pair_inj he).1
    · rintro rfl
      exact ⟨k', rfl⟩
  · obtain ⟨ret₁, k₁, hcall₁, hnull₁, hopen₁, hkeep₁⟩ := h.cached_alloc hv hcls hhi
    obtain ⟨ret₂, k₂, hcall₂, hnull₂, hopen₂, hkeep₂⟩ := h.cached_alloc hw hcls hhi
    refine ⟨ret₁, k₁, ret₂, k₂, hcall₁, hcall₂, hnull₁.trans hnull₂.symm, ?_⟩
    by_cases hnew : (∀ a ∈ p.order, ¬(p.pool a).Fits size) ∧ p.shelves.alloc cls ≠ none
    · rw [hopen₁ hnew, hopen₂ hnew]
    · rw [hkeep₁ hnew, hkeep₂ hnew]

-- One pool of 4 KB pages, cached or not, and a request for 8 KB.
theorem refusal_iff_shipped : ∃ c a, Reachable MemStep (memStart bootKmem) c ∧
    OnPoolList c.kmem a ∧ ∃ ret₁ k₁ ret₂ k₂,
      kmemPoolAllocPage (c.kmem.withCache NULL) 0x2000 = .ok (ret₁, k₁) ∧
      kmemPoolAllocPage (c.kmem.withCache a) 0x2000 = .ok (ret₂, k₂) ∧
      (ret₁ = NULL ↔ ret₂ = NULL) ∧ k₁.pagePoolCount = k₂.pagePoolCount := by
  obtain ⟨trace, c, hrun, hcount⟩ := exists_memRun [.page (.alloc 0x1000)] (memStart bootKmem)
    (fun _ c => c.kmem.pagePoolCount = 1) (by decide +kernel)
  have hr : Reachable MemStep (memStart bootKmem) c := ⟨trace, hrun⟩
  obtain ⟨m, p, h⟩ := bootKmem_booted.reachable hr
  obtain ⟨a, ha⟩ := h.exists_pool (of_decide_eq_true hcount ▸ Nat.one_pos)
  have hlisted := (h.onPoolList a).mpr ha
  obtain ⟨cls, -, -, hsame⟩ := @refusal_iff _ _ bootKmem_booted hr 0x2000 (by decide) (by decide)
  exact ⟨c, a, hr, hlisted, hsame NULL a (Or.inl rfl) (Or.inr hlisted)⟩

end Lmosem
