import Lmosem.Kernel.PageSafety

namespace Lmosem

open Intrusive Region Transition

-- The release of a page finds the one listed pool that the page lies in, and
-- is carried out.
def FreedFromItsPool (k : Kmem) (addr : Adr) (size : SizeT) : Prop :=
  ∃ a, OnPoolList k a ∧ InPageArea (k.heads a) (addr, size) ∧
    (∀ b, OnPoolList k b → InPageArea (k.heads b) (addr, size) → b = a) ∧
    findDeletedPoolHead k addr size = .ok a ∧
    ∃ k', kmemPoolFreePage k addr size = .ok (true, k')

-- The page lies in the cached pool or in the first one on the list.
def InCachedOrFirst (k : Kmem) (pg : Adr × SizeT) : Prop :=
  (k.pagePoolCache ≠ NULL ∧ InPageArea (k.heads k.pagePoolCache) pg) ∨
    ∃ a, k.poolLinks.next (.head ()) = .entry a ∧ InPageArea (k.heads a) pg

section Home

variable {m : MemMap} {p : Pools} {k : Kmem} {blks pages : List (Adr × SizeT)} {a : Adr}
  {pg : Adr × SizeT} {i : ℕ}

theorem KmemInv.inCachedOrFirst_iff (h : KmemInv m p k blks pages) (hh : p.Home pg a i) :
    InCachedOrFirst k pg ↔ k.pagePoolCache = a ∨ p.order.head? = some a := by
  have hnext := h.rings.next_head ()
  refine or_congr ⟨?_, ?_⟩ ⟨?_, fun hhead => ?_⟩
  · rintro ⟨hne, hin⟩
    exact (h.inPageArea_iff hh (h.cache.resolve_left hne)).mp hin
  · rintro rfl
    exact ⟨h.ne_null hh.listed, (h.inPageArea_iff hh hh.listed).mpr rfl⟩
  · rintro ⟨b, hb, hin⟩
    cases horder : p.order with
    | nil => simp [horder, hb] at hnext
    | cons b' rest =>
        obtain rfl : b = b' := by simpa [horder, hb] using hnext
        have hmem : b ∈ p.order := by simp [horder]
        rw [(h.inPageArea_iff hh hmem).mp hin, List.head?_cons]
  · obtain ⟨rest, horder⟩ := List.head?_eq_some_iff.mp hhead
    refine ⟨a, ?_, (h.inPageArea_iff hh hh.listed).mpr rfl⟩
    rw [hnext, horder]

end Home

-- Behind a pool that does not hold the page the search reads through NULL, so
-- only two positions of a page's pool let it be released.
theorem free_page_iff {k : Kmem} {c : MemState} (hb : KmemBooted k)
    (hr : Reachable MemStep (memStart k) c) {addr : Adr} {size : SizeT}
    (hpg : (addr, size) ∈ c.pages) :
    FreedFromItsPool c.kmem addr size ↔ InCachedOrFirst c.kmem (addr, size) := by
  obtain ⟨m, p, h⟩ := hb.reachable hr
  obtain ⟨a, i, hh⟩ := h.exists_home hpg
  have hfind := h.find_deleted hh
  have hfree := h.free_page hh
  rw [h.inCachedOrFirst_iff hh]
  constructor
  · rintro ⟨b, -, -, -, hfound, -⟩
    by_contra hcond
    rw [if_neg hcond, hfound] at hfind
    simp at hfind
  · intro hcond
    rw [if_pos hcond] at hfind hfree
    obtain ⟨k', -, hcall, -⟩ := hfree
    refine ⟨a, (h.onPoolList a).mpr hh.listed, (h.inPageArea_iff hh hh.listed).mpr rfl,
      fun b hb hin => ?_, hfind, k', hcall⟩
    exact (h.inPageArea_iff hh ((h.onPoolList b).mp hb)).mp hin

theorem free_page_shipped : ∃ c, Reachable MemStep (memStart bootKmem) c ∧
    (0x80021000, 0x1000) ∈ c.pages ∧ FreedFromItsPool c.kmem 0x80021000 0x1000 := by
  obtain ⟨trace, c, hrun, hcheck⟩ := exists_memRun [.page (.alloc 0x1000), .page (.alloc 0x1000)]
    (memStart bootKmem) (fun _ c => (0x80021000, 0x1000) ∈ c.pages ∧ c.kmem.pagePoolCache ≠ NULL ∧
      InPageArea (c.kmem.heads c.kmem.pagePoolCache) (0x80021000, 0x1000)) (by decide +kernel)
  obtain ⟨hpg, hcached⟩ := of_decide_eq_true hcheck
  have hr : Reachable MemStep (memStart bootKmem) c := ⟨trace, hrun⟩
  exact ⟨c, hr, hpg, (free_page_iff bootKmem_booted hr hpg).mpr (Or.inl hcached)⟩

-- With one pool of 4 KB pages in front, the pool of 64 KB pages is not found.
theorem free_page_faults : ¬∀ k trace c, KmemBooted k → Run MemStep (memStart k) trace c →
    (∀ v ∈ trace, ∃ e, v.event = .page e) →
    ∀ addr size, (addr, size) ∈ c.pages → FreedFromItsPool c.kmem addr size := by
  intro hall
  obtain ⟨trace, c, hrun, hcheck⟩ := exists_memRun [.page (.alloc 0x1000), .page (.alloc 0x10000)]
    (memStart bootKmem) (fun trace c => trace.map Move.event =
        [.page (.alloc 0x1000 0x80021000), .page (.alloc 0x10000 0x80401000)] ∧
      (0x80401000, 0x10000) ∈ c.pages ∧
      (kmemPoolFreePage c.kmem 0x80401000 0x10000).isOk = false) (by decide +kernel)
  obtain ⟨hevents, hpg, hfault⟩ := of_decide_eq_true hcheck
  have hpages (v : Move MemState MemEvent) (hv : v ∈ trace) : ∃ e, v.event = .page e := by
    have hm := List.mem_map_of_mem (f := Move.event) hv
    rw [hevents] at hm
    simp only [List.mem_cons, List.not_mem_nil, or_false] at hm
    exact hm.elim (fun he => ⟨_, he⟩) fun he => ⟨_, he⟩
  obtain ⟨-, -, -, -, -, k', hcall⟩ := hall bootKmem trace c bootKmem_booted hrun hpages _ _ hpg
  rw [hcall] at hfault
  simp [Outcome.isOk] at hfault

end Lmosem
