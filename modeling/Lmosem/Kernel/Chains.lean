import Lmosem.Kernel.PageSafety

namespace Lmosem

open Intrusive Region Chain Transition

-- The entries `0, …, obj_count - 1` of a pool: those in `free` are chained from
-- `next_map`, the others are the live pages of the pool.
structure SoundMap (h : MemPoolHead) (pages : List (Adr × SizeT)) (free : List ℕ) : Prop where
  chained : Chained (fun i => (h.poolMap i).next) h.nextMap free
  nodup : free.Nodup
  bounded : ∀ i ∈ free, i < h.objCount
  length : free.length = h.objCount - h.afindx
  used : Set.BijOn (fun i => ((h.poolMap i).start, h.allocSize))
    {i | i < h.objCount ∧ i ∉ free} {pg | pg ∈ pages ∧ InPageArea h pg}
  cutOff : ∀ i < h.objCount, i ∉ free → (h.poolMap i).next = none
  mapCount : h.poolMapCount = h.objCount
  afindx : h.afindx ≤ h.objCount
  nextMap : h.nextMap = none ↔ h.afindx = h.objCount
  distinct : ∀ i < h.objCount, ∀ j < h.objCount,
    (h.poolMap i).start = (h.poolMap j).start → i = j

-- The same block cut into the same pages.
structure Pool.SameCut (P Q : Pool) : Prop where
  base : P.base = Q.base
  cls : P.cls = Q.cls
  size : P.size = Q.size

section Facts

variable {m : MemMap} {p p' : Pools} {k k' : Kmem} {blks pages blks' pages' : List (Adr × SizeT)}
  {a : Adr} {e : MemEvent}

theorem PoolRep.range_entry {h : MemPoolHead} {P : Pool} {i : ℕ} (hr : PoolRep h P)
    (hi : i < P.capacity) : range ((h.poolMap i).start, h.allocSize) = P.page i :=
  Prod.ext (hr.pages i hi) hr.allocSize

-- The live pages of a pool are its entries off the chain.
theorem KmemInv.used_bijOn (h : KmemInv m p k blks pages) (ha : a ∈ p.order) :
    Set.BijOn (fun i => (((k.heads a).poolMap i).start, (k.heads a).allocSize))
      {i | (p.pool a).InUse i} {pg | pg ∈ pages ∧ InPageArea (k.heads a) pg} := by
  have hrep := h.rep a ha
  have hhome {i : ℕ} (hi : (p.pool a).InUse i) :
      p.Home (((k.heads a).poolMap i).start, (k.heads a).allocSize) a i :=
    ⟨ha, hi, hrep.range_entry hi.1⟩
  refine ⟨fun i hi => ?_, fun i hi j hj he => ?_, fun pg hpg => ?_⟩
  · exact ⟨(h.held _).mpr ⟨a, ha, i, hi, hrep.range_entry hi.1⟩,
      (h.inPageArea_iff (hhome hi) ha).mpr rfl⟩
  · have hrange := congrArg range he
    simp only [hrep.range_entry hi.1, hrep.range_entry hj.1] at hrange
    exact Pool.page_injective hrange
  · obtain ⟨b, i, hh⟩ := h.exists_home hpg.1
    obtain rfl := (h.inPageArea_iff hh ha).mp hpg.2
    exact ⟨i, hh.inUse, range_injective ((hrep.range_entry hh.inUse.1).trans hh.range.symm)⟩

theorem KmemInv.soundMap (h : KmemInv m p k blks pages) (ha : a ∈ p.order) :
    SoundMap (k.heads a) pages (p.pool a).free := by
  have hrep := h.rep a ha
  have hcount := hrep.afindx
  refine ⟨hrep.chain.chained, hrep.chain.nodup, ?_, ?_, ?_, ?_, ?_, ?_, ?_, ?_⟩
  · rw [hrep.objCount]
    exact hrep.chain.bounded
  · rw [hrep.objCount]
    omega
  · rw [hrep.objCount]
    exact h.used_bijOn ha
  · rw [hrep.objCount]
    exact hrep.chain.cutOff
  · rw [hrep.objCount, hrep.mapCount]
  · rw [hrep.objCount]
    omega
  · rw [hrep.objCount, hrep.nextMap_eq, List.head?_eq_none_iff, ← List.length_eq_zero_iff]
    omega
  · rw [hrep.objCount, ← hrep.mapCount]
    exact hrep.mapRep.distinct

theorem Pool.SameCut.starts {P Q : Pool} {h h' : MemPoolHead} (hs : P.SameCut Q) (hr : PoolRep h P)
    (hr' : PoolRep h' Q) : h'.objCount = h.objCount ∧
      ∀ i < h.objCount, (h'.poolMap i).start = (h.poolMap i).start := by
  have hcap : Q.capacity = P.capacity := by
    unfold Pool.capacity
    rw [hs.cls, hs.size]
  refine ⟨hr'.objCount.trans (hcap.trans hr.objCount.symm), fun i hi => ?_⟩
  have hi : i < P.capacity := hr.objCount ▸ hi
  have hi' : i < Q.capacity := Nat.lt_of_lt_of_eq hi hcap.symm
  apply BitVec.eq_of_toNat_eq
  rw [hr.pages i hi, hr'.pages i hi']
  simp only [Pool.page, slot, hs.base, hs.size]

theorem Pool.SameCut.refl (P : Pool) : P.SameCut P := ⟨rfl, rfl, rfl⟩

theorem Pool.SameCut.trans {P Q R : Pool} (h : P.SameCut Q) (h' : Q.SameCut R) : P.SameCut R :=
  ⟨h.base.trans h'.base, h.cls.trans h'.cls, h.size.trans h'.size⟩

theorem Pools.sameCut_set {b : Adr} {P : Pool} (hP : (p.pool b).SameCut P) :
    (p.pool a).SameCut ((p.set b P).pool a) := by
  by_cases hab : a = b
  · subst hab
    rwa [Pools.set_self]
  · rw [Pools.set_of_ne _ hab]
    exact .refl _

theorem Pools.Opens.sameCut {size : SizeT} {b : Adr} {P : Pool} (ho : p.Opens size b P p')
    (ha : a ∈ p.order) : (p.pool a).SameCut (p'.pool a) := by
  obtain ⟨kb, t', -, rfl⟩ := ho.block
  have hab : a ≠ b := fun he => ho.fresh (he ▸ ha)
  rw [Pools.insert_of_ne _ _ hab]
  exact .refl _

-- A listed pool stays cut as it is.
theorem Pools.MemStep.sameCut (hs : p.MemStep m e p') (ha : a ∈ p.order) :
    (p.pool a).SameCut (p'.pool a) := by
  cases hs with
  | blk _ => exact .refl _
  | page hs =>
      cases hs with
      | take _ _ _ _ => exact Pools.sameCut_set ⟨rfl, rfl, rfl⟩
      | unserved _ => exact .refl _
      | refuse _ _ _ => exact .refl _
      | barren ho _ => exact ho.sameCut ha
      | @create b ret size P p'' i rest ho _ _ =>
          have hself : p''.pool b = P := by
            obtain ⟨kb, t', -, rfl⟩ := ho.block
            exact Pools.insert_self _ _ _ _
          exact (ho.sameCut ha).trans (Pools.sameCut_set (hself ▸ ⟨rfl, rfl, rfl⟩))
      | give _ _ _ _ _ => exact Pools.sameCut_set ⟨rfl, rfl, rfl⟩
      | close _ _ _ _ _ => exact Pools.sameCut_set ⟨rfl, rfl, rfl⟩

-- So do the entries of a pool over a run in which it does not leave the list.
theorem KmemInv.starts_kept {c c' : MemState} {trace : List (Move MemState MemEvent)}
    (h : KmemInv m p c.kmem c.blks c.pages) (ha : a ∈ p.order) (hr : Run Lmosem.MemStep c trace c')
    (hlisted : ∀ mv ∈ trace, OnPoolList mv.after.kmem a) :
    (c'.kmem.heads a).objCount = (c.kmem.heads a).objCount ∧
      ∀ i < (c.kmem.heads a).objCount,
        ((c'.kmem.heads a).poolMap i).start = ((c.kmem.heads a).poolMap i).start := by
  obtain ⟨⟨q, hq, haq, hcut⟩, -⟩ := hr.keeps
    (I := fun x => ∃ q, KmemInv m q x.kmem x.blks x.pages ∧ a ∈ q.order ∧
      (p.pool a).SameCut (q.pool a)) ⟨p, h, ha, .refl _⟩
    fun mv hmv hs ⟨q, hq, haq, hcut⟩ => by
      obtain ⟨q', hstep, hq'⟩ := hq.step hs
      exact ⟨q', hq', (hq'.onPoolList a).mp (hlisted mv hmv), hcut.trans (hstep.sameCut haq)⟩
  exact hcut.starts (h.rep a ha) (hq.rep a haq)

end Facts

-- In every pool on the list the free entries form one chain and the others are its
-- live pages, and while it stays there no entry's page moves.
theorem pool_chains {k : Kmem} {c : MemState} (hb : KmemBooted k)
    (hr : Reachable MemStep (memStart k) c) {a : Adr} (ha : OnPoolList c.kmem a) :
    (∃ free, SoundMap (c.kmem.heads a) c.pages free) ∧
      ∀ trace c', Run MemStep c trace c' → (∀ mv ∈ trace, OnPoolList mv.after.kmem a) →
        (c'.kmem.heads a).objCount = (c.kmem.heads a).objCount ∧
          ∀ i < (c.kmem.heads a).objCount,
            ((c'.kmem.heads a).poolMap i).start = ((c.kmem.heads a).poolMap i).start := by
  obtain ⟨m, p, h⟩ := hb.reachable hr
  have ha := (h.onPoolList a).mp ha
  exact ⟨⟨_, h.soundMap ha⟩, fun _ _ hrun => h.starts_kept ha hrun⟩

-- A pool of which two pages have been taken and one given back.
theorem pool_chains_shipped : ∃ c a, Reachable MemStep (memStart bootKmem) c ∧
    c.pages.length = 1 ∧ ∃ free, SoundMap (c.kmem.heads a) c.pages free := by
  obtain ⟨trace, c, hrun, hc⟩ := exists_memRun [.page (.alloc 0x1000), .page (.alloc 0x1000),
    .page (.free 0x80021000 0x1000)] (memStart bootKmem)
    (fun _ c => c.kmem.pagePoolCount = 1 ∧ c.pages.length = 1) (by decide +kernel)
  obtain ⟨hcount, hlen⟩ := of_decide_eq_true hc
  have hr : Reachable MemStep (memStart bootKmem) c := ⟨trace, hrun⟩
  obtain ⟨m, p, h⟩ := bootKmem_booted.reachable hr
  obtain ⟨a, ha⟩ := h.exists_pool (hcount ▸ Nat.one_pos)
  exact ⟨c, a, hr, hlen, (pool_chains bootKmem_booted hr ((h.onPoolList a).mpr ha)).1⟩

end Lmosem
