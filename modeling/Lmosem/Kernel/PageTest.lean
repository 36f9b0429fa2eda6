import Lmosem.Hal.BlkTest
import Lmosem.Kernel.Drain
import Lmosem.Kernel.Refusals

-- The kernel's test of its page allocator, without the lines it prints.
namespace Lmosem

open Intrusive Region Shelves Transition

-- `adrsz_t`.
abbrev Adrsz : Type := Adr × SizeT

-- One of the double loops of `cmp_adrsz`.
def cmpLoop (bad : Adrsz → Adrsz → Bool) (message : String) (assp : List Adrsz) : Outcome Unit :=
  (List.range assp.length).forM fun i => (List.range assp.length).forM fun j =>
    if i ≠ j ∧ bad (assp.getD i (0, 0)) (assp.getD j (0, 0)) = true then .die message else .ok ()

def cmpAdrsz (assp : List Adrsz) : Outcome Unit := do
  cmpLoop (fun x y => x.1 == y.1) "cmp adr start err" assp
  cmpLoop (fun x y => x.1 + x.2 == y.1 + y.2) "cmp adr end err" assp
  cmpLoop (fun x y => decide (x.1 ≥ y.1) && decide (x.1 + x.2 ≤ y.1 + y.2)) "cmp adr in err" assp

def testAllocs (alcsz : SizeT) : ℕ → List Adrsz → Kmem → Outcome (List Adrsz × Kmem)
  | 0, adsz, k => .ok (adsz, k)
  | n + 1, adsz, k => do
      let (adr, k) ← kmemPoolAllocPage k alcsz
      if adr = NULL then .die "testpagemgr kmempool_new err"
      else testAllocs alcsz n (adsz ++ [(adr, alcsz)]) k

def testFrees : List Adrsz → Kmem → Outcome Kmem
  | [], k => .ok k
  | (adr, sz) :: adsz, k => do
      let (ret, k) ← kmemPoolFreePage k adr sz
      if ret = false then .die "testpagemgr kmempool_delete err" else testFrees adsz k

-- What is done for one size.
def testSize (alcsz : SizeT) (n : ℕ) (k : Kmem) : Outcome Kmem := do
  let (adsz, k) ← testAllocs alcsz n [] k
  cmpAdrsz adsz
  testFrees adsz k

def testpagemgrLoop : ℕ → SizeT → Kmem → Outcome Kmem
  | 0, _, _ => .hang
  | fuel + 1, alcsz, k =>
      if alcsz < 0x19000 then do
        let k ← testSize alcsz 30 k
        testpagemgrLoop fuel (alcsz + 0x1000) k
      else .ok k

def testpagemgr (k : Kmem) : Outcome Kmem := testpagemgrLoop WALK_LIMIT 0x1000 k

section Compare

variable {rows : List Adrsz}

theorem forM_ok {ι : Type} {f : ι → Outcome Unit} {l : List ι} (h : ∀ i ∈ l, f i = .ok ()) :
    l.forM f = .ok () := by
  induction l with
  | nil => rfl
  | cons i l ih =>
      obtain ⟨hi, hl⟩ := List.forall_mem_cons.mp h
      change (f i >>= fun _ => l.forM f) = .ok ()
      rw [hi, Outcome.ok_bind]
      exact ih hl

theorem cmpLoop_ok {bad : Adrsz → Adrsz → Bool} (message : String)
    (h : rows.Pairwise fun x y => bad x y = false ∧ bad y x = false) :
    cmpLoop bad message rows = .ok () := by
  rw [List.pairwise_iff_getElem] at h
  refine forM_ok fun i hi => forM_ok fun j hj => if_neg ?_
  rw [List.mem_range] at hi hj
  rw [List.getD_eq_getElem _ _ hi, List.getD_eq_getElem _ _ hj]
  rintro ⟨hne, hbad⟩
  rcases Nat.lt_or_gt_of_ne hne with hlt | hlt
  · simp [(h i j hi hj hlt).1] at hbad
  · simp [(h j i hj hi hlt).2] at hbad

-- Ranges that are apart pass all three loops, where their ends do not wrap.
theorem cmpAdrsz_ok (hapart : rows.Pairwise fun x y => Apart (range x) (range y))
    (hend : ∀ x ∈ rows, 0 < x.2.toNat ∧ x.1.toNat + x.2.toNat < 2 ^ 32) : cmpAdrsz rows = .ok () := by
  have hsum {x : Adrsz} (hx : x ∈ rows) : (x.1 + x.2).toNat = x.1.toNat + x.2.toNat := by
    rw [BitVec.toNat_add, Nat.mod_eq_of_lt (hend x hx).2]
  have hstart : rows.Pairwise fun x y => (x.1 == y.1) = false ∧ (y.1 == x.1) = false := by
    refine hapart.imp_of_mem fun {x y} hx hy hxy => ?_
    have hne : x.1 ≠ y.1 := fun he => by
      have := (hend x hx).1
      have := (hend y hy).1
      have := congrArg BitVec.toNat he
      simp only [Apart, range] at hxy
      omega
    simp [hne, hne.symm]
  have hstop : rows.Pairwise fun x y =>
      (x.1 + x.2 == y.1 + y.2) = false ∧ (y.1 + y.2 == x.1 + x.2) = false := by
    refine hapart.imp_of_mem fun {x y} hx hy hxy => ?_
    have hne : x.1 + x.2 ≠ y.1 + y.2 := fun he => by
      have := (hend x hx).1
      have := (hend y hy).1
      have he := congrArg BitVec.toNat he
      rw [hsum hx, hsum hy] at he
      simp only [Apart, range] at hxy
      omega
    simp [hne, hne.symm]
  have hin : rows.Pairwise fun x y =>
      (decide (x.1 ≥ y.1) && decide (x.1 + x.2 ≤ y.1 + y.2)) = false ∧
        (decide (y.1 ≥ x.1) && decide (y.1 + y.2 ≤ x.1 + x.2)) = false := by
    refine hapart.imp_of_mem fun {x y} hx hy hxy => ?_
    have := (hend x hx).1
    have := (hend y hy).1
    simp only [Bool.and_eq_false_iff, decide_eq_false_iff_not, ge_iff_le, BitVec.le_def, hsum hx,
      hsum hy]
    simp only [Apart, range] at hxy
    omega
  rw [cmpAdrsz, cmpLoop_ok _ hstart, Outcome.ok_bind, cmpLoop_ok _ hstop, Outcome.ok_bind,
    cmpLoop_ok _ hin]

end Compare

-- The pools of later rows do not come before those of earlier ones.
def Pools.Sorted (p : Pools) (rows : List Adrsz) : Prop :=
  rows.Pairwise fun x y => ∃ a b i j, p.Home x a i ∧ p.Home y b j ∧ (a = b ∨ [a, b].Sublist p.order)

-- Pages of one size, in the order in which they were handed out: only the last pool has room.
structure Pools.Batch (p : Pools) (size : SizeT) (rows : List Adrsz) : Prop where
  busy : p.Busy
  last : ∀ a ∈ p.order, (p.pool a).Fits size → p.order.getLast? = some a
  sorted : p.Sorted rows

section Alloc

variable {m : MemMap} {p p' : Pools} {k : Kmem} {blks rows : List Adrsz} {size : SizeT}
  {a b : Adr} {i j : ℕ} {pg : Adrsz}

theorem KmemInv.home_unique (h : KmemInv m p k blks rows) (hx : p.Home pg a i)
    (hy : p.Home pg b j) : a = b ∧ i = j :=
  h.page_unique hx.listed hy.listed hx.inUse.1 hy.inUse.1 (hx.range.symm.trans hy.range)

theorem before_last {order : List Adr} (hlast : order.getLast? = some a) (hb : b ∈ order)
    (hne : b ≠ a) : [b, a].Sublist order := by
  obtain ⟨rest, rfl⟩ := List.getLast?_eq_some_iff.mp hlast
  have hrest : b ∈ rest := by simpa [hne] using hb
  exact (List.singleton_sublist.mpr hrest).append (List.Sublist.refl [a])

-- One more page, in the last pool.
theorem Pools.Batch.grow (hb : p.Batch size rows) (h : KmemInv m p k blks rows)
    (hmono : ∀ x b j, p.Home x b j → p'.Home x b j) (horder : p.order.Sublist p'.order)
    (hlast : p'.order.getLast? = some a) (hnew : p'.Home pg a i)
    (hfits : ∀ b ∈ p'.order, (p'.pool b).Fits size → b = a) (hbusy : p'.Busy) :
    p'.Batch size (rows ++ [pg]) := by
  refine ⟨hbusy, fun b hm hf => hfits b hm hf ▸ hlast, List.pairwise_append.mpr ⟨?_, ?_, ?_⟩⟩
  · refine hb.sorted.imp ?_
    rintro x y ⟨b, c, j, l, hx, hy, hbc⟩
    exact ⟨b, c, j, l, hmono _ _ _ hx, hmono _ _ _ hy, hbc.imp_right fun hs => hs.trans horder⟩
  · exact List.pairwise_singleton _ _
  · intro x hx y hy
    obtain rfl := List.mem_singleton.mp hy
    obtain ⟨b, j, hhome⟩ := h.exists_home hx
    have hhome := hmono _ _ _ hhome
    refine ⟨b, a, j, i, hhome, hnew, ?_⟩
    by_cases hba : b = a
    · exact Or.inl hba
    · exact Or.inr (before_last hlast hhome.listed hba)

theorem Pools.Batch.alloc {ret : Adr} (hb : p.Batch size rows) (h : KmemInv m p k blks rows)
    (hs : p.Step m (.alloc size ret) p') (hret : ret ≠ NULL) (hhi : size.toNat ≤ 0x1f000) :
    p'.Batch size (rows ++ [(ret, size)]) := by
  have hbusy : p'.Busy := hb.busy.step h hs fun sz r he => by
    obtain ⟨rfl, -⟩ := BlkEvent.alloc.inj he
    exact hhi
  cases hs with
  | @take a _ _ i rest ha hsize hfree hrange =>
      have hlast := hb.last a ha ⟨by simp [hfree], hsize⟩
      have hchain := (h.rep a ha).chain
      have hi : i < (p.pool a).capacity := hchain.bounded i (by simp [hfree])
      have huse (j : ℕ) : ((p.pool a).take rest).InUse j ↔ (p.pool a).InUse j ∨ j = i :=
        Pool.inUse_take hi hfree hchain.nodup j
      have hpage := Pools.page_set (p := p) (show ((p.pool a).take rest).page = (p.pool a).page from rfl)
      refine hb.grow h (fun x b j hx => ⟨hx.listed, ?_, (hpage b).symm ▸ hx.range⟩)
        (List.Sublist.refl _) hlast ⟨ha, ?_, (hpage a).symm ▸ hrange⟩ (fun b hm hf => ?_) hbusy
      · by_cases hba : b = a
        · subst hba
          rw [Pools.set_self, huse]
          exact Or.inl hx.inUse
        · rw [Pools.set_of_ne _ hba]
          exact hx.inUse
      · rw [Pools.set_self, huse]
        exact Or.inr rfl
      · by_contra hba
        rw [Pools.set_of_ne _ hba] at hf
        exact hba (Option.some.inj ((hb.last b hm hf).symm.trans hlast))
  | unserved _ => exact absurd rfl hret
  | refuse _ _ _ => exact absurd rfl hret
  | barren _ _ => exact absurd rfl hret
  | @create a _ _ P _ i rest hopen hfree hrange =>
      obtain ⟨kb, t', -, rfl⟩ := hopen.block
      have hother {b : Adr} (hm : b ∈ p.order) : ((p.insert t' a P).set a (P.take rest)).pool b =
          p.pool b := by
        have hba : b ≠ a := fun he => hopen.fresh (he ▸ hm)
        rw [Pools.set_of_ne _ hba, Pools.insert_of_ne _ _ hba]
      have hnd : (i :: rest).Nodup := by
        rw [← hfree, hopen.free]
        exact List.nodup_range
      have hi : i < P.capacity := by
        rw [← List.mem_range, ← hopen.free, hfree]
        exact List.mem_cons_self
      have hnew : ((p.insert t' a P).set a (P.take rest)).Home (ret, size) a i := by
        refine ⟨List.mem_append_right _ (List.mem_singleton_self a), ?_, ?_⟩ <;> rw [Pools.set_self]
        · exact ⟨hi, (List.nodup_cons.mp hnd).1⟩
        · exact hrange
      refine hb.grow h (fun x b j hx => ⟨List.mem_append_left _ hx.listed, ?_, ?_⟩)
        (List.sublist_append_left _ _) List.getLast?_concat hnew (fun b hm hf => ?_) hbusy
      · rw [hother hx.listed]
        exact hx.inUse
      · rw [hother hx.listed]
        exact hx.range
      · rcases List.mem_append.mp hm with hm | hm
        · rw [hother hm] at hf
          exact absurd hf (hopen.full b hm)
        · exact List.mem_singleton.mp hm

end Alloc

section Free

variable {m : MemMap} {p p' : Pools} {k : Kmem} {blks rows : List Adrsz} {size : SizeT}
  {a b addr : Adr} {i j : ℕ}

-- The page of a number in use is one of those that are held.
theorem KmemInv.exists_row (h : KmemInv m p k blks rows) (ha : a ∈ p.order)
    (hi : (p.pool a).InUse i) : ∃ pg ∈ rows, p.Home pg a i := by
  have hrange := (h.rep a ha).range_entry hi.1
  exact ⟨_, (h.held _).mpr ⟨a, ha, i, hi, hrange⟩, ha, hi, hrange⟩

-- The first row lies in the first pool.
theorem Pools.Sorted.head (hsorted : p.Sorted ((addr, size) :: rows)) (hbusy : p.Busy)
    (h : KmemInv m p k blks ((addr, size) :: rows)) (hh : p.Home (addr, size) a i) :
    p.order.head? = some a := by
  obtain ⟨b, rest, horder⟩ := List.exists_cons_of_ne_nil (List.ne_nil_of_mem hh.listed)
  rw [horder, List.head?_cons]
  obtain ⟨j, hj⟩ := hbusy b (by simp [horder])
  obtain ⟨pg, hpg, hhome⟩ := h.exists_row (by simp [horder]) hj
  rcases List.mem_cons.mp hpg with rfl | hpg
  · rw [(h.home_unique hhome hh).1]
  · obtain ⟨c, d, _, _, hc, hd, hcd⟩ := (List.pairwise_cons.mp hsorted).1 pg hpg
    obtain rfl := (h.home_unique hc hh).1
    obtain rfl := (h.home_unique hd hhome).1
    rcases hcd with rfl | hsub
    · rfl
    · have hnd := horder ▸ h.nodup
      rw [horder] at hsub
      cases hsub with
      | cons _ hsub => exact absurd (hsub.subset (by simp)) (List.nodup_cons.mp hnd).1
      | cons_cons _ _ => rfl

-- Releasing a page leaves the others where they are, and the pools in their order.
theorem Pools.Step.freed (hs : p.Step m (.free addr size true) p') (hnd : p.order.Nodup) :
    (∀ x b j, p.Home x b j → x ≠ (addr, size) → p'.Home x b j) ∧
      ∀ b c, b ∈ p'.order → c ∈ p'.order → [b, c].Sublist p.order → [b, c].Sublist p'.order := by
  cases hs with
  | @give a _ _ i j ha hi hrange hj hij =>
      have hpage := Pools.page_set (p := p) (show ((p.pool a).give i).page = (p.pool a).page from rfl)
      refine ⟨fun x b l hx hne => ⟨hx.listed, ?_, (hpage b).symm ▸ hx.range⟩, fun _ _ _ _ hs => hs⟩
      by_cases hba : b = a
      · subst hba
        rw [Pools.set_self, Pool.inUse_give]
        refine ⟨hx.inUse, ?_⟩
        rintro rfl
        exact hne (range_injective (hx.range.trans hrange.symm))
      · rw [Pools.set_of_ne _ hba]
        exact hx.inUse
  | @close a _ _ i kb t' ha hi hrange hlast hfree =>
      constructor
      · intro x b l hx hne
        have hba : b ≠ a := by
          rintro rfl
          obtain rfl := hlast l hx.inUse
          exact hne (range_injective (hx.range.trans hrange.symm))
        refine ⟨hnd.mem_erase_iff.mpr ⟨hba, hx.listed⟩, ?_, ?_⟩ <;> dsimp only [Pools.remove] <;>
          rw [Pools.set_of_ne _ hba]
        · exact hx.inUse
        · exact hx.range
      · intro b c hb hc hsub
        have hba := (hnd.mem_erase_iff.mp hb).1
        have hca := (hnd.mem_erase_iff.mp hc).1
        have herase := hsub.erase a
        rwa [List.erase_of_not_mem (by simp [hba.symm, hca.symm])] at herase

-- The page that was handed out first is released.
theorem KmemInv.free_first (h : KmemInv m p k blks ((addr, size) :: rows)) (hbusy : p.Busy)
    (hsorted : p.Sorted ((addr, size) :: rows)) :
    ∃ k' p', kmemPoolFreePage k addr size = .ok (true, k') ∧ KmemInv m p' k' blks rows ∧
      p'.Busy ∧ p'.Sorted rows := by
  obtain ⟨a, i, hh⟩ := h.exists_home List.mem_cons_self
  have hfree := h.free_page hh
  rw [if_pos (Or.inr (hsorted.head hbusy h hh)), List.erase_cons_head] at hfree
  obtain ⟨k', p', hcall, hstep, hinv⟩ := hfree
  obtain ⟨hhome, horder⟩ := hstep.freed h.nodup
  obtain ⟨hfirst, hrest⟩ := List.pairwise_cons.mp hsorted
  have hnot := (List.nodup_cons.mp h.distinct).1
  refine ⟨k', p', hcall, hinv, hbusy.step h hstep (fun _ _ he => by cases he), ?_⟩
  refine hrest.imp_of_mem ?_
  rintro x y hx hy ⟨b, c, j, l, hb, hc, hbc⟩
  have hb := hhome x b j hb (ne_of_mem_of_not_mem hx hnot)
  have hc := hhome y c l hc (ne_of_mem_of_not_mem hy hnot)
  exact ⟨b, c, j, l, hb, hc, hbc.imp_right (horder b c hb.listed hc.listed)⟩

end Free

section Room

variable {m : MemMap} {p : Pools} {k : Kmem} {blks rows : List Adrsz} {c : Slab}

-- Each pool holds a page.
theorem Pools.Busy.length_le (hbusy : p.Busy) (h : KmemInv m p k blks rows) :
    p.order.length ≤ rows.length := by
  have hrow (a : Adr) (ha : a ∈ p.order) : ∃ pg ∈ rows, ∃ i, p.Home pg a i := by
    obtain ⟨i, hi⟩ := hbusy a ha
    obtain ⟨pg, hpg, hhome⟩ := h.exists_row ha hi
    exact ⟨pg, hpg, i, hhome⟩
  choose! f hf hhome using hrow
  have hmaps : ∀ a ∈ p.order.toFinset, f a ∈ rows.toFinset := fun a ha =>
    List.mem_toFinset.mpr (hf a (List.mem_toFinset.mp ha))
  have hinj : Set.InjOn f p.order.toFinset := by
    intro a ha b hb he
    obtain ⟨i, hi⟩ := hhome a (List.mem_toFinset.mp ha)
    obtain ⟨j, hj⟩ := hhome b (List.mem_toFinset.mp hb)
    exact (h.home_unique hi (he ▸ hj)).1
  have hle := Finset.card_le_card_of_injOn f hmaps hinj
  rw [List.toFinset_card_of_nodup h.nodup] at hle
  exact hle.trans (List.toFinset_card_le rows)

-- No block is left only where clients and pages come near the number of descriptors.
theorem KmemInv.count_le (h : KmemInv m p k blks rows) (hbusy : p.Busy)
    (hnone : p.shelves.alloc c = none) : m.count ≤ blks.length + rows.length + 1 := by
  have hle := h.blk.count_le hnone
  have hout := h.taken.length_eq
  have hpools := hbusy.length_le h
  rw [List.length_append] at hle
  rw [List.length_map] at hout
  omega

end Room

section Run

variable {m : MemMap} {p : Pools} {k : Kmem} {c : MemState} {rows : List Adrsz} {size : SizeT}

-- The kernel has come to `k` in a run, with these pages held beside the blocks of `c`.
def Comes (c : MemState) (k : Kmem) (rows : List Adrsz) : Prop :=
  ∃ pages : List Adrsz, pages.Perm rows ∧ Reachable MemStep c ⟨k, c.blks, pages⟩

theorem KmemInv.permRows {blks rows' : List Adrsz} (h : KmemInv m p k blks rows)
    (hp : rows.Perm rows') : KmemInv m p k blks rows' :=
  ⟨h.blk, h.rings, h.rep, h.base, h.count, h.cache, h.taken,
    fun pg => hp.mem_iff.symm.trans (h.held pg), hp.nodup_iff.mp h.distinct⟩

theorem perm_rows {pages : List Adrsz} (h : pages.Perm rows) (pg : Adrsz) :
    (pg :: pages).Perm (rows ++ [pg]) :=
  (h.cons pg).trans (List.perm_append_singleton pg rows).symm

-- Either there is a page for every turn, or the memory is used up.
theorem testAllocs_run {cls : Slab} (hcls : poolClass size.toNat = some cls)
    (hhi : size.toNat ≤ 0x1f000) (n : ℕ) (h : KmemInv m p k c.blks rows)
    (hb : p.Batch size rows) (hc : Comes c k rows) :
    (testAllocs size n rows k = .die "testpagemgr kmempool_new err" ∧
        m.count ≤ c.blks.length + (rows.length + n)) ∨
      ∃ rows' k' p', testAllocs size n rows k = .ok (rows', k') ∧ KmemInv m p' k' c.blks rows' ∧
        p'.Batch size rows' ∧ Comes c k' rows' := by
  induction n generalizing p k rows with
  | zero => exact Or.inr ⟨rows, k, p, rfl, h, hb, hc⟩
  | succ n ih =>
      obtain ⟨ret, k', p', hcall, hstep, hinv, -⟩ := h.alloc_page size
      rw [testAllocs, hcall, Outcome.ok_bind]
      dsimp only
      by_cases hret : ret = NULL
      · have hnone := ((hstep.alloc_outcome hcls hhi).1.mp hret).2
        have hcount := h.count_le hb.busy hnone
        rw [if_pos hret]
        exact Or.inl ⟨rfl, by omega⟩
      · rw [if_neg hret]
        obtain ⟨pages, hp, hr⟩ := hc
        rw [heldAfter, if_neg hret] at hinv
        have hmem : MemStep ⟨k, c.blks, pages⟩ (.page (.alloc size ret))
            ⟨k', c.blks, (ret, size) :: pages⟩ := by
          have hs : MemStep ⟨k, c.blks, pages⟩ (.page (.alloc size ret))
              ⟨k', c.blks, heldAfter pages (.alloc size ret)⟩ := .allocPage hcall
          rwa [heldAfter, if_neg hret] at hs
        have hnext := ih (hinv.permRows (perm_rows (.refl rows) _)) (hb.alloc h hstep hret hhi)
          ⟨_, perm_rows hp _, hr.trans (.single hmem)⟩
        rw [List.length_append, List.length_singleton] at hnext
        refine hnext.imp_left fun hdied => ⟨hdied.1, ?_⟩
        have hcount := hdied.2
        omega

theorem testFrees_run (h : KmemInv m p k c.blks rows) (hbusy : p.Busy) (hsorted : p.Sorted rows)
    (hc : Comes c k rows) : ∃ k' p', testFrees rows k = .ok k' ∧ KmemInv m p' k' c.blks [] ∧
      p'.Busy ∧ Comes c k' [] := by
  induction rows generalizing p k with
  | nil => exact ⟨k, p, rfl, h, hbusy, hc⟩
  | cons x rows ih =>
      obtain ⟨addr, size⟩ := x
      obtain ⟨k', p', hcall, hinv, hbusy', hsorted'⟩ := h.free_first hbusy hsorted
      obtain ⟨pages, hp, hr⟩ := hc
      have hmem : MemStep ⟨k, c.blks, pages⟩ (.page (.free addr size true))
          ⟨k', c.blks, heldAfter pages (.free addr size true)⟩ :=
        .freePage (hp.mem_iff.mpr List.mem_cons_self) hcall
      have herase : (pages.erase (addr, size)).Perm rows := by
        have he := hp.erase (addr, size)
        rwa [List.erase_cons_head] at he
      rw [testFrees, hcall, Outcome.ok_bind]
      exact ih hinv hbusy' hsorted' ⟨_, herase, hr.trans (.single hmem)⟩

-- With no page held there is no pool, and then the test of one size brings that back.
theorem testSize_run (hlo : 2 ^ 12 ≤ size.toNat) (hhi : size.toNat ≤ 0x1f000) (n : ℕ)
    (h : KmemInv m p k c.blks []) (hbusy : p.Busy) (hc : Comes c k []) :
    (testSize size n k = .die "testpagemgr kmempool_new err" ∧ m.count ≤ c.blks.length + n) ∨
      ∃ k' p', testSize size n k = .ok k' ∧ KmemInv m p' k' c.blks [] ∧ p'.Busy ∧
        Comes c k' [] := by
  obtain ⟨cls, hcls⟩ := poolClass_served hlo (by omega)
  have hempty := hbusy.drained h
  have hbatch : p.Batch size [] := ⟨hbusy, fun a ha => by simp [hempty] at ha, .nil⟩
  rw [testSize]
  rcases testAllocs_run hcls hhi n h hbatch hc with ⟨hdie, hcount⟩ | ⟨rows, k', p', hok, h', hb', hc'⟩
  · rw [hdie, Outcome.die_bind]
    rw [List.length_nil, Nat.zero_add] at hcount
    exact Or.inl ⟨rfl, hcount⟩
  · have hend : ∀ x ∈ rows, 0 < x.2.toNat ∧ x.1.toNat + x.2.toNat < 2 ^ 32 := by
      intro x hx
      obtain ⟨a, i, hh⟩ := h'.exists_home hx
      have haddr : x.1.toNat = ((p'.pool a).page i).1 := congrArg Prod.fst hh.range
      have hsize : x.2.toNat = (p'.pool a).size := congrArg Prod.snd hh.range
      have hlast := Pool.page_address_lt hh.inUse.1
      have hpos := (p'.pool a).size_pos
      omega
    obtain ⟨k'', p'', hfree, h'', hbusy'', hc''⟩ := testFrees_run h' hb'.busy hb'.sorted hc'
    rw [hok, Outcome.ok_bind]
    dsimp only
    rw [cmpAdrsz_ok h'.pages_apart hend, Outcome.ok_bind]
    exact Or.inr ⟨k'', p'', hfree, h'', hbusy'', hc''⟩

-- By induction on the turns that are left.
theorem testpagemgrLoop_run (fuel : ℕ) {alcsz : SizeT} (hlo : 2 ^ 12 ≤ alcsz.toNat)
    (hfuel : 0x19000 ≤ alcsz.toNat + fuel) (h : KmemInv m p k c.blks []) (hbusy : p.Busy)
    (hc : Comes c k []) :
    (testpagemgrLoop (fuel + 1) alcsz k = .die "testpagemgr kmempool_new err" ∧
        m.count ≤ c.blks.length + 30) ∨
      ∃ k' p', testpagemgrLoop (fuel + 1) alcsz k = .ok k' ∧ KmemInv m p' k' c.blks [] ∧
        p'.Busy ∧ Comes c k' [] := by
  have hlimit : (0x19000 : SizeT).toNat = 0x19000 := rfl
  induction fuel generalizing alcsz p k with
  | zero =>
      have hstop : ¬alcsz < 0x19000 := by
        rw [BitVec.lt_def, hlimit]
        omega
      rw [testpagemgrLoop, if_neg hstop]
      exact Or.inr ⟨k, p, rfl, h, hbusy, hc⟩
  | succ fuel ih =>
      rw [testpagemgrLoop]
      by_cases hgo : alcsz < 0x19000
      · have hlt := BitVec.lt_def.mp hgo
        rw [hlimit] at hlt
        have hpage : (0x1000 : SizeT).toNat = 0x1000 := rfl
        have hnext : (alcsz + 0x1000).toNat = alcsz.toNat + 0x1000 := by
          rw [BitVec.toNat_add, hpage]
          exact Nat.mod_eq_of_lt (by omega)
        rw [if_pos hgo]
        rcases testSize_run hlo (by omega) 30 h hbusy hc with
          ⟨hdie, hcount⟩ | ⟨k', p', hok, h', hbusy', hc'⟩
        · rw [hdie, Outcome.die_bind]
          exact Or.inl ⟨rfl, hcount⟩
        · rw [hok, Outcome.ok_bind]
          exact ih (by omega) (by omega) h' hbusy' hc'
      · rw [if_neg hgo]
        exact Or.inr ⟨k, p, rfl, h, hbusy, hc⟩

end Run

-- Wherever no pool is listed, the test of the page allocator fails for lack of memory only, and
-- not with 31 descriptors more than clients hold blocks. It gives back all that it has taken.
theorem testpagemgr_returns {k : Kmem} {c : MemState} (hb : KmemBooted k)
    (hr : Reachable MemStep (memStart k) c) (hnone : ∀ a, ¬OnPoolList c.kmem a) :
    (testpagemgr c.kmem = .die "testpagemgr kmempool_new err" ∨
      ∃ k', testpagemgr c.kmem = .ok k' ∧ Reachable MemStep c ⟨k', c.blks, []⟩ ∧
        (∀ a, ¬OnPoolList k' a) ∧ k'.pagePoolCount = 0 ∧ outstanding k'.blkCalls = []) ∧
    (c.blks.length + 30 < c.kmem.mm.mach.memDescCount →
      testpagemgr c.kmem ≠ .die "testpagemgr kmempool_new err") := by
  obtain ⟨m, p, h⟩ := hb.reachable hr
  have horder : p.order = [] :=
    List.eq_nil_iff_forall_not_mem.mpr fun a ha => hnone a ((h.onPoolList a).mpr ha)
  have hpages : c.pages = [] := by
    refine List.eq_nil_iff_forall_not_mem.mpr fun pg hpg => ?_
    obtain ⟨a, i, hh⟩ := h.exists_home hpg
    exact hnone a ((h.onPoolList a).mpr hh.listed)
  have hc : Comes c c.kmem [] := ⟨c.pages, by rw [hpages], .refl c⟩
  have hbusy : p.Busy := fun a ha => by simp [horder] at ha
  have hcount := h.blk.rep.count
  rw [hpages] at h
  have hlimit : WALK_LIMIT = 2 ^ 32 - 1 + 1 := rfl
  rw [testpagemgr, hlimit]
  rcases testpagemgrLoop_run (2 ^ 32 - 1) (show 2 ^ 12 ≤ (0x1000 : SizeT).toNat by decide)
      (by decide) h hbusy hc with ⟨hdie, hle⟩ | ⟨k', p', hok, h', hbusy', pages, hp, hreach⟩
  · exact ⟨Or.inl hdie, fun hroom => by omega⟩
  · have horder' := hbusy'.drained h'
    obtain rfl := hp.eq_nil
    refine ⟨Or.inr ⟨k', hok, hreach, fun a ha => ?_, ?_, ?_⟩, fun _ hdie => ?_⟩
    · rw [h'.onPoolList, horder'] at ha
      exact absurd ha List.not_mem_nil
    · rw [h'.count, horder']
      rfl
    · have htaken := h'.taken
      rw [horder', List.map_nil] at htaken
      exact htaken.eq_nil
    · rw [hok] at hdie
      cases hdie

-- On the shipped memory it passes.
theorem testpagemgr_returns_shipped : ∃ k', testpagemgr bootKmem = .ok k' ∧ k'.pagePoolCount = 0 := by
  have hnone (a : Adr) : ¬OnPoolList bootKmem a := by
    obtain ⟨m, t, h⟩ := bootKmem_booted.start
    rw [h.onPoolList]
    exact List.not_mem_nil
  obtain ⟨hdie | ⟨k', hok, -, -, hcount, -⟩, hroom⟩ :=
    testpagemgr_returns bootKmem_booted (.refl (memStart bootKmem)) hnone
  · exact absurd hdie (hroom (by decide +kernel))
  · exact ⟨k', hok, hcount⟩

end Lmosem
