import Lmosem.Hal.Runs

namespace Lmosem

open Intrusive SlabQueue Region Shelves Transition

section Checks

variable {m : MemMap} {t : Shelves} {s : Mm} {live : List (Adr × SizeT)} {i : Slab}

-- The slab is found in exactly the states that have a descriptor to take a block from.
theorem Rep.find_fst (h : Rep m s t) (hi : t.Inv m) {tmp : Slab}
    (hf : (findSlabBySize s (slabSize i)).1 = some tmp) : ∃ k b t', t.alloc i = some ((k, b), t') := by
  cases ha : t.alloc i with
  | none =>
      have hp : t.pick i = none := pick_eq_none.mpr (hi.alloc_eq_none.mp ha)
      rw [h.find_none hi hp] at hf
      simp at hf
  | some r => exact ⟨r.1.1, r.1.2, r.2, rfl⟩

theorem alloc_none_iff_lists (h : Rep m s t) (hi : t.Inv m) (i : Slab) :
    t.alloc i = none ↔ listEmpty s.links (.head (i, partialList)) = true ∧
      listEmpty s.links (.head (lastSlab, emptyList)) = true := by
  rw [hi.alloc_eq_none, h.listEmpty, h.listEmpty, List.isEmpty_iff, List.isEmpty_iff]

end Checks

-- Behind a found slab every check passes, so only two empty lists refuse a block.
theorem late_exits_dead {s : Mm} {c : BlkState} (hb : Booted s)
    (hr : Reachable BlkStep ⟨s, []⟩ c) (i : Slab) :
    (∀ tmp, (findSlabBySize c.mm (slabSize i)).1 = some tmp →
      ∃ all retSize k d bi retAdr s',
        findSlabBySize c.mm (slabSize i) = (some tmp, some all, retSize) ∧ retSize ≠ 0 ∧
        ¬((c.mm.slabs tmp).size ≠ retSize ∧ (c.mm.slabs tmp).size ≠ BLK4MB_SIZE) ∧
        findDescInSlab c.mm tmp = .ok (some k) ∧ c.mm.desc k = .ok d ∧
        bi = scanMapCount d.mapCount (blkBits i) 0 ∧ bi < blkBits i ∧
        retAdr = d.startAddr + (c.mm.slabs all).size * BitVec.ofNat 32 bi ∧
        ¬(retAdr < d.startAddr ∨ retAdr ≥ d.endAddr) ∧
        allocMemBlk c.mm (slabSize i) = .ok (retAdr, s') ∧ retAdr ≠ NULL) ∧
      ((∃ s', allocMemBlk c.mm (slabSize i) = .ok (NULL, s')) ↔
        listEmpty c.mm.links (.head (i, partialList)) = true ∧
          listEmpty c.mm.links (.head (lastSlab, emptyList)) = true) := by
  obtain ⟨m, t, h⟩ := hb.reachable hr
  refine ⟨fun tmp hf => ?_, (h.alloc_null i).trans (alloc_none_iff_lists h.rep h.inv i)⟩
  obtain ⟨k, b, t', ha⟩ := h.rep.find_fst h.inv hf
  have hlt := (alloc_cases ha).2.1
  obtain ⟨a, p, d, hslab, hsame, hdesc, -, hd, -, hscan, haddr, hin⟩ := h.rep.alloc_checks h.inv ha
  obtain ⟨ret, s', hcall, hret, -⟩ := h.rep.alloc h.inv ha
  obtain rfl : a = tmp := by
    rw [hslab] at hf
    exact Option.some.inj hf
  have hadr : ret = d.startAddr + slabSize i * BitVec.ofNat 32 b :=
    BitVec.eq_of_toNat_eq (hret.trans haddr.symm)
  subst hadr
  refine ⟨i, slabSize i, k, d, b, _, s', hslab, slabSize_ne_zero i, ?_, hdesc, hd, hscan.symm, hlt,
    by rw [h.rep.size], hin, hcall, fun hnull => ?_⟩
  · rwa [h.rep.size]
  · have hnone := (h.alloc_null i).mp ⟨s', by rw [hcall, hnull]⟩
    rw [ha] at hnone
    simp at hnone

-- A block of 512 KB has left the rest of its descriptor on the partial list.
theorem late_exits_dead_shipped : ∃ c, Reachable BlkStep ⟨bootMm, []⟩ c ∧
    listEmpty c.mm.links (.head (2, partialList)) = false ∧
    (∃ retAdr s', allocMemBlk c.mm (slabSize 2) = .ok (retAdr, s') ∧ retAdr ≠ NULL) ∧
    ¬∃ s', allocMemBlk c.mm (slabSize 2) = .ok (NULL, s') := by
  obtain ⟨trace, c, hrun, hcheck⟩ := exists_run [.alloc BLK512KB_SIZE] ⟨bootMm, []⟩
    (fun _ c => (findSlabBySize c.mm (slabSize 2)).1 = some 2 ∧
      listEmpty c.mm.links (.head (2, partialList)) = false) (by decide +kernel)
  obtain ⟨hfind, hempty⟩ := of_decide_eq_true hcheck
  obtain ⟨hpass, hnull⟩ := late_exits_dead bootMm_booted ⟨trace, hrun⟩ 2
  obtain ⟨all, retSize, k, d, bi, retAdr, s', -, -, -, -, -, -, -, -, -, hcall, hne⟩ := hpass 2 hfind
  refine ⟨c, ⟨trace, hrun⟩, hempty, ⟨retAdr, s', hcall, hne⟩, fun h => ?_⟩
  rw [(hnull.mp h).1] at hempty
  cases hempty

end Lmosem
