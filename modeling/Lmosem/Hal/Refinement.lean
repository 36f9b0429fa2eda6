import Lmosem.Hal.Calls
import Lmosem.Hal.ShelvesSteps

namespace Lmosem

open Intrusive SlabQueue Region Shelves

-- Descriptor `k`, standing in the queue at `p`, agrees with the shelves.
structure DescRep (m : MemMap) (t : Shelves) (p : SlabHead) (k : ℕ) (d : MemDesc) : Prop where
  start : d.startAddr.toNat = m.base k
  stop : d.endAddr.toNat = m.base k + (2 ^ 22 - 1)
  bits : Bits.ones d.mapCount = t.used k
  flag : d.flag = slabFlag p.1

theorem DescRep.mapCount_eq_zero {m : MemMap} {t : Shelves} {p : SlabHead} {k : ℕ} {d : MemDesc}
    (hd : DescRep m t p k d) : d.mapCount = 0 ↔ t.used k = ∅ := by
  rw [show (0 : U32) = 0#32 from rfl, ← Bits.ones_eq_empty, hd.bits]

theorem DescRep.unique {m : MemMap} {p : SlabHead} {t t' : Shelves} {k : ℕ} {d d' : MemDesc}
    (hd : DescRep m t p k d) (hd' : DescRep m t' p k d') (hused : t.used k = t'.used k) : d = d' := by
  have hstart := BitVec.eq_of_toNat_eq (hd.start.trans hd'.start.symm)
  have hstop := BitVec.eq_of_toNat_eq (hd.stop.trans hd'.stop.symm)
  have hbits := Bits.ones_injective _ _ (hd.bits.trans (hused.trans hd'.bits.symm))
  have hflag := hd.flag.trans hd'.flag.symm
  cases d
  cases d'
  simp_all

structure Rep (m : MemMap) (s : Mm) (t : Shelves) : Prop where
  count : s.mach.memDescCount = m.count
  size : ∀ i, (s.slabs i).size = slabSize i
  rings : Rings s.links t.queue
  descs : ∀ p k, k ∈ t.queue p → ∃ d, s.descs k = some d ∧ DescRep m t p k d

section Lookup

variable {m : MemMap} {s : Mm} {t : Shelves}

theorem Rep.desc {p : SlabHead} {k : ℕ} (h : Rep m s t) (hk : k ∈ t.queue p) :
    ∃ d, s.desc k = .ok d ∧ DescRep m t p k d := by
  obtain ⟨d, hd, hrep⟩ := h.descs p k hk
  exact ⟨d, by simp [Mm.desc, hd], hrep⟩

theorem Rep.listEmpty (h : Rep m s t) (p : SlabHead) :
    listEmpty s.links (.head p) = (t.queue p).isEmpty := listEmpty_rings h.rings p

theorem Rep.head_entry (h : Rep m s t) {p : SlabHead} {k : ℕ} {ks : List ℕ}
    (hp : t.queue p = k :: ks) : s.links.next (.head p) = .entry k := by
  rw [h.rings.next_head p, hp]

theorem Rep.findSlabBySize_eq (h : Rep m s t) (i : Slab) :
    findSlabBySize s (slabSize i) =
      if t.queue (i, emptyList) ≠ [] ∨ t.queue (i, partialList) ≠ [] then
        (some i, some i, slabSize i)
      else if t.queue (lastSlab, emptyList) ≠ [] then (some lastSlab, some i, slabSize i)
      else (none, some i, slabSize i) := by
  unfold findSlabBySize
  rw [find_size h.size i]
  simp only [h.listEmpty, h.size, ne_eq, List.isEmpty_eq_false_iff]

-- One class of 4 MB blocks is full as soon as it is in use at all.
theorem Shelves.Inv.no_partial_last (hi : Inv m t) : t.queue (lastSlab, partialList) = [] := by
  rw [List.eq_nil_iff_forall_not_mem]
  intro k hk
  obtain ⟨⟨b, hb⟩, hsub⟩ := hi.split lastSlab k (Or.inr hk)
  have hb0 := Finset.mem_range.mp (hsub hb)
  have hbits : blkBits lastSlab = 1 := rfl
  refine hi.room lastSlab k hk fun c hc => ?_
  have hc0 := Finset.mem_range.mp hc
  have : c = b := by omega
  exact this ▸ hb

-- The two lookups of an allocation together are `pick`.
theorem Rep.find_some (h : Rep m s t) (hi : Inv m t) {i : Slab} {k : ℕ} (hk : t.pick i = some k) :
    ∃ a, findSlabBySize s (slabSize i) = (some a, some i, slabSize i) ∧
      findDescInSlab s a = .ok (some k) ∧ (a = i ∨ a = lastSlab) := by
  rw [h.findSlabBySize_eq]
  cases hp : t.queue (i, partialList) with
  | cons x xs =>
      have hx : x = k := by simpa [pick, hp] using hk
      subst hx
      refine ⟨i, by simp, ?_, Or.inl rfl⟩
      simp [findDescInSlab, h.listEmpty, hp, h.head_entry hp, listEntry]
  | nil =>
      cases he : t.queue (lastSlab, emptyList) with
      | nil => simp [pick, hp, he] at hk
      | cons x xs =>
          have hx : x = k := by simpa [pick, hp, he] using hk
          subst hx
          refine ⟨lastSlab, ?_, ?_, Or.inr rfl⟩
          · by_cases hil : i = lastSlab
            · subst hil
              simp [he]
            · simp [hi.noEmpty i hil]
          · simp [findDescInSlab, h.listEmpty, hi.no_partial_last, he, h.head_entry he, listEntry]

theorem Rep.find_none (h : Rep m s t) (hi : Inv m t) {i : Slab} (hk : t.pick i = none) :
    findSlabBySize s (slabSize i) = (none, some i, slabSize i) := by
  obtain ⟨hp, he⟩ := pick_eq_none.mp hk
  rw [h.findSlabBySize_eq]
  by_cases hil : i = lastSlab
  · subst hil
    simp [hp, he]
  · simp [hp, he, hi.noEmpty i hil]

end Lookup

section Simulation

variable {m : MemMap} {s : Mm} {t t' : Shelves} {i : Slab} {k b : ℕ}

-- Rewriting one descriptor and moving its cell follows a move of its number.
theorem Rep.moveTail {p p' : SlabHead} {d : MemDesc} (h : Rep m s t) (ha : Queues.Apart t.queue)
    (hk : k ∈ t.queue p) (hqueue : t'.queue = Queues.move t.queue k p')
    (hused : ∀ x, x ≠ k → t'.used x = t.used x) (hd : DescRep m t' p' k d) :
    Rep m (moveTail (s.setDesc k d) k p') t' := by
  refine ⟨h.count, h.size, ?_, ?_⟩
  · rw [hqueue]
    exact listMoveTail_rings h.rings hk p'
  · intro r x hx
    rw [hqueue, ha.mem_move] at hx
    rcases hx with ⟨hxk, hx⟩ | ⟨rfl, rfl⟩
    · obtain ⟨dx, hdx, hrep⟩ := h.descs r x hx
      refine ⟨dx, ?_, hrep.start, hrep.stop, ?_, hrep.flag⟩
      · simpa [Lmosem.moveTail, Mm.setDesc, Function.update_of_ne hxk] using hdx
      · rw [hused x hxk, hrep.bits]
    · exact ⟨d, by simp [Lmosem.moveTail, Mm.setDesc], hd⟩

theorem Rep.setDesc {p : SlabHead} {d : MemDesc} (h : Rep m s t) (ha : Queues.Apart t.queue)
    (hk : k ∈ t.queue p) (hqueue : t'.queue = t.queue)
    (hused : ∀ x, x ≠ k → t'.used x = t.used x) (hd : DescRep m t' p k d) :
    Rep m (s.setDesc k d) t' := by
  refine ⟨h.count, h.size, hqueue ▸ h.rings, ?_⟩
  intro r x hx
  rw [hqueue] at hx
  by_cases hxk : x = k
  · subst hxk
    obtain rfl := ha.unique _ _ x hx hk
    exact ⟨d, by simp [Mm.setDesc], hd⟩
  · obtain ⟨dx, hdx, hrep⟩ := h.descs r x hx
    refine ⟨dx, ?_, hrep.start, hrep.stop, ?_, hrep.flag⟩
    · simpa [Mm.setDesc, Function.update_of_ne hxk] using hdx
    · rw [hused x hxk, hrep.bits]

-- The address arithmetic of an allocation does not wrap.
theorem block_address {p : SlabHead} {d : MemDesc} (hi : Inv m t) (hk : k ∈ t.queue p)
    (hd : DescRep m t p k d) (hb : b < blkBits i) :
    (d.startAddr + slabSize i * BitVec.ofNat 32 b).toNat = (block m i k b).1 := by
  have hm := m.bounded k ((hi.cover k).mpr ⟨p, hk⟩)
  have hstart := hd.start
  rw [← hd.start] at hm
  exact (blkAddr_toNat hb (Nat.le_of_lt hm)).trans (by rw [hstart]; rfl)

-- Every check an allocation makes on its way passes.
theorem Rep.alloc_checks (h : Rep m s t) (hi : Inv m t) (ha : t.alloc i = some ((k, b), t')) :
    ∃ a p d, findSlabBySize s (slabSize i) = (some a, some i, slabSize i) ∧
      ¬(slabSize a ≠ slabSize i ∧ slabSize a ≠ BLK4MB_SIZE) ∧
      findDescInSlab s a = .ok (some k) ∧ k ∈ t.queue p ∧ s.desc k = .ok d ∧ DescRep m t p k d ∧
      scanMapCount d.mapCount (blkBits i) 0 = b ∧
      (d.startAddr + slabSize i * BitVec.ofNat 32 b).toNat = (block m i k b).1 ∧
      ¬(d.startAddr + slabSize i * BitVec.ofNat 32 b < d.startAddr ∨
        d.startAddr + slabSize i * BitVec.ofNat 32 b ≥ d.endAddr) := by
  have hzero := alloc_firstZero ha
  obtain ⟨hpick, hb, -, -, -⟩ := alloc_cases ha
  obtain ⟨p, hp⟩ := hi.pick_mem hpick
  obtain ⟨d, hd, hrep⟩ := h.desc hp
  obtain ⟨a, hslab, hdesc, hal⟩ := h.find_some hi hpick
  have hscan : scanMapCount d.mapCount (blkBits i) 0 = b :=
    scanMapCount_firstZero (hrep.bits ▸ hzero)
  have haddr := block_address hi hp hrep hb
  have hsame : ¬(slabSize a ≠ slabSize i ∧ slabSize a ≠ BLK4MB_SIZE) := by
    rcases hal with rfl | rfl
    · exact fun hne => hne.1 rfl
    · exact fun hne => hne.2 rfl
  refine ⟨a, p, d, hslab, hsame, hdesc, hp, hd, hrep, hscan, haddr, ?_⟩
  have hsz := blkSize_le i
  have hw := block_within (m := m) hb k
  simp only [ge_iff_le, BitVec.lt_def, BitVec.le_def, haddr, hrep.start, hrep.stop]
  simp only [Within, block, slot] at hw ⊢
  omega

theorem Rep.alloc (h : Rep m s t) (hi : Inv m t) (ha : t.alloc i = some ((k, b), t')) :
    ∃ a s', allocMemBlk s (slabSize i) = .ok (a, s') ∧ a.toNat = (block m i k b).1 ∧
      Rep m s' t' ∧ s'.mach = s.mach := by
  obtain ⟨-, hb, -, hused, q, hq, hfull, hqueue⟩ := alloc_cases ha
  obtain ⟨a, p, d, hslab, hsame, hdesc, hp, hd, hrep, hscan, haddr, hrange⟩ := h.alloc_checks hi ha
  have hdesc' : s.descs k = some d := Mm.desc_eq_ok.mp hd
  have hbits := blkBits_le i
  have hones : Bits.ones (takenDesc d i b).mapCount = insert b (t.used k) := by
    rw [takenDesc, Bits.ones_set _ (by omega), hrep.bits]
  have hmask : (takenDesc d i b).mapCount &&& slabMask i = slabMask i ↔ q = fullList := by
    rw [hfull, Bits.and_mask_eq_mask, ones_slabMask, hones]
  have hmoveto : takenQueue d i b = q := by
    rw [takenQueue]
    cases q with
    | fullList => exact if_pos (hmask.mpr rfl)
    | partialList => exact if_neg fun hc => absurd (hmask.mp hc) (by simp)
    | emptyList => exact absurd rfl hq
  have hrep' : DescRep m t' (i, q) k (takenDesc d i b) := by
    refine ⟨hrep.start, hrep.stop, ?_, ?_⟩
    · rw [hused, Function.update_self]
      exact hones
    · simp only [takenDesc, hrep.flag, slabFlag_recode]
  have hmoved := h.moveTail hi.apart hp hqueue
    (fun x hx => by rw [hused, Function.update_of_ne hx]) hrep'
  have hoffers : Offers s i k := ⟨a, by rw [hslab], hdesc⟩
  have hzero : Bits.firstZero (Bits.ones d.mapCount) (blkBits i) = some b :=
    hrep.bits.symm ▸ alloc_firstZero ha
  refine ⟨blkAddr d i b, _, allocMemBlk_taken h.size hoffers hdesc' hzero hrange, haddr, ?_, rfl⟩
  rwa [takeBlk, hmoveto]

theorem Rep.alloc_none (h : Rep m s t) (hi : Inv m t) (ha : t.alloc i = none) :
    allocMemBlk s (slabSize i) = .ok (NULL, s) := by
  have hpick : t.pick i = none := pick_eq_none.mpr (hi.alloc_eq_none.mp ha)
  rw [allocMemBlk, if_neg (slabSize_in_range i), allocMemBlkCore, h.find_none hi hpick]

theorem Rep.alloc_other (h : Rep m s t) {size : SizeT} (hs : ∀ i, size ≠ slabSize i) :
    allocMemBlk s size = .ok (NULL, s) := by
  rw [allocMemBlk, allocMemBlkCore, findSlabBySize, find_size_none h.size hs, ite_self]

-- The search for the descriptor of a freed address.
theorem Rep.findDescOnList (h : Rep m s t) (hi : Inv m t) (addr : Adr) (p : SlabHead) :
    findDescOnList s addr p = .ok ((t.queue p).find? fun k => m.Covers k addr.toNat) := by
  have hlen : (t.queue p).length < WALK_LIMIT := by
    have hsub : (t.queue p) ⊆ List.range m.count := fun k hk =>
      List.mem_range.mpr ((hi.cover k).mpr ⟨p, hk⟩)
    have hle := ((hi.apart.nodup p).subperm hsub).length_le
    have hcount := m.count_le
    simp only [List.length_range] at hle
    simp only [WALK_LIMIT]
    omega
  rw [Lmosem.findDescOnList, h.listEmpty, List.find?_eq_findSome?_guard]
  by_cases hnil : t.queue p = []
  · simp [hnil]
  · rw [if_pos (by simp [hnil])]
    apply listForEachEntry_rings h.rings p _ _ _ hlen
    intro k hk
    obtain ⟨d, hd, hrep⟩ := h.desc hk
    have hcond : (d.startAddr ≤ addr ∧ addr < d.endAddr) ↔ m.Covers k addr.toNat := by
      rw [BitVec.le_def, BitVec.lt_def, hrep.start, hrep.stop, MemMap.Covers]
    by_cases hin : m.Covers k addr.toNat <;>
      simp [listEntry, hd, hcond, Option.guard_def, hin]

theorem Rep.findDescForFree (h : Rep m s t) (hi : Inv m t) (addr : Adr) :
    findDescForFree s addr i = .ok (t.find m i addr.toNat) := by
  rw [Lmosem.findDescForFree, h.findDescOnList hi, Outcome.ok_bind, h.findDescOnList hi,
    Shelves.find, List.find?_append]
  cases (t.queue (i, fullList)).find? _ <;> rfl

-- The bit number of an address, computed on machine words, is its slot in the piece.
theorem bit_number {p : SlabHead} {d : MemDesc} {addr : Adr} (hd : DescRep m t p k d)
    (hlo : m.base k ≤ addr.toNat) :
    ((addr - d.startAddr) / slabSize i).toNat = (addr.toNat - m.base k) / blkSize i := by
  have hle : d.startAddr ≤ addr := by rw [BitVec.le_def, hd.start]; exact hlo
  rw [BitVec.toNat_udiv, BitVec.toNat_sub_of_le hle, hd.start, slabSize_toNat]

theorem MemMap.Covers.slot_le {addr : ℕ} (h : m.Covers k addr) (i : Slab) :
    (addr - m.base k) / blkSize i ≤ 31 := by
  have hsz := blkSize_le i
  have hlt : addr - m.base k < 2 ^ 22 := by have := h.2; omega
  have hdiv : (addr - m.base k) / blkSize i ≤ (addr - m.base k) / 2 ^ 17 :=
    Nat.div_le_div_left hsz.1 (by decide)
  omega

theorem Shelves.find_null (hi : Inv m t) : t.find m i 0 = none := by
  cases hf : t.find m i 0 with
  | none => rfl
  | some k =>
      obtain ⟨hk, hlo, -⟩ := find_cases hf
      have := m.base_pos k (hi.onShelf_lt hk)
      omega

-- All checks in front of `__free_blk_in_slab`; the search itself finds nothing at address 0.
theorem Rep.freeMemBlk_eq (h : Rep m s t) (hi : Inv m t) (addr : Adr) (i : Slab) :
    freeMemBlk s addr (slabSize i) =
      freeBlkInSlab' s addr i lastSlab (slabAcsz lastSlab) (slabMask i) := by
  by_cases hnull : addr = NULL
  · subst hnull
    rw [freeMemBlk, if_pos (Or.inl rfl), freeBlkInSlab', h.findDescForFree hi]
    simp [find_null hi]
  · exact Lmosem.freeMemBlk_eq h.size hnull i

theorem Rep.free (h : Rep m s t) (hi : Inv m t) {addr : Adr}
    (hf : t.free m i addr.toNat = some ((k, b), t')) :
    ∃ s', freeMemBlk s addr (slabSize i) = .ok (true, s') ∧ Rep m s' t' ∧ s'.mach = s.mach := by
  obtain ⟨hfind, hb, hmem, hused, hqueue⟩ := free_cases hf
  obtain ⟨hk, hcov⟩ := find_cases hfind
  obtain ⟨q, hq⟩ : ∃ q, k ∈ t.queue (i, q) := hk.elim (fun hm => ⟨_, hm⟩) (fun hm => ⟨_, hm⟩)
  obtain ⟨d, hd, hrep⟩ := h.descs _ k hq
  have hbit : ((addr - d.startAddr) / slabSize i).toNat = b := by
    rw [bit_number hrep hcov.1, hb]
  have hfound : Lmosem.findDescForFree s addr i = .ok (some k) := by rw [h.findDescForFree hi, hfind]
  have hset : b ≤ 31 ∧ b ∈ Bits.ones d.mapCount := by
    have := hcov.slot_le i
    exact ⟨by omega, hrep.bits.symm ▸ hmem⟩
  have hones : Bits.ones (clearedDesc d b).mapCount = (t.used k).erase b := by
    rw [clearedDesc, Bits.ones_clear, hrep.bits]
  have hsub : (t.used k).erase b ⊆ Finset.range (blkBits i) :=
    (Finset.erase_subset _ _).trans (hi.split i k hk).2
  have hempty : (clearedDesc d b).mapCount &&& slabMask i = 0 ↔ (t.used k).erase b = ∅ := by
    rw [show (0 : U32) = 0#32 from rfl, Bits.and_mask_eq_zero, ones_slabMask, hones,
      Finset.inter_eq_left.mpr hsub]
  have hother : ∀ x, x ≠ k → t'.used x = t.used x := fun x hx => by
    rw [hused, Function.update_of_ne hx]
  refine ⟨giveBlk s i k b d, ?_, ?_⟩
  · rw [h.freeMemBlk_eq hi, freeBlkInSlab'_eq h.size hfound hd hbit, if_pos hset]
  rw [giveBlk]
  by_cases he : (t.used k).erase b = ∅
  · rw [if_pos he] at hqueue
    rw [if_pos (hempty.mpr he)]
    refine ⟨h.moveTail hi.apart hq hqueue hother ⟨hrep.start, hrep.stop, ?_, ?_⟩, rfl⟩
    · rw [hused, Function.update_self]
      exact hones
    · simp only [hrep.flag, slabFlag_recode]
  · rw [if_neg he] at hqueue
    rw [if_neg fun hc => he (hempty.mp hc)]
    refine ⟨h.setDesc hi.apart hq hqueue hother ⟨hrep.start, hrep.stop, ?_, hrep.flag⟩, rfl⟩
    rw [hused, Function.update_self]
    exact hones

theorem Rep.free_none (h : Rep m s t) (hi : Inv m t) {addr : Adr}
    (hf : t.free m i addr.toNat = none) :
    freeMemBlk s addr (slabSize i) = .ok (false, s) := by
  rw [h.freeMemBlk_eq hi]
  cases hfind : t.find m i addr.toNat with
  | none =>
      rw [freeBlkInSlab', h.findDescForFree hi, hfind]
      rfl
  | some k =>
      obtain ⟨hk, hcov⟩ := find_cases hfind
      obtain ⟨q, hq⟩ : ∃ q, k ∈ t.queue (i, q) := hk.elim (fun hm => ⟨_, hm⟩) (fun hm => ⟨_, hm⟩)
      obtain ⟨d, hd, hrep⟩ := h.descs _ k hq
      have hnot : (addr.toNat - m.base k) / blkSize i ∉ Bits.ones d.mapCount := by
        intro hm
        rw [hrep.bits] at hm
        simp [Shelves.free, hfind, hm] at hf
      have hfound : Lmosem.findDescForFree s addr i = .ok (some k) := by rw [h.findDescForFree hi, hfind]
      rw [freeBlkInSlab'_eq h.size hfound hd (bit_number hrep hcov.1), if_neg fun hc => hnot hc.2]

theorem Rep.free_other (h : Rep m s t) {size : SizeT} (hs : ∀ i, size ≠ slabSize i) (addr : Adr) :
    freeMemBlk s addr size = .ok (false, s) := by
  rw [freeMemBlk, freeMemBlkCore, find_size_none h.size hs, ite_self]

end Simulation

end Lmosem
