import Lmosem.Hal.Safety

namespace Lmosem

open Intrusive SlabQueue Region Shelves Transition

-- `free_mem_blk(addr, size)` hits a block that nobody holds under this address: the
-- inside of a live block, up to the last byte of its descriptor, or the reserved block.
def Misfree (c : BlkState) (addr : Adr) (size : SizeT) : Prop :=
  (∃ blk ∈ c.live, blk.2 = size ∧ blk.1.toNat < addr.toNat ∧
    addr.toNat < blk.1.toNat + size.toNat ∧
    ∀ k d, k < c.mm.mach.memDescCount → c.mm.descs k = some d → addr ≠ d.endAddr) ∨
  (size = BLK128KB_SIZE ∧ ∃ d, c.mm.descs 0 = some d ∧ d.startAddr.toNat ≤ addr.toNat ∧
    addr.toNat < d.startAddr.toNat + BLK128KB_SIZE.toNat)

-- A call of `free_mem_blk` is answered with TRUE exactly when the caller held the block.
def Exact (mv : Move BlkState BlkEvent) : Prop :=
  ∀ addr size ret, mv.event = .free addr size ret →
    (ret = true ↔ (addr, size) ∈ mv.before.live)

def Misfreed (mv : Move BlkState BlkEvent) : Prop :=
  ∃ addr size ret, mv.event = .free addr size ret ∧ Misfree mv.before addr size

namespace Shelves

variable {m : MemMap} {t : Shelves} {i : Slab} {addr : ℕ}

-- `addr` is in block `b` of descriptor `k`, where a release looks for it.
def Hits (m : MemMap) (t : Shelves) (i : Slab) (addr k b : ℕ) : Prop :=
  t.OnShelf i k ∧ b ∈ t.used k ∧ (block m i k b).1 ≤ addr ∧
    addr < (block m i k b).1 + blkSize i ∧ addr ≠ m.base k + (2 ^ 22 - 1)

theorem Inv.free_iff_hits (hi : Inv m t) {k b : ℕ} :
    (∃ t', t.free m i addr = some ((k, b), t')) ↔ Hits m t i addr k b := by
  constructor
  · rintro ⟨t', hf⟩
    obtain ⟨hfind, hdiv, hb, -, -⟩ := free_cases hf
    obtain ⟨hk, hlo, hhi⟩ := find_cases hfind
    have hle := Nat.div_mul_le_self (addr - m.base k) (blkSize i)
    have hlt := Nat.lt_div_mul_add (a := addr - m.base k) (blkSize_pos i)
    rw [← hdiv] at hle hlt
    refine ⟨hk, hb, ?_, ?_, ?_⟩
    · simp only [block, slot]
      omega
    · simp only [block, slot]
      omega
    · omega
  · rintro ⟨hk, hb, hlo, hhi, hne⟩
    have hlt := Finset.mem_range.mp ((hi.split i k hk).2 hb)
    have hw := block_within (m := m) hlt k
    simp only [Within, block, slot] at hw hlo hhi
    refine hi.free_of hk ⟨by omega, by omega⟩ ?_ hb
    rw [Nat.div_eq_iff (blkSize_pos i)]
    have hmul : blkSize i * b = b * blkSize i := Nat.mul_comm _ _
    omega

end Shelves

theorem blkSize_zero : blkSize 0 = 2 ^ 17 := rfl

section Answers

variable {m : MemMap} {t : Shelves} {s : Mm} {c : BlkState} {addr : Adr} {size : SizeT}

-- A call always returns, and what it answers is whether it hits a marked block.
theorem BlkInv.free_answer {live : List (Adr × SizeT)} (h : BlkInv m t s live) (addr : Adr)
    (size : SizeT) :
    ∃ ret s', freeMemBlk s addr size = .ok (ret, s') ∧
      (ret = true ↔ ∃ i k b, size = slabSize i ∧ Hits m t i addr.toNat k b) ∧
      (ret = false → s' = s) := by
  by_cases hsize : ∃ i, size = slabSize i
  · obtain ⟨i, rfl⟩ := hsize
    cases hf : t.free m i addr.toNat with
    | none =>
        refine ⟨false, s, h.rep.free_none h.inv hf, ?_, fun _ => rfl⟩
        refine ⟨fun hret => absurd hret (by simp), ?_⟩
        rintro ⟨j, k, b, hj, hhit⟩
        obtain rfl := slabSize_injective hj
        obtain ⟨t', hf'⟩ := h.inv.free_iff_hits.mpr hhit
        rw [hf] at hf'
        simp at hf'
    | some r =>
        obtain ⟨⟨k, b⟩, t'⟩ := r
        obtain ⟨s', hcall, -, -⟩ := h.rep.free h.inv hf
        refine ⟨true, s', hcall, ?_, fun hret => absurd hret (by simp)⟩
        exact ⟨fun _ => ⟨i, k, b, rfl, h.inv.free_iff_hits.mp ⟨t', hf⟩⟩, fun _ => rfl⟩
  · have hother : ∀ i, size ≠ slabSize i := fun i hi => hsize ⟨i, hi⟩
    refine ⟨false, s, h.rep.free_other hother addr, ?_, fun _ => rfl⟩
    refine ⟨fun hret => absurd hret (by simp), ?_⟩
    rintro ⟨i, k, b, hi, -⟩
    exact absurd hi (hother i)

-- The last byte of the piece that holds `addr` is the only one that can stop a release.
theorem BlkInv.endAddr_ne (h : BlkInv m t c.mm c.live) {k : ℕ} (hk : k < m.count)
    (hlo : m.base k ≤ addr.toNat) (hhi : addr.toNat < m.base k + 2 ^ 22) :
    (∀ l d, l < c.mm.mach.memDescCount → c.mm.descs l = some d → addr ≠ d.endAddr) ↔
      addr.toNat ≠ m.base k + (2 ^ 22 - 1) := by
  constructor
  · intro hall he
    obtain ⟨p, d, -, hd, hrep⟩ := h.rep.desc_of_lt h.inv hk
    exact hall k d (h.rep.count ▸ hk) hd (BitVec.eq_of_toNat_eq (he.trans hrep.stop.symm))
  · rintro hne l d hl hd rfl
    rw [h.rep.count] at hl
    obtain ⟨p, -, hrep⟩ := h.rep.descRep h.inv hl hd
    have hstop := hrep.stop
    by_cases hlk : l = k
    · subst hlk
      exact hne hstop
    · have ha := pieces_apart hl hk hlk
      simp only [Apart] at ha
      omega

theorem BlkInv.first_desc (h : BlkInv m t c.mm c.live) :
    ∃ d, c.mm.descs 0 = some d ∧ d.startAddr.toNat = m.base 0 := by
  obtain ⟨p, d, -, hd, hrep⟩ := h.rep.desc_of_lt h.inv m.count_pos
  exact ⟨d, hd, hrep.start⟩

theorem BlkInv.hits_of_live (h : BlkInv m t c.mm c.live) (hlive : (addr, size) ∈ c.live) :
    ∃ i k b, size = slabSize i ∧ Hits m t i addr.toNat k b := by
  obtain ⟨i, k, b, t', s', hsize, hf, -⟩ := h.free_spec hlive
  exact ⟨i, k, b, hsize, h.inv.free_iff_hits.mp ⟨t', hf⟩⟩

theorem BlkInv.hits_of_misfree (h : BlkInv m t c.mm c.live) (hm : Misfree c addr size) :
    ∃ i k b, size = slabSize i ∧ Hits m t i addr.toNat k b := by
  rcases hm with ⟨blk, hblk, rfl, hlo, hhi, hend⟩ | ⟨rfl, d, hd, hlo, hhi⟩
  · obtain ⟨i, k, b, hk, hb, hrange⟩ := h.exists_block hblk
    have hlt := Finset.mem_range.mp ((h.inv.split i k hk).2 hb)
    have hw := block_within (m := m) hlt k
    have haddr : blk.1.toNat = (block m i k b).1 := congrArg Prod.fst hrange
    have hsize : blk.2.toNat = blkSize i := congrArg Prod.snd hrange
    refine ⟨i, k, b, BitVec.eq_of_toNat_eq (hsize.trans (slabSize_toNat i).symm), hk, hb, ?_, ?_, ?_⟩
    · omega
    · omega
    · simp only [Within, block, slot] at hw haddr
      exact (h.endAddr_ne (h.inv.onShelf_lt hk) (by omega) (by omega)).mp hend
  · obtain ⟨d', hd', hstart⟩ := h.first_desc
    obtain rfl : d = d' := Option.some.inj (hd.symm.trans hd')
    have h128 : (BLK128KB_SIZE : SizeT).toNat = 2 ^ 17 := rfl
    have hblk : block m 0 0 0 = (m.base 0, 2 ^ 17) := by simp [block, slot, blkSize_zero]
    refine ⟨0, 0, 0, rfl, h.reserved.1, h.reserved.2, ?_, ?_, ?_⟩
    · rw [hblk]
      omega
    · rw [hblk, blkSize_zero]
      omega
    · omega

theorem BlkInv.live_or_misfree (h : BlkInv m t c.mm c.live) {i : Slab} {k b : ℕ}
    (hhit : Hits m t i addr.toNat k b) :
    (addr, slabSize i) ∈ c.live ∨ Misfree c addr (slabSize i) := by
  obtain ⟨hk, hb, hlo, hhi, hne⟩ := hhit
  have hlt := Finset.mem_range.mp ((h.inv.split i k hk).2 hb)
  have hw := block_within (m := m) hlt k
  have hcount := h.inv.onShelf_lt hk
  have hbound := m.bounded k hcount
  simp only [Within, block, slot] at hw hlo hhi
  by_cases hres : block m i k b = block m 0 0 0
  · obtain ⟨rfl, rfl⟩ := h.inv.block_injective hk h.reserved.1 hb h.reserved.2 hres
    obtain rfl := h.inv.onShelf_unique hk h.reserved.1
    obtain ⟨d, hd, hstart⟩ := h.first_desc
    have h128 : (BLK128KB_SIZE : SizeT).toNat = 2 ^ 17 := rfl
    refine Or.inr (Or.inr ⟨rfl, d, hd, ?_, ?_⟩)
    · omega
    · rw [blkSize_zero] at hhi
      omega
  · have hmod : (BitVec.ofNat 32 (m.base k + b * blkSize i)).toNat = m.base k + b * blkSize i := by
      rw [BitVec.toNat_ofNat, Nat.mod_eq_of_lt (by omega)]
    have hrange : range (BitVec.ofNat 32 (m.base k + b * blkSize i), slabSize i) = block m i k b :=
      Prod.ext hmod (slabSize_toNat i)
    have hlive := (h.held _).mpr ⟨⟨i, k, b, hk, hb, hrange⟩, hrange ▸ hres⟩
    rcases Nat.eq_or_lt_of_le hlo with he | hlt'
    · have haddr : BitVec.ofNat 32 (m.base k + b * blkSize i) = addr :=
        BitVec.eq_of_toNat_eq (hmod.trans he)
      exact Or.inl (haddr ▸ hlive)
    · refine Or.inr (Or.inl ⟨_, hlive, rfl, ?_, ?_, ?_⟩)
      · rwa [hmod]
      · rwa [hmod, slabSize_toNat]
      · exact (h.endAddr_ne hcount (by omega) (by omega)).mpr hne

theorem BlkInv.misfree_not_live (h : BlkInv m t c.mm c.live) (hm : Misfree c addr size) :
    (addr, size) ∉ c.live := by
  intro hlive
  rcases hm with ⟨blk, hblk, hsize, hlo, hhi, -⟩ | ⟨rfl, d, hd, hlo, hhi⟩
  · have hne : blk ≠ (addr, size) := by
      rintro rfl
      exact absurd hlo (by simp)
    have ha := Marked.apart h.inv ((h.held _).mp hblk).1 ((h.held _).mp hlive).1
      fun he => hne (range_injective he)
    simp only [Apart, range, hsize] at ha
    omega
  · obtain ⟨d', hd', hstart⟩ := h.first_desc
    obtain rfl : d = d' := Option.some.inj (hd.symm.trans hd')
    obtain ⟨hmark, hne⟩ := (h.held _).mp hlive
    have ha := Marked.apart h.inv hmark h.reserved_marked hne
    have h128 : (BLK128KB_SIZE : SizeT).toNat = 2 ^ 17 := rfl
    simp only [Apart, range, block, slot, blkSize_zero] at ha
    omega

-- The exact condition for one call.
theorem BlkInv.answer_iff (h : BlkInv m t c.mm c.live) (addr : Adr) (size : SizeT) :
    ∃ ret s', freeMemBlk c.mm addr size = .ok (ret, s') ∧
      ((ret = true ↔ (addr, size) ∈ c.live) ↔ ¬Misfree c addr size) ∧
      (ret = false → s' = c.mm) := by
  obtain ⟨ret, s', hcall, hret, hfalse⟩ := h.free_answer addr size
  refine ⟨ret, s', hcall, ?_, hfalse⟩
  rw [hret]
  constructor
  · exact fun hiff hm => h.misfree_not_live hm (hiff.mp (h.hits_of_misfree hm))
  · intro hm
    refine ⟨?_, h.hits_of_live⟩
    rintro ⟨i, k, b, rfl, hhit⟩
    exact (h.live_or_misfree hhit).resolve_right hm

theorem BlkInv.exact_iff (mv : Move BlkState BlkEvent)
    (hs : AnyStep mv.before mv.event mv.after) (h : BlkInv m t mv.before.mm mv.before.live) :
    Exact mv ↔ ¬Misfreed mv := by
  obtain ⟨before, e, after⟩ := mv
  cases hs with
  | alloc hcall => simp [Exact, Misfreed]
  | @free s s' live addr size ret hcall =>
      obtain ⟨ret', s'', hcall', hiff, -⟩ := h.answer_iff addr size
      obtain ⟨rfl, -⟩ := Outcome.pair_unique hcall hcall'
      constructor
      · rintro hex ⟨_, _, _, he, hm⟩
        obtain ⟨rfl, rfl, rfl⟩ := BlkEvent.free.inj he
        exact hiff.mp (hex addr size ret rfl) hm
      · rintro hm _ _ _ he
        obtain ⟨rfl, rfl, rfl⟩ := BlkEvent.free.inj he
        exact hiff.mpr fun hmis => hm ⟨addr, size, ret, rfl, hmis⟩

-- Short of misfrees the clients free what they hold or are refused.
theorem BlkInv.anyStep (mv : Move BlkState BlkEvent) (hs : AnyStep mv.before mv.event mv.after)
    (h : BlkInv m t mv.before.mm mv.before.live) (hm : ¬Misfreed mv) :
    ∃ t', BlkInv m t' mv.after.mm mv.after.live := by
  have hexact := (BlkInv.exact_iff mv hs h).mpr hm
  obtain ⟨before, e, after⟩ := mv
  cases hs with
  | alloc hcall => exact (h.step (.alloc hcall)).imp fun _ h' => h'.2.1
  | @free s s' live addr size ret hcall =>
      cases hret : ret with
      | true =>
          have hlive := (hexact addr size ret rfl).mp hret
          exact hret ▸ (h.step (.free hlive hcall)).imp fun _ h' => h'.2.1
      | false =>
          obtain ⟨ret', s'', hcall', -, hsame⟩ := h.answer_iff addr size
          obtain ⟨rfl, rfl⟩ := Outcome.pair_unique hcall hcall'
          obtain rfl := hsame hret
          exact ⟨t, h⟩

end Answers

-- Every release of a run, and one more at its end, is accepted exactly when the block
-- is held under that address, if and only if none of them is a misfree.
theorem frees_exact_iff {s : Mm} {c : BlkState} {trace : List (Move BlkState BlkEvent)}
    (hb : Booted s) (hr : Run AnyStep ⟨s, []⟩ trace c) (addr : Adr) (size : SizeT) :
    ((∀ mv ∈ trace, Exact mv) ∧ ∃ ret s', freeMemBlk c.mm addr size = .ok (ret, s') ∧
        (ret = true ↔ (addr, size) ∈ c.live)) ↔
      (∀ mv ∈ trace, ¬Misfreed mv) ∧ ¬Misfree c addr size := by
  obtain ⟨m, h0⟩ := hb.start
  obtain ⟨hall, hinv⟩ := hr.forall_iff (I := fun x => ∃ t, BlkInv m t x.mm x.live) ⟨_, h0⟩
    (fun mv hs ⟨_, h⟩ => BlkInv.exact_iff mv hs h)
    (fun mv hs ⟨_, h⟩ hm => BlkInv.anyStep mv hs h hm)
  rw [hall, and_congr_right_iff]
  intro hnone
  obtain ⟨t, h⟩ := hinv hnone
  obtain ⟨ret, s', hcall, hiff, -⟩ := h.answer_iff addr size
  rw [← hiff]
  constructor
  · rintro ⟨ret', s'', hcall', hexact⟩
    obtain ⟨rfl, -⟩ := Outcome.pair_unique hcall hcall'
    exact hexact
  · exact fun hexact => ⟨ret, s', hcall, hexact⟩

-- A live block of 256 KB, freed under its own address.
theorem frees_exact_shipped : ∃ trace c, Run AnyStep ⟨bootMm, []⟩ trace c ∧
    c.live = [(0x80400000, BLK256KB_SIZE)] ∧
    ∃ ret s', freeMemBlk c.mm 0x80400000 BLK256KB_SIZE = .ok (ret, s') ∧
      (ret = true ↔ (0x80400000, BLK256KB_SIZE) ∈ c.live) := by
  obtain ⟨trace, c, hrun, hc⟩ := exists_run [.alloc BLK256KB_SIZE] ⟨bootMm, []⟩
    (fun trace c => c.live = [(0x80400000, BLK256KB_SIZE)] ∧
      trace.map Move.event = [.alloc BLK256KB_SIZE 0x80400000]) (by decide +kernel)
  obtain ⟨hlive, hevents⟩ := of_decide_eq_true hc
  have hr : Run AnyStep ⟨bootMm, []⟩ trace c := hrun.mono fun _ _ _ => BlkStep.any
  have hnone : ∀ mv ∈ trace, ¬Misfreed mv := by
    rintro mv hmv ⟨addr, size, ret, he, -⟩
    have hmem := List.mem_map_of_mem (f := Move.event) hmv
    rw [hevents, he] at hmem
    simp at hmem
  have hmis : ¬Misfree c 0x80400000 BLK256KB_SIZE := by
    rintro (⟨blk, hblk, -, hlo, -⟩ | ⟨hsize, -⟩)
    · rw [hlive, List.mem_singleton] at hblk
      subst hblk
      exact absurd hlo (by decide)
    · exact absurd hsize (by decide)
  exact ⟨trace, c, hr, hlive, ((frees_exact_iff bootMm_booted hr _ _).mpr ⟨hnone, hmis⟩).2⟩

-- The second word of a live block of 1 MB is taken for the block.
theorem interior_free_accepted : ¬∀ s c, Booted s → Reachable AnyStep ⟨s, []⟩ c →
    ∀ addr size ret s', freeMemBlk c.mm addr size = .ok (ret, s') →
      (ret = true ↔ (addr, size) ∈ c.live) := by
  intro h
  obtain ⟨trace, c, hrun, hc⟩ := exists_run [.alloc BLK1MB_SIZE] ⟨bootMm, []⟩
    (fun _ c => c.live = [(0x80400000, BLK1MB_SIZE)] ∧
      (freeMemBlk c.mm 0x80400004 BLK1MB_SIZE).isOk = true ∧
      ((freeMemBlk c.mm 0x80400004 BLK1MB_SIZE).getD (false, c.mm)).1 = true) (by decide +kernel)
  obtain ⟨hlive, hok, hret⟩ := of_decide_eq_true hc
  have hreach : Reachable AnyStep ⟨bootMm, []⟩ c := ⟨trace, hrun.mono fun _ _ _ => BlkStep.any⟩
  have hmem := (h bootMm c bootMm_booted hreach _ _ _ _ (Outcome.eq_ok_getD hok (false, c.mm))).mp
    hret
  rw [hlive] at hmem
  exact absurd hmem (by decide)

end Lmosem
