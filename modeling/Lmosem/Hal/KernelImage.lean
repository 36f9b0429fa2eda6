import Lmosem.Hal.Safety

namespace Lmosem

open Intrusive SlabQueue Region Shelves Transition

-- The kernel image with the descriptor array behind it.
def kernelRange (s : Mm) : ℕ × ℕ :=
  (s.mach.kmemStart.toNat, s.mach.kmemEnd.toNat - s.mach.kmemStart.toNat)

-- The call finds no descriptor of its class with room left, and the wholly free
-- one it would cut next is the one the kernel image lies in.
def CutsImage (s : Mm) : BlkEvent → Prop
  | .alloc size _ => ∃ i k d, size = slabSize i ∧
      listEmpty s.links (.head (i, partialList)) = true ∧
      s.links.next (.head (lastSlab, emptyList)) = .entry k ∧ s.descs k = some d ∧
      d.startAddr ≤ s.mach.kmemStart ∧ s.mach.kmemStart ≤ d.endAddr
  | .free _ _ _ => False

section Image

variable {m : MemMap} {t t' : Shelves} {s s' : Mm} {live live' : List (Adr × SizeT)} {i : Slab}
  {e : BlkEvent} {x : ℕ}

-- The image starts piece `x` and ends in it.
structure ImageAt (m : MemMap) (s : Mm) (x : ℕ) : Prop where
  lt : x < m.count
  start : s.mach.kmemStart.toNat = m.base x
  within : Within (kernelRange s) (m.base x, 2 ^ 22)
  nonempty : 0 < (kernelRange s).2

-- Of all descriptors the image lies in `x` alone.
theorem BlkInv.image_unique (h : BlkInv m t s live) (hm : ImageAt m s x) {k : ℕ} (hk : k < m.count)
    {d : MemDesc} (hd : s.descs k = some d) (hlo : d.startAddr ≤ s.mach.kmemStart)
    (hhi : s.mach.kmemStart ≤ d.endAddr) : k = x := by
  obtain ⟨p, -, hrep⟩ := h.rep.descRep h.inv hk hd
  by_contra hkx
  have ha := pieces_apart hk hm.lt hkx
  have hstart := hm.start
  simp only [BitVec.le_def, hrep.start, hrep.stop] at hlo hhi
  simp only [Apart] at ha
  omega

theorem BlkInv.cutsImage_iff (h : BlkInv m t s live) (hm : ImageAt m s x) (ret : Adr) :
    CutsImage s (.alloc (slabSize i) ret) ↔
      t.pick i = some x ∧ x ∈ t.queue (lastSlab, emptyList) := by
  constructor
  · rintro ⟨j, k, d, hsize, hpart, hnext, hd, hlo, hhi⟩
    obtain rfl := slabSize_injective hsize
    rw [h.rep.listEmpty, List.isEmpty_iff] at hpart
    rw [h.rep.rings.next_head] at hnext
    cases hq : t.queue (lastSlab, emptyList) with
    | nil => simp [hq] at hnext
    | cons y ys =>
        obtain rfl : y = k := by simpa [hq] using hnext
        have hy := (h.inv.cover y).mpr ⟨(lastSlab, emptyList), by simp [hq]⟩
        obtain rfl := h.image_unique hm hy hd hlo hhi
        exact ⟨by simp [pick, hpart, hq], by simp⟩
  · rintro ⟨hpick, hx⟩
    rcases pick_cases hpick with hp | ⟨hp, -⟩
    · exact absurd (congrArg Prod.snd (h.inv.apart.unique _ _ x hp hx)) (by simp)
    · obtain ⟨p, d, -, hd, hrep⟩ := h.rep.desc_of_lt h.inv hm.lt
      refine ⟨i, x, d, rfl, ?_, ?_, hd, ?_, ?_⟩
      · rw [h.rep.listEmpty, hp, List.isEmpty_nil]
      · rw [pick, hp, List.nil_append] at hpick
        obtain ⟨ys, hq⟩ := List.head?_eq_some_iff.mp hpick
        rw [h.rep.rings.next_head, hq]
      · rw [BitVec.le_def, hrep.start, hm.start]
      · rw [BitVec.le_def, hrep.stop, hm.start]
        omega

-- A call that does not cut the image leaves it in a wholly free descriptor and
-- returns a block of another one.
theorem BlkInv.step_image (h : BlkInv m t s live) (hm : ImageAt m s x) (hs : t.Step m e t')
    (hx : x ∈ t.queue (lastSlab, emptyList)) (hgood : ¬CutsImage s e) :
    x ∈ t'.queue (lastSlab, emptyList) ∧
      ∀ size ret, e = .alloc size ret → ret ≠ NULL → Apart (range (ret, size)) (kernelRange s) := by
  cases hs with
  | refuse _ =>
      refine ⟨hx, fun size ret he hret => ?_⟩
      obtain ⟨-, rfl⟩ := BlkEvent.alloc.inj he
      exact absurd rfl hret
  | @alloc i k b t' ret hal _ hrange =>
      obtain ⟨hpick, hb, -, -, q, -, -, hqueue⟩ := alloc_cases hal
      have hkx : k ≠ x := by
        rintro rfl
        exact hgood ((h.cutsImage_iff hm ret).mpr ⟨hpick, hx⟩)
      obtain ⟨p, hp⟩ := h.inv.pick_mem hpick
      have hk := (h.inv.cover k).mpr ⟨p, hp⟩
      refine ⟨?_, fun size ret' he _ => ?_⟩
      · rw [hqueue, h.inv.apart.mem_move]
        exact Or.inl ⟨Ne.symm hkx, hx⟩
      · obtain ⟨rfl, rfl⟩ := BlkEvent.alloc.inj he
        exact (pieces_apart hk hm.lt hkx).mono (hrange ▸ block_within hb k) hm.within
  | @free i k b t' addr hfree _ =>
      refine ⟨?_, by simp⟩
      obtain ⟨hfind, -, -, -, hqueue⟩ := free_cases hfree
      have hkx : k ≠ x := by
        rintro rfl
        exact h.inv.not_onShelf_of_empty hx (find_cases hfind).1
      rw [hqueue]
      split_ifs
      · rw [h.inv.apart.mem_move]
        exact Or.inl ⟨Ne.symm hkx, hx⟩
      · exact hx

-- A call that cuts the image returns the first bytes of the kernel.
theorem BlkInv.step_cuts (h : BlkInv m t s live) (hm : ImageAt m s x) (hs : t.Step m e t')
    (hbad : CutsImage s e) :
    ∃ size ret, e = .alloc size ret ∧ ret ≠ NULL ∧ ¬Apart (range (ret, size)) (kernelRange s) := by
  cases hs with
  | free _ _ => exact hbad.elim
  | @refuse size hnone =>
      obtain ⟨i, k, d, rfl, hcut⟩ := hbad
      have hx := ((h.cutsImage_iff hm NULL).mp ⟨i, k, d, rfl, hcut⟩).2
      rw [(h.inv.alloc_eq_none.mp (hnone i rfl)).2] at hx
      exact absurd hx List.not_mem_nil
  | @alloc i k b t' ret hal hret hrange =>
      refine ⟨_, ret, rfl, hret, ?_⟩
      obtain ⟨hpick, hx⟩ := (h.cutsImage_iff hm ret).mp hbad
      obtain rfl : k = x := Option.some.inj ((alloc_cases hal).1.symm.trans hpick)
      have hzero := alloc_firstZero hal
      rw [h.inv.unused k hx, Bits.firstZero_empty (blkBits_pos i)] at hzero
      obtain rfl := Option.some.inj hzero
      have hsz := blkSize_pos i
      have hstart := hm.start
      have hne := hm.nonempty
      rw [hrange]
      simp only [Apart, block, slot, kernelRange] at hne ⊢
      omega

end Image

section Shipped

variable {s₀ s : Mm} {endKernel : Adr}

-- The kernel ends past its start, at the end of the descriptor array.
theorem kernel_ends (e : Adr) : ALIGN e 4096 + SIZEOF_MEM_DESC * BitVec.ofNat 32 128 ≠ KRNL_INRAM_START := by
  intro h
  have he : ALIGN e 4096 = KRNL_INRAM_START - SIZEOF_MEM_DESC * BitVec.ofNat 32 128 := by
    rw [← h, BitVec.add_sub_cancel]
  have hlow : ALIGN e 4096 &&& 4095 = 0 := by
    rw [ALIGN, BitVec.and_assoc, show ~~~((4096 : Adr) - 1) &&& 4095 = 0 by decide]
    exact BitVec.and_zero
  rw [he] at hlow
  exact absurd hlow (by decide)

theorem shipped_image (hd : s₀.descs = fun _ => none)
    (hm : s₀.mach = machInit endKernel machAddrSpace) (hs : initMm s₀ = .ok s) :
    ∃ m, BlkInv m (Shelves.start m) s [] ∧ ImageAt m s 30 := by
  have haddr : s₀.mach.addrSpaces = machAddrSpace := by rw [hm]; rfl
  have hw : WholeMap s₀.mach.addrSpaces := haddr ▸ machAddrSpace_whole
  obtain ⟨hpos, hrep, hmach, hsize, -⟩ := initMm_whole hd hw hs
  have hcount : (mapOf _ hw hpos).count = 128 := by
    simp only [mapOf, haddr]
    rfl
  have hbase : (mapOf _ hw hpos).base 30 = 0x87800000 := by
    simp only [mapOf, haddr]
    rfl
  refine ⟨_, .start hrep, ?_⟩
  have hstart : s.mach.kmemStart = KRNL_INRAM_START := by rw [hmach, hm]; rfl
  have hend : s.mach.kmemEnd = ALIGN endKernel 4096 + SIZEOF_MEM_DESC * BitVec.ofNat 32 128 := by
    rw [hmach, bootMach, haddr, hm]
    rfl
  have hne : s.mach.kmemEnd ≠ s.mach.kmemStart := by
    rw [hstart, hend]
    exact kernel_ends endKernel
  have hrange : s.mach.kmemStart.toNat < s.mach.kmemEnd.toNat ∧
      s.mach.kmemEnd.toNat ≤ s.mach.kmemStart.toNat + 2 ^ 17 := by
    rw [hstart] at hsize hne ⊢
    constructor <;> bv_omega
  have hs30 : s.mach.kmemStart.toNat = 0x87800000 := by rw [hstart]; rfl
  refine ⟨by omega, by omega, ?_, ?_⟩
  · simp only [Within, kernelRange]
    omega
  · simp only [kernelRange]
    omega

end Shipped

-- On the shipped table no returned block touches the kernel exactly when no call
-- cuts the descriptor that the image lies in.
theorem kernel_kept_iff {s₀ s : Mm} {endKernel : Adr} {c : BlkState}
    {trace : List (Move BlkState BlkEvent)} (hd : s₀.descs = fun _ => none)
    (hm : s₀.mach = machInit endKernel machAddrSpace) (hs : initMm s₀ = .ok s)
    (hr : Run BlkStep ⟨s, []⟩ trace c) :
    (∀ v ∈ trace, ∀ size ret, v.event = .alloc size ret → ret ≠ NULL →
      Apart (range (ret, size)) (kernelRange s)) ↔ ∀ v ∈ trace, ¬CutsImage v.before.mm v.event := by
  obtain ⟨m, h₀, himage⟩ := shipped_image hd hm hs
  have hkernel {s' : Mm} (hmach : s'.mach = s.mach) : kernelRange s' = kernelRange s := by
    simp only [kernelRange, hmach]
  have himage' {s' : Mm} (hmach : s'.mach = s.mach) : ImageAt m s' 30 :=
    ⟨himage.lt, hmach ▸ himage.start, hkernel hmach ▸ himage.within, hkernel hmach ▸ himage.nonempty⟩
  constructor
  · intro hall v hv hbad
    obtain ⟨hmach, t, t', h, hstep, -⟩ := h₀.moves hr v hv
    obtain ⟨size, ret, he, hret, hmeet⟩ := h.step_cuts (himage' hmach) hstep hbad
    exact hmeet (hkernel hmach ▸ hall v hv size ret he hret)
  · intro hgood
    have hx₀ : 30 ∈ (Shelves.start m).queue (lastSlab, emptyList) :=
      (start_mem m _ 30).mpr (Or.inl ⟨rfl, by omega, himage.lt⟩)
    have hrun := hr.keeps
      (I := fun c => ∃ t, BlkInv m t c.mm c.live ∧ 30 ∈ t.queue (lastSlab, emptyList) ∧
        c.mm.mach = s.mach) ⟨_, h₀, hx₀, rfl⟩ fun v hv hstep ⟨t, h, hx, hmach⟩ => by
        obtain ⟨t', ht, h', hmach'⟩ := h.step hstep
        exact ⟨t', h', (h.step_image (himage' hmach) ht hx (hgood v hv)).1, hmach'.trans hmach⟩
    intro v hv size ret he hret
    obtain ⟨hstep, ⟨t, h, hx, hmach⟩, -⟩ := hrun.2 v hv
    obtain ⟨t', ht, -, -⟩ := h.step hstep
    exact hkernel hmach ▸ (h.step_image (himage' hmach) ht hx (hgood v hv)).2 size ret he hret

theorem kernel_kept_shipped : ∃ trace c, Run BlkStep ⟨bootMm, []⟩ trace c ∧ trace.length = 1 ∧
    ∀ v ∈ trace, ¬CutsImage v.before.mm v.event := by
  obtain ⟨trace, c, hrun, hcheck⟩ := exists_run [.alloc BLK4MB_SIZE] ⟨bootMm, []⟩
    (fun trace _ => trace.map (·.event) = [.alloc BLK4MB_SIZE 0x80400000]) (by decide +kernel)
  have hevents := of_decide_eq_true hcheck
  have hapart : Apart (range (0x80400000, BLK4MB_SIZE)) (kernelRange bootMm) := by
    rw [kernelRange, bootMm_mach]
    decide +kernel
  refine ⟨trace, c, hrun, by simpa using congrArg List.length hevents,
    (kernel_kept_iff rfl rfl bootMm_eq hrun).mp fun v hv size ret he _ => ?_⟩
  have hv := List.mem_map_of_mem (f := (·.event)) hv
  rw [hevents, List.mem_singleton, he] at hv
  obtain ⟨rfl, rfl⟩ := BlkEvent.alloc.inj hv
  exact hapart

-- The thirtieth 4 MB block is the one the kernel was loaded into.
theorem kernel_handed_out : ¬∀ endKernel s trace c,
    initMm (initMach endKernel machAddrSpace) = .ok s → Run BlkStep ⟨s, []⟩ trace c →
    ∀ v ∈ trace, ∀ size ret, v.event = .alloc size ret → ret ≠ NULL →
      Apart (range (ret, size)) (kernelRange s) := by
  intro hall
  obtain ⟨trace, c, hrun, hcheck⟩ := exists_run (List.replicate 30 (.alloc BLK4MB_SIZE))
    ⟨bootMm, []⟩ (fun trace _ => BlkEvent.alloc BLK4MB_SIZE KRNL_INRAM_START ∈ trace.map (·.event))
    (by decide +kernel)
  obtain ⟨v, hv, he⟩ := List.mem_map.mp (of_decide_eq_true hcheck)
  have hmeet : ¬Apart (range (KRNL_INRAM_START, BLK4MB_SIZE)) (kernelRange bootMm) := by
    rw [kernelRange, bootMm_mach]
    decide +kernel
  exact hmeet (hall _ bootMm trace c bootMm_eq hrun v hv _ _ he (by decide))

end Lmosem
