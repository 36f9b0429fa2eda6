import Lmosem.Hal.Safety

namespace Lmosem

open Intrusive SlabQueue Region Shelves Transition

-- What stands on a full list is full.
def Shelves.Tight (t : Shelves) : Prop :=
  ∀ i, ∀ k ∈ t.queue (i, fullList), Finset.range (blkBits i) ⊆ t.used k

namespace Shelves

variable {m : MemMap} {t t' : Shelves} {i : Slab} {k b addr : ℕ}

theorem start_tight (m : MemMap) : (Shelves.start m).Tight := by
  intro i k hk
  simp [start_mem] at hk

theorem Tight.alloc (ht : t.Tight) (hi : Inv m t) (ha : t.alloc i = some ((k, b), t')) :
    t'.Tight := by
  obtain ⟨-, -, -, hused, q, -, hfull, hqueue⟩ := alloc_cases ha
  intro j x hx
  rw [hqueue, hi.apart.mem_move] at hx
  rcases hx with ⟨hxk, hx⟩ | ⟨rfl, hp⟩
  · rw [hused, Function.update_of_ne hxk]
    exact ht j x hx
  · obtain ⟨rfl, rfl⟩ := Prod.mk.inj hp
    rw [hused, Function.update_self]
    exact hfull.mp rfl

theorem two_le_blkBits (h : i ≠ lastSlab) : 2 ≤ blkBits i := by
  revert i
  decide

-- A full descriptor of more than one block keeps its list when a block is released.
theorem Tight.not_free (hi : Inv m t) (hf : t.free m i addr = some ((k, b), t'))
    (hil : i ≠ lastSlab) (hall : Finset.range (blkBits i) ⊆ t.used k) : ¬t'.Tight := by
  obtain ⟨hfind, -, hb, hused, hqueue⟩ := free_cases hf
  obtain ⟨hk, -⟩ := find_cases hfind
  have hbits := two_le_blkBits hil
  have hfull : k ∈ t.queue (i, fullList) := hk.resolve_right fun hp => hi.room i k hp hall
  have hne : (t.used k).erase b ≠ ∅ := by
    obtain ⟨c, hc, hcb⟩ : ∃ c < blkBits i, c ≠ b := by
      by_cases hb0 : b = 0
      · exact ⟨1, by omega, by omega⟩
      · exact ⟨0, by omega, by omega⟩
    exact Finset.ne_empty_of_mem (Finset.mem_erase.mpr ⟨hcb, hall (Finset.mem_range.mpr hc)⟩)
  rw [if_neg hne] at hqueue
  intro ht
  have hsub := ht i k (hqueue ▸ hfull)
  have hbr := (hi.split i k hk).2 hb
  rw [hused, Function.update_self] at hsub
  exact Finset.notMem_erase b _ (hsub hbr)

theorem Tight.free (ht : t.Tight) (hi : Inv m t) (hf : t.free m i addr = some ((k, b), t'))
    (hgood : ¬(i ≠ lastSlab ∧ Finset.range (blkBits i) ⊆ t.used k)) : t'.Tight := by
  obtain ⟨hfind, -, hb, hused, hqueue⟩ := free_cases hf
  obtain ⟨hk, -⟩ := find_cases hfind
  have hother (j : Slab) (x : ℕ) (hxk : x ≠ k) (hx : x ∈ t.queue (j, fullList)) :
      Finset.range (blkBits j) ⊆ t'.used x := by
    rw [hused, Function.update_of_ne hxk]
    exact ht j x hx
  intro j x hx
  by_cases he : (t.used k).erase b = ∅
  · rw [hqueue, if_pos he, hi.apart.mem_move] at hx
    rcases hx with ⟨hxk, hx⟩ | ⟨-, hp⟩
    · exact hother j x hxk hx
    · exact absurd (congrArg Prod.snd hp) (by simp)
  · rw [hqueue, if_neg he] at hx
    refine hother j x ?_ hx
    rintro rfl
    obtain rfl := hi.onShelf_unique (Or.inl hx) hk
    refine hgood ⟨?_, ht j x hx⟩
    rintro rfl
    -- the only block of a 4 MB descriptor leaves none behind
    have hsub := (hi.split lastSlab x hk).2
    rw [show Finset.range (blkBits lastSlab) = {0} from rfl] at hsub
    obtain rfl : b = 0 := Finset.mem_singleton.mp (hsub hb)
    exact he (Finset.eq_empty_of_forall_notMem fun c hc =>
      (Finset.mem_erase.mp hc).1 (Finset.mem_singleton.mp (hsub (Finset.mem_erase.mp hc).2)))

end Shelves

-- Every descriptor is on the full list of its class when all its blocks are in
-- use and on the partial list when some are, and a refusal means that none is left.
structure Filed (s : Mm) : Prop where
  lists : ∀ i k d, k < s.mach.memDescCount → s.descs k = some d → d.flag &&& 0xf0 = slabAcsz i →
    (OnList s (i, fullList) k ↔ d.mapCount &&& slabMask i = slabMask i) ∧
    (OnList s (i, partialList) k ↔
      d.mapCount &&& slabMask i ≠ 0 ∧ d.mapCount &&& slabMask i ≠ slabMask i)
  refusal : ∀ i s', allocMemBlk s (slabSize i) = .ok (NULL, s') →
    ∀ k d, k < s.mach.memDescCount → s.descs k = some d →
      d.mapCount ≠ 0 ∧ (d.flag &&& 0xf0 = slabAcsz i → d.mapCount &&& slabMask i = slabMask i)

-- The call releases a block, smaller than 4 MB, of a descriptor with all bits set.
def ReleasesFull (s : Mm) : BlkEvent → Prop
  | .alloc _ _ => False
  | .free addr size _ => ∃ i k d, i ≠ lastSlab ∧ size = slabSize i ∧ k < s.mach.memDescCount ∧
      s.descs k = some d ∧ d.startAddr ≤ addr ∧ addr ≤ d.endAddr ∧
      d.mapCount &&& slabMask i = slabMask i

instance (s : Mm) : DecidablePred (ReleasesFull s)
  | .alloc _ _ => inferInstanceAs (Decidable False)
  | .free addr size _ =>
      decidable_of_iff (∃ i, i ≠ lastSlab ∧ size = slabSize i ∧ ∃ k < s.mach.memDescCount,
        (s.descs k).any fun d => d.startAddr ≤ addr ∧ addr ≤ d.endAddr ∧
          d.mapCount &&& slabMask i = slabMask i) (by simp [ReleasesFull, Option.any_eq_true])

section Filed

variable {m : MemMap} {t t' : Shelves} {s : Mm} {live : List (Adr × SizeT)} {i : Slab} {k : ℕ}
  {d : MemDesc} {p : SlabHead} {e : BlkEvent}

theorem all_bits_iff (hd : DescRep m t p k d) (i : Slab) :
    d.mapCount &&& slabMask i = slabMask i ↔ Finset.range (blkBits i) ⊆ t.used k := by
  rw [Bits.and_mask_eq_mask, ones_slabMask, hd.bits]

theorem no_bits_iff (hd : DescRep m t p k d) (i : Slab) :
    d.mapCount &&& slabMask i = 0 ↔ t.used k ∩ Finset.range (blkBits i) = ∅ := by
  rw [show (0 : U32) = 0#32 from rfl, Bits.and_mask_eq_zero, ones_slabMask, hd.bits]

theorem slabAcsz_injective {i j : Slab} (h : slabAcsz i = slabAcsz j) : i = j := by
  revert i j
  decide

-- The flag tells the class a descriptor is filed under.
theorem DescRep.class_iff (hd : DescRep m t p k d) (i : Slab) :
    d.flag &&& 0xf0 = slabAcsz i ↔ p.1 = i := by
  rw [hd.flag, (slabFlag_fields p.1).1]
  exact ⟨slabAcsz_injective, fun h => h ▸ rfl⟩

-- Where a descriptor of a tight state stands follows from its bits.
theorem BlkInv.filed_lists (h : BlkInv m t s live) (ht : t.Tight) (hk : k < s.mach.memDescCount)
    (hd : s.descs k = some d) (hclass : d.flag &&& 0xf0 = slabAcsz i) :
    (OnList s (i, fullList) k ↔ d.mapCount &&& slabMask i = slabMask i) ∧
      (OnList s (i, partialList) k ↔
        d.mapCount &&& slabMask i ≠ 0 ∧ d.mapCount &&& slabMask i ≠ slabMask i) := by
  obtain ⟨⟨j, q⟩, hp, hrep⟩ := h.rep.descRep h.inv (h.rep.count ▸ hk) hd
  obtain rfl : j = i := (hrep.class_iff i).mp hclass
  simp only [h.rep.onList, ne_eq, all_bits_iff hrep, no_bits_iff hrep]
  have honly (q' : SlabQueue) : k ∈ t.queue (j, q') ↔ q = q' :=
    ⟨fun hk' => congrArg Prod.snd (h.inv.apart.unique _ _ k hp hk'), fun he => he ▸ hp⟩
  rw [honly, honly]
  cases q with
  | fullList =>
      simp only [true_iff, reduceCtorEq, false_iff, not_and, not_not]
      exact ⟨ht j k hp, fun _ => ht j k hp⟩
  | partialList =>
      have hroom := h.inv.room j k hp
      obtain ⟨hne, hsub⟩ := h.inv.split j k (Or.inr hp)
      simp only [reduceCtorEq, false_iff, true_iff]
      exact ⟨hroom, by rw [Finset.inter_eq_left.mpr hsub]; exact hne.ne_empty, hroom⟩
  | emptyList =>
      obtain rfl := h.inv.empty_last hp
      have hnot : ¬Finset.range (blkBits lastSlab) ⊆ (∅ : Finset ℕ) := by decide
      simp [h.inv.unused k hp, hnot]

-- A tight state refuses a block only when its class is used up and nothing is wholly free.
theorem BlkInv.filed_refusal (h : BlkInv m t s live) (ht : t.Tight) {s' : Mm}
    (hnull : allocMemBlk s (slabSize i) = .ok (NULL, s')) (hk : k < s.mach.memDescCount)
    (hd : s.descs k = some d) :
    d.mapCount ≠ 0 ∧ (d.flag &&& 0xf0 = slabAcsz i → d.mapCount &&& slabMask i = slabMask i) := by
  obtain ⟨ret, s'', hcall, -, hspec⟩ := h.alloc_spec (slabSize i)
  obtain ⟨rfl, rfl⟩ : NULL = ret ∧ s' = s'' := by simpa using hnull.symm.trans hcall
  have hnone : t.alloc i = none := by
    rcases hspec with ⟨-, -, hnone⟩ | ⟨-, -, -, -, -, -, hret, -⟩
    · exact hnone i rfl
    · exact absurd rfl hret
  obtain ⟨hpart, hempty⟩ := h.inv.alloc_eq_none.mp hnone
  obtain ⟨⟨j, q⟩, hp, hrep⟩ := h.rep.descRep h.inv (h.rep.count ▸ hk) hd
  have hused : t.used k ≠ ∅ := by
    rcases h.inv.place (h.rep.count ▸ hk) with ⟨j', hs⟩ | he
    · exact (h.inv.split j' k hs).1.ne_empty
    · simp [hempty] at he
  refine ⟨hrep.mapCount_eq_zero.not.mpr hused, ?_⟩
  rw [hrep.class_iff, all_bits_iff hrep]
  rintro rfl
  cases q with
  | fullList => exact ht j k hp
  | partialList => simp [hpart] at hp
  | emptyList =>
      obtain rfl := h.inv.empty_last hp
      simp [hempty] at hp

theorem BlkInv.filed_iff (h : BlkInv m t s live) : Filed s ↔ t.Tight := by
  constructor
  · intro hf i k hk
    obtain ⟨d, hd, hrep⟩ := h.rep.descs _ k hk
    have hlt := h.rep.count ▸ (h.inv.cover k).mpr ⟨_, hk⟩
    have hl := (hf.lists i k d hlt hd ((hrep.class_iff i).mpr rfl)).1
    exact (all_bits_iff hrep i).mp (hl.mp ((h.rep.onList _ k).mpr hk))
  · exact fun ht => ⟨fun _ _ _ => h.filed_lists ht, fun _ _ hnull _ _ => h.filed_refusal ht hnull⟩

theorem BlkInv.releasesFull_iff (h : BlkInv m t s live) {b : ℕ} {addr : Adr} {ret : Bool}
    (hf : t.free m i addr.toNat = some ((k, b), t')) :
    ReleasesFull s (.free addr (slabSize i) ret) ↔
      i ≠ lastSlab ∧ Finset.range (blkBits i) ⊆ t.used k := by
  obtain ⟨hfind, -⟩ := free_cases hf
  obtain ⟨hk, hcov⟩ := find_cases hfind
  have hlt := h.inv.onShelf_lt hk
  constructor
  · rintro ⟨j, l, d, hj, hsize, hl, hd, hlo, hhi, hall⟩
    obtain rfl := slabSize_injective hsize
    obtain ⟨p, -, hrep⟩ := h.rep.descRep h.inv (h.rep.count ▸ hl) hd
    have hkl : l = k := by
      by_contra hne
      have ha := pieces_apart (h.rep.count ▸ hl) hlt hne
      simp only [BitVec.le_def, hrep.start, hrep.stop] at hlo hhi
      simp only [MemMap.Covers, Apart] at hcov ha
      omega
    subst hkl
    exact ⟨hj, (all_bits_iff hrep i).mp hall⟩
  · rintro ⟨hil, hall⟩
    obtain ⟨p, d, -, hd, hrep⟩ := h.rep.desc_of_lt h.inv hlt
    refine ⟨i, k, d, hil, rfl, h.rep.count ▸ hlt, hd, ?_, ?_, (all_bits_iff hrep i).mpr hall⟩
    · rw [BitVec.le_def, hrep.start]
      exact hcov.1
    · rw [BitVec.le_def, hrep.stop]
      exact hcov.2.le

-- One step from a tight state is tight again unless it releases from a full descriptor.
theorem BlkInv.step_tight (h : BlkInv m t s live) (hs : t.Step m e t') :
    (ReleasesFull s e → ¬t'.Tight) ∧ (¬ReleasesFull s e → t.Tight → t'.Tight) := by
  cases hs with
  | refuse _ => exact ⟨False.elim, fun _ ht => ht⟩
  | alloc ha _ _ => exact ⟨False.elim, fun _ ht => ht.alloc h.inv ha⟩
  | free hf _ =>
      rw [h.releasesFull_iff hf]
      exact ⟨fun hbad => Tight.not_free h.inv hf hbad.1 hbad.2,
        fun hgood ht => ht.free h.inv hf hgood⟩

end Filed

-- A run leaves no block behind on a full list exactly when it never releases a
-- small block of a full descriptor.
theorem states_filed_iff {s : Mm} {c : BlkState} {trace : List (Move BlkState BlkEvent)}
    (hb : Booted s) (hr : Run BlkStep ⟨s, []⟩ trace c) :
    (∀ x ∈ states ⟨s, []⟩ trace, Filed x.mm) ↔
      ∀ v ∈ trace, ¬ReleasesFull v.before.mm v.event := by
  obtain ⟨m, h0⟩ := hb.start
  constructor
  · intro hall v hv hbad
    obtain ⟨-, t, t', h, hstep, h'⟩ := h0.moves hr v hv
    have hafter := hall v.after (List.mem_cons_of_mem _ (List.mem_map_of_mem hv))
    exact (h.step_tight hstep).1 hbad (h'.filed_iff.mp hafter)
  · intro hgood x hx
    obtain ⟨t, h, ht⟩ := hr.forall_states (I := fun x => ∃ t, BlkInv m t x.mm x.live ∧ t.Tight)
      ⟨_, h0, start_tight m⟩ (fun v hv hs ⟨t, h, ht⟩ => by
        obtain ⟨t', hstep, h', -⟩ := h.step hs
        exact ⟨t', h', (h.step_tight hstep).2 (hgood v hv) ht⟩) x hx
    exact h.filed_iff.mpr ht

theorem states_filed_shipped : ∃ trace c, Run BlkStep ⟨bootMm, []⟩ trace c ∧
    trace.map Move.event = [.alloc BLK1MB_SIZE 0x80400000, .alloc BLK1MB_SIZE 0x80500000,
      .free 0x80400000 BLK1MB_SIZE true] ∧
    ∀ x ∈ states ⟨bootMm, []⟩ trace, Filed x.mm := by
  obtain ⟨trace, c, hrun, hcheck⟩ := exists_run
    [.alloc BLK1MB_SIZE, .alloc BLK1MB_SIZE, .free 0x80400000 BLK1MB_SIZE] ⟨bootMm, []⟩
    (fun trace _ => decide (trace.map Move.event = [.alloc BLK1MB_SIZE 0x80400000,
      .alloc BLK1MB_SIZE 0x80500000, .free 0x80400000 BLK1MB_SIZE true] ∧
      ∀ v ∈ trace, ¬ReleasesFull v.before.mm v.event)) (by decide +kernel)
  obtain ⟨hevents, hgood⟩ := of_decide_eq_true hcheck
  exact ⟨trace, c, hrun, hevents, (states_filed_iff bootMm_booted hrun).mpr hgood⟩

-- Two 2 MB blocks fill a descriptor, and releasing one of them strands it.
theorem stranded_block : ¬∀ s c, Booted s → Reachable BlkStep ⟨s, []⟩ c → Filed c.mm := by
  intro hall
  obtain ⟨trace, c, hrun, hcheck⟩ := exists_run
    [.alloc BLK2MB_SIZE, .alloc BLK2MB_SIZE, .free 0x80400000 BLK2MB_SIZE] ⟨bootMm, []⟩
    (fun _ c => c.mm.links.next (.head (4, fullList)) = .entry 1 ∧
      c.mm.descs 1 = some ⟨0x80400000, 0x807fffff, 2, slabFlag 4⟩) (by decide +kernel)
  have hr : Reachable BlkStep ⟨bootMm, []⟩ c := ⟨trace, hrun⟩
  obtain ⟨hnext, hd⟩ := of_decide_eq_true hcheck
  obtain ⟨m, t, h⟩ := bootMm_booted.reachable hr
  have hk : 1 ∈ t.queue (4, fullList) := by
    rw [h.rep.rings.next_head] at hnext
    cases hq : t.queue (4, fullList) with
    | nil => simp [hq] at hnext
    | cons a as => simp_all
  have hlt := h.rep.count ▸ (h.inv.cover 1).mpr ⟨_, hk⟩
  have hl := ((hall bootMm c bootMm_booted hr).lists 4 1 _ hlt hd (slabFlag_fields 4).1).1
  exact absurd (hl.mp ((h.rep.onList _ 1).mpr hk)) (by decide)

end Lmosem
