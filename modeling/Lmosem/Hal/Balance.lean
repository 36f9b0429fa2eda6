import Lmosem.Hal.Safety

namespace Lmosem

open Intrusive SlabQueue Region Shelves Transition

-- How many 128 KB blocks are held.
def smallBlocks (live : List (Adr × SizeT)) : ℕ := live.countP fun blk => blk.2 = BLK128KB_SIZE

-- Descriptor 0 is the only one cut into 128 KB blocks, and has one to give.
def Shelves.Alone (t : Shelves) : Prop :=
  t.queue (0, partialList) = [0] ∧ t.queue (0, fullList) = []

-- The same with nothing left to give.
def Shelves.Brimful (t : Shelves) : Prop :=
  t.queue (0, fullList) = [0] ∧ t.queue (0, partialList) = [] ∧ Finset.range (blkBits 0) ⊆ t.used 0

section Alone

variable {m : MemMap} {t t' : Shelves} {s s' : Mm} {live live' : List (Adr × SizeT)} {e : BlkEvent}
  {i : Slab} {k b : ℕ}

theorem start_alone (m : MemMap) : (Shelves.start m).Alone := by simp [Alone, Shelves.start]

theorem Shelves.Alone.onShelf_iff (ha : t.Alone) : t.OnShelf 0 k ↔ k = 0 := by
  simp [OnShelf, ha.1, ha.2]

theorem Shelves.Alone.alloc (ha : t.Alone) (hi : Inv m t) (hal : t.alloc i = some ((k, b), t')) :
    t'.Alone ∨ t'.Brimful := by
  obtain ⟨hpick, -, -, hused, q, hq, hfull, hqueue⟩ := alloc_cases hal
  by_cases hi0 : i = 0
  · subst hi0
    obtain rfl : k = 0 := by
      have hp : some 0 = some k := by rw [← hpick, pick, ha.1]; rfl
      exact (Option.some.inj hp).symm
    cases q with
    | fullList =>
        refine Or.inr ⟨?_, ?_, ?_⟩
        · simp [hqueue, Queues.move, ha.2]
        · simp [hqueue, Queues.move, ha.1]
        · rw [hused, Function.update_self]
          exact hfull.mp rfl
    | partialList => exact Or.inl (by simp [Alone, hqueue, Queues.move, ha.1, ha.2])
    | emptyList => exact absurd rfl hq
  · have hk0 : k ≠ 0 := by
      rintro rfl
      exact hi0 (hi.pick_shelf hpick (ha.onShelf_iff.mpr rfl)).symm
    have h0 (q' : SlabQueue) : ((0, q') : SlabHead) ≠ (i, q) := by
      simp only [ne_eq, Prod.mk.injEq, not_and]
      exact fun he => absurd he.symm hi0
    refine Or.inl ⟨?_, ?_⟩
    · rw [hqueue, Queues.move_of_ne _ _ (h0 _), Queues.remove_of_notMem (by simpa [ha.1] using hk0),
        ha.1]
    · rw [hqueue, Queues.move_of_ne _ _ (h0 _), Queues.remove_of_notMem (by simp [ha.2]), ha.2]

-- The first descriptor keeps its place when another one, or none, is moved.
theorem queue_free (hi : Inv m t) {addr : ℕ} (hf : t.free m i addr = some ((k, b), t'))
    (h0 : t'.OnShelf 0 0) (q : SlabQueue) (hq : ∀ x ∈ t.queue (0, q), x = 0) :
    t'.queue (0, q) = t.queue (0, q) := by
  have hshelf := (hi.onShelf_free hf 0 0).mp h0
  obtain ⟨-, -, -, -, hqueue⟩ := free_cases hf
  by_cases he : (t.used k).erase b = ∅
  · have hk0 : k ≠ 0 := fun hk => hshelf.2 ⟨hk.symm, he⟩
    have hp : ((0, q) : SlabHead) ≠ (lastSlab, emptyList) :=
      fun he => absurd (show (0 : Slab) = lastSlab from congrArg Prod.fst he) (by decide)
    rw [hqueue, if_pos he, Queues.move_of_ne _ _ hp, Queues.remove_of_notMem]
    exact fun hm => hk0 (hq k hm)
  · rw [hqueue, if_neg he]

theorem BlkInv.step_alone (h : BlkInv m t s live) (hs : t.Step m e t') (h' : BlkInv m t' s' live')
    (ha : t.Alone) : t'.Alone ∨ t'.Brimful := by
  cases hs with
  | refuse _ => exact Or.inl ha
  | alloc hal _ _ => exact ha.alloc h.inv hal
  | free hf _ =>
      have hq := queue_free h.inv hf h'.reserved.1
      refine Or.inl ⟨?_, ?_⟩
      · rw [hq _ (by simp [ha.1]), ha.1]
      · rw [hq _ (by simp [ha.2]), ha.2]

-- Its reserved block keeps the first descriptor on the full list for ever.
theorem BlkInv.step_full (h : BlkInv m t s live) (hs : t.Step m e t') (h' : BlkInv m t' s' live')
    (hfull : 0 ∈ t.queue (0, fullList)) : 0 ∈ t'.queue (0, fullList) := by
  cases hs with
  | refuse _ => exact hfull
  | @alloc i k b t' ret hal _ _ =>
      obtain ⟨hpick, -, -, -, q, hq, -, hqueue⟩ := alloc_cases hal
      have hk0 : k ≠ 0 := by
        rintro rfl
        rcases pick_cases hpick with hp | ⟨-, hp⟩ <;>
          exact absurd (congrArg Prod.snd (h.inv.apart.unique _ _ 0 hp hfull)) (by simp)
      rw [hqueue, h.inv.apart.mem_move]
      exact Or.inl ⟨Ne.symm hk0, hfull⟩
  | @free i k b t' addr hf _ =>
      have hshelf := (h.inv.onShelf_free hf 0 0).mp h'.reserved.1
      obtain ⟨-, -, -, -, hqueue⟩ := free_cases hf
      by_cases he : (t.used k).erase b = ∅
      · have hk0 : k ≠ 0 := fun hk => hshelf.2 ⟨hk.symm, he⟩
        rw [hqueue, if_pos he, h.inv.apart.mem_move]
        exact Or.inl ⟨Ne.symm hk0, hfull⟩
      · rwa [hqueue, if_neg he]

-- As long as only descriptor 0 is cut into 128 KB blocks, its bits count them.
theorem BlkInv.smallBlocks_eq (h : BlkInv m t s live) (honly : ∀ k, t.OnShelf 0 k → k = 0) :
    smallBlocks live = (t.used 0).card - 1 := by
  obtain ⟨p, d, hp, -, hrep⟩ := h.rep.desc_of_lt h.inv m.count_pos
  have hbij := h.blocks_bijOn h.reserved.1 hp hrep
  have hbits : ((t.used 0).erase 0 : Finset ℕ) = {b | b ∈ t.used 0 ∧ ¬((0 : ℕ) = 0 ∧ b = 0)} := by
    ext b
    simp [and_comm]
  have hblks : ((live.filter fun blk => blk.2 = BLK128KB_SIZE).toFinset : Set (Adr × SizeT)) =
      {blk | blk ∈ live ∧ Inside d blk} := by
    ext blk
    simp only [List.coe_toFinset, List.mem_filter, decide_eq_true_eq, Set.mem_ofPred_eq]
    refine and_congr_right fun hblk => ?_
    rw [inside_iff hrep]
    constructor
    · intro hsize
      obtain ⟨i, k, b, hk, hb, hrange⟩ := h.exists_block hblk
      have hbytes : blkSize i = blkSize 0 :=
        (congrArg Prod.snd hrange).symm.trans (congrArg BitVec.toNat hsize)
      obtain rfl := blkSize_injective hbytes
      obtain rfl := honly k hk
      rw [hrange]
      exact block_within (Finset.mem_range.mp ((h.inv.split 0 0 hk).2 hb)) 0
    · intro hin
      obtain ⟨b, -, hrange⟩ := h.live_inside h.reserved.1 hblk hin
      exact BitVec.eq_of_toNat_eq (congrArg Prod.snd hrange)
  rw [← hbits, ← hblks] at hbij
  have hcard := hbij.finsetCard_eq
  rw [List.toFinset_card_of_nodup (h.distinct.filter _), Finset.card_erase_of_mem h.reserved.2] at hcard
  rw [smallBlocks, List.countP_eq_length_filter, hcard]

theorem BlkInv.smallBlocks_alone (h : BlkInv m t s live) (ha : t.Alone) : smallBlocks live < 31 := by
  rw [h.smallBlocks_eq fun k hk => ha.onShelf_iff.mp hk]
  have hp : 0 ∈ t.queue (0, partialList) := by simp [ha.1]
  have hss : t.used 0 ⊂ Finset.range (blkBits 0) := ⟨(h.inv.split 0 0 (Or.inr hp)).2, h.inv.room 0 0 hp⟩
  have hlt := Finset.card_lt_card hss
  simp only [Finset.card_range] at hlt
  have hbits : blkBits 0 = 32 := rfl
  omega

theorem BlkInv.smallBlocks_full (h : BlkInv m t s live) (hf : t.Brimful) :
    31 ≤ smallBlocks live := by
  rw [h.smallBlocks_eq fun k hk => by simpa [OnShelf, hf.1, hf.2.1] using hk]
  have hle := Finset.card_le_card hf.2.2
  have hbits : blkBits 0 = 32 := rfl
  simp only [Finset.card_range] at hle
  omega

end Alone

-- The descriptors and list memberships that `init_mm` leaves.
structure AsBooted (s : Mm) : Prop where
  first : OnList s (0, partialList) 0 ∧
    ∃ d, s.descs 0 = some d ∧ d.mapCount = 1 ∧ d.flag = MAP_FLAGES_VAL 0 MAPF_ACSZ_128KB MAPF_SZ_4MB
  rest : ∀ k, 0 < k → k < s.mach.memDescCount → OnList s (lastSlab, emptyList) k ∧
    ∃ d, s.descs k = some d ∧ d.mapCount = 0 ∧ d.flag = MAP_FLAGES_VAL 0 MAPF_ACSZ_4MB MAPF_SZ_4MB

-- Every descriptor has its value back and stands on its old list, in any order.
structure Restored (s₀ s : Mm) : Prop where
  descs : ∀ k < s₀.mach.memDescCount, s.descs k = s₀.descs k
  lists : ∀ p k, OnList s p k ↔ OnList s₀ p k

section Restored

variable {m : MemMap} {t : Shelves} {s s₀ : Mm} {k : ℕ}

-- With nothing held and the first descriptor partial, the shelves are as at the start.
theorem BlkInv.alone_start (h : BlkInv m t s []) (ha : t.Alone) (hk : k < m.count) :
    t.used k = (Shelves.start m).used k ∧ ∀ p, k ∈ t.queue p ↔ k ∈ (Shelves.start m).queue p := by
  obtain ⟨p, d, hp, -, hrep⟩ := h.rep.desc_of_lt h.inv hk
  have hplace (q : SlabHead) (hq : k ∈ t.queue q) (hq' : k ∈ (Shelves.start m).queue q) :
      ∀ p, k ∈ t.queue p ↔ k ∈ (Shelves.start m).queue p := fun r =>
    ⟨fun hr => h.inv.apart.unique r q k hr hq ▸ hq',
      fun hr => (start_inv m).apart.unique r q k hr hq' ▸ hq⟩
  by_cases hk0 : k = 0
  · subst hk0
    refine ⟨?_, hplace (0, partialList) (by simp [ha.1]) (by simp [Shelves.start])⟩
    have hbij := (h.blocks_bijOn h.reserved.1 hp hrep).mapsTo
    ext b
    simp only [Shelves.start, if_true, Finset.mem_singleton]
    constructor
    · intro hb
      by_contra hb0
      exact absurd (hbij ⟨hb, fun he => hb0 he.2⟩).1 List.not_mem_nil
    · rintro rfl
      exact h.reserved.2
  · have he := (h.empty_iff hk hp hrep).mpr ⟨hk0, by simp⟩
    refine ⟨?_, hplace _ he ?_⟩
    · simp [h.inv.unused k he, Shelves.start, hk0]
    · rw [start_mem]
      exact Or.inl ⟨rfl, by omega, hk⟩

theorem BlkInv.restored (h₀ : Rep m s₀ (Shelves.start m)) (h : BlkInv m t s []) (ha : t.Alone) :
    Restored s₀ s := by
  constructor
  · intro k hk
    have hk' := h₀.count ▸ hk
    obtain ⟨hused, hqueue⟩ := h.alone_start ha hk'
    obtain ⟨p, d, hp, hd, hrep⟩ := h.rep.desc_of_lt h.inv hk'
    obtain ⟨d', hd', hrep'⟩ := h₀.descs p k ((hqueue p).mp hp)
    rw [hd, hd', hrep.unique hrep' hused]
  · intro p k
    rw [h.rep.onList, h₀.onList]
    by_cases hk : k < m.count
    · exact (h.alone_start ha hk).2 p
    · exact ⟨fun hm => absurd ((h.inv.cover k).mpr ⟨p, hm⟩) hk,
        fun hm => absurd (((start_inv m).cover k).mpr ⟨p, hm⟩) hk⟩

theorem start_asBooted (h : Rep m s (Shelves.start m)) : AsBooted s := by
  constructor
  · have hm : 0 ∈ (Shelves.start m).queue (0, partialList) := by simp [Shelves.start]
    obtain ⟨d, hd, hrep⟩ := h.descs _ 0 hm
    refine ⟨(h.onList _ 0).mpr hm, d, hd, Bits.ones_injective _ _ ?_, hrep.flag⟩
    simp only [hrep.bits, Shelves.start, if_true]
    decide
  · intro k hk0 hk
    have hm : k ∈ (Shelves.start m).queue (lastSlab, emptyList) :=
      (start_mem m _ k).mpr (Or.inl ⟨rfl, hk0, h.count ▸ hk⟩)
    obtain ⟨d, hd, hrep⟩ := h.descs _ k hm
    exact ⟨(h.onList _ k).mpr hm, d, hd, hrep.mapCount_eq_zero.mpr ((start_inv m).unused k hm),
      hrep.flag⟩

theorem AsBooted.of_restored (hb : AsBooted s₀) (hr : Restored s₀ s)
    (hpos : 0 < s₀.mach.memDescCount) (hc : s.mach.memDescCount = s₀.mach.memDescCount) :
    AsBooted s := by
  constructor
  · rw [hr.lists, hr.descs 0 hpos]
    exact hb.first
  · intro k hk0 hk
    rw [hr.lists, hr.descs k (hc ▸ hk)]
    exact hb.rest k hk0 (hc ▸ hk)

-- The first 128 KB block goes to the second slot of the first descriptor.
theorem Rep.alloc_second (h : Rep m s t) (hi : t.Inv m) (ha : t.Alone) (hused : t.used 0 = {0}) :
    ∃ a s', allocMemBlk s BLK128KB_SIZE = .ok (a, s') ∧ a.toNat = (block m 0 0 1).1 := by
  cases hal : t.alloc 0 with
  | none =>
      have hempty := (hi.alloc_eq_none.mp hal).1
      simp [ha.1] at hempty
  | some r =>
      obtain ⟨⟨k, b⟩, t'⟩ := r
      obtain ⟨a, s', hcall, haddr, -⟩ := h.alloc hi hal
      have hk : k = 0 := by
        have hp := (alloc_cases hal).1
        simpa [pick, ha.1] using hp.symm
      subst hk
      have hb : b = 1 := by
        have hz := alloc_firstZero hal
        rw [hused] at hz
        exact (Option.some.inj hz).symm
      exact ⟨a, s', hcall, hb ▸ haddr⟩

end Restored

-- Where a run has got to, and whether it ever held 31 small blocks.
def Phase (m : MemMap) (s : Mm) (trace : List (Move BlkState BlkEvent)) (c : BlkState) : Prop :=
  ∃ t, BlkInv m t c.mm c.live ∧
    ((t.Alone ∧ ∀ x ∈ states ⟨s, []⟩ trace, smallBlocks x.live < 31) ∨
      (0 ∈ t.queue (0, fullList) ∧ ∃ x ∈ states ⟨s, []⟩ trace, 31 ≤ smallBlocks x.live))

theorem run_phase {m : MemMap} {s : Mm} {c : BlkState} {trace : List (Move BlkState BlkEvent)}
    (h₀ : BlkInv m (Shelves.start m) s []) (hr : Run BlkStep ⟨s, []⟩ trace c) :
    Phase m s trace c := by
  induction hr with
  | nil =>
      refine ⟨_, h₀, Or.inl ⟨start_alone m, fun x hx => ?_⟩⟩
      obtain rfl : x = ⟨s, []⟩ := by simpa [states] using hx
      exact h₀.smallBlocks_alone (start_alone m)
  | @snoc trace c c' e hrun hs ih =>
      obtain ⟨t, h, hphase⟩ := ih
      obtain ⟨t', hstep, h', -⟩ := h.step hs
      have hsub (x : BlkState) : x ∈ states ⟨s, []⟩ (trace ++ [⟨c, e, c'⟩]) ↔
          x ∈ states ⟨s, []⟩ trace ∨ x = c' := by simp [states, or_assoc]
      refine ⟨t', h', ?_⟩
      rcases hphase with ⟨ha, hfew⟩ | ⟨hfull, x, hx, hmany⟩
      · rcases h.step_alone hstep h' ha with ha' | hbrim
        · refine Or.inl ⟨ha', fun x hx => ?_⟩
          rcases (hsub x).mp hx with hx | rfl
          · exact hfew x hx
          · exact h'.smallBlocks_alone ha'
        · exact Or.inr ⟨by simp [hbrim.1], c', (hsub c').mpr (Or.inr rfl), h'.smallBlocks_full hbrim⟩
      · exact Or.inr ⟨h.step_full hstep h' hfull, x, (hsub x).mpr (Or.inl hx), hmany⟩

-- A run that ends with nothing held has put everything back exactly when it
-- never held 31 of the 128 KB blocks at once.
theorem balanced_run_iff {s : Mm} {c : BlkState} {trace : List (Move BlkState BlkEvent)}
    (hb : Booted s) (hr : Run BlkStep ⟨s, []⟩ trace c) (hend : c.live = []) :
    (Restored s c.mm ∧ AsBooted c.mm ∧ ∃ a s' c', allocMemBlk s BLK128KB_SIZE = .ok (a, s') ∧
      allocMemBlk c.mm BLK128KB_SIZE = .ok (a, c')) ↔
      ∀ x ∈ states ⟨s, []⟩ trace, smallBlocks x.live < 31 := by
  obtain ⟨m, h₀⟩ := hb.start
  obtain ⟨t, h, hphase⟩ := run_phase h₀ hr
  rw [hend] at h
  rcases hphase with ⟨ha, hfew⟩ | ⟨hfull, x, hx, hmany⟩
  · refine iff_of_true ?_ hfew
    have hrest := h.restored h₀.rep ha
    have hcount : c.mm.mach.memDescCount = s.mach.memDescCount :=
      h.rep.count.trans h₀.rep.count.symm
    have hpos : 0 < s.mach.memDescCount := h₀.rep.count ▸ m.count_pos
    obtain ⟨a, s', hcall, haddr⟩ := h₀.rep.alloc_second h₀.inv (start_alone m) (by simp [Shelves.start])
    obtain ⟨a', c', hcall', haddr'⟩ := h.rep.alloc_second h.inv ha
      ((h.alone_start ha m.count_pos).1.trans (by simp [Shelves.start]))
    obtain rfl := BitVec.eq_of_toNat_eq (haddr.trans haddr'.symm)
    exact ⟨hrest, (start_asBooted h₀.rep).of_restored hrest hpos hcount, a, s', c', hcall, hcall'⟩
  · refine iff_of_false (fun hback => ?_) fun hfew => absurd (hfew x hx) (by omega)
    have hpart := (h.rep.onList _ 0).mp hback.2.1.first.1
    exact absurd (congrArg Prod.snd (h.inv.apart.unique _ _ 0 hpart hfull)) (by simp)

theorem balanced_run_shipped : ∃ trace c, Run BlkStep ⟨bootMm, []⟩ trace c ∧ trace.length = 4 ∧
    Restored bootMm c.mm := by
  obtain ⟨trace, c, hrun, hcheck⟩ := exists_run
    [.alloc BLK128KB_SIZE, .alloc BLK4MB_SIZE, .free 0x80020000 BLK128KB_SIZE,
      .free 0x80400000 BLK4MB_SIZE] ⟨bootMm, []⟩
    (fun trace c => trace.length = 4 ∧ c.live = [] ∧
      ∀ x ∈ states (BlkState.mk bootMm []) trace, smallBlocks x.live < 31) (by decide +kernel)
  obtain ⟨hlen, hend, hfew⟩ := of_decide_eq_true hcheck
  exact ⟨trace, c, hrun, hlen, ((balanced_run_iff bootMm_booted hrun hend).mpr hfew).1⟩

-- 31 small blocks fill the first descriptor, and releasing them all does not bring it back.
theorem unbalanced_run : ¬∀ s trace c, Booted s → Run BlkStep ⟨s, []⟩ trace c → c.live = [] →
    Restored s c.mm ∧ AsBooted c.mm ∧ ∃ a s' c', allocMemBlk s BLK128KB_SIZE = .ok (a, s') ∧
      allocMemBlk c.mm BLK128KB_SIZE = .ok (a, c') := by
  intro hall
  obtain ⟨trace, c, hrun, hcheck⟩ := exists_run
    (List.replicate 31 (.alloc BLK128KB_SIZE) ++ (List.range 31).map fun j =>
      .free (0x80020000 + BitVec.ofNat 32 j * BLK128KB_SIZE) BLK128KB_SIZE) ⟨bootMm, []⟩
    (fun _ c => c.live = [] ∧ c.mm.links.next (.head (0, partialList)) = .head (0, partialList))
    (by decide +kernel)
  obtain ⟨hend, hnext⟩ := of_decide_eq_true hcheck
  obtain ⟨m, t, h⟩ := bootMm_booted.reachable ⟨trace, hrun⟩
  have hfirst := (hall bootMm trace c bootMm_booted hrun hend).2.1.first.1
  have hempty := h.rep.listEmpty (0, partialList)
  rw [h.rep.onList] at hfirst
  rw [listEmpty, hnext, decide_eq_true rfl] at hempty
  rw [List.isEmpty_iff.mp hempty.symm] at hfirst
  exact absurd hfirst List.not_mem_nil

end Lmosem
