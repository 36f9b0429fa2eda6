import Lmosem.Hal.Boot
import Lmosem.Lib.Run

namespace Lmosem

open Intrusive SlabQueue Region Shelves Transition

-- The allocator together with the blocks its clients hold.
structure BlkState where
  mm : Mm
  live : List (Adr × SizeT)

-- One call of a client that frees only what it holds.
inductive BlkStep : BlkState → BlkEvent → BlkState → Prop
  | alloc {s s' : Mm} {live : List (Adr × SizeT)} {size : SizeT} {ret : Adr}
      (hcall : allocMemBlk s size = .ok (ret, s')) :
      BlkStep ⟨s, live⟩ (.alloc size ret) ⟨s', heldAfter live (.alloc size ret)⟩
  | free {s s' : Mm} {live : List (Adr × SizeT)} {addr : Adr} {size : SizeT} {ret : Bool}
      (hlive : (addr, size) ∈ live) (hcall : freeMemBlk s addr size = .ok (ret, s')) :
      BlkStep ⟨s, live⟩ (.free addr size ret) ⟨s', heldAfter live (.free addr size ret)⟩

-- One call of a client that may try to free anything.
inductive AnyStep : BlkState → BlkEvent → BlkState → Prop
  | alloc {s s' : Mm} {live : List (Adr × SizeT)} {size : SizeT} {ret : Adr}
      (hcall : allocMemBlk s size = .ok (ret, s')) :
      AnyStep ⟨s, live⟩ (.alloc size ret) ⟨s', heldAfter live (.alloc size ret)⟩
  | free {s s' : Mm} {live : List (Adr × SizeT)} {addr : Adr} {size : SizeT} {ret : Bool}
      (hcall : freeMemBlk s addr size = .ok (ret, s')) :
      AnyStep ⟨s, live⟩ (.free addr size ret) ⟨s', heldAfter live (.free addr size ret)⟩

theorem BlkStep.any {c c' : BlkState} {e : BlkEvent} (h : BlkStep c e c') : AnyStep c e c' := by
  cases h with
  | alloc hcall => exact .alloc hcall
  | free _ hcall => exact .free hcall

-- `s` is what `init_mm` makes of some table of whole RAM rows.
def Booted (s : Mm) : Prop :=
  ∃ s₀ : Mm, s₀.descs = (fun _ => none) ∧ WholeMap s₀.mach.addrSpaces ∧ initMm s₀ = .ok s

theorem bootMm_booted : Booted bootMm := ⟨_, rfl, machAddrSpace_whole, bootMm_eq⟩

-- The bytes of a block.
def range (blk : Adr × SizeT) : ℕ × ℕ := (blk.1.toNat, blk.2.toNat)

theorem range_injective {x y : Adr × SizeT} (h : range x = range y) : x = y := by
  obtain ⟨h1, h2⟩ := Prod.mk.inj h
  exact Prod.ext (BitVec.eq_of_toNat_eq h1) (BitVec.eq_of_toNat_eq h2)

-- Descriptor `k` is met on the way round the list at `p`.
def OnList (s : Mm) (p : SlabHead) (k : ℕ) : Prop :=
  ∃ ks : List ℕ, Ring s.links (.head p) (ks.map .entry) ∧ k ∈ ks

theorem Rep.onList {m : MemMap} {s : Mm} {t : Shelves} (h : Rep m s t) (p : SlabHead) (k : ℕ) :
    OnList s p k ↔ k ∈ t.queue p := by
  constructor
  · rintro ⟨ks, hring, hk⟩
    exact h.rings.eq_of_ring hring ▸ hk
  · exact fun hk => ⟨_, h.rings.ring p, hk⟩

-- The marked blocks are the live ones and the first block, which `init_kernel_mem` takes.
structure BlkInv (m : MemMap) (t : Shelves) (s : Mm) (live : List (Adr × SizeT)) : Prop where
  rep : Rep m s t
  inv : t.Inv m
  reserved : t.OnShelf 0 0 ∧ 0 ∈ t.used 0
  held : ∀ blk, blk ∈ live ↔ t.Marked m (range blk) ∧ range blk ≠ block m 0 0 0
  distinct : live.Nodup

section Steps

variable {m : MemMap} {t : Shelves} {s : Mm} {live : List (Adr × SizeT)}

theorem start_marked (m : MemMap) (blk : ℕ × ℕ) :
    (Shelves.start m).Marked m blk ↔ blk = block m 0 0 0 := by
  simp only [Marked, OnShelf, start_mem]
  constructor
  · rintro ⟨i, k, b, hk, hb, rfl⟩
    have hk : i = 0 ∧ k = 0 := by simpa using hk
    obtain ⟨rfl, rfl⟩ := hk
    obtain rfl : b = 0 := by simpa [Shelves.start] using hb
    rfl
  · rintro rfl
    exact ⟨0, 0, 0, by simp, by simp [Shelves.start], rfl⟩

theorem BlkInv.start (h : Rep m s (Shelves.start m)) : BlkInv m (Shelves.start m) s [] := by
  refine ⟨h, start_inv m, ⟨by simp [OnShelf, start_mem], by simp [Shelves.start]⟩, ?_,
    List.nodup_nil⟩
  intro blk
  simp only [List.not_mem_nil, start_marked, false_iff]
  exact fun h => h.2 h.1

-- The order in which blocks are remembered does not matter.
theorem BlkInv.perm {live' : List (Adr × SizeT)} (h : BlkInv m t s live) (hp : live.Perm live') :
    BlkInv m t s live' :=
  ⟨h.rep, h.inv, h.reserved, fun blk => hp.mem_iff.symm.trans (h.held blk), hp.nodup h.distinct⟩

theorem BlkInv.reserved_marked (h : BlkInv m t s live) : t.Marked m (block m 0 0 0) :=
  ⟨0, 0, 0, h.reserved.1, h.reserved.2, rfl⟩

-- Handing out a block, on the shelves and in what the clients hold.
theorem BlkInv.taken (h : BlkInv m t s live) {i : Slab} {k b : ℕ} {t' : Shelves} {s' : Mm}
    {blk : Adr × SizeT} (ha : t.alloc i = some ((k, b), t')) (hrep : Rep m s' t')
    (hrange : range blk = block m i k b) : BlkInv m t' s' (blk :: live) := by
  have hmark := h.inv.marked_alloc ha
  have hfresh := h.inv.alloc_fresh ha
  obtain ⟨hpick, -, -, hused, q, hq, -, hqueue⟩ := alloc_cases ha
  refine ⟨hrep, h.inv.alloc ha, ?_, fun blk' => ?_, ?_⟩
  · have hmove := onShelf_move h.inv.apart hqueue
    by_cases hk : k = 0
    · subst hk
      obtain rfl := h.inv.pick_shelf hpick h.reserved.1
      refine ⟨(hmove 0 0).mpr (Or.inr ⟨rfl, rfl, hq⟩), ?_⟩
      rw [hused, Function.update_self]
      exact Finset.mem_insert_of_mem h.reserved.2
    · refine ⟨(hmove 0 0).mpr (Or.inl ⟨Ne.symm hk, h.reserved.1⟩), ?_⟩
      rw [hused, Function.update_of_ne (Ne.symm hk)]
      exact h.reserved.2
  · rw [List.mem_cons, h.held, hmark]
    have hres : block m i k b ≠ block m 0 0 0 := fun he => hfresh (he ▸ h.reserved_marked)
    constructor
    · rintro (rfl | ⟨hm, hne⟩)
      · exact ⟨Or.inr hrange, hrange ▸ hres⟩
      · exact ⟨Or.inl hm, hne⟩
    · rintro ⟨hm | he, hne⟩
      · exact Or.inr ⟨hm, hne⟩
      · exact Or.inl (range_injective (he.trans hrange.symm))
  · refine List.nodup_cons.mpr ⟨fun hm => ?_, h.distinct⟩
    exact hfresh (hrange ▸ ((h.held _).mp hm).1)

-- Taking a held block back.
theorem BlkInv.given (h : BlkInv m t s live) {i : Slab} {k b : ℕ} {t' : Shelves} {s' : Mm}
    {addr : ℕ} {blk : Adr × SizeT} (hf : t.free m i addr = some ((k, b), t')) (hrep : Rep m s' t')
    (hrange : range blk = block m i k b) (hne : block m i k b ≠ block m 0 0 0) :
    BlkInv m t' s' (live.erase blk) := by
  have hshelf := h.inv.onShelf_free hf
  have hmark := h.inv.marked_free hf
  obtain ⟨hfind, -, -, hused, -⟩ := free_cases hf
  obtain ⟨hk, -⟩ := find_cases hfind
  refine ⟨hrep, h.inv.free hf, ?_, fun blk' => ?_, h.distinct.erase _⟩
  · rw [hshelf]
    by_cases hk0 : k = 0
    · subst hk0
      obtain rfl := h.inv.onShelf_unique hk h.reserved.1
      have hb0 : (0 : ℕ) ≠ b := by
        rintro rfl
        exact hne rfl
      have hmem : 0 ∈ (t.used 0).erase b := Finset.mem_erase.mpr ⟨hb0, h.reserved.2⟩
      refine ⟨⟨h.reserved.1, fun he => ?_⟩, ?_⟩
      · simp [he.2] at hmem
      · rwa [hused, Function.update_self]
    · refine ⟨⟨h.reserved.1, fun he => hk0 he.1.symm⟩, ?_⟩
      rw [hused, Function.update_of_ne (Ne.symm hk0)]
      exact h.reserved.2
  · rw [h.distinct.mem_erase_iff, h.held, hmark, ← hrange]
    have hcongr : range blk' ≠ range blk ↔ blk' ≠ blk :=
      ⟨fun hr he => hr (he ▸ rfl), fun hr he => hr (range_injective he)⟩
    rw [hcongr]
    tauto

theorem BlkInv.alloc_spec (h : BlkInv m t s live) (size : SizeT) :
    ∃ ret s', allocMemBlk s size = .ok (ret, s') ∧ s'.mach = s.mach ∧
      ((ret = NULL ∧ s' = s ∧ ∀ i, size = slabSize i → t.alloc i = none) ∨
        ∃ i k b t', size = slabSize i ∧ t.alloc i = some ((k, b), t') ∧ ret ≠ NULL ∧
          range (ret, size) = block m i k b ∧ BlkInv m t' s' ((ret, size) :: live)) := by
  by_cases hsize : ∃ i, size = slabSize i
  · obtain ⟨i, rfl⟩ := hsize
    cases ha : t.alloc i with
    | none =>
        refine ⟨NULL, s, h.rep.alloc_none h.inv ha, rfl, Or.inl ⟨rfl, rfl, fun j hj => ?_⟩⟩
        exact slabSize_injective hj ▸ ha
    | some r =>
        obtain ⟨⟨k, b⟩, t'⟩ := r
        obtain ⟨ret, s', hcall, haddr, hrep, hmach⟩ := h.rep.alloc h.inv ha
        have hrange : range (ret, slabSize i) = block m i k b :=
          Prod.ext haddr (slabSize_toNat i)
        have hnull : ret ≠ NULL := by
          obtain ⟨p, hp⟩ := h.inv.pick_mem (alloc_cases ha).1
          have hpos := m.base_pos k ((h.inv.cover k).mpr ⟨p, hp⟩)
          simp only [block, slot] at haddr
          rw [ne_null_iff]
          omega
        exact ⟨ret, s', hcall, hmach,
          Or.inr ⟨i, k, b, t', rfl, ha, hnull, hrange, h.taken ha hrep hrange⟩⟩
  · have hother : ∀ i, size ≠ slabSize i := fun i hi => hsize ⟨i, hi⟩
    exact ⟨NULL, s, h.rep.alloc_other hother, rfl,
      Or.inl ⟨rfl, rfl, fun i hi => absurd hi (hother i)⟩⟩

theorem BlkInv.free_spec (h : BlkInv m t s live) {addr : Adr} {size : SizeT}
    (hlive : (addr, size) ∈ live) :
    ∃ i k b t' s', size = slabSize i ∧ t.free m i addr.toNat = some ((k, b), t') ∧
      freeMemBlk s addr size = .ok (true, s') ∧ s'.mach = s.mach ∧
      range (addr, size) = block m i k b ∧ BlkInv m t' s' (live.erase (addr, size)) := by
  obtain ⟨⟨i, k, b, hk, hb, hrange⟩, hne⟩ := (h.held _).mp hlive
  obtain ⟨t', hfree⟩ := h.inv.free_block (m := m) hk hb
  have haddr : addr.toNat = (block m i k b).1 := congrArg Prod.fst hrange
  have hsize : size = slabSize i :=
    BitVec.eq_of_toNat_eq ((congrArg Prod.snd hrange).trans (slabSize_toNat i).symm)
  subst hsize
  rw [← haddr] at hfree
  obtain ⟨s', hcall, hrep, hmach⟩ := h.rep.free h.inv hfree
  exact ⟨i, k, b, t', s', rfl, hfree, hcall, hmach, hrange,
    h.given hfree hrep hrange (hrange ▸ hne)⟩

theorem BlkInv.alloc_null (h : BlkInv m t s live) (i : Slab) :
    (∃ s', allocMemBlk s (slabSize i) = .ok (NULL, s')) ↔ t.alloc i = none := by
  obtain ⟨ret, s', hcall, -, hspec⟩ := h.alloc_spec (slabSize i)
  have hret : (∃ s', allocMemBlk s (slabSize i) = .ok (NULL, s')) ↔ ret = NULL := by
    rw [hcall]
    exact ⟨fun ⟨_, he⟩ => (Outcome.pair_inj he).1, fun he => ⟨s', by rw [he]⟩⟩
  rw [hret]
  rcases hspec with ⟨hnull, -, hnone⟩ | ⟨j, k, b, t', hsize, ha, hne, -⟩
  · exact ⟨fun _ => hnone i rfl, fun _ => hnull⟩
  · obtain rfl := slabSize_injective hsize
    constructor
    · exact fun he => absurd he hne
    · intro hnone
      rw [hnone] at ha
      simp at ha

end Steps

-- What one call does on the shelves.
inductive Shelves.Step (m : MemMap) (t : Shelves) : BlkEvent → Shelves → Prop
  | refuse {size : SizeT} (hnone : ∀ i, size = slabSize i → t.alloc i = none) :
      Step m t (.alloc size NULL) t
  | alloc {i : Slab} {k b : ℕ} {t' : Shelves} {ret : Adr} (halloc : t.alloc i = some ((k, b), t'))
      (hret : ret ≠ NULL) (hrange : range (ret, slabSize i) = block m i k b) :
      Step m t (.alloc (slabSize i) ret) t'
  | free {i : Slab} {k b : ℕ} {t' : Shelves} {addr : Adr}
      (hfree : t.free m i addr.toNat = some ((k, b), t'))
      (hrange : range (addr, slabSize i) = block m i k b) :
      Step m t (.free addr (slabSize i) true) t'

section Simulation

variable {m : MemMap} {t : Shelves} {s : Mm} {c c' : BlkState} {e : BlkEvent}

-- The code's step is simulated by a step of the shelves.
theorem BlkInv.step (h : BlkInv m t c.mm c.live) (hs : BlkStep c e c') :
    ∃ t', t.Step m e t' ∧ BlkInv m t' c'.mm c'.live ∧ c'.mm.mach = c.mm.mach := by
  cases hs with
  | @alloc s s' live size ret hcall =>
      obtain ⟨ret', s'', hcall', hmach, hspec⟩ := h.alloc_spec size
      obtain ⟨rfl, rfl⟩ := Outcome.pair_unique hcall hcall'
      rcases hspec with ⟨rfl, rfl, hnone⟩ | ⟨i, k, b, t', rfl, ha, hret, hrange, hinv⟩
      · exact ⟨t, .refuse hnone, h, rfl⟩
      · exact ⟨t', .alloc ha hret hrange, by simpa only [heldAfter, if_neg hret] using hinv, hmach⟩
  | @free s s' live addr size ret hlive hcall =>
      obtain ⟨i, k, b, t', s'', rfl, hf, hcall', hmach, hrange, hinv⟩ := h.free_spec hlive
      obtain ⟨rfl, rfl⟩ := Outcome.pair_unique hcall hcall'
      exact ⟨t', .free hf hrange, hinv, hmach⟩

theorem Booted.start (hb : Booted s) :
    ∃ m, BlkInv m (Shelves.start m) s [] := by
  obtain ⟨s₀, hd, hw, hs⟩ := hb
  obtain ⟨hpos, hrep, -⟩ := initMm_whole hd hw hs
  exact ⟨_, .start hrep⟩

-- Every move of a run is a step of the shelves, from a state they agree with to another.
theorem BlkInv.moves {trace : List (Move BlkState BlkEvent)} (h : BlkInv m t c.mm c.live)
    (hr : Run BlkStep c trace c') : ∀ v ∈ trace, v.before.mm.mach = c.mm.mach ∧
      ∃ t t', BlkInv m t v.before.mm v.before.live ∧ t.Step m v.event t' ∧
        BlkInv m t' v.after.mm v.after.live := by
  have hrun := hr.keeps (I := fun x => (∃ t, BlkInv m t x.mm x.live) ∧ x.mm.mach = c.mm.mach)
    ⟨⟨t, h⟩, rfl⟩ fun v _ hs ⟨⟨t, h⟩, hmach⟩ => by
      obtain ⟨t', -, h', hmach'⟩ := h.step hs
      exact ⟨⟨t', h'⟩, hmach'.trans hmach⟩
  intro v hv
  obtain ⟨hs, ⟨⟨t, hbefore⟩, hmach⟩, -⟩ := hrun.2 v hv
  obtain ⟨t', hstep, hafter, -⟩ := hbefore.step hs
  exact ⟨hmach, t, t', hbefore, hstep, hafter⟩

theorem Booted.reachable (hb : Booted s) (hr : Reachable BlkStep ⟨s, []⟩ c) :
    ∃ m t, BlkInv m t c.mm c.live := by
  obtain ⟨m, h0⟩ := hb.start
  exact ⟨m, hr.invariant (I := fun c => ∃ t, BlkInv m t c.mm c.live) ⟨_, h0⟩
    fun _ _ _ hs ⟨_, h⟩ => (h.step hs).imp fun _ h' => h'.2.1⟩

-- No call of a run gets stuck, and a release of a held block is never refused.
theorem Booted.calls_return (hb : Booted s) (hr : Reachable BlkStep ⟨s, []⟩ c) :
    (∀ size, ∃ ret s', allocMemBlk c.mm size = .ok (ret, s')) ∧
      ∀ addr size, (addr, size) ∈ c.live → ∃ s', freeMemBlk c.mm addr size = .ok (true, s') := by
  obtain ⟨m, t, h⟩ := hb.reachable hr
  refine ⟨fun size => ?_, fun addr size hlive => ?_⟩
  · obtain ⟨ret, s', hcall, -⟩ := h.alloc_spec size
    exact ⟨ret, s', hcall⟩
  · obtain ⟨i, k, b, t', s', -, -, hcall, -⟩ := h.free_spec hlive
    exact ⟨s', hcall⟩

end Simulation

instance (blk : Adr × SizeT) (live : List (Adr × SizeT)) : Decidable (blk ∈ live) := inferInstance

-- The calls of a test run, and the run they make.
inductive BlkCall
  | alloc (size : SizeT)
  | free (addr : Adr) (size : SizeT)

def blkNext : BlkCall → BlkState → Option (BlkEvent × BlkState)
  | .alloc size, c =>
      match allocMemBlk c.mm size with
      | .ok (ret, s') => some (.alloc size ret, ⟨s', heldAfter c.live (.alloc size ret)⟩)
      | _ => none
  | .free addr size, c =>
      if (addr, size) ∈ c.live then
        match freeMemBlk c.mm addr size with
        | .ok (ret, s') => some (.free addr size ret, ⟨s', heldAfter c.live (.free addr size ret)⟩)
        | _ => none
      else none

theorem blkStep_of_next (call : BlkCall) (c : BlkState) (e : BlkEvent) (c' : BlkState)
    (h : blkNext call c = some (e, c')) : BlkStep c e c' := by
  cases call with
  | alloc size =>
      simp only [blkNext] at h
      split at h
      · next ret s' hcall =>
          obtain ⟨rfl, rfl⟩ := Prod.mk.inj (Option.some.inj h)
          exact .alloc hcall
      · simp at h
  | free addr size =>
      simp only [blkNext] at h
      split at h
      · next hlive =>
          split at h
          · next ret s' hcall =>
              obtain ⟨rfl, rfl⟩ := Prod.mk.inj (Option.some.inj h)
              exact .free hlive hcall
          · simp at h
      · simp at h

-- A test run that comes out as `check` wants it is a run.
theorem exists_run (calls : List BlkCall) (c : BlkState)
    (check : List (Move BlkState BlkEvent) → BlkState → Bool)
    (h : (drive blkNext calls c).any (fun r => check r.1 r.2) = true) :
    ∃ trace c', Run BlkStep c trace c' ∧ check trace c' = true := by
  cases hd : drive blkNext calls c with
  | none => simp [hd] at h
  | some r => exact ⟨r.1, r.2, run_of_drive blkStep_of_next calls hd, by simpa [hd] using h⟩

end Lmosem
