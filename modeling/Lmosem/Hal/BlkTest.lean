import Lmosem.Hal.Balance

-- The test of the block allocator, without the lines it prints.
namespace Lmosem

open Region Shelves Transition

def blkmmAllocs (ablksz : SizeT) : ℕ → List Adr → Mm → Outcome (List Adr × Mm)
  | 0, retadra, s => .ok (retadra, s)
  | n + 1, retadra, s => do
      let (retadr, s) ← allocMemBlk s ablksz
      if retadr = NULL then .die "NOT MEMALLOCBLK; return NULL\n"
      else blkmmAllocs ablksz n (retadra ++ [retadr]) s

def blkmmFrees (ablksz : SizeT) : List Adr → Mm → Outcome Mm
  | [], s => .ok s
  | retadr :: retadra, s => do
      let (retstus, s) ← freeMemBlk s retadr ablksz
      if retstus = false then .die "NOT MEMFREEBLK; return FALSE"
      else blkmmFrees ablksz retadra s

-- The last `left` turns of the loop over the sizes.
def blkmmLoop : ℕ → ℕ → Mm → Outcome Mm
  | 0, _, s => .ok s
  | left + 1, bli, s => do
      let (retadra, s) ← blkmmAllocs (BLK128KB_SIZE <<< bli) 14 [] s
      let s ← blkmmFrees (BLK128KB_SIZE <<< bli) retadra s
      blkmmLoop left (bli + 1) s

-- Leaves with whether `TEST BLKMM OK !!` is printed.
def testBlkmm (s : Mm) : Outcome (Bool × Mm) := do
  let (retadrold, s) ← allocMemBlk s BLK128KB_SIZE
  if retadrold = NULL then .die "NOT MEMALLOCBLKold return NULL\n"
  else do
    let (retstus, s) ← freeMemBlk s retadrold BLK128KB_SIZE
    if retstus = false then .die "NOT MEMFREEBLKold return FALSE\n"
    else do
      let s ← blkmmLoop 6 0 s
      let (retadrend, s) ← allocMemBlk s BLK128KB_SIZE
      if retadrend = NULL then .die "NOT MEMALLOCBLKend; return NULL"
      else .ok (decide (retadrend = retadrold), s)

section Room

variable {m : MemMap} {t : Shelves} {s : Mm} {live : List (Adr × SizeT)} {c : Slab}

-- A shelf without a block for a class has a block in use in every descriptor.
theorem BlkInv.count_le (h : BlkInv m t s live) (hnone : t.alloc c = none) :
    m.count ≤ live.length + 1 := by
  have hempty := (h.inv.alloc_eq_none.mp hnone).2
  have hmarked (n : ℕ) (hn : n < m.count) : ∃ blk, t.Marked m blk ∧ Within blk (m.base n, 2 ^ 22) := by
    obtain ⟨i, hi⟩ := (h.inv.place hn).resolve_right (by simp [hempty])
    obtain ⟨b, hb⟩ := (h.inv.split i n hi).1
    exact ⟨_, ⟨i, n, b, hi, hb, rfl⟩, block_within (Finset.mem_range.mp ((h.inv.split i n hi).2 hb)) n⟩
  choose! f hf hin using hmarked
  have hmaps : ∀ n ∈ Finset.range m.count,
      f n ∈ insert (block m 0 0 0) (live.map range).toFinset := by
    intro n hn
    have hn := Finset.mem_range.mp hn
    have hbound := m.bounded n hn
    have hwithin := hin n hn
    simp only [Within] at hwithin
    have hrange : range (BitVec.ofNat 32 (f n).1, BitVec.ofNat 32 (f n).2) = f n := by
      simp only [range, BitVec.toNat_ofNat]
      refine Prod.ext (Nat.mod_eq_of_lt ?_) (Nat.mod_eq_of_lt ?_) <;> omega
    rw [Finset.mem_insert]
    by_cases hres : f n = block m 0 0 0
    · exact Or.inl hres
    · have hlive := (h.held _).mpr ⟨hrange.symm ▸ hf n hn, hrange.symm ▸ hres⟩
      exact Or.inr (List.mem_toFinset.mpr (List.mem_map.mpr ⟨_, hlive, hrange⟩))
  have hinj : Set.InjOn f (Finset.range m.count) := by
    intro x hx y hy he
    by_contra hne
    have hx := Finset.mem_range.mp hx
    have hy := Finset.mem_range.mp hy
    have hapart := (pieces_apart hx hy hne).mono (hin x hx) (hin y hy)
    obtain ⟨i, l, b, -, -, hblock⟩ := hf x hx
    rw [← he, hblock] at hapart
    exact not_apart_self (blkSize_pos i) hapart
  have hle := Finset.card_le_card_of_injOn f hmaps hinj
  have hcard := Finset.card_insert_le (block m 0 0 0) (live.map range).toFinset
  have hlist := List.toFinset_card_le (live.map range)
  rw [Finset.card_range] at hle
  rw [List.length_map] at hlist
  omega

-- It takes 31 blocks to fill the descriptor that is cut into small ones.
theorem BlkInv.not_brimful (h : BlkInv m t s live) (hfew : live.length < 31) : ¬t.Brimful := by
  intro hbrim
  have hmany := h.smallBlocks_full hbrim
  have hle : smallBlocks live ≤ live.length := List.countP_le_length
  omega

-- With a descriptor more than blocks there is one to hand out.
theorem BlkInv.alloc_room (h : BlkInv m t s live) (i : Slab) (hroom : live.length + 1 < m.count) :
    ∃ ret s' t', allocMemBlk s (slabSize i) = .ok (ret, s') ∧ ret ≠ NULL ∧
      BlkInv m t' s' ((ret, slabSize i) :: live) ∧ (live.length < 30 → t.Alone → t'.Alone) := by
  obtain ⟨ret, s', hcall, -, ⟨-, -, hnone⟩ | ⟨j, k, b, t', hsize, hal, hret, hrange, h'⟩⟩ :=
    h.alloc_spec (slabSize i)
  · have hle := h.count_le (hnone i rfl)
    omega
  · refine ⟨ret, s', t', hcall, hret, h', fun hfew ha => ?_⟩
    have hlen : ((ret, slabSize i) :: live).length < 31 := Nat.succ_lt_succ hfew
    exact (ha.alloc h.inv hal).resolve_right (h'.not_brimful hlen)

theorem BlkInv.free_held (h : BlkInv m t s live) {addr : Adr} {size : SizeT}
    (hlive : (addr, size) ∈ live) : ∃ s' t', freeMemBlk s addr size = .ok (true, s') ∧
      BlkInv m t' s' (live.erase (addr, size)) ∧ (live.length < 31 → t.Alone → t'.Alone) := by
  obtain ⟨i, k, b, t', s', rfl, hf, hcall, -, hrange, h'⟩ := h.free_spec hlive
  refine ⟨s', t', hcall, h', fun hfew ha => ?_⟩
  have hlen : (live.erase (addr, slabSize i)).length < 31 := List.length_erase_le.trans_lt hfew
  exact (h.step_alone (.free hf hrange) h' ha).resolve_right (h'.not_brimful hlen)

end Room

section Run

variable {m : MemMap} {t : Shelves} {s : Mm} {live : List (Adr × SizeT)} {c : BlkState}
  {retadra : List Adr} {i : Slab}

-- The allocator has come to `s` in a run, with these blocks held in some order.
def BlkComes (c : BlkState) (s : Mm) (live : List (Adr × SizeT)) : Prop :=
  ∃ held : List (Adr × SizeT), held.Perm live ∧ Reachable BlkStep c ⟨s, held⟩

theorem BlkComes.alloc {s' : Mm} {ret : Adr} {size : SizeT} (hc : BlkComes c s live)
    (hcall : allocMemBlk s size = .ok (ret, s')) (hret : ret ≠ NULL) :
    BlkComes c s' ((ret, size) :: live) := by
  obtain ⟨held, hp, hr⟩ := hc
  have hs : BlkStep ⟨s, held⟩ (.alloc size ret) ⟨s', heldAfter held (.alloc size ret)⟩ :=
    .alloc hcall
  rw [heldAfter, if_neg hret] at hs
  exact ⟨_, hp.cons _, hr.trans (.single hs)⟩

theorem BlkComes.free {s' : Mm} {addr : Adr} {size : SizeT}
    (hc : BlkComes c s ((addr, size) :: live)) (hcall : freeMemBlk s addr size = .ok (true, s')) :
    BlkComes c s' live := by
  obtain ⟨held, hp, hr⟩ := hc
  have herase := hp.erase (addr, size)
  rw [List.erase_cons_head] at herase
  exact ⟨_, herase, hr.trans (.single (.free (hp.mem_iff.mpr List.mem_cons_self) hcall))⟩

theorem BlkComes.perm {live' : List (Adr × SizeT)} (hc : BlkComes c s live) (hp : live.Perm live') :
    BlkComes c s live' := by
  obtain ⟨held, hh, hr⟩ := hc
  exact ⟨held, hh.trans hp, hr⟩

-- The blocks of `retadra`, in front of those that are held anyway.
abbrev taken (i : Slab) (retadra : List Adr) (live : List (Adr × SizeT)) : List (Adr × SizeT) :=
  retadra.map (fun a => (a, slabSize i)) ++ live

theorem taken_concat (i : Slab) (retadra : List Adr) (live : List (Adr × SizeT)) (ret : Adr) :
    ((ret, slabSize i) :: taken i retadra live).Perm (taken i (retadra ++ [ret]) live) := by
  rw [taken, taken, List.map_append, List.append_assoc]
  exact List.perm_middle.symm

theorem blkmmAllocs_run (n : ℕ) (h : BlkInv m t s (taken i retadra live))
    (hc : BlkComes c s (taken i retadra live)) (hroom : retadra.length + n + live.length < m.count) :
    ∃ retadra' s' t', blkmmAllocs (slabSize i) n retadra s = .ok (retadra', s') ∧
      BlkInv m t' s' (taken i retadra' live) ∧ BlkComes c s' (taken i retadra' live) ∧
      retadra'.length = retadra.length + n ∧
      (retadra.length + n + live.length < 31 → t.Alone → t'.Alone) := by
  induction n generalizing retadra s t with
  | zero => exact ⟨retadra, s, t, rfl, h, hc, rfl, fun _ ha => ha⟩
  | succ n ih =>
      have hlen : (taken i retadra live).length = retadra.length + live.length := by simp
      obtain ⟨ret, s', t', hcall, hret, h', halone⟩ := h.alloc_room i (by omega)
      have hp := taken_concat i retadra live ret
      have hmore : (retadra ++ [ret]).length = retadra.length + 1 := by simp
      obtain ⟨retadra', s'', t'', hrun, h'', hc'', hlen'', halone''⟩ :=
        ih (h'.perm hp) ((hc.alloc hcall hret).perm hp) (by omega)
      refine ⟨retadra', s'', t'', ?_, h'', hc'', by omega, fun hfew ha => ?_⟩
      · rw [blkmmAllocs, hcall, Outcome.ok_bind]
        dsimp only
        rw [if_neg hret, hrun]
      · exact halone'' (by omega) (halone (by omega) ha)

theorem blkmmFrees_run (h : BlkInv m t s (taken i retadra live))
    (hc : BlkComes c s (taken i retadra live)) :
    ∃ s' t', blkmmFrees (slabSize i) retadra s = .ok s' ∧ BlkInv m t' s' live ∧
      BlkComes c s' live ∧ (retadra.length + live.length < 31 → t.Alone → t'.Alone) := by
  induction retadra generalizing s t with
  | nil => exact ⟨s, t, rfl, h, hc, fun _ ha => ha⟩
  | cons a retadra ih =>
      obtain ⟨s', t', hcall, h', halone⟩ := h.free_held List.mem_cons_self
      have hrest : (taken i (a :: retadra) live).erase (a, slabSize i) = taken i retadra live :=
        List.erase_cons_head ..
      have hc' : BlkComes c s' (taken i retadra live) := hc.free hcall
      rw [hrest] at h'
      obtain ⟨s'', t'', hrun, h'', hc'', halone''⟩ := ih h' hc'
      refine ⟨s'', t'', ?_, h'', hc'', fun hfew ha => ?_⟩
      · rw [blkmmFrees, hcall, Outcome.ok_bind]
        exact hrun
      · rw [List.length_cons] at hfew
        have hlen : (taken i (a :: retadra) live).length = retadra.length + 1 + live.length := by simp
        exact halone'' (by omega) (halone (by omega) ha)

theorem slabSize_shift (i : Slab) : slabSize i = BLK128KB_SIZE <<< i.val := by
  fin_cases i <;> rfl

theorem blkmmLoop_run {left bli : ℕ} (hbli : bli + left = 6) (h : BlkInv m t s live)
    (hc : BlkComes c s live) (hroom : live.length + 14 < m.count) :
    ∃ s' t', blkmmLoop left bli s = .ok s' ∧ BlkInv m t' s' live ∧ BlkComes c s' live ∧
      (live.length + 14 < 31 → t.Alone → t'.Alone) := by
  induction left generalizing bli s t with
  | zero => exact ⟨s, t, rfl, h, hc, fun _ ha => ha⟩
  | succ left ih =>
      have hlt : bli < BLKSZ_HEAD_MAX := show bli < 6 by omega
      have hsize : slabSize ⟨bli, hlt⟩ = BLK128KB_SIZE <<< bli := slabSize_shift _
      have hroom' : ([] : List Adr).length + 14 + live.length < m.count := by
        rw [List.length_nil]; omega
      have h₀ : BlkInv m t s (taken ⟨bli, hlt⟩ [] live) := h
      obtain ⟨retadra, s', t', hallocs, h', hc', hlen, halone⟩ :=
        blkmmAllocs_run 14 h₀ hc hroom'
      obtain ⟨s'', t'', hfrees, h'', hc'', halone'⟩ := blkmmFrees_run h' hc'
      have hnext : bli + 1 + left = 6 := by omega
      obtain ⟨u, tu, hrun, hu, hcu, halone''⟩ := ih hnext h'' hc''
      rw [List.length_nil] at hlen halone
      refine ⟨u, tu, ?_, hu, hcu, fun hfew ha => ?_⟩
      · rw [blkmmLoop, ← hsize, hallocs, Outcome.ok_bind]
        dsimp only
        rw [hfrees, Outcome.ok_bind, hrun]
      · exact halone'' hfew (halone' (by omega) (halone (by omega) ha))

end Run

-- The test of the block allocator goes through wherever there are 15 descriptors more than live
-- blocks. Where none is live, it reports success unless 31 small ones have been at once.
theorem testBlkmm_passes {s : Mm} {c : BlkState} {trace : List (Move BlkState BlkEvent)}
    (hb : Booted s) (hr : Run BlkStep ⟨s, []⟩ trace c)
    (hroom : c.live.length + 14 < c.mm.mach.memDescCount) :
    ∃ good s' retadrend held, testBlkmm c.mm = .ok (good, s') ∧
      held.Perm ((retadrend, BLK128KB_SIZE) :: c.live) ∧ Reachable BlkStep c ⟨s', held⟩ ∧
      (c.live = [] → (∀ x ∈ states ⟨s, []⟩ trace, smallBlocks x.live < 31) → good = true) := by
  obtain ⟨m, h₀⟩ := hb.start
  obtain ⟨t, h, hphase⟩ := run_phase h₀ hr
  have hcount := h.rep.count
  have hc : BlkComes c c.mm c.live := ⟨c.live, .refl _, .refl c⟩
  obtain ⟨retadrold, s₁, t₁, hold, hne, h₁, halone₁⟩ := h.alloc_room 0 (by omega)
  have hc₁ := hc.alloc hold hne
  obtain ⟨s₂, t₂, hfree, h₂, halone₂⟩ := h₁.free_held List.mem_cons_self
  have hfreed := hc₁.free hfree
  rw [List.erase_cons_head] at h₂
  obtain ⟨s₃, t₃, hloop, h₃, hc₃, halone₃⟩ := blkmmLoop_run (show 0 + 6 = 6 from rfl) h₂ hfreed (by omega)
  obtain ⟨retadrend, s₄, t₄, hend, hne', h₄, -⟩ := h₃.alloc_room 0 (by omega)
  obtain ⟨held, hp, hreach⟩ := hc₃.alloc hend hne'
  have hsmall : slabSize 0 = BLK128KB_SIZE := rfl
  rw [hsmall] at hold hfree hend hp
  refine ⟨decide (retadrend = retadrold), s₄, retadrend, held, ?_, hp, hreach, fun hlive hfew => ?_⟩
  · rw [testBlkmm, hold, Outcome.ok_bind]
    dsimp only
    rw [if_neg hne, hfree, Outcome.ok_bind]
    dsimp only
    rw [if_neg (by simp), hloop, Outcome.ok_bind, hend, Outcome.ok_bind]
    dsimp only
    rw [if_neg hne']
  · have ha : t.Alone := by
      rcases hphase with ⟨ha, -⟩ | ⟨-, x, hx, hmany⟩
      · exact ha
      · exact absurd (hfew x hx) (by omega)
    have ha₃ : t₃.Alone := halone₃ (by simp [hlive]) (halone₂ (by simp [hlive])
      (halone₁ (by simp [hlive]) ha))
    rw [hlive] at h h₃
    obtain ⟨a, s', hcall, haddr⟩ := h.rep.alloc_second h.inv ha
      ((h.alone_start ha m.count_pos).1.trans (by simp [Shelves.start]))
    obtain ⟨a', s'', hcall', haddr'⟩ := h₃.rep.alloc_second h₃.inv ha₃
      ((h₃.alone_start ha₃ m.count_pos).1.trans (by simp [Shelves.start]))
    obtain ⟨rfl, -⟩ := Outcome.pair_unique hold hcall
    obtain ⟨rfl, -⟩ := Outcome.pair_unique hend hcall'
    exact decide_eq_true (BitVec.eq_of_toNat_eq (haddr'.trans haddr.symm))

theorem testBlkmm_passes_shipped : ∃ s', testBlkmm bootMm = .ok (true, s') := by
  obtain ⟨good, s', _, _, hrun, -, -, hgood⟩ :=
    testBlkmm_passes bootMm_booted (.nil : Run BlkStep ⟨bootMm, []⟩ [] _) (by decide +kernel)
  refine ⟨s', ?_⟩
  rwa [hgood rfl (by decide)] at hrun

end Lmosem
