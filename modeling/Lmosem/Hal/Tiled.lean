import Lmosem.Hal.Runs

-- The descriptors on the lists of the slabs, for memory of any shape.
namespace Lmosem

open Intrusive SlabQueue Transition

-- Descriptor `k` covers the `k`-th of the `tiles`, and the lists hold no others.
structure Tiled (tiles : List (ℕ × ℕ)) (q : SlabHead → List ℕ) (s : Mm) : Prop where
  size : ∀ i, (s.slabs i).size = slabSize i
  rings : Rings s.links q
  descs : ∀ p k, k ∈ q p → ∃ tile d, tiles[k]? = some tile ∧ s.descs k = some d ∧
    d.startAddr.toNat = tile.1 ∧ d.endAddr.toNat = tile.2

-- The range of a descriptor that is cut out of a row.
structure Tile (row : PhyAddrSpace) (tile : ℕ × ℕ) : Prop where
  first : row.addrStart.toNat ≤ tile.1
  last : tile.2 ≤ row.addrEnd.toNat
  lt : tile.1 < tile.2
  span : tile.2 ≤ tile.1 + 2 ^ 22
  below : tile.1 + 2 ^ 22 < 2 ^ 32

theorem rowTile_tile {row : PhyAddrSpace} (hw : NoWrap row) {k : ℕ} (hk : k < rowCount row) :
    Tile row (rowTile row k) := by
  have hlim := row.addrEnd.isLt
  have hfirst : (rowTile row k).1 = row.addrStart.toNat + k * 2 ^ 22 := rfl
  by_cases hlast : k + 1 = rowCount row
  · have hstop : (rowTile row k).2 = row.addrEnd.toNat := if_pos hlast
    unfold rowCount NoWrap at *
    constructor <;> omega
  · have hstop : (rowTile row k).2 = row.addrStart.toNat + k * 2 ^ 22 + (2 ^ 22 - 1) := if_neg hlast
    unfold rowCount NoWrap at *
    constructor <;> omega

theorem tableTiles_tile {spaces : List PhyAddrSpace} (hw : ∀ row ∈ sdramRows spaces, NoWrap row)
    {tile : ℕ × ℕ} (ht : tile ∈ tableTiles spaces) : ∃ row ∈ sdramRows spaces, Tile row tile := by
  obtain ⟨row, hrow, ht⟩ := List.mem_flatMap.mp ht
  obtain ⟨k, hk, rfl⟩ := List.mem_map.mp ht
  exact ⟨row, hrow, rowTile_tile (hw row hrow) (List.mem_range.mp hk)⟩

section Lookup

variable {s : Mm} {q : SlabHead → List ℕ} {a i : Slab} {k : ℕ} {addr : Adr}

theorem listEntry_next (h : Rings s.links q) {p : SlabHead}
    (hk : listEntry (s.links.next (.head p)) = .ok k) : k ∈ q p := by
  rw [h.next_head p] at hk
  cases hq : q p with
  | nil =>
      rw [hq] at hk
      cases hk
  | cons x xs =>
      rw [hq] at hk
      cases hk
      exact List.mem_cons_self

theorem findDescInSlab_mem (h : Rings s.links q) (hk : findDescInSlab s a = .ok (some k)) :
    ∃ p, k ∈ q p := by
  rw [findDescInSlab] at hk
  split_ifs at hk
  · obtain ⟨x, hx, hk⟩ := Outcome.bind_eq_ok.mp hk
    cases hk
    exact ⟨_, listEntry_next h hx⟩
  · obtain ⟨x, hx, hk⟩ := Outcome.bind_eq_ok.mp hk
    cases hk
    exact ⟨_, listEntry_next h hx⟩
  · cases hk

-- The body of the loop that looks for the descriptor of `addr`.
def coverBody (s : Mm) (addr : Adr) (pos : MmNode) : Outcome (MmNode ⊕ ℕ) := do
  let k ← listEntry pos
  let tmp ← s.desc k
  if tmp.startAddr ≤ addr ∧ addr < tmp.endAddr then .ok (.inr k) else .ok (.inl pos)

theorem coverBody_entry {res : MmNode ⊕ ℕ} (hres : coverBody s addr (.entry k) = .ok res) :
    res = .inl (.entry k) ∨ res = .inr k ∧
      ∃ d, s.descs k = some d ∧ d.startAddr ≤ addr ∧ addr < d.endAddr := by
  rw [coverBody, listEntry, Outcome.ok_bind, Outcome.bind_eq_ok] at hres
  obtain ⟨d, hd, hres⟩ := hres
  split_ifs at hres with hin
  · cases hres
    exact Or.inr ⟨rfl, d, Mm.desc_eq_ok.mp hd, hin⟩
  · cases hres
    exact Or.inl rfl

theorem findDescOnList_mem (h : Rings s.links q) {p : SlabHead}
    (hk : findDescOnList s addr p = .ok (some k)) :
    k ∈ q p ∧ ∃ d, s.descs k = some d ∧ d.startAddr ≤ addr ∧ addr < d.endAddr := by
  have hstay (x : ℕ) (pos : MmNode) (hx : coverBody s addr (.entry x) = .ok (.inl pos)) :
      pos = .entry x := by
    rcases coverBody_entry hx with he | ⟨he, -⟩
    · exact Sum.inl.inj he
    · cases he
  rw [findDescOnList] at hk
  by_cases hempty : listEmpty s.links (.head p) = false
  · rw [if_pos hempty] at hk
    obtain ⟨x, hx, hbody⟩ := listForEachEntry_mem h hstay hk
    rcases coverBody_entry hbody with he | ⟨he, hd⟩
    · cases he
    · obtain rfl := Sum.inr.inj he
      exact ⟨hx, hd⟩
  · rw [if_neg hempty] at hk
    cases hk

theorem findDescForFree_mem (h : Rings s.links q) (hk : findDescForFree s addr i = .ok (some k)) :
    (∃ p, k ∈ q p) ∧ ∃ d, s.descs k = some d ∧ d.startAddr ≤ addr ∧ addr < d.endAddr := by
  rw [findDescForFree, Outcome.bind_eq_ok] at hk
  obtain ⟨found, hfull, hk⟩ := hk
  cases found with
  | some x =>
      cases hk
      obtain ⟨hx, hd⟩ := findDescOnList_mem h hfull
      exact ⟨⟨_, hx⟩, hd⟩
  | none =>
      obtain ⟨hx, hd⟩ := findDescOnList_mem h hk
      exact ⟨⟨_, hx⟩, hd⟩

end Lookup

section Calls

variable {tiles : List (ℕ × ℕ)} {q : SlabHead → List ℕ} {s s' : Mm} {p : SlabHead} {k : ℕ}
  {d d' : MemDesc} {addr ret : Adr} {size : SizeT} {done : Bool}

-- Rewriting what a descriptor holds keeps its place and its range.
theorem Tiled.setDesc (h : Tiled tiles q s) (hd : s.descs k = some d)
    (hstart : d'.startAddr = d.startAddr) (hstop : d'.endAddr = d.endAddr) :
    Tiled tiles q (s.setDesc k d') := by
  refine ⟨h.size, h.rings, fun r x hx => ?_⟩
  obtain ⟨tile, dx, htile, hdx, h1, h2⟩ := h.descs r x hx
  by_cases hxk : x = k
  · subst hxk
    obtain rfl := Option.some.inj (hd.symm.trans hdx)
    exact ⟨tile, d', htile, Function.update_self x _ s.descs, hstart ▸ h1, hstop ▸ h2⟩
  · exact ⟨tile, dx, htile, (Function.update_of_ne hxk _ s.descs).trans hdx, h1, h2⟩

theorem Tiled.moveTail (h : Tiled tiles q s) (hk : k ∈ q p) (p' : SlabHead) :
    Tiled tiles (Queues.move q k p') (Lmosem.moveTail s k p') := by
  refine ⟨h.size, listMoveTail_rings h.rings hk p', fun r x hx => ?_⟩
  rcases (h.rings.apart.mem_move k x p' r).mp hx with ⟨-, hx⟩ | ⟨rfl, -⟩
  · exact h.descs r x hx
  · exact h.descs p x hk

theorem Tiled.takeBlk (h : Tiled tiles q s) (hk : k ∈ q p) (hd : s.descs k = some d) (i : Slab)
    (b : ℕ) : Tiled tiles (Queues.move q k (i, takenQueue d i b)) (takeBlk s i k b d) := by
  have hset : Tiled tiles q (s.setDesc k (takenDesc d i b)) := h.setDesc hd rfl rfl
  exact hset.moveTail hk _

theorem Tiled.giveBlk (h : Tiled tiles q s) (hk : k ∈ q p) (hd : s.descs k = some d) (i : Slab)
    (b : ℕ) : ∃ q', Tiled tiles q' (giveBlk s i k b d) ∧
      (q' = q ∨ q' = Queues.move q k (lastSlab, emptyList)) := by
  have hset (flag : U32) : Tiled tiles q (s.setDesc k { clearedDesc d b with flag := flag }) :=
    h.setDesc hd rfl rfl
  rw [Lmosem.giveBlk]
  split_ifs
  · exact ⟨_, (hset _).moveTail hk _, Or.inr rfl⟩
  · exact ⟨q, hset d.flag, Or.inl rfl⟩

theorem Tiled.tile (h : Tiled tiles q s) (hk : k ∈ q p) (hd : s.descs k = some d) :
    ∃ tile, tiles[k]? = some tile ∧ d.startAddr.toNat = tile.1 ∧ d.endAddr.toNat = tile.2 := by
  obtain ⟨tile, dk, htile, hdk, hrange⟩ := h.descs p k hk
  obtain rfl := Option.some.inj (hd.symm.trans hdk)
  exact ⟨tile, htile, hrange⟩

theorem Tiled.alloc_cases (h : Tiled tiles q s) (hcall : allocMemBlk s size = .ok (ret, s')) :
    (ret = NULL ∧ s' = s) ∨ ∃ i k b d p, size = slabSize i ∧ Offers s i k ∧ k ∈ q p ∧
      s.descs k = some d ∧ Bits.firstZero (Bits.ones d.mapCount) (blkBits i) = some b ∧
      ¬(blkAddr d i b < d.startAddr ∨ blkAddr d i b ≥ d.endAddr) ∧ ret = blkAddr d i b ∧
      s' = Lmosem.takeBlk s i k b d := by
  have hdesc (a : Slab) (k : ℕ) (hk : findDescInSlab s a = .ok (some k)) :
      ∃ d, s.descs k = some d := by
    obtain ⟨p, hp⟩ := findDescInSlab_mem h.rings hk
    obtain ⟨-, d, -, hd, -⟩ := h.descs p k hp
    exact ⟨d, hd⟩
  rcases allocMemBlk_cases h.size hdesc hcall with hnull | ⟨i, k, b, d, hsize, ho, htaken⟩
  · exact Or.inl hnull
  · obtain ⟨p, hp⟩ := findDescInSlab_mem h.rings ho.choose_spec.2
    exact Or.inr ⟨i, k, b, d, p, hsize, ho, hp, htaken⟩

theorem Tiled.free_cases (h : Tiled tiles q s) (hcall : freeMemBlk s addr size = .ok (done, s')) :
    (done = false ∧ s' = s) ∨ ∃ i k d p, done = true ∧ size = slabSize i ∧ k ∈ q p ∧
      s.descs k = some d ∧ d.startAddr ≤ addr ∧ addr < d.endAddr ∧
      ((addr - d.startAddr) / slabSize i).toNat ∈ Bits.ones d.mapCount ∧
      s' = Lmosem.giveBlk s i k ((addr - d.startAddr) / slabSize i).toNat d := by
  rcases freeMemBlk_cases h.size (fun i k hk => (findDescForFree_mem h.rings hk).2.imp fun _ hd => hd.1)
    hcall with hfalse | ⟨i, k, d, hdone, hsize, hk, hd, hgiven⟩
  · exact Or.inl hfalse
  · obtain ⟨⟨p, hp⟩, d', hd', hlo, hhi⟩ := findDescForFree_mem h.rings hk
    obtain rfl := Option.some.inj (hd.symm.trans hd')
    exact Or.inr ⟨i, k, d, p, hdone, hsize, hp, hd, hlo, hhi, hgiven⟩

-- No call takes a descriptor off the lists or changes its range.
theorem Tiled.step {c c' : BlkState} {e : BlkEvent} (h : Tiled tiles q c.mm) (hs : AnyStep c e c') :
    ∃ q', Tiled tiles q' c'.mm := by
  cases hs with
  | alloc hcall =>
      rcases h.alloc_cases hcall with ⟨-, rfl⟩ | ⟨i, k, b, d, p, -, -, hk, hd, -, -, -, rfl⟩
      · exact ⟨q, h⟩
      · exact ⟨_, h.takeBlk hk hd i b⟩
  | free hcall =>
      rcases h.free_cases hcall with ⟨-, rfl⟩ | ⟨i, k, d, p, -, -, hk, hd, -, -, -, rfl⟩
      · exact ⟨q, h⟩
      · exact (h.giveBlk hk hd i _).imp fun _ hq => hq.1

end Calls

section Boot

variable {s₀ s : Mm}

theorem initMm_noWrap (hs : initMm s₀ = .ok s) :
    ∀ row ∈ sdramRows s₀.mach.addrSpaces, NoWrap row := by
  intro row hrow
  by_contra hwrap
  rw [initMm, initMemDesc_hang hrow hwrap] at hs
  cases hs

-- Whatever the shape of the memory, `init_mm` lists its tiles if it comes to an end at all.
theorem initMm_tiled (hd : s₀.descs = fun _ => none) (hs : initMm s₀ = .ok s) :
    (∀ row ∈ sdramRows s₀.mach.addrSpaces, NoWrap row) ∧
      ∃ q, Tiled (tableTiles s₀.mach.addrSpaces) q s := by
  set tiles := tableTiles s₀.mach.addrSpaces with htiles
  have hw := initMm_noWrap hs
  refine ⟨hw, ?_⟩
  obtain ⟨s₁, hs₁, hl⟩ := initMemDesc_laid s₀ hw
  rw [← htiles] at hl
  have hcount : s₁.mach.memDescCount = tiles.length := by rw [hl.mach]; rfl
  rw [initMm, hs₁, Outcome.ok_bind] at hs
  by_cases hempty : tiles.length = 0
  · have hnone : (initPhyMem s₁).descs 0 = none := by
      rw [initPhyMem_empty (hcount.trans hempty), hl.rest 0 (by omega)]
      exact congrFun hd 0
    simp [initKernelMem, Mm.desc, hnone] at hs
  · obtain ⟨links, hphy, hrings, hzero⟩ := initPhyMem_filed
      (fun k hk => hl.linked k (by rwa [hcount] at hk)) (by omega)
    rw [hcount] at hrings
    rw [hphy, initKernelMem] at hs
    simp only [Mm.desc, hl.written 0 (by omega), Outcome.ok_bind, Mm.setDesc] at hs
    split_ifs at hs
    rw [addMemToSlab_partialList 0 hzero, Outcome.ok.injEq] at hs
    subst hs
    have hbound (k : ℕ) (hk : k < tiles.length) : tiles[k].1 < 2 ^ 32 ∧ tiles[k].2 < 2 ^ 32 :=
      tableTiles_lt (List.getElem_mem hk)
    refine ⟨_, phyMemInit_size s₁, hrings.linkLast (fun p hm => ?_) _, fun p k hk => ?_⟩
    · have := ((mem_filed _ p 0).mp hm).2.1
      omega
    · rcases (hrings.apart.mem_move 0 k _ p).mp hk with ⟨hk0, hk⟩ | ⟨rfl, -⟩
      · have hlt : k < tiles.length := by
          have := ((mem_filed _ p k).mp hk).2
          omega
        refine ⟨tiles[k], tileDesc tiles[k], List.getElem?_eq_getElem hlt, ?_, ?_, ?_⟩
        · exact (Function.update_of_ne hk0 _ s₁.descs).trans (hl.written k hlt)
        · exact tileDesc_start (hbound k hlt).1
        · exact tileDesc_end (hbound k hlt).2
      · have hlt : 0 < tiles.length := by omega
        refine ⟨tiles[0], _, List.getElem?_eq_getElem hlt, Function.update_self 0 _ s₁.descs, ?_, ?_⟩
        · exact tileDesc_start (hbound 0 hlt).1
        · exact tileDesc_end (hbound 0 hlt).2

theorem reachable_tiled {c : BlkState} (hd : s₀.descs = fun _ => none) (hs : initMm s₀ = .ok s)
    (hr : Reachable AnyStep ⟨s, []⟩ c) : ∃ q, Tiled (tableTiles s₀.mach.addrSpaces) q c.mm :=
  hr.invariant (I := fun c => ∃ q, Tiled (tableTiles s₀.mach.addrSpaces) q c.mm)
    (initMm_tiled hd hs).2 fun _ _ _ hs ⟨_, h⟩ => h.step hs

end Boot

end Lmosem
