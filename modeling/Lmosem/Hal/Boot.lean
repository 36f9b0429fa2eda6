import Lmosem.Hal.Tables
import Lmosem.Hal.Mach

namespace Lmosem

open Intrusive SlabQueue Region Shelves AddrSpaceType

def freshDesc (start : ℕ) : MemDesc where
  startAddr := BitVec.ofNat 32 start
  endAddr := BitVec.ofNat 32 (start + (2 ^ 22 - 1))
  mapCount := 0
  flag := slabFlag lastSlab

-- The descriptors of the pieces in `starts` are written, and no others.
structure Written (starts : List ℕ) (s : Mm) : Prop where
  descs : ∀ k, s.descs k = (starts[k]?).map freshDesc
  linked : ∀ k < starts.length, s.links.next (.entry k) = .entry k

section Descriptors

theorem pieces_eq_map (start n : ℕ) :
    pieces start n = (List.range n).map fun k => start + k * 2 ^ 22 := by
  induction n generalizing start with
  | zero => rfl
  | succ n ih =>
      have hstep (k : ℕ) : start + 2 ^ 22 + k * 2 ^ 22 = start + (k + 1) * 2 ^ 22 := by omega
      rw [pieces, ih, List.range_succ_eq_map, List.map_cons, List.map_map, Nat.zero_mul, Nat.add_zero]
      simp only [hstep]
      rfl

-- A row of whole pieces is cut into exactly these.
theorem WholeRow.tiles {row : PhyAddrSpace} (h : WholeRow row) :
    rowTiles row (rowCount row) = (rowPieces row).map fun a => (a, a + (2 ^ 22 - 1)) := by
  have hpieces := h.pieces
  have hnonempty := h.nonempty
  have hcount : rowCount row = (row.addrEnd.toNat + 1 - row.addrStart.toNat) / 2 ^ 22 := by
    unfold rowCount
    omega
  rw [rowTiles, rowPieces, ← hcount, pieces_eq_map, List.map_map]
  refine List.map_congr_left fun k hk => ?_
  simp only [Function.comp_apply, rowTile, Prod.mk.injEq, true_and]
  split_ifs with hlast
  · omega
  · rfl

theorem WholeRow.noWrap {row : PhyAddrSpace} (h : WholeRow row) : NoWrap row := by
  intro _
  have haligned := h.aligned
  have hpieces := h.pieces
  have htop := h.not_top
  omega

theorem WholeMap.tiles {spaces : List PhyAddrSpace} (h : WholeMap spaces) :
    tableTiles spaces = (mapPieces spaces).map fun a => (a, a + (2 ^ 22 - 1)) := by
  rw [tableTiles, mapPieces, List.map_flatMap]
  exact List.flatMap_congr fun row hrow => (h.whole row hrow).tiles

end Descriptors

section Lists

variable {s : Mm} {q : SlabHead → List ℕ}

theorem phyMemInit_size (s : Mm) (i : Slab) : ((phyMemInit s).slabs i).size = slabSize i := by
  fin_cases i <;> rfl

theorem phyMemInit_head (s : Mm) (p : SlabHead) :
    (phyMemInit s).links.next (.head p) = .head p ∧ (phyMemInit s).links.prev (.head p) = .head p := by
  obtain ⟨i, q⟩ := p
  fin_cases i <;> cases q <;> exact ⟨rfl, rfl⟩

theorem phyMemInit_entry (s : Mm) (k : ℕ) :
    (phyMemInit s).links.next (.entry k) = s.links.next (.entry k) := by
  simp [phyMemInit, memSlabInit, INIT_LIST_HEAD]

theorem phyMemInit_rings (s : Mm) : Rings (phyMemInit s).links fun _ => [] := by
  refine ⟨fun p => ?_, ⟨fun _ => List.nodup_nil, by simp⟩⟩
  exact List.isChain_pair.mpr (phyMemInit_head s p)

-- Appending `a` leaves the cells alone that are on no queue.
theorem linkLast_next_other {l : Links MmNode} (h : Rings l q) {a b : ℕ} (hab : b ≠ a)
    (hb : ∀ p, b ∉ q p) (p : SlabHead) :
    (linkLast l (.entry a) (.head p)).next (.entry b) = l.next (.entry b) := by
  obtain ⟨before, hlast, -⟩ := (h.ring p).last
  have hprev : l.prev (.head p) ∈ (Node.head p :: (q p).map Node.entry : List MmNode) := by
    rw [hlast]
    simp
  have h1 : (Node.entry b : MmNode) ≠ l.prev (.head p) := by
    intro he
    rw [← he] at hprev
    simp [hb p] at hprev
  have h2 : (Node.entry b : MmNode) ≠ .entry a := by simpa using hab
  simp [linkLast, Function.update_of_ne h1, Function.update_of_ne h2]

-- A descriptor that is on no list yet goes straight to the end of the list asked for.
theorem addMemToSlab_emptyList (i : Slab) {k : ℕ} (hk : s.links.next (.entry k) = .entry k) :
    addMemToSlab s i k ADD_EMPTY_FLAG =
      { s with links := linkLast s.links (.entry k) (.head (i, emptyList)) } := by
  simp only [addMemToSlab, listEmpty, hk, decide_true, if_true]
  rfl

theorem addMemToSlab_partialList (i : Slab) {k : ℕ} (hk : s.links.next (.entry k) = .entry k) :
    addMemToSlab s i k ADD_PARTIAL_FLAG =
      { s with links := linkLast s.links (.entry k) (.head (i, partialList)) } := by
  simp only [addMemToSlab, listEmpty, hk, decide_true, if_true]
  rfl

-- The queues after the descriptors 1, …, `n` have been filed.
def filed (n : ℕ) (p : SlabHead) : List ℕ :=
  if p = (lastSlab, emptyList) then List.range' 1 n else []

theorem mem_filed (n : ℕ) (p : SlabHead) (k : ℕ) :
    k ∈ filed n p ↔ p = (lastSlab, emptyList) ∧ 1 ≤ k ∧ k ≤ n := by
  simp only [filed]
  split_ifs with h
  · simp only [List.mem_range'_1, h, true_and]
    omega
  · simp [h]

theorem move_filed (n : ℕ) :
    Queues.move (filed n) (n + 1) (lastSlab, emptyList) = filed (n + 1) := by
  have hnot : ∀ p, n + 1 ∉ filed n p := fun p hm => by
    have := ((mem_filed n p (n + 1)).mp hm).2.2
    omega
  funext p
  by_cases hp : p = (lastSlab, emptyList)
  · subst hp
    rw [Queues.move_self, Queues.remove_of_notMem (hnot _)]
    simp only [filed, if_true, List.range'_concat]
    simp [Nat.add_comm]
  · rw [Queues.move_of_ne _ _ hp, Queues.remove_of_notMem (hnot p)]
    simp [filed, hp]

theorem memListInit_rings (s : Mm) (hr : Rings s.links fun _ => []) (n : ℕ)
    (hself : ∀ k ≤ n, s.links.next (.entry k) = .entry k) :
    ∃ links, (List.range' 1 n).foldl (fun s i => addMemToSlab s lastSlab i ADD_EMPTY_FLAG) s =
        { s with links := links } ∧ Rings links (filed n) ∧
      ∀ k, (∀ p, k ∉ filed n p) → links.next (.entry k) = s.links.next (.entry k) := by
  induction n with
  | zero =>
      have h0 : filed 0 = fun _ => [] := by
        funext p
        simp [filed]
      exact ⟨s.links, rfl, h0 ▸ hr, fun _ _ => rfl⟩
  | succ n ih =>
      obtain ⟨links, hfold, hrings, hother⟩ := ih fun k hk => hself k (by omega)
      have hnot : ∀ p, n + 1 ∉ filed n p := fun p hm => by
        have := ((mem_filed n p (n + 1)).mp hm).2.2
        omega
      have hnew : links.next (.entry (n + 1)) = .entry (n + 1) := by
        rw [hother (n + 1) hnot, hself (n + 1) (Nat.le_refl _)]
      refine ⟨linkLast links (.entry (n + 1)) (.head (lastSlab, emptyList)), ?_, ?_, ?_⟩
      · rw [List.range'_concat, List.foldl_append, hfold]
        simp only [Nat.one_mul, Nat.add_comm 1 n, List.foldl_cons, List.foldl_nil]
        exact addMemToSlab_emptyList lastSlab hnew
      · rw [← move_filed]
        exact hrings.linkLast hnot _
      · intro k hk
        have hk' : ∀ p, k ∉ filed n p := fun p hm => by
          obtain ⟨hp, h1, h2⟩ := (mem_filed n p k).mp hm
          exact hk p ((mem_filed _ p k).mpr ⟨hp, h1, by omega⟩)
        have hne : k ≠ n + 1 := by
          rintro rfl
          exact hk (lastSlab, emptyList) ((mem_filed _ _ _).mpr ⟨rfl, by omega, Nat.le_refl _⟩)
        rw [linkLast_next_other hrings hne hk', hother k hk']

end Lists

-- Taking the first descriptor for the kernel completes the queues.
theorem move_start (m : MemMap) :
    Queues.move (filed (m.count - 1)) 0 (0, partialList) = (Shelves.start m).queue := by
  have hnot : ∀ p, 0 ∉ filed (m.count - 1) p := fun p hm => by
    have := ((mem_filed _ p 0).mp hm).2.1
    omega
  funext p
  by_cases hp : p = (0, partialList)
  · subst hp
    rw [Queues.move_self, Queues.remove_of_notMem (hnot _)]
    simp [filed, Shelves.start]
  · rw [Queues.move_of_ne _ _ hp, Queues.remove_of_notMem (hnot p)]
    simp [filed, Shelves.start, hp]

-- The machine description once the descriptors have been counted.
def bootMach (mach : MachDesc) : MachDesc :=
  { mach with
    memDescCount := (mapPieces mach.addrSpaces).length
    kmemEnd := mach.memDescs +
      SIZEOF_MEM_DESC * BitVec.ofNat 32 (mapPieces mach.addrSpaces).length }

theorem WholeMap.tableMach {mach : MachDesc} (h : WholeMap mach.addrSpaces) :
    tableMach mach = bootMach mach := by
  rw [Lmosem.tableMach, bootMach, h.tiles, List.length_map]

theorem initMemDesc_whole {s : Mm} (hd : s.descs = fun _ => none) (hw : WholeMap s.mach.addrSpaces) :
    ∃ s', initMemDesc s = .ok s' ∧ Written (mapPieces s.mach.addrSpaces) s' ∧
      s'.mach = bootMach s.mach := by
  obtain ⟨s', hs', hl⟩ := initMemDesc_laid s fun row hrow => (hw.whole row hrow).noWrap
  rw [hw.tiles] at hl
  refine ⟨s', hs', ⟨fun k => ?_, fun k hk => hl.linked k (by simpa using hk)⟩, ?_⟩
  · by_cases hk : k < (mapPieces s.mach.addrSpaces).length
    · rw [hl.written k (by simpa using hk), List.getElem?_eq_getElem hk, List.getElem_map]
      rfl
    · rw [hl.rest k (by simpa using hk), List.getElem?_eq_none (by omega)]
      exact congrFun hd k
  · rw [hl.mach]
    exact hw.tableMach

-- Descriptors and lists right before the kernel block is taken.
theorem initPhyMem_filed {s : Mm} (hself : ∀ k < s.mach.memDescCount, s.links.next (.entry k) = .entry k)
    (hpos : 0 < s.mach.memDescCount) :
    ∃ links, initPhyMem s = { s with slabs := (phyMemInit s).slabs, links := links } ∧
      Rings links (filed (s.mach.memDescCount - 1)) ∧ links.next (.entry 0) = .entry 0 := by
  obtain ⟨links, hfold, hrings, hother⟩ := memListInit_rings (phyMemInit s) (phyMemInit_rings s)
    (s.mach.memDescCount - 1) fun k hk => by
      rw [phyMemInit_entry]
      exact hself k (by omega)
  have hcount : (phyMemInit s).mach.memDescCount = s.mach.memDescCount := rfl
  refine ⟨links, ?_, hrings, ?_⟩
  · rw [initPhyMem, memListInit, hcount, hfold]
    rfl
  · rw [hother 0 fun p hm => by have := ((mem_filed _ p 0).mp hm).2.1; omega, phyMemInit_entry]
    exact hself 0 hpos

-- With no descriptor at all there is none to take the kernel block from.
theorem initPhyMem_empty {s : Mm} (h : s.mach.memDescCount = 0) : (initPhyMem s).descs = s.descs := by
  have hcount : (phyMemInit s).mach.memDescCount = 0 := h
  rw [initPhyMem, memListInit, hcount]
  rfl

theorem filed_descs {m : MemMap} {p : SlabHead} {k : ℕ} (hk : k ∈ filed (m.count - 1) p) :
    DescRep m (Shelves.start m) p k (freshDesc (m.base k)) := by
  obtain ⟨rfl, h1, h2⟩ := (mem_filed _ p k).mp hk
  have hc := m.count_pos
  have hb := m.bounded k (by omega)
  have hne : k ≠ 0 := by omega
  refine ⟨?_, ?_, ?_, rfl⟩
  · exact BitVec.toNat_ofNat _ _ ▸ Nat.mod_eq_of_lt (by omega)
  · exact BitVec.toNat_ofNat _ _ ▸ Nat.mod_eq_of_lt (by omega)
  · simp [freshDesc, Shelves.start, hne]

-- The first descriptor with its first block set aside for the kernel.
def kernelDesc (m : MemMap) : MemDesc :=
  { freshDesc (m.base 0) with mapCount := 1, flag := slabFlag 0 }

-- Filing that descriptor last makes the start state of the shelves.
theorem start_rep {m : MemMap} {s : Mm} {links : ListHeads MmNode}
    (hcount : s.mach.memDescCount = m.count) (hsize : ∀ i, (s.slabs i).size = slabSize i)
    (hrings : Rings links (filed (m.count - 1)))
    (hdesc : ∀ k < m.count, s.descs k = some (freshDesc (m.base k))) :
    Rep m { s with
      descs := Function.update s.descs 0 (some (kernelDesc m))
      links := listAddTail links (.entry 0) (.head (0, partialList)) } (Shelves.start m) := by
  have hc := m.count_pos
  have hb := m.bounded 0 hc
  refine ⟨hcount, hsize, ?_, ?_⟩
  · rw [← move_start]
    exact hrings.linkLast (fun p hm => by have := ((mem_filed _ p 0).mp hm).2.1; omega) _
  · intro p k hk
    rw [← move_start, hrings.apart.mem_move] at hk
    rcases hk with ⟨hk0, hk⟩ | ⟨rfl, rfl⟩
    · have hlt : k < m.count := by
        have := ((mem_filed _ p k).mp hk).2.2
        omega
      exact ⟨_, by simp [Function.update_of_ne hk0, hdesc k hlt], filed_descs hk⟩
    · refine ⟨_, Function.update_self 0 _ s.descs, ?_, ?_, ?_, rfl⟩
      · exact BitVec.toNat_ofNat _ _ ▸ Nat.mod_eq_of_lt (by omega)
      · exact BitVec.toNat_ofNat _ _ ▸ Nat.mod_eq_of_lt (by omega)
      · simp only [kernelDesc, Shelves.start, if_true]
        decide

-- `init_mm` on whole rows comes out in the start state of the shelves, or stops
-- because the kernel does not fit the block that is set aside for it.
theorem initMm_whole {s₀ s : Mm} (hd : s₀.descs = fun _ => none) (hw : WholeMap s₀.mach.addrSpaces)
    (hs : initMm s₀ = .ok s) :
    ∃ hpos : mapPieces s₀.mach.addrSpaces ≠ [],
      Rep (mapOf _ hw hpos) s (Shelves.start (mapOf _ hw hpos)) ∧ s.mach = bootMach s₀.mach ∧
        s.mach.kmemEnd - s.mach.kmemStart ≤ BLK128KB_SIZE ∧
        (mapOf _ hw hpos).base 0 ≤ s.mach.kmemStart.toNat := by
  obtain ⟨s1, hs1, hw1, hm1⟩ := initMemDesc_whole hd hw
  by_cases hpos : mapPieces s₀.mach.addrSpaces = []
  · have hcount : s1.mach.memDescCount = 0 := by rw [hm1, bootMach, hpos, List.length_nil]
    have hnone : (initPhyMem s1).descs 0 = none := by
      rw [initPhyMem_empty hcount, hw1.descs 0, hpos]
      rfl
    rw [initMm, hs1, Outcome.ok_bind] at hs
    simp [initKernelMem, Mm.desc, hnone] at hs
  · refine ⟨hpos, ?_⟩
    set m := mapOf _ hw hpos with hmdef
    have hc := m.count_pos
    have hlen : (mapPieces s₀.mach.addrSpaces).length = m.count := rfl
    have hcount : s1.mach.memDescCount = m.count := by rw [hm1]; rfl
    have hdesc (k : ℕ) (hk : k < m.count) : s1.descs k = some (freshDesc (m.base k)) := by
      rw [hw1.descs k, List.getElem?_eq_getElem hk, Option.map_some]
      simp only [hmdef, mapOf, List.getD_eq_getElem _ _ hk]
    obtain ⟨links, hphy, hrings, hzero⟩ := initPhyMem_filed
      (fun k hk => hw1.linked k (by rwa [hcount] at hk)) (hcount ▸ hc)
    rw [hcount] at hrings
    rw [initMm, hs1, Outcome.ok_bind, hphy, initKernelMem] at hs
    simp only [Mm.desc, hdesc 0 hc, Outcome.ok_bind, Mm.setDesc] at hs
    split_ifs at hs with hfit
    rw [not_or, gt_iff_lt, BitVec.not_lt, BitVec.not_lt] at hfit
    rw [addMemToSlab_partialList 0 hzero, Outcome.ok.injEq] at hs
    subst hs
    have hb := m.bounded 0 hc
    have hstart : (freshDesc (m.base 0)).startAddr.toNat = m.base 0 :=
      BitVec.toNat_ofNat _ _ ▸ Nat.mod_eq_of_lt (by omega)
    refine ⟨start_rep (s := { s1 with slabs := (phyMemInit s1).slabs }) hcount (phyMemInit_size s1)
      hrings hdesc, hm1, hfit.1, ?_⟩
    rw [← hstart]
    exact hfit.2

theorem machAddrSpace_whole : WholeMap machAddrSpace := by
  have hrows : sdramRows machAddrSpace = [⟨ADDR_SPACE_SDRAM, 0x80000000, 0x9fffffff⟩] := rfl
  refine ⟨fun row hrow => ?_, hrows ▸ List.pairwise_singleton _ _⟩
  obtain rfl := List.mem_singleton.mp (hrows ▸ hrow)
  constructor <;> decide

-- The shipped table under a small kernel image.
def bootMm : Mm :=
  (initMm (initMach 0x87801000 machAddrSpace)).getD (initMach 0x87801000 machAddrSpace)

theorem bootMm_eq : initMm (initMach 0x87801000 machAddrSpace) = .ok bootMm :=
  Outcome.eq_ok_getD (by decide +kernel) _

theorem bootMm_mach : bootMm.mach = bootMach (machInit 0x87801000 machAddrSpace) := by
  obtain ⟨-, -, hmach, -⟩ := initMm_whole rfl machAddrSpace_whole bootMm_eq
  exact hmach

attribute [irreducible] bootMm

end Lmosem
