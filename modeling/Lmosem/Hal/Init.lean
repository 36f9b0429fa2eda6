import Lmosem.Hal.Refinement
import Mathlib.Data.List.GetD

namespace Lmosem

open Intrusive SlabQueue Region Shelves AddrSpaceType

-- A RAM row made of whole 4 MB pieces, clear of address 0 and of the top of the address space.
structure WholeRow (row : PhyAddrSpace) : Prop where
  aligned : 2 ^ 22 ∣ row.addrStart.toNat
  pieces : 2 ^ 22 ∣ row.addrEnd.toNat + 1 - row.addrStart.toNat
  nonempty : row.addrStart.toNat < row.addrEnd.toNat
  not_null : 0 < row.addrStart.toNat
  not_top : row.addrEnd.toNat < 0xffffffff

def sdramRows (spaces : List PhyAddrSpace) : List PhyAddrSpace :=
  spaces.filter fun row => row.flag = ADDR_SPACE_SDRAM

structure WholeMap (spaces : List PhyAddrSpace) : Prop where
  whole : ∀ row ∈ sdramRows spaces, WholeRow row
  disjoint : (sdramRows spaces).Pairwise fun x y => x.addrEnd < y.addrStart ∨ y.addrEnd < x.addrStart

-- The first addresses of the `n` pieces from `start` on.
def pieces (start : ℕ) : ℕ → List ℕ
  | 0 => []
  | n + 1 => start :: pieces (start + 2 ^ 22) n

def rowPieces (row : PhyAddrSpace) : List ℕ :=
  pieces row.addrStart.toNat ((row.addrEnd.toNat + 1 - row.addrStart.toNat) / 2 ^ 22)

def mapPieces (spaces : List PhyAddrSpace) : List ℕ := (sdramRows spaces).flatMap rowPieces

theorem mem_pieces {start n a : ℕ} : a ∈ pieces start n ↔ ∃ j < n, a = start + j * 2 ^ 22 := by
  induction n generalizing start with
  | zero => simp [pieces]
  | succ n ih =>
      rw [pieces, List.mem_cons, ih]
      constructor
      · rintro (rfl | ⟨j, hj, rfl⟩)
        · exact ⟨0, by omega, by omega⟩
        · exact ⟨j + 1, by omega, by omega⟩
      · rintro ⟨j, hj, rfl⟩
        cases j with
        | zero => exact Or.inl (by omega)
        | succ j => exact Or.inr ⟨j, by omega, by omega⟩

theorem pieces_nodup (start n : ℕ) : (pieces start n).Nodup := by
  induction n generalizing start with
  | zero => exact List.nodup_nil
  | succ n ih =>
      refine List.nodup_cons.mpr ⟨fun hm => ?_, ih _⟩
      obtain ⟨j, -, he⟩ := mem_pieces.mp hm
      omega

-- A piece of a whole row lies inside that row.
theorem WholeRow.piece {row : PhyAddrSpace} (h : WholeRow row) {a : ℕ} (ha : a ∈ rowPieces row) :
    2 ^ 22 ∣ a ∧ row.addrStart.toNat ≤ a ∧ a + 2 ^ 22 ≤ row.addrEnd.toNat + 1 := by
  obtain ⟨j, hj, rfl⟩ := mem_pieces.mp ha
  have h1 := h.aligned
  have h2 := h.pieces
  have h3 := h.nonempty
  omega

theorem WholeMap.piece {spaces : List PhyAddrSpace} (h : WholeMap spaces) {a : ℕ}
    (ha : a ∈ mapPieces spaces) : 2 ^ 22 ∣ a ∧ 0 < a ∧ a + 2 ^ 22 < 2 ^ 32 := by
  obtain ⟨row, hrow, ha⟩ := List.mem_flatMap.mp ha
  have hw := h.whole row hrow
  have hp := hw.piece ha
  have h1 := hw.not_null
  have h2 := hw.not_top
  omega

theorem WholeMap.nodup {spaces : List PhyAddrSpace} (h : WholeMap spaces) :
    (mapPieces spaces).Nodup := by
  refine List.nodup_flatMap.mpr ⟨fun row _ => pieces_nodup _ _, ?_⟩
  refine h.disjoint.imp_of_mem fun {x y} hx hy hxy => ?_
  refine List.disjoint_left.mpr fun a hax hay => ?_
  have h1 := (h.whole x hx).piece hax
  have h2 := (h.whole y hy).piece hay
  simp only [BitVec.lt_def] at hxy
  omega

-- The memory map that a table of whole rows describes.
def mapOf (spaces : List PhyAddrSpace) (h : WholeMap spaces) (hpos : mapPieces spaces ≠ []) :
    MemMap where
  count := (mapPieces spaces).length
  base k := (mapPieces spaces).getD k 0
  count_pos := List.length_pos_iff.mpr hpos
  base_pos k hk := by
    rw [List.getD_eq_getElem _ _ hk]
    exact (h.piece (List.getElem_mem hk)).2.1
  aligned k hk := by
    rw [List.getD_eq_getElem _ _ hk]
    exact (h.piece (List.getElem_mem hk)).1
  bounded k hk := by
    rw [List.getD_eq_getElem _ _ hk]
    exact (h.piece (List.getElem_mem hk)).2.2
  injective j hj k hk he := by
    rw [List.getD_eq_getElem _ _ hj, List.getD_eq_getElem _ _ hk] at he
    exact h.nodup.getElem_inj_iff.mp he

-- What `init_mm` leaves: the first block of the first piece is taken for the kernel.
def Shelves.start (m : MemMap) : Shelves where
  queue p :=
    if p = (lastSlab, emptyList) then List.range' 1 (m.count - 1)
    else if p = (0, partialList) then [0] else []
  used k := if k = 0 then {0} else ∅

theorem Shelves.start_mem (m : MemMap) (p : SlabHead) (k : ℕ) :
    k ∈ (Shelves.start m).queue p ↔
      (p = (lastSlab, emptyList) ∧ 1 ≤ k ∧ k < m.count) ∨ (p = (0, partialList) ∧ k = 0) := by
  have hc := m.count_pos
  simp only [Shelves.start]
  split_ifs with h1 h2
  · subst h1
    simp only [List.mem_range'_1, true_and, Prod.mk.injEq, reduceCtorEq, and_false, false_and,
      or_false]
    omega
  · simp [h2]
  · simp [h1, h2]

theorem Shelves.start_inv (m : MemMap) : (Shelves.start m).Inv m := by
  have hc := m.count_pos
  have hshelf (i : Slab) (k : ℕ) : (Shelves.start m).OnShelf i k ↔ i = 0 ∧ k = 0 := by
    simp [OnShelf, start_mem]
  constructor
  · constructor
    · intro p
      simp only [Shelves.start]
      split_ifs
      · exact List.nodup_range'
      · exact List.nodup_singleton 0
      · exact List.nodup_nil
    · intro p p' k hp hp'
      rw [start_mem] at hp hp'
      rcases hp with ⟨rfl, hk, -⟩ | ⟨rfl, hk⟩ <;> rcases hp' with ⟨rfl, hk', -⟩ | ⟨rfl, hk'⟩ <;>
        first | rfl | omega
  · intro k
    simp only [start_mem]
    constructor
    · intro hk
      by_cases h0 : k = 0
      · exact ⟨_, Or.inr ⟨rfl, h0⟩⟩
      · exact ⟨_, Or.inl ⟨rfl, by omega, hk⟩⟩
    · rintro ⟨p, ⟨-, -, hk⟩ | ⟨-, hk⟩⟩ <;> omega
  · intro i hi
    simp [Shelves.start, hi]
  · intro k hk
    rw [start_mem] at hk
    have : k ≠ 0 := by
      rcases hk with ⟨-, hk, -⟩ | ⟨hp, -⟩
      · omega
      · simp at hp
    simp [Shelves.start, this]
  · intro i k hk
    obtain ⟨rfl, rfl⟩ := (hshelf i k).mp hk
    refine ⟨by simp [Shelves.start], ?_⟩
    simp [Shelves.start, blkBits]
  · intro i k hk
    obtain ⟨rfl, rfl⟩ := (hshelf i k).mp (Or.inr hk)
    intro hsub
    have := hsub (Finset.mem_range.mpr (show 1 < blkBits 0 by decide))
    simp [Shelves.start] at this

end Lmosem
