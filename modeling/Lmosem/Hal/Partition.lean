import Lmosem.Hal.Tables
import Lmosem.Hal.Mach

namespace Lmosem

open AddrSpaceType

-- The descriptors `i, …, j - 1` cut the row into consecutive pieces of at most 4 MB.
structure CutRow (descs : ℕ → Option MemDesc) (row : PhyAddrSpace) (i j : ℕ) : Prop where
  nonempty : i < j
  piece : ∀ k, i ≤ k → k < j → ∃ d, descs k = some d ∧ d.startAddr.toNat ≤ d.endAddr.toNat ∧
    d.endAddr.toNat + 1 - d.startAddr.toNat ≤ MAPONE_SIZE.toNat
  first : ∃ d, descs i = some d ∧ d.startAddr = row.addrStart
  next : ∀ k, i ≤ k → k + 1 < j → ∃ d e, descs k = some d ∧ descs (k + 1) = some e ∧
    e.startAddr.toNat = d.endAddr.toNat + 1
  last : ∃ d, descs (j - 1) = some d ∧ d.endAddr = row.addrEnd

-- The rows are cut one after the other, those that are no RAM being passed over.
def CutRows (descs : ℕ → Option MemDesc) : List PhyAddrSpace → ℕ → ℕ → Prop
  | [], i, j => i = j
  | row :: rows, i, j =>
      if row.flag = ADDR_SPACE_SDRAM then ∃ l, CutRow descs row i l ∧ CutRows descs rows l j
      else CutRows descs rows i j

-- `init_mem_desc` has come to an end with the rows cut, and has written no further descriptor.
structure Partitioned (s s' : Mm) : Prop where
  done : initMemDesc s = .ok s'
  cut : CutRows s'.descs s.mach.addrSpaces 0 s'.mach.memDescCount
  rest : ∀ k, s'.mach.memDescCount ≤ k → s'.descs k = s.descs k

-- The row ends neither one byte behind a multiple of 4 MB nor in the last 4 MB step of
-- its start address below 2^32.
def EndsWell (row : PhyAddrSpace) : Prop :=
  (row.addrEnd.toNat - row.addrStart.toNat) % 2 ^ 22 ≠ 0 ∧
    row.addrEnd.toNat ≤ 0xffc00000 + row.addrStart.toNat % 2 ^ 22

section Cut

variable {descs : ℕ → Option MemDesc} {row : PhyAddrSpace} {spaces : List PhyAddrSpace} {i j k : ℕ}

theorem rowCount_pos (hlt : row.addrStart < row.addrEnd) : 0 < rowCount row := by
  rw [BitVec.lt_def] at hlt
  unfold rowCount
  omega

theorem cutRow_of_tiles (hlt : row.addrStart < row.addrEnd) (hw : EndsWell row)
    (hd : ∀ k < rowCount row, descs (i + k) = some (tileDesc (rowTile row k))) :
    CutRow descs row i (i + rowCount row) := by
  have hpos := rowCount_pos hlt
  have hsize := MAPONE_SIZE_toNat
  have htile (k : ℕ) (hk : k < rowCount row) : ∃ d, descs (i + k) = some d ∧
      d.startAddr.toNat = (rowTile row k).1 ∧ d.endAddr.toNat = (rowTile row k).2 :=
    ⟨_, hd k hk, tileDesc_start (rowTile_lt hk).1, tileDesc_end (rowTile_lt hk).2⟩
  refine ⟨by omega, fun k hik hk => ?_, ?_, fun k hik hk => ?_, ?_⟩
  · obtain ⟨n, rfl⟩ := Nat.exists_eq_add_of_le hik
    obtain ⟨d, hdn, hstart, hend⟩ := htile n (by omega)
    refine ⟨d, hdn, ?_⟩
    rw [hstart, hend, hsize]
    unfold rowTile EndsWell rowCount at *
    dsimp only
    split_ifs <;> omega
  · obtain ⟨d, hdn, hstart, -⟩ := htile 0 hpos
    refine ⟨d, hdn, BitVec.eq_of_toNat_eq ?_⟩
    rw [hstart]
    simp [rowTile]
  · obtain ⟨n, rfl⟩ := Nat.exists_eq_add_of_le hik
    obtain ⟨d, hdn, -, hend⟩ := htile n (by omega)
    obtain ⟨e, hen, hstart, -⟩ := htile (n + 1) (by omega)
    refine ⟨d, e, hdn, hen, ?_⟩
    have hne : n + 1 ≠ rowCount row := by omega
    rw [hstart, hend]
    simp only [rowTile, if_neg hne]
    omega
  · obtain ⟨d, hdn, -, hend⟩ := htile (rowCount row - 1) (by omega)
    refine ⟨d, by rw [← hdn]; congr 1; omega, BitVec.eq_of_toNat_eq ?_⟩
    rw [hend, rowTile, if_pos (by omega)]

theorem cutRows_of_tiles (hlt : ∀ row ∈ sdramRows spaces, row.addrStart < row.addrEnd)
    (hw : ∀ row ∈ sdramRows spaces, EndsWell row)
    (hd : ∀ k tile, (tableTiles spaces)[k]? = some tile → descs (i + k) = some (tileDesc tile)) :
    CutRows descs spaces i (i + (tableTiles spaces).length) := by
  induction spaces generalizing i with
  | nil => rfl
  | cons row spaces ih =>
      rw [sdramRows_cons] at hlt hw
      rw [tableTiles_cons] at hd ⊢
      rw [CutRows]
      by_cases hf : row.flag = ADDR_SPACE_SDRAM
      · simp only [if_pos hf] at hlt hw hd ⊢
        have hlen := rowTiles_length row (rowCount row)
        refine ⟨i + rowCount row, cutRow_of_tiles (hlt row List.mem_cons_self)
          (hw row List.mem_cons_self) fun k hk => hd k _ ?_, ?_⟩
        · rw [List.getElem?_append_left (by omega), rowTiles, List.getElem?_map,
            List.getElem?_range hk, Option.map_some]
        · rw [List.length_append, hlen, ← Nat.add_assoc]
          refine ih (fun r hr => hlt r (List.mem_cons_of_mem _ hr))
            (fun r hr => hw r (List.mem_cons_of_mem _ hr)) fun k tile hk => ?_
          rw [Nat.add_assoc]
          refine hd _ tile ?_
          rw [List.getElem?_append_right (by omega), hlen, Nat.add_sub_cancel_left, hk]
      · simp only [if_neg hf] at hlt hw hd ⊢
        exact ih hlt hw hd

theorem CutRows.piece (h : CutRows descs spaces i j) (hik : i ≤ k) (hkj : k < j) :
    ∃ d, descs k = some d ∧ d.endAddr.toNat + 1 - d.startAddr.toNat ≤ MAPONE_SIZE.toNat := by
  induction spaces generalizing i with
  | nil =>
      obtain rfl : i = j := h
      omega
  | cons row spaces ih =>
      rw [CutRows] at h
      split_ifs at h
      · obtain ⟨l, hrow, hrest⟩ := h
        by_cases hl : k < l
        · obtain ⟨d, hd, -, hspan⟩ := hrow.piece k hik hl
          exact ⟨d, hd, hspan⟩
        · exact ih hrest (by omega)
      · exact ih h hik

-- A row one byte longer than a multiple of 4 MB has a last descriptor of 4 MB and a byte.
theorem last_tile_span (hlt : row.addrStart < row.addrEnd)
    (hmod : (row.addrEnd.toNat - row.addrStart.toNat) % 2 ^ 22 = 0) :
    (rowTile row (rowCount row - 1)).2 + 1 - (rowTile row (rowCount row - 1)).1 = 2 ^ 22 + 1 := by
  have hpos := rowCount_pos hlt
  rw [BitVec.lt_def] at hlt
  rw [rowTile, if_pos (by omega)]
  unfold rowCount at *
  omega

theorem not_cut (s : Mm) {row : PhyAddrSpace} (hrow : row ∈ sdramRows s.mach.addrSpaces)
    (hlt : row.addrStart < row.addrEnd) (hbad : ¬EndsWell row) : ¬∃ s', Partitioned s s' := by
  rintro ⟨s', hs', hcut, -⟩
  have hall : ∀ r ∈ sdramRows s.mach.addrSpaces, NoWrap r := by
    intro r hr
    by_contra hw
    rw [initMemDesc_hang hr hw] at hs'
    simp at hs'
  have hmod : (row.addrEnd.toNat - row.addrStart.toNat) % 2 ^ 22 = 0 := by
    by_contra hne
    exact hbad ⟨hne, hall row hrow (BitVec.lt_def.mp hlt)⟩
  obtain ⟨s'', hs'', hl⟩ := initMemDesc_laid s hall
  obtain rfl : s' = s'' := Outcome.ok.inj (hs'.symm.trans hs'')
  have hcount := rowCount_pos hlt
  have hmem : rowTile row (rowCount row - 1) ∈ tableTiles s.mach.addrSpaces :=
    List.mem_flatMap.mpr ⟨row, hrow, List.mem_map_of_mem (List.mem_range.mpr (by omega))⟩
  obtain ⟨k, hk, htile⟩ := List.getElem_of_mem hmem
  have hend : s'.mach.memDescCount = (tableTiles s.mach.addrSpaces).length := by rw [hl.mach]; rfl
  obtain ⟨d, hd, hspan⟩ := hcut.piece (Nat.zero_le k) (hend.symm ▸ hk)
  rw [hl.written k hk, htile, Option.some.injEq] at hd
  have hlast : rowCount row - 1 < rowCount row := by omega
  have hbound := rowTile_lt hlast
  have hlong := last_tile_span hlt hmod
  have hsize := MAPONE_SIZE_toNat
  rw [← hd, tileDesc_start hbound.1, tileDesc_end hbound.2, hlong, hsize] at hspan
  omega

end Cut

-- The RAM rows are cut into consecutive descriptors of at most 4 MB exactly when every one
-- of them ends well.
theorem rows_cut_iff (s : Mm)
    (hlt : ∀ row ∈ sdramRows s.mach.addrSpaces, row.addrStart < row.addrEnd) :
    (∃ s', Partitioned s s') ↔ ∀ row ∈ sdramRows s.mach.addrSpaces, EndsWell row := by
  constructor
  · intro h row hrow
    by_contra hbad
    exact not_cut s hrow (hlt row hrow) hbad h
  · intro hw
    obtain ⟨s', hs', hl⟩ := initMemDesc_laid s fun row hrow _ => (hw row hrow).2
    have hcount : s'.mach.memDescCount = (tableTiles s.mach.addrSpaces).length := by rw [hl.mach]; rfl
    refine ⟨s', hs', ?_, fun k hk => hl.rest k (hcount ▸ hk)⟩
    have hdesc (k : ℕ) (tile : ℕ × ℕ) (hk : (tableTiles s.mach.addrSpaces)[k]? = some tile) :
        s'.descs (0 + k) = some (tileDesc tile) := by
      obtain ⟨hlen, rfl⟩ := List.getElem?_eq_some_iff.mp hk
      rw [Nat.zero_add]
      exact hl.written k hlen
    have hcut := cutRows_of_tiles hlt hw hdesc
    rw [hcount]
    rwa [Nat.zero_add] at hcut

theorem rows_cut_shipped : ∃ s', Partitioned (initMach 0x87801000 machAddrSpace) s' := by
  have hrows : sdramRows (initMach 0x87801000 machAddrSpace).mach.addrSpaces =
      [⟨ADDR_SPACE_SDRAM, 0x80000000, 0x9fffffff⟩] := rfl
  refine (rows_cut_iff (initMach 0x87801000 machAddrSpace) fun row hrow => ?_).mpr
    fun row hrow => ?_
  · rw [hrows, List.mem_singleton] at hrow
    subst hrow
    decide
  · rw [hrows, List.mem_singleton] at hrow
    subst hrow
    exact ⟨by decide, by decide⟩

-- A row that ends at the top of the address space is never finished.
theorem rows_not_cut : ¬∀ s : Mm,
    (∀ row ∈ sdramRows s.mach.addrSpaces, row.addrStart < row.addrEnd) →
    ((sdramRows s.mach.addrSpaces).Pairwise fun x y => x.addrEnd < y.addrStart ∨ y.addrEnd < x.addrStart) →
    ∃ s', Partitioned s s' := by
  intro h
  let row : PhyAddrSpace := ⟨ADDR_SPACE_SDRAM, 0x80000000, 0xffffffff⟩
  let s := initMach 0x87801000 [row]
  have hrow : row ∈ sdramRows s.mach.addrSpaces := List.mem_singleton_self row
  refine not_cut s hrow (by decide) ?_ (h s (fun r hr => ?_) (List.pairwise_singleton _ _))
  · exact fun hw => absurd hw.2 (by decide)
  · obtain rfl := List.mem_singleton.mp hr
    decide

end Lmosem
