import Lmosem.Hal.Init

-- The descriptors that `init_mem_desc` makes of an arbitrary table.
namespace Lmosem

open Intrusive Region AddrSpaceType

-- How many descriptors a row takes, and the first and last address of the `k`-th.
def rowCount (row : PhyAddrSpace) : ℕ :=
  (row.addrEnd.toNat - row.addrStart.toNat + (2 ^ 22 - 1)) / 2 ^ 22

def rowTile (row : PhyAddrSpace) (k : ℕ) : ℕ × ℕ :=
  (row.addrStart.toNat + k * 2 ^ 22,
    if k + 1 = rowCount row then row.addrEnd.toNat
    else row.addrStart.toNat + k * 2 ^ 22 + (2 ^ 22 - 1))

def rowTiles (row : PhyAddrSpace) (n : ℕ) : List (ℕ × ℕ) := (List.range n).map (rowTile row)

def tableTiles (spaces : List PhyAddrSpace) : List (ℕ × ℕ) :=
  (sdramRows spaces).flatMap fun row => rowTiles row (rowCount row)

-- The start address steps over the end of the row and not over the top of the address space.
def NoWrap (row : PhyAddrSpace) : Prop :=
  row.addrStart.toNat < row.addrEnd.toNat →
    row.addrEnd.toNat ≤ 0xffc00000 + row.addrStart.toNat % 2 ^ 22

instance (row : PhyAddrSpace) : Decidable (NoWrap row) := inferInstanceAs (Decidable (_ → _))

theorem MAPONE_SIZE_toNat : (MAPONE_SIZE : Adr).toNat = 2 ^ 22 := by decide

def tileDesc (tile : ℕ × ℕ) : MemDesc where
  startAddr := BitVec.ofNat 32 tile.1
  endAddr := BitVec.ofNat 32 tile.2
  mapCount := 0
  flag := slabFlag lastSlab

theorem tileDesc_start {tile : ℕ × ℕ} (h : tile.1 < 2 ^ 32) : (tileDesc tile).startAddr.toNat = tile.1 :=
  (BitVec.toNat_ofNat _ _).trans (Nat.mod_eq_of_lt h)

theorem tileDesc_end {tile : ℕ × ℕ} (h : tile.2 < 2 ^ 32) : (tileDesc tile).endAddr.toNat = tile.2 :=
  (BitVec.toNat_ofNat _ _).trans (Nat.mod_eq_of_lt h)

theorem rowTile_lt {row : PhyAddrSpace} {k : ℕ} (hk : k < rowCount row) :
    (rowTile row k).1 < 2 ^ 32 ∧ (rowTile row k).2 < 2 ^ 32 := by
  have hlim := row.addrEnd.isLt
  unfold rowTile rowCount at *
  dsimp only
  split_ifs <;> omega

theorem tableTiles_lt {spaces : List PhyAddrSpace} {tile : ℕ × ℕ} (ht : tile ∈ tableTiles spaces) :
    tile.1 < 2 ^ 32 ∧ tile.2 < 2 ^ 32 := by
  obtain ⟨row, -, ht⟩ := List.mem_flatMap.mp ht
  obtain ⟨k, hk, rfl⟩ := List.mem_map.mp ht
  exact rowTile_lt (List.mem_range.mp hk)

-- The machine description once the descriptors have been counted.
def tableMach (mach : MachDesc) : MachDesc :=
  { mach with
    memDescCount := (tableTiles mach.addrSpaces).length
    kmemEnd := mach.memDescs +
      SIZEOF_MEM_DESC * BitVec.ofNat 32 (tableTiles mach.addrSpaces).length }

-- Over `s₀` the descriptors of `tiles` have been written.
structure Laid (s₀ : Mm) (tiles : List (ℕ × ℕ)) (s : Mm) : Prop where
  written : ∀ k (h : k < tiles.length), s.descs k = some (tileDesc tiles[k])
  rest : ∀ k, tiles.length ≤ k → s.descs k = s₀.descs k
  linked : ∀ k < tiles.length, s.links.next (.entry k) = .entry k
  mach : s.mach = s₀.mach

section Row

variable {s₀ s : Mm} {row : PhyAddrSpace} {tiles : List (ℕ × ℕ)} {k : ℕ}

theorem rowTiles_length (row : PhyAddrSpace) (n : ℕ) : (rowTiles row n).length = n := by
  rw [rowTiles, List.length_map, List.length_range]

theorem rowTiles_succ (row : PhyAddrSpace) (n : ℕ) :
    rowTiles row (n + 1) = rowTiles row n ++ [rowTile row n] := by
  rw [rowTiles, List.range_succ, List.map_append, List.map_singleton]
  rfl

theorem laid_nil (s₀ : Mm) : Laid s₀ [] s₀ := ⟨by simp, fun _ _ => rfl, by simp, rfl⟩

theorem Laid.memDescTInit (h : Laid s₀ tiles s) {tile : ℕ × ℕ} {startAddr endAddr : Adr} {flag : U32}
    (hd : MemDesc.mk startAddr endAddr 0 flag = tileDesc tile) :
    Laid s₀ (tiles ++ [tile]) (memDescTInit s tiles.length startAddr endAddr 0 flag) := by
  have hother (k : ℕ) (hk : k ≠ tiles.length) :
      (Lmosem.memDescTInit s tiles.length startAddr endAddr 0 flag).descs k = s.descs k :=
    Function.update_of_ne hk _ _
  have hlen : (tiles ++ [tile]).length = tiles.length + 1 := by simp
  refine ⟨fun k hk => ?_, fun k hk => ?_, fun k hk => ?_, h.mach⟩
  · by_cases he : k = tiles.length
    · subst he
      simp only [Lmosem.memDescTInit, Mm.setDesc, hd, Function.update_self]
      simp
    · have hlt : k < tiles.length := by omega
      rw [hother k he, h.written k hlt, List.getElem_append_left hlt]
  · rw [hother k (by omega), h.rest k (by omega)]
  · simp only [Lmosem.memDescTInit, Mm.setDesc, INIT_LIST_HEAD]
    by_cases he : k = tiles.length
    · subst he
      exact Function.update_self _ _ _
    · rw [Function.update_of_ne (by simpa using he)]
      exact h.linked k (by omega)

-- Where the start address stands in turn `k` of the loop.
structure AtTile (row : PhyAddrSpace) (k : ℕ) (startAddr : Adr) : Prop where
  le : k ≤ rowCount row
  start : startAddr.toNat = row.addrStart.toNat + k * 2 ^ 22

theorem AtTile.lt_iff {startAddr : Adr} (h : AtTile row k startAddr) :
    startAddr < row.addrEnd ↔ k < rowCount row := by
  have hle := h.le
  rw [BitVec.lt_def, h.start]
  unfold rowCount at *
  omega

-- In a row that does not wrap the start address never gets past 2^32.
theorem AtTile.add {startAddr : Adr} (h : AtTile row k startAddr) (hw : NoWrap row)
    (hk : k < rowCount row) :
    (startAddr + MAPONE_SIZE).toNat = row.addrStart.toNat + (k + 1) * 2 ^ 22 := by
  have hsize := MAPONE_SIZE_toNat
  have hstart := h.start
  have hbound : row.addrStart.toNat + (k + 1) * 2 ^ 22 < 2 ^ 32 := by
    unfold rowCount NoWrap at *
    omega
  rw [BitVec.toNat_add, hsize, hstart, Nat.mod_eq_of_lt (by omega)]
  omega

theorem AtTile.desc {startAddr : Adr} (h : AtTile row k startAddr) (hw : NoWrap row)
    (hk : k < rowCount row) : MemDesc.mk startAddr
      (if startAddr + MAPONE_SIZE < row.addrEnd then startAddr + MAPONE_SIZE - 1 else row.addrEnd) 0
      (MAP_FLAGES_VAL 0 MAPF_ACSZ_4MB MAPF_SZ_4MB) = tileDesc (rowTile row k) := by
  have hadd := h.add hw hk
  have hstart : startAddr = BitVec.ofNat 32 (rowTile row k).1 := by
    rw [rowTile, ← h.start, BitVec.ofNat_toNat, BitVec.setWidth_eq]
  have hmore : startAddr + MAPONE_SIZE < row.addrEnd ↔ k + 1 < rowCount row := by
    rw [BitVec.lt_def, hadd]
    unfold rowCount
    omega
  have hstop : (if startAddr + MAPONE_SIZE < row.addrEnd then startAddr + MAPONE_SIZE - 1
      else row.addrEnd) = BitVec.ofNat 32 (rowTile row k).2 := by
    rw [rowTile]
    by_cases hlast : k + 1 = rowCount row
    · rw [if_neg (by rw [hmore]; omega), if_pos hlast, BitVec.ofNat_toNat, BitVec.setWidth_eq]
    · rw [if_pos (hmore.mpr (by omega)), if_neg hlast]
      apply BitVec.eq_of_toNat_eq
      have hsize := MAPONE_SIZE_toNat
      rw [last_toNat _ _ (by omega), hsize, h.start, BitVec.toNat_ofNat]
      omega
  rw [hstop]
  simp only [tileDesc, ← hstart, MemDesc.mk.injEq, true_and]
  decide

theorem initCoreMemDescLoop_laid (hw : NoWrap row) (n fuel : ℕ) (hfuel : n < fuel) {startAddr : Adr}
    (hat : AtTile row k startAddr) (hn : k + n = rowCount row)
    (h : Laid s₀ (tiles ++ rowTiles row k) s) :
    ∃ s', initCoreMemDescLoop row.addrEnd fuel startAddr s (tiles ++ rowTiles row k).length =
        .ok (s', (tiles ++ rowTiles row (rowCount row)).length) ∧
      Laid s₀ (tiles ++ rowTiles row (rowCount row)) s' := by
  induction n generalizing fuel k startAddr s with
  | zero =>
      obtain ⟨fuel, rfl⟩ := Nat.exists_eq_succ_of_ne_zero (Nat.ne_of_gt hfuel)
      rw [Nat.add_zero] at hn
      have hlt : ¬startAddr < row.addrEnd := by
        rw [hat.lt_iff]
        omega
      rw [← hn]
      exact ⟨s, by rw [initCoreMemDescLoop, if_neg hlt], h⟩
  | succ n ih =>
      obtain ⟨fuel, rfl⟩ := Nat.exists_eq_succ_of_ne_zero (Nat.ne_of_gt (Nat.zero_lt_of_lt hfuel))
      have hk : k < rowCount row := by omega
      have hstep := h.memDescTInit (hat.desc hw hk)
      rw [List.append_assoc, ← rowTiles_succ] at hstep
      obtain ⟨s', hs', hl⟩ := ih fuel (by omega) ⟨hk, hat.add hw hk⟩ (by omega) hstep
      refine ⟨s', ?_, hl⟩
      have hlen : (tiles ++ rowTiles row (k + 1)).length = (tiles ++ rowTiles row k).length + 1 := by
        simp only [List.length_append, rowTiles_length]
        omega
      rw [initCoreMemDescLoop, if_pos (hat.lt_iff.mpr hk), ← hs', hlen]

-- Otherwise it runs through one residue class for ever, always below the end.
theorem initCoreMemDescLoop_hang {startAddr endAddr : Adr}
    (h : 0xffc00000 + startAddr.toNat % 2 ^ 22 < endAddr.toNat) (fuel : ℕ) (s : Mm) (index : ℕ) :
    initCoreMemDescLoop endAddr fuel startAddr s index = .hang := by
  induction fuel generalizing startAddr s index with
  | zero => rfl
  | succ fuel ih =>
      have hlim := startAddr.isLt
      have hlt : startAddr < endAddr := by
        rw [BitVec.lt_def]
        omega
      have hsize := MAPONE_SIZE_toNat
      have hmod : (startAddr + MAPONE_SIZE).toNat % 2 ^ 22 = startAddr.toNat % 2 ^ 22 := by
        rw [BitVec.toNat_add, hsize]
        omega
      rw [initCoreMemDescLoop, if_pos hlt]
      exact ih (by omega) _ _

theorem initCoreMemDesc_laid (hw : NoWrap row) (h : Laid s₀ tiles s) :
    ∃ s', initCoreMemDesc s row.addrStart row.addrEnd tiles.length =
        .ok (s', (tiles ++ rowTiles row (rowCount row)).length) ∧
      Laid s₀ (tiles ++ rowTiles row (rowCount row)) s' := by
  have hzero : tiles ++ rowTiles row 0 = tiles := List.append_nil tiles
  have hat : AtTile row 0 row.addrStart := ⟨Nat.zero_le _, by omega⟩
  have hfuel : rowCount row < WALK_LIMIT := by
    have hlim := row.addrEnd.isLt
    unfold rowCount WALK_LIMIT
    omega
  have hloop := initCoreMemDescLoop_laid hw (rowCount row) WALK_LIMIT hfuel hat (Nat.zero_add _)
    (hzero.symm ▸ h)
  rwa [hzero] at hloop

theorem initCoreMemDesc_hang (hw : ¬NoWrap row) (s : Mm) (index : ℕ) :
    initCoreMemDesc s row.addrStart row.addrEnd index = .hang := by
  have hlt : 0xffc00000 + row.addrStart.toNat % 2 ^ 22 < row.addrEnd.toNat := by
    unfold NoWrap at hw
    omega
  exact initCoreMemDescLoop_hang hlt _ _ _

end Row

section Table

variable {s₀ s : Mm} {tiles : List (ℕ × ℕ)} {row : PhyAddrSpace} {spaces : List PhyAddrSpace}

theorem sdramRows_cons (row : PhyAddrSpace) (spaces : List PhyAddrSpace) :
    sdramRows (row :: spaces) =
      if row.flag = ADDR_SPACE_SDRAM then row :: sdramRows spaces else sdramRows spaces := by
  by_cases hf : row.flag = ADDR_SPACE_SDRAM <;> simp [sdramRows, hf]

theorem tableTiles_cons (row : PhyAddrSpace) (spaces : List PhyAddrSpace) :
    tableTiles (row :: spaces) =
      if row.flag = ADDR_SPACE_SDRAM then rowTiles row (rowCount row) ++ tableTiles spaces
      else tableTiles spaces := by
  simp only [tableTiles, sdramRows_cons]
  split_ifs <;> simp

theorem initMemDescLoop_laid (hw : ∀ row ∈ sdramRows spaces, NoWrap row) (h : Laid s₀ tiles s) :
    ∃ s', initMemDescLoop spaces s tiles.length =
        .ok (s', (tiles ++ tableTiles spaces).length) ∧ Laid s₀ (tiles ++ tableTiles spaces) s' := by
  induction spaces generalizing tiles s with
  | nil =>
      have hnil : tiles ++ tableTiles [] = tiles := List.append_nil tiles
      exact ⟨s, by rw [initMemDescLoop, hnil], hnil.symm ▸ h⟩
  | cons row spaces ih =>
      rw [sdramRows_cons] at hw
      rw [tableTiles_cons, initMemDescLoop]
      by_cases hf : row.flag = ADDR_SPACE_SDRAM
      · simp only [if_pos hf] at hw ⊢
        obtain ⟨s₁, hs₁, hl₁⟩ := initCoreMemDesc_laid (hw row List.mem_cons_self) h
        obtain ⟨s₂, hs₂, hl₂⟩ := ih (fun r hr => hw r (List.mem_cons_of_mem _ hr)) hl₁
        rw [List.append_assoc] at hs₂ hl₂
        rw [hs₁, Outcome.ok_bind]
        exact ⟨s₂, hs₂, hl₂⟩
      · simp only [if_neg hf] at hw ⊢
        exact ih hw h

-- One row that wraps keeps the loop over the rows from ending.
theorem initMemDescLoop_hang (hrow : row ∈ sdramRows spaces) (hw : ¬NoWrap row)
    (h : Laid s₀ tiles s) : initMemDescLoop spaces s tiles.length = .hang := by
  induction spaces generalizing tiles s with
  | nil => simp [sdramRows] at hrow
  | cons r spaces ih =>
      rw [sdramRows_cons] at hrow
      rw [initMemDescLoop]
      by_cases hf : r.flag = ADDR_SPACE_SDRAM
      · simp only [if_pos hf] at hrow ⊢
        by_cases hr : NoWrap r
        · have hne : row ≠ r := fun he => hw (he ▸ hr)
          obtain ⟨s₁, hs₁, hl₁⟩ := initCoreMemDesc_laid hr h
          rw [hs₁, Outcome.ok_bind]
          exact ih ((List.mem_cons.mp hrow).resolve_left hne) hl₁
        · rw [initCoreMemDesc_hang hr]
          rfl
      · simp only [if_neg hf] at hrow ⊢
        exact ih hrow h

theorem initMemDesc_laid (s : Mm) (hw : ∀ row ∈ sdramRows s.mach.addrSpaces, NoWrap row) :
    ∃ s', initMemDesc s = .ok s' ∧
      Laid { s with mach := tableMach s.mach } (tableTiles s.mach.addrSpaces) s' := by
  obtain ⟨s₁, hs₁, hl⟩ := initMemDescLoop_laid hw (laid_nil s)
  rw [List.nil_append] at hs₁ hl
  refine ⟨{ s₁ with mach := tableMach s.mach }, ?_, hl.written, hl.rest, hl.linked, rfl⟩
  rw [initMemDesc, show (0 : ℕ) = ([] : List (ℕ × ℕ)).length from rfl, hs₁, Outcome.ok_bind]
  simp only [hl.mach, tableMach]

theorem initMemDesc_hang {s : Mm} (hrow : row ∈ sdramRows s.mach.addrSpaces) (hw : ¬NoWrap row) :
    initMemDesc s = .hang := by
  have hloop := initMemDescLoop_hang hrow hw (laid_nil s)
  rw [List.length_nil] at hloop
  rw [initMemDesc, hloop]
  rfl

end Table

end Lmosem
