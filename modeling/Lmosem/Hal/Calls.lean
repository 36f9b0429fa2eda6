import Lmosem.Hal.Shelves

-- What one call reads and writes, in any state whose slabs have the six sizes.
namespace Lmosem

open Intrusive SlabQueue

theorem ne_null_iff {addr : Adr} : addr ≠ NULL ↔ 0 < addr.toNat := by
  rw [ne_eq, ← BitVec.toNat_inj, Nat.pos_iff_ne_zero]
  rfl

def slabSize (i : Slab) : SizeT := BitVec.ofNat 32 (blkSize i)

def slabAcsz (i : Slab) : U32 := BitVec.ofNat 32 (i.val + 1) <<< MAPF_ACSZ_BIT

def slabMask (i : Slab) : U32 := BitVec.ofNat 32 (2 ^ blkBits i - 1)

def slabFlag (i : Slab) : U32 := MAP_FLAGES_VAL 0 (slabAcsz i) MAPF_SZ_4MB

theorem ones_slabMask (i : Slab) : Bits.ones (slabMask i) = Finset.range (blkBits i) :=
  Bits.ones_lowMask (blkBits_le i)

theorem slabFlag_recode (i j : Slab) : (slabFlag j &&& 0xffffff0f) ||| slabAcsz i = slabFlag i := by
  revert i j
  decide

theorem slabSize_toNat (i : Slab) : (slabSize i).toNat = blkSize i := by
  have := blkSize_le i
  rw [slabSize, BitVec.toNat_ofNat, Nat.mod_eq_of_lt (by omega)]

theorem slabSize_injective {i j : Slab} (h : slabSize i = slabSize j) : i = j :=
  blkSize_injective (by rw [← slabSize_toNat i, ← slabSize_toNat j, h])

theorem slabSize_in_range (i : Slab) : ¬(slabSize i < BLK128KB_SIZE ∨ slabSize i > BLK4MB_SIZE) := by
  revert i
  decide

theorem slabSize_ne_zero (i : Slab) : slabSize i ≠ 0 := by
  revert i
  decide

-- The bit scan of the source finds the first zero bit.
theorem scanMapCount_eq (x : U32) (left bi : ℕ) :
    scanMapCount x left bi =
      ((List.range' bi left).find? fun b => b ∉ Bits.ones x).getD 0xffffffff := by
  induction left generalizing bi with
  | zero => rfl
  | succ left ih =>
      simp only [scanMapCount, List.range'_succ, List.find?_cons]
      by_cases hb : bi ∈ Bits.ones x
      · rw [if_neg ((Bits.test_bit_eq_zero x (by decide) bi).not.mpr (not_not.mpr hb)), ih]
        simp [hb]
      · rw [if_pos ((Bits.test_bit_eq_zero x (by decide) bi).mpr hb)]
        simp [hb]

theorem scanMapCount_firstZero {x : U32} {n b : ℕ}
    (h : Bits.firstZero (Bits.ones x) n = some b) : scanMapCount x n 0 = b := by
  rw [scanMapCount_eq, ← List.range_eq_range']
  simp only [Bits.firstZero] at h
  rw [h, Option.getD_some]

theorem scanMapCount_none {x : U32} {n : ℕ} (h : Bits.firstZero (Bits.ones x) n = none) :
    scanMapCount x n 0 = 0xffffffff := by
  rw [scanMapCount_eq, ← List.range_eq_range']
  simp only [Bits.firstZero] at h
  rw [h, Option.getD_none]

theorem allocBlkInSlab_eq (s : Mm) (a mv i : Slab) : allocBlkInSlab s a mv (slabSize i) =
    allocBlkOnDesc s (slabAcsz i) (slabMask i) (blkBits i) a mv := by
  fin_cases i <;> rfl

theorem freeBlkInSlab_eq (s : Mm) (addr : Adr) (inSlab i : Slab) :
    freeBlkInSlab s addr (slabSize i) inSlab lastSlab =
      freeBlkInSlab' s addr inSlab lastSlab (slabAcsz lastSlab) (slabMask i) := by
  fin_cases i <;> rfl

-- Where block `b` of a descriptor begins, as the source computes it.
def blkAddr (d : MemDesc) (i : Slab) (b : ℕ) : Adr := d.startAddr + slabSize i * BitVec.ofNat 32 b

-- Where the block lies in a descriptor of at most 4 MB, this does not wrap.
theorem blkAddr_toNat {d : MemDesc} {i : Slab} {b : ℕ} (hb : b < blkBits i)
    (hd : d.startAddr.toNat + 2 ^ 22 ≤ 2 ^ 32) :
    (blkAddr d i b).toNat = d.startAddr.toNat + b * blkSize i := by
  have hbits := blkBits_le i
  have hpos := blkSize_pos i
  have hmul : blkSize i * b = b * blkSize i := Nat.mul_comm _ _
  have hlt : b * blkSize i < 2 ^ 22 := by
    rw [← blkBits_mul_blkSize i]
    exact (Nat.mul_lt_mul_right hpos).mpr hb
  rw [blkAddr, BitVec.toNat_add, BitVec.toNat_mul, BitVec.toNat_ofNat, slabSize_toNat,
    Nat.mod_eq_of_lt (show b < 2 ^ 32 by omega), hmul, Nat.mod_eq_of_lt (by omega),
    Nat.mod_eq_of_lt (by omega)]

def takenDesc (d : MemDesc) (i : Slab) (b : ℕ) : MemDesc :=
  { d with
    mapCount := d.mapCount ||| 1#32 <<< b
    flag := (d.flag &&& 0xffffff0f) ||| slabAcsz i }

def takenQueue (d : MemDesc) (i : Slab) (b : ℕ) : SlabQueue :=
  if (takenDesc d i b).mapCount &&& slabMask i = slabMask i then fullList else partialList

-- The state once block `b` of descriptor `k` has been handed out.
def takeBlk (s : Mm) (i : Slab) (k b : ℕ) (d : MemDesc) : Mm :=
  moveTail (s.setDesc k (takenDesc d i b)) k (i, takenQueue d i b)

def clearedDesc (d : MemDesc) (b : ℕ) : MemDesc :=
  { d with mapCount := d.mapCount &&& ~~~(1#32 <<< b) }

-- The state once that block has been taken back.
def giveBlk (s : Mm) (i : Slab) (k b : ℕ) (d : MemDesc) : Mm :=
  if (clearedDesc d b).mapCount &&& slabMask i = 0 then
    moveTail (s.setDesc k { clearedDesc d b with
      flag := (d.flag &&& 0xffffff0f) ||| slabAcsz lastSlab }) k (lastSlab, emptyList)
  else s.setDesc k (clearedDesc d b)

-- The lists offer descriptor `k` for a block of class `i`.
def Offers (s : Mm) (i : Slab) (k : ℕ) : Prop :=
  ∃ a, (findSlabBySize s (slabSize i)).1 = some a ∧ findDescInSlab s a = .ok (some k)

theorem Mm.desc_eq_ok {s : Mm} {k : ℕ} {d : MemDesc} : s.desc k = .ok d ↔ s.descs k = some d := by
  unfold Mm.desc
  cases s.descs k <;> simp

section Sized

variable {s s' : Mm} {i : Slab} {k b : ℕ} {d : MemDesc} {addr ret : Adr} {size : SizeT} {done : Bool}

theorem find_size (h : ∀ j, (s.slabs j).size = slabSize j) (i : Slab) :
    (List.finRange BLKSZ_HEAD_MAX).find? (fun j => (s.slabs j).size = slabSize i) = some i := by
  have he : (fun j => decide ((s.slabs j).size = slabSize i)) = fun j => decide (j = i) := by
    funext j
    rw [h j]
    exact decide_eq_decide.mpr ⟨slabSize_injective, fun he => he ▸ rfl⟩
  rw [he]
  clear he
  revert i
  decide

theorem find_size_none (h : ∀ j, (s.slabs j).size = slabSize j) (hs : ∀ i, size ≠ slabSize i) :
    (List.finRange BLKSZ_HEAD_MAX).find? (fun j => (s.slabs j).size = size) = none := by
  simp [h, (hs _).symm]

theorem findSlabBySize_some (h : ∀ j, (s.slabs j).size = slabSize j) {a : Slab}
    (hf : (findSlabBySize s (slabSize i)).1 = some a) :
    findSlabBySize s (slabSize i) = (some a, some i, slabSize i) ∧ (a = i ∨ a = lastSlab) := by
  unfold findSlabBySize at hf ⊢
  rw [find_size h i] at hf ⊢
  simp only [h i] at hf ⊢
  split_ifs at hf ⊢
  · obtain rfl := Option.some.inj hf
    exact ⟨rfl, Or.inl rfl⟩
  · obtain rfl := Option.some.inj hf
    exact ⟨rfl, Or.inr rfl⟩

theorem allocMemBlk_of_none (hf : (findSlabBySize s (slabSize i)).1 = none) :
    allocMemBlk s (slabSize i) = .ok (NULL, s) := by
  rw [allocMemBlk, if_neg (slabSize_in_range i), allocMemBlkCore]
  cases hr : findSlabBySize s (slabSize i) with
  | mk a rest =>
      rw [hr] at hf
      obtain rfl : a = none := hf
      rfl

-- Behind the two lookups the size decides which bits are looked at.
theorem allocMemBlk_found (h : ∀ j, (s.slabs j).size = slabSize j) {a : Slab}
    (hf : (findSlabBySize s (slabSize i)).1 = some a) :
    allocMemBlk s (slabSize i) = allocBlkOnDesc s (slabAcsz i) (slabMask i) (blkBits i) a i := by
  obtain ⟨hslab, hal⟩ := findSlabBySize_some h hf
  have hsame : ¬(slabSize a ≠ slabSize i ∧ slabSize a ≠ BLK4MB_SIZE) := by
    rcases hal with rfl | rfl
    · exact fun hne => hne.1 rfl
    · exact fun hne => hne.2 rfl
  rw [allocMemBlk, if_neg (slabSize_in_range i), allocMemBlkCore, hslab]
  simp only [h, if_neg (slabSize_ne_zero i), if_neg hsame, allocBlkInSlab_eq]

theorem allocBlkOnDesc_eq (h : ∀ j, (s.slabs j).size = slabSize j) {a : Slab}
    (hk : findDescInSlab s a = .ok (some k)) (hd : s.descs k = some d) :
    allocBlkOnDesc s (slabAcsz i) (slabMask i) (blkBits i) a i =
      match Bits.firstZero (Bits.ones d.mapCount) (blkBits i) with
      | none => .ok (NULL, s)
      | some b =>
          if blkAddr d i b < d.startAddr ∨ blkAddr d i b ≥ d.endAddr then .ok (NULL, s)
          else .ok (blkAddr d i b, takeBlk s i k b d) := by
  have hbits := blkBits_le i
  rw [allocBlkOnDesc, if_neg (by omega), hk]
  simp only [Outcome.ok_bind, Mm.desc, hd, h]
  cases hb : Bits.firstZero (Bits.ones d.mapCount) (blkBits i) with
  | none => rw [if_pos (scanMapCount_none hb)]
  | some b =>
      have hlt := (Bits.firstZero_some hb).1
      have hscan := scanMapCount_firstZero hb
      rw [hscan, if_neg (by omega)]
      refine ite_congr rfl (fun _ => rfl) fun _ => ?_
      by_cases hfull : (takenDesc d i b).mapCount &&& slabMask i = slabMask i
      · rw [takeBlk, takenQueue, if_pos hfull]
        exact if_pos hfull
      · rw [takeBlk, takenQueue, if_neg hfull]
        exact if_neg hfull

theorem allocBlkOnDesc_cases (h : ∀ j, (s.slabs j).size = slabSize j) {a : Slab}
    (hdesc : ∀ k, findDescInSlab s a = .ok (some k) → ∃ d, s.descs k = some d)
    (hcall : allocBlkOnDesc s (slabAcsz i) (slabMask i) (blkBits i) a i = .ok (ret, s')) :
    (ret = NULL ∧ s' = s) ∨ ∃ k b d, findDescInSlab s a = .ok (some k) ∧ s.descs k = some d ∧
      Bits.firstZero (Bits.ones d.mapCount) (blkBits i) = some b ∧
      ¬(blkAddr d i b < d.startAddr ∨ blkAddr d i b ≥ d.endAddr) ∧ ret = blkAddr d i b ∧
      s' = takeBlk s i k b d := by
  have hbits := blkBits_le i
  have hfind : ∃ found, findDescInSlab s a = .ok found := by
    rw [allocBlkOnDesc, if_neg (by omega), Outcome.bind_eq_ok] at hcall
    exact hcall.imp fun _ hc => hc.1
  obtain ⟨_ | k, hk⟩ := hfind
  · rw [allocBlkOnDesc, if_neg (by omega), hk] at hcall
    cases hcall
    exact Or.inl ⟨rfl, rfl⟩
  · obtain ⟨d, hd⟩ := hdesc k hk
    rw [allocBlkOnDesc_eq h hk hd] at hcall
    cases hb : Bits.firstZero (Bits.ones d.mapCount) (blkBits i) with
    | none =>
        rw [hb] at hcall
        cases hcall
        exact Or.inl ⟨rfl, rfl⟩
    | some b =>
        rw [hb] at hcall
        dsimp only at hcall
        split_ifs at hcall with hrange
        · cases hcall
          exact Or.inl ⟨rfl, rfl⟩
        · cases hcall
          exact Or.inr ⟨k, b, d, hk, hd, hb, hrange, rfl, rfl⟩

-- An allocation either leaves everything as it is or takes the first free block of the
-- descriptor the lists offer.
theorem allocMemBlk_cases (h : ∀ j, (s.slabs j).size = slabSize j)
    (hdesc : ∀ a k, findDescInSlab s a = .ok (some k) → ∃ d, s.descs k = some d)
    (hcall : allocMemBlk s size = .ok (ret, s')) :
    (ret = NULL ∧ s' = s) ∨ ∃ i k b d, size = slabSize i ∧ Offers s i k ∧ s.descs k = some d ∧
      Bits.firstZero (Bits.ones d.mapCount) (blkBits i) = some b ∧
      ¬(blkAddr d i b < d.startAddr ∨ blkAddr d i b ≥ d.endAddr) ∧ ret = blkAddr d i b ∧
      s' = takeBlk s i k b d := by
  by_cases hsize : ∃ i, size = slabSize i
  · obtain ⟨i, rfl⟩ := hsize
    cases ha : (findSlabBySize s (slabSize i)).1 with
    | none =>
        rw [allocMemBlk_of_none ha] at hcall
        cases hcall
        exact Or.inl ⟨rfl, rfl⟩
    | some a =>
        rw [allocMemBlk_found h ha] at hcall
        rcases allocBlkOnDesc_cases h (hdesc a) hcall with hnull | ⟨k, b, d, hk, htaken⟩
        · exact Or.inl hnull
        · exact Or.inr ⟨i, k, b, d, rfl, ⟨a, ha, hk⟩, htaken⟩
  · rw [allocMemBlk, allocMemBlkCore, findSlabBySize,
      find_size_none h fun i hi => hsize ⟨i, hi⟩, ite_self] at hcall
    cases hcall
    exact Or.inl ⟨rfl, rfl⟩

theorem allocMemBlk_taken (h : ∀ j, (s.slabs j).size = slabSize j) (ho : Offers s i k)
    (hd : s.descs k = some d)
    (hb : Bits.firstZero (Bits.ones d.mapCount) (blkBits i) = some b)
    (hrange : ¬(blkAddr d i b < d.startAddr ∨ blkAddr d i b ≥ d.endAddr)) :
    allocMemBlk s (slabSize i) = .ok (blkAddr d i b, takeBlk s i k b d) := by
  obtain ⟨a, ha, hk⟩ := ho
  rw [allocMemBlk_found h ha, allocBlkOnDesc_eq h hk hd, hb]
  exact if_neg hrange

-- Both switches in front of `__free_blk_in_slab`.
theorem freeMemBlk_eq (h : ∀ j, (s.slabs j).size = slabSize j) (hnull : addr ≠ NULL) (i : Slab) :
    freeMemBlk s addr (slabSize i) =
      freeBlkInSlab' s addr i lastSlab (slabAcsz lastSlab) (slabMask i) := by
  have hr : ¬(addr = NULL ∨ slabSize i < BLK128KB_SIZE ∨ slabSize i > BLK4MB_SIZE) := by
    have := slabSize_in_range i
    tauto
  rw [freeMemBlk, if_neg hr, freeMemBlkCore, find_size h i]
  exact freeBlkInSlab_eq s addr i i

theorem freeBlkInSlab'_eq (h : ∀ j, (s.slabs j).size = slabSize j)
    (hk : findDescForFree s addr i = .ok (some k)) (hd : s.descs k = some d)
    (hb : ((addr - d.startAddr) / slabSize i).toNat = b) :
    freeBlkInSlab' s addr i lastSlab (slabAcsz lastSlab) (slabMask i) =
      if b ≤ 31 ∧ b ∈ Bits.ones d.mapCount then .ok (true, giveBlk s i k b d) else .ok (false, s) := by
  rw [freeBlkInSlab', hk]
  simp only [Outcome.ok_bind, Mm.desc, hd, h, hb]
  by_cases hle : b > 31
  · rw [if_pos hle, if_neg (by omega)]
  · rw [if_neg hle]
    by_cases hmem : b ∈ Bits.ones d.mapCount
    · have htest : ¬((d.mapCount >>> b) &&& 1#32 ≠ 1#32) := by
        rw [not_not, Bits.test_bit_eq_one _ (by decide)]
        exact hmem
      have hset : b ≤ 31 ∧ b ∈ Bits.ones d.mapCount := ⟨by omega, hmem⟩
      rw [if_neg htest, if_pos hset]
      by_cases hempty : (clearedDesc d b).mapCount &&& slabMask i = 0
      · rw [giveBlk, if_pos hempty]
        exact if_pos hempty
      · rw [giveBlk, if_neg hempty]
        exact if_neg hempty
    · have htest : (d.mapCount >>> b) &&& 1#32 ≠ 1#32 := by
        rw [ne_eq, Bits.test_bit_eq_one _ (by decide)]
        exact hmem
      rw [if_pos htest, if_neg fun hc => hmem hc.2]

-- A release either leaves everything as it is or clears one bit of the descriptor found.
theorem freeMemBlk_cases (h : ∀ j, (s.slabs j).size = slabSize j)
    (hdesc : ∀ i k, findDescForFree s addr i = .ok (some k) → ∃ d, s.descs k = some d)
    (hcall : freeMemBlk s addr size = .ok (done, s')) :
    (done = false ∧ s' = s) ∨ ∃ i k d, done = true ∧ size = slabSize i ∧
      findDescForFree s addr i = .ok (some k) ∧ s.descs k = some d ∧
      ((addr - d.startAddr) / slabSize i).toNat ∈ Bits.ones d.mapCount ∧
      s' = giveBlk s i k ((addr - d.startAddr) / slabSize i).toNat d := by
  by_cases hnull : addr = NULL
  · rw [freeMemBlk, if_pos (Or.inl hnull)] at hcall
    cases hcall
    exact Or.inl ⟨rfl, rfl⟩
  by_cases hsize : ∃ i, size = slabSize i
  · obtain ⟨i, rfl⟩ := hsize
    rw [freeMemBlk_eq h hnull] at hcall
    have hfind : ∃ found, findDescForFree s addr i = .ok found := by
      rw [freeBlkInSlab', Outcome.bind_eq_ok] at hcall
      exact hcall.imp fun _ hc => hc.1
    obtain ⟨_ | k, hk⟩ := hfind
    · rw [freeBlkInSlab', hk] at hcall
      cases hcall
      exact Or.inl ⟨rfl, rfl⟩
    · obtain ⟨d, hd⟩ := hdesc i k hk
      rw [freeBlkInSlab'_eq h hk hd rfl] at hcall
      split_ifs at hcall with hmem
      · cases hcall
        exact Or.inr ⟨i, k, d, rfl, rfl, hk, hd, hmem.2, rfl⟩
      · cases hcall
        exact Or.inl ⟨rfl, rfl⟩
  · rw [freeMemBlk, freeMemBlkCore, find_size_none h fun i hi => hsize ⟨i, hi⟩, ite_self] at hcall
    cases hcall
    exact Or.inl ⟨rfl, rfl⟩

end Sized

end Lmosem
