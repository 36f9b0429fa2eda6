import Lmosem.Hal.Mm
import Lmosem.Lib.Bits
import Lmosem.Lib.Region
import Mathlib.Tactic.FinCases

-- The block allocator on lists and sets: the queues of descriptor numbers behind
-- the 18 list heads, and the blocks of each descriptor that are in use.
namespace Lmosem

open SlabQueue Region

-- The address geometry of memory that is made of whole 4 MB pieces.
structure MemMap where
  count : ℕ
  base : ℕ → ℕ
  count_pos : 0 < count
  base_pos : ∀ k < count, 0 < base k
  aligned : ∀ k < count, 2 ^ 22 ∣ base k
  bounded : ∀ k < count, base k + 2 ^ 22 < 2 ^ 32
  injective : ∀ j < count, ∀ k < count, base j = base k → j = k

-- `addr` lies in piece `k`, whose last byte a release does not look at.
def MemMap.Covers (m : MemMap) (k addr : ℕ) : Prop :=
  m.base k ≤ addr ∧ addr < m.base k + (2 ^ 22 - 1)

instance (m : MemMap) (k addr : ℕ) : Decidable (m.Covers k addr) :=
  inferInstanceAs (Decidable (_ ∧ _))

def blkSize (i : Slab) : ℕ := 2 ^ (17 + i.val)

def blkBits (i : Slab) : ℕ := 2 ^ (5 - i.val)

theorem blkBits_mul_blkSize (i : Slab) : blkBits i * blkSize i = 2 ^ 22 := by
  fin_cases i <;> rfl

theorem blkSize_pos (i : Slab) : 0 < blkSize i := Nat.two_pow_pos _

theorem blkBits_pos (i : Slab) : 0 < blkBits i := Nat.two_pow_pos _

theorem blkSize_le (i : Slab) : 2 ^ 17 ≤ blkSize i ∧ blkSize i ≤ 2 ^ 22 := by
  fin_cases i <;> decide

theorem blkBits_le (i : Slab) : blkBits i ≤ 32 := by
  fin_cases i <;> decide

-- Whole 4 MB pieces of a 32-bit address space are at most 1024.
theorem MemMap.count_le (m : MemMap) : m.count ≤ 2 ^ 10 := by
  have hmaps : ∀ k ∈ Finset.range m.count, m.base k / 2 ^ 22 ∈ Finset.range (2 ^ 10) := by
    intro k hk
    have := m.bounded k (Finset.mem_range.mp hk)
    exact Finset.mem_range.mpr (by omega)
  have hinj : Set.InjOn (fun k => m.base k / 2 ^ 22) (Finset.range m.count) := by
    intro j hj k hk he
    have hj := Finset.mem_range.mp hj
    have hk := Finset.mem_range.mp hk
    exact m.injective j hj k hk ((Nat.div_left_inj (m.aligned j hj) (m.aligned k hk)).mp he)
  simpa using Finset.card_le_card_of_injOn _ hmaps hinj

theorem blkSize_injective {i j : Slab} (h : blkSize i = blkSize j) : i = j := by
  have he : 17 + i.val = 17 + j.val := Nat.pow_right_injective (Nat.le_refl 2) h
  exact Fin.ext (Nat.add_left_cancel he)

structure Shelves where
  queue : SlabHead → List ℕ
  used : ℕ → Finset ℕ

namespace Shelves

variable (m : MemMap) (t : Shelves)

-- The descriptor an allocation of class `i` takes a block from.
def pick (i : Slab) : Option ℕ := (t.queue (i, partialList) ++ t.queue (lastSlab, emptyList)).head?

def alloc (i : Slab) : Option ((ℕ × ℕ) × Shelves) := do
  let k ← t.pick i
  let b ← Bits.firstZero (t.used k) (blkBits i)
  let used := insert b (t.used k)
  let target := if Finset.range (blkBits i) ⊆ used then fullList else partialList
  some ((k, b), ⟨Queues.move t.queue k (i, target), Function.update t.used k used⟩)

def find (i : Slab) (addr : ℕ) : Option ℕ :=
  (t.queue (i, fullList) ++ t.queue (i, partialList)).find? fun k => m.Covers k addr

def free (i : Slab) (addr : ℕ) : Option ((ℕ × ℕ) × Shelves) := do
  let k ← t.find m i addr
  let b := (addr - m.base k) / blkSize i
  if b ∈ t.used k then
    let used := (t.used k).erase b
    let queue := if used = ∅ then Queues.move t.queue k (lastSlab, emptyList) else t.queue
    some ((k, b), ⟨queue, Function.update t.used k used⟩)
  else none

-- Descriptor `k` is cut into blocks of class `i`.
def OnShelf (i : Slab) (k : ℕ) : Prop :=
  k ∈ t.queue (i, fullList) ∨ k ∈ t.queue (i, partialList)

structure Inv : Prop where
  apart : Queues.Apart t.queue
  cover : ∀ k, k < m.count ↔ ∃ p, k ∈ t.queue p
  noEmpty : ∀ i, i ≠ lastSlab → t.queue (i, emptyList) = []
  unused : ∀ k ∈ t.queue (lastSlab, emptyList), t.used k = ∅
  split : ∀ i k, t.OnShelf i k → (t.used k).Nonempty ∧ t.used k ⊆ Finset.range (blkBits i)
  room : ∀ i, ∀ k ∈ t.queue (i, partialList), ¬Finset.range (blkBits i) ⊆ t.used k

def block (i : Slab) (k b : ℕ) : ℕ × ℕ := slot (m.base k) (blkSize i) b

-- `blk` is a block whose bit is set.
def Marked (blk : ℕ × ℕ) : Prop :=
  ∃ i k b, t.OnShelf i k ∧ b ∈ t.used k ∧ blk = block m i k b

variable {m t}

theorem Inv.onShelf_lt (h : Inv m t) {i : Slab} {k : ℕ} (hk : t.OnShelf i k) : k < m.count :=
  (h.cover k).mpr (hk.elim (fun hm => ⟨_, hm⟩) (fun hm => ⟨_, hm⟩))

theorem Inv.onShelf_unique (h : Inv m t) {i j : Slab} {k : ℕ} (hi : t.OnShelf i k)
    (hj : t.OnShelf j k) : i = j := by
  rcases hi with hi | hi <;> rcases hj with hj | hj <;>
    exact congrArg Prod.fst (h.apart.unique _ _ k hi hj)

theorem Inv.not_onShelf_of_empty (h : Inv m t) {i j : Slab} {k : ℕ}
    (hk : k ∈ t.queue (j, emptyList)) : ¬t.OnShelf i k := by
  rintro (hi | hi) <;> exact absurd (congrArg Prod.snd (h.apart.unique _ _ k hi hk)) (by simp)

theorem Inv.empty_last (h : Inv m t) {j : Slab} {k : ℕ} (hk : k ∈ t.queue (j, emptyList)) :
    j = lastSlab := by
  by_contra hj
  simp [h.noEmpty j hj] at hk

-- Every descriptor is either cut into one class of blocks or wholly free.
theorem Inv.place (h : Inv m t) {k : ℕ} (hk : k < m.count) :
    (∃ i, t.OnShelf i k) ∨ k ∈ t.queue (lastSlab, emptyList) := by
  obtain ⟨⟨i, q⟩, hm⟩ := (h.cover k).mp hk
  cases q with
  | fullList => exact Or.inl ⟨i, Or.inl hm⟩
  | partialList => exact Or.inl ⟨i, Or.inr hm⟩
  | emptyList => exact Or.inr (h.empty_last hm ▸ hm)

theorem block_within {i : Slab} {b : ℕ} (hb : b < blkBits i) (k : ℕ) :
    Within (block m i k b) (m.base k, 2 ^ 22) := by
  have := slot_within (m.base k) (blkSize i) hb
  rwa [blkBits_mul_blkSize] at this

theorem pieces_apart {j k : ℕ} (hj : j < m.count) (hk : k < m.count) (h : j ≠ k) :
    Apart (m.base j, 2 ^ 22) (m.base k, 2 ^ 22) :=
  apart_of_dvd (m.aligned j hj) (m.aligned k hk) fun he => h (m.injective j hj k hk he)

-- Two set bits stand for two blocks without a common byte.
theorem Inv.block_apart (h : Inv m t) {i j : Slab} {k l b c : ℕ} (hk : t.OnShelf i k)
    (hl : t.OnShelf j l) (hb : b ∈ t.used k) (hc : c ∈ t.used l) (hne : ¬(k = l ∧ b = c)) :
    Apart (block m i k b) (block m j l c) := by
  by_cases hkl : k = l
  · subst hkl
    obtain rfl := h.onShelf_unique hk hl
    exact slot_apart _ _ fun he => hne ⟨rfl, he⟩
  · have hbk := Finset.mem_range.mp ((h.split i k hk).2 hb)
    have hcl := Finset.mem_range.mp ((h.split j l hl).2 hc)
    exact (pieces_apart (h.onShelf_lt hk) (h.onShelf_lt hl) hkl).mono (block_within hbk k)
      (block_within hcl l)

theorem Inv.block_injective (h : Inv m t) {i j : Slab} {k l b c : ℕ} (hk : t.OnShelf i k)
    (hl : t.OnShelf j l) (hb : b ∈ t.used k) (hc : c ∈ t.used l)
    (he : block m i k b = block m j l c) : k = l ∧ b = c := by
  by_contra hne
  have ha := h.block_apart hk hl hb hc hne
  rw [he] at ha
  exact not_apart_self (blkSize_pos j) ha

theorem Marked.apart (h : Inv m t) {x y : ℕ × ℕ} (hx : t.Marked m x) (hy : t.Marked m y)
    (hne : x ≠ y) : Apart x y := by
  obtain ⟨i, k, b, hk, hb, rfl⟩ := hx
  obtain ⟨j, l, c, hl, hc, rfl⟩ := hy
  refine h.block_apart hk hl hb hc ?_
  rintro ⟨rfl, rfl⟩
  exact hne (h.onShelf_unique hk hl ▸ rfl)

end Shelves

end Lmosem
