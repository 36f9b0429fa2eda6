import Lmosem.Hal.Types
import Lmosem.Lib.CString
import Mathlib.Tactic.Ring
import Mathlib.Tactic.SplitIfs

-- The functions that copy areas of memory.
namespace Lmosem

open Memory

-- The copy from the first byte on.
def memcpyLoop : ℕ → Adr → Adr → Mem 32 → Mem 32
  | 0, _, _, mem => mem
  | count + 1, tmp, s, mem => memcpyLoop count (tmp + 1) (s + 1) (Function.update mem tmp (mem s))

-- The copy from the last byte on.
def memmoveLoop : ℕ → Adr → Adr → Mem 32 → Mem 32
  | 0, _, _, mem => mem
  | count + 1, tmp, s, mem =>
      let tmp := tmp - 1
      let s := s - 1
      memmoveLoop count tmp s (Function.update mem tmp (mem s))

def memcpy (mem : Mem 32) (dest src : Adr) (count : SizeT) : Adr × Mem 32 :=
  (dest, memcpyLoop count.toNat dest src mem)

def memmove (mem : Mem 32) (dest src : Adr) (count : SizeT) : Adr × Mem 32 :=
  (dest, if dest ≤ src then memcpyLoop count.toNat dest src mem
    else memmoveLoop count.toNat (dest + count) (src + count) mem)

-- What a copy is for: the bytes that were at `s` are at `p`, and all others are where they were.
def copied (mem : Mem 32) (p s : Adr) (n : ℕ) : Mem 32 :=
  fill mem p n fun i => mem (s + BitVec.ofNat 32 i)

variable {mem : Mem 32} {p s a : Adr} {n : ℕ}

theorem off_next (h : 0 < off p a) : off (p + 1) a = off p a - 1 := off_behind h

-- The byte in front of an area is the last one behind it.
theorem off_before (p : Adr) : off (p + 1) p = 2 ^ 32 - 1 := by
  rw [off, sub_add_cancel_left]
  rfl

theorem add_one_add (p : Adr) (i : ℕ) :
    p + 1 + BitVec.ofNat 32 i = p + BitVec.ofNat 32 (i + 1) := (add_ofNat_succ p i).symm

theorem memcpyLoop_out (h : n ≤ off p a) : memcpyLoop n p s mem a = mem a := by
  induction n generalizing p s mem with
  | zero => rfl
  | succ n ih =>
      have hne : a ≠ p := by
        rintro rfl
        rw [off_self] at h
        omega
      rw [memcpyLoop, ih (by rw [off_next (by omega)]; omega), Function.update_of_ne hne]

theorem memcpyLoop_add (k n : ℕ) : memcpyLoop (k + n) p s mem =
    memcpyLoop n (p + BitVec.ofNat 32 k) (s + BitVec.ofNat 32 k) (memcpyLoop k p s mem) := by
  induction k generalizing p s mem with
  | zero => simp [memcpyLoop]
  | succ k ih =>
      rw [Nat.succ_add, memcpyLoop, memcpyLoop, ih, add_one_add, add_one_add]

-- No byte is read where one has been written before.
theorem memcpyLoop_eq (hn : n ≤ 2 ^ 32) (h : s = p ∨ n ≤ off s p) :
    memcpyLoop n p s mem = copied mem p s n := by
  induction n generalizing p s mem with
  | zero => exact (fill_zero _ _ _).symm
  | succ n ih =>
      have hread (i : ℕ) (hi : i < n) : Function.update mem p (mem s) (s + 1 + BitVec.ofNat 32 i) =
          mem (s + BitVec.ofNat 32 (i + 1)) := by
        rw [add_one_add]
        rcases h with rfl | hfar
        · rw [Function.update_eq_self]
        · refine Function.update_of_ne (fun he => ?_) _ _
          rw [← he, off_add s (by omega)] at hfar
          omega
      have hnext : s + 1 = p + 1 ∨ n ≤ off (s + 1) (p + 1) := by
        refine h.imp (congrArg (· + 1)) fun hfar => ?_
        have hoff : off (s + 1) (p + 1) = off s p := by
          unfold off
          congr 1
          rw [add_sub_add_right_eq_sub]
        omega
      have hbefore : n ≤ off (p + 1) p := by
        rw [off_before]
        omega
      have hfirst : mem (s + BitVec.ofNat 32 0) = mem s := congrArg mem (BitVec.add_zero s)
      rw [memcpyLoop, ih (by omega) hnext, copied, fill_congr hread, fill_update hbefore, copied,
        ← fill_cons mem p n fun i => mem (s + BitVec.ofNat 32 i), hfirst]
      rfl

-- It goes wrong as soon as the area begins inside of what is still to be read.
theorem memcpyLoop_iff (hn : n ≤ 2 ^ 32) :
    (∀ mem, memcpyLoop n p s mem = copied mem p s n) ↔ s = p ∨ n ≤ off s p := by
  refine ⟨fun h => ?_, fun h mem => memcpyLoop_eq hn h⟩
  by_contra! hnear
  obtain ⟨hne, hlt⟩ := hnear
  have hpos : off s p ≠ 0 := fun he => hne (off_eq_zero.mp he).symm
  generalize hk : off s p = k at *
  have hp : s + BitVec.ofNat 32 k = p := by rw [← hk, add_off]
  obtain ⟨r, rfl⟩ : ∃ r, n = k + (r + 1) := ⟨n - k - 1, by omega⟩
  have hcopy := congrFun (h (Function.update (fun _ => 0) s 1)) (p + BitVec.ofNat 32 k)
  rw [copied, fill_add (by omega) (by omega), hp, Function.update_of_ne (Ne.symm hne),
    memcpyLoop_add, memcpyLoop_eq (by omega) (Or.inr hk.ge), memcpyLoop, memcpyLoop_out,
    Function.update_self, copied, hp, fill_off, off_self] at hcopy
  · simp at hcopy
  · rw [off_self]
    omega
  · rw [off_before]
    omega

-- A memory read from its end to its start.
def mirror (mem : Mem 32) : Mem 32 := fun a => mem (-a)

@[simp] theorem mirror_mirror (mem : Mem 32) : mirror (mirror mem) = mem := by
  funext a
  rw [mirror, mirror, neg_neg]

theorem mirror_update (mem : Mem 32) (p : Adr) (c : BitVec 8) :
    mirror (Function.update mem p c) = Function.update (mirror mem) (-p) c := by
  funext a
  by_cases ha : a = -p
  · subst ha
    rw [mirror, neg_neg, Function.update_self, Function.update_self]
  · have hne : -a ≠ p := fun he => ha (neg_eq_iff_eq_neg.mp he)
    rw [mirror, Function.update_of_ne ha, Function.update_of_ne hne, mirror]

-- The copy from the last byte on is the other one in the mirror.
theorem memmoveLoop_mirror :
    memmoveLoop n p s mem = mirror (memcpyLoop n (-p + 1) (-s + 1) (mirror mem)) := by
  induction n generalizing p s mem with
  | zero => exact (mirror_mirror mem).symm
  | succ n ih =>
      have hnext (q : Adr) : -(q - 1) = -q + 1 := by ring
      have hread : mirror mem (-s + 1) = mem (s - 1) := by rw [mirror, ← hnext, neg_neg]
      rw [memmoveLoop, ih, mirror_update, hnext, hnext, memcpyLoop, hread]

-- Where the mirror has the first byte of an area of `n` bytes.
def mirrorPlace (p : Adr) (n : ℕ) : Adr := -(p + BitVec.ofNat 32 n) + 1

theorem mirrorPlace_add {i j : ℕ} (h : j + i + 1 = n) :
    -(mirrorPlace p n + BitVec.ofNat 32 j) = p + BitVec.ofNat 32 i := by
  have hone : BitVec.ofNat 32 1 = 1 := rfl
  rw [mirrorPlace, ← h, BitVec.ofNat_add, BitVec.ofNat_add, hone]
  ring

theorem mirror_copied (hn : n ≤ 2 ^ 32) :
    mirror (copied (mirror mem) (mirrorPlace p n) (mirrorPlace s n) n) = copied mem p s n := by
  funext a
  rw [mirror, copied, copied]
  by_cases ha : off p a < n
  · obtain ⟨j, hj⟩ : ∃ j, j + off p a + 1 = n := ⟨n - 1 - off p a, by omega⟩
    have hplace := mirrorPlace_add (p := p) hj
    rw [add_off] at hplace
    rw [fill_off ha, ← neg_eq_iff_eq_neg.mp hplace, fill_add (by omega) (by omega), mirror,
      mirrorPlace_add hj]
  · have hout : n ≤ off (mirrorPlace p n) (-a) := by
      by_contra! hlt
      obtain ⟨i, hi⟩ : ∃ i, off (mirrorPlace p n) (-a) + i + 1 = n :=
        ⟨n - 1 - off (mirrorPlace p n) (-a), by omega⟩
      have hplace := mirrorPlace_add (p := p) hi
      rw [add_off, neg_neg] at hplace
      rw [hplace, off_add p (by omega)] at ha
      omega
    rw [fill_out hout, fill_out (Nat.le_of_not_lt ha), mirror, neg_neg]

theorem memmoveLoop_iff (hn : n ≤ 2 ^ 32) :
    (∀ mem, memmoveLoop n (p + BitVec.ofNat 32 n) (s + BitVec.ofNat 32 n) mem = copied mem p s n) ↔
      s = p ∨ n ≤ off p s := by
  have hoff : off (mirrorPlace s n) (mirrorPlace p n) = off p s := by
    unfold off mirrorPlace
    congr 1
    ring
  have hsame : mirrorPlace s n = mirrorPlace p n ↔ s = p := by
    rw [mirrorPlace, mirrorPlace, add_left_inj, neg_inj, add_left_inj]
  rw [← hoff, ← hsame, ← memcpyLoop_iff hn]
  constructor
  · intro h mem
    have hmem := h (mirror mem)
    rw [memmoveLoop_mirror, mirror_mirror, ← mirror_copied hn, mirror_mirror] at hmem
    have hmirror := congrArg mirror hmem
    rwa [mirror_mirror, mirror_mirror] at hmirror
  · intro h mem
    have hmem := h (mirror mem)
    rw [mirrorPlace, mirrorPlace] at hmem
    rw [memmoveLoop_mirror, hmem]
    exact mirror_copied hn

-- `memcpy` copies into every area but one that begins inside of the area it copies.
theorem memcpy_copies_iff (dest src : Adr) (count : SizeT) :
    (∀ mem, memcpy mem dest src count = (dest, copied mem dest src count.toNat)) ↔
      src = dest ∨ count.toNat ≤ off src dest := by
  rw [← memcpyLoop_iff count.isLt.le]
  simp only [memcpy, Prod.mk.injEq, true_and]

-- `memmove` copes with every overlap but one over the end of the memory.
theorem memmove_copies_iff (dest src : Adr) (count : SizeT) :
    (∀ mem, memmove mem dest src count = (dest, copied mem dest src count.toNat)) ↔
      max dest.toNat src.toNat + count.toNat ≤ 2 ^ 32 + min dest.toNat src.toNat := by
  have hlt := count.isLt
  have hdest := dest.isLt
  have hsrc := src.isLt
  simp only [memmove, Prod.mk.injEq, true_and]
  split_ifs with hle
  · rw [BitVec.le_def] at hle
    rw [memcpyLoop_iff hlt.le, off, BitVec.toNat_sub, ← BitVec.toNat_inj]
    omega
  · rw [BitVec.le_def] at hle
    have hdown := memmoveLoop_iff (p := dest) (s := src) hlt.le
    rw [BitVec.ofNat_toNat, BitVec.setWidth_eq] at hdown
    rw [hdown, off, BitVec.toNat_sub, ← BitVec.toNat_inj]
    omega

end Lmosem
