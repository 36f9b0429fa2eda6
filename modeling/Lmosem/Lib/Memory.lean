import Mathlib.Data.Nat.Notation
import Mathlib.Logic.Function.Basic
import Mathlib.Data.BitVec

-- Byte memories with addresses that wrap around.
namespace Memory

variable {w : ℕ}

abbrev Mem (w : ℕ) := BitVec w → BitVec 8

-- How far `a` is behind `p`.
def off (p a : BitVec w) : ℕ := (a - p).toNat

-- `m` with `n` bytes `f 0`, `f 1`, ... from `p` on.
def fill (m : Mem w) (p : BitVec w) (n : ℕ) (f : ℕ → BitVec 8) : Mem w :=
  fun a => if off p a < n then f (off p a) else m a

theorem off_lt (p a : BitVec w) : off p a < 2 ^ w := (a - p).isLt

theorem off_add (p : BitVec w) {i : ℕ} (h : i < 2 ^ w) : off p (p + BitVec.ofNat w i) = i := by
  rw [off, BitVec.add_comm, BitVec.add_sub_cancel, BitVec.toNat_ofNat, Nat.mod_eq_of_lt h]

theorem add_off (p a : BitVec w) : p + BitVec.ofNat w (off p a) = a := by
  rw [off, BitVec.ofNat_toNat, BitVec.setWidth_eq, BitVec.add_comm, BitVec.sub_add_cancel]

@[simp] theorem off_self (p : BitVec w) : off p p = 0 := by
  rw [off, BitVec.sub_self]
  rfl

theorem off_eq_iff {p a : BitVec w} {i : ℕ} (h : i < 2 ^ w) :
    off p a = i ↔ a = p + BitVec.ofNat w i := by
  constructor
  · rintro rfl
    exact (add_off p a).symm
  · rintro rfl
    exact off_add p h

theorem off_eq_zero {p a : BitVec w} : off p a = 0 ↔ a = p := by
  rw [off_eq_iff (Nat.two_pow_pos w)]
  simp

theorem off_behind {p a : BitVec w} {k : ℕ} (h : k ≤ off p a) :
    off (p + BitVec.ofNat w k) a = off p a - k := by
  have hlt := off_lt p a
  rw [off_eq_iff (by omega), BitVec.add_assoc, ← BitVec.ofNat_add, Nat.add_sub_cancel' h, add_off]

theorem off_add_ofNat {p a : BitVec w} {i : ℕ} (h : off p a + i < 2 ^ w) :
    off p (a + BitVec.ofNat w i) = off p a + i := by
  rw [off_eq_iff h, BitVec.ofNat_add, ← BitVec.add_assoc, add_off]

-- Places of a range that does not wrap are ordered as their distances are.
theorem add_toNat {p : BitVec w} {i : ℕ} (h : p.toNat + i < 2 ^ w) :
    (p + BitVec.ofNat w i).toNat = p.toNat + i := by
  rw [BitVec.toNat_add, BitVec.toNat_ofNat, Nat.mod_eq_of_lt (by omega : i < 2 ^ w),
    Nat.mod_eq_of_lt h]

@[simp] theorem fill_zero (m : Mem w) (p : BitVec w) (f : ℕ → BitVec 8) : fill m p 0 f = m := by
  funext a
  rw [fill, if_neg (Nat.not_lt_zero _)]

theorem fill_off {m : Mem w} {p a : BitVec w} {n : ℕ} {f : ℕ → BitVec 8} (h : off p a < n) :
    fill m p n f a = f (off p a) := if_pos h

theorem fill_out {m : Mem w} {p a : BitVec w} {n : ℕ} {f : ℕ → BitVec 8} (h : n ≤ off p a) :
    fill m p n f a = m a := if_neg (Nat.not_lt.mpr h)

theorem fill_add {m : Mem w} {p : BitVec w} {n i : ℕ} {f : ℕ → BitVec 8} (h : i < n)
    (hw : i < 2 ^ w) : fill m p n f (p + BitVec.ofNat w i) = f i := by
  rw [fill_off (by rwa [off_add p hw]), off_add p hw]

theorem fill_congr {m : Mem w} {p : BitVec w} {n : ℕ} {f g : ℕ → BitVec 8}
    (h : ∀ i < n, f i = g i) : fill m p n f = fill m p n g := by
  funext a
  unfold fill
  split_ifs with hlt
  · exact h _ hlt
  · rfl

-- A byte beside the range may be written before or after.
theorem fill_update {m : Mem w} {p a : BitVec w} {n : ℕ} {f : ℕ → BitVec 8} {c : BitVec 8}
    (h : n ≤ off p a) :
    fill (Function.update m a c) p n f = Function.update (fill m p n f) a c := by
  funext b
  by_cases hb : b = a
  · subst hb
    rw [fill_out h, Function.update_self, Function.update_self]
  · unfold fill
    rw [Function.update_of_ne hb, Function.update_of_ne hb]

-- The next byte behind a range that is filled.
theorem fill_succ (m : Mem w) (p : BitVec w) {n : ℕ} (f : ℕ → BitVec 8) (h : n < 2 ^ w) :
    Function.update (fill m p n f) (p + BitVec.ofNat w n) (f n) = fill m p (n + 1) f := by
  funext a
  by_cases ha : a = p + BitVec.ofNat w n
  · subst ha
    rw [Function.update_self, fill_add (Nat.lt_succ_self n) h]
  · have hne : off p a ≠ n := fun he => ha ((off_eq_iff h).mp he)
    rw [Function.update_of_ne ha]
    unfold fill
    by_cases hlt : off p a < n
    · rw [if_pos hlt, if_pos (by omega)]
    · rw [if_neg hlt, if_neg (by omega)]

-- The byte in front of it.
theorem fill_cons (m : Mem w) (p : BitVec w) (n : ℕ) (f : ℕ → BitVec 8) :
    Function.update (fill m (p + 1#w) n fun i => f (i + 1)) p (f 0) = fill m p (n + 1) f := by
  funext a
  by_cases ha : a = p
  · subst ha
    rw [Function.update_self, fill_off (by rw [off_self]; omega), off_self]
  · have hpos : off p a ≠ 0 := fun he => ha (off_eq_zero.mp he)
    have hoff : off p a = off (p + 1#w) a + 1 := by
      have hpred : off (p + 1#w) a = off p a - 1 := off_behind (Nat.pos_of_ne_zero hpos)
      omega
    rw [Function.update_of_ne ha]
    unfold fill
    by_cases hlt : off (p + 1#w) a < n
    · rw [if_pos hlt, if_pos (by omega), hoff]
    · rw [if_neg hlt, if_neg (by omega)]

end Memory
