import Mathlib.Algebra.Group.Nat.Defs
import Mathlib.Tactic.SplitIfs

-- A counter of `w` bits that runs on freely, starting again from 0 after its top.
namespace Counter

-- What it reads after so many ticks.
def reading (w : ℕ) (ticks : ℕ) : BitVec w := BitVec.ofNat w ticks

-- When it is read, in ticks since it was at 0. It never goes round between two readings.
structure Sampling (w : ℕ) where
  ticks : ℕ → ℕ
  mono : ∀ i, ticks i ≤ ticks (i + 1)
  close : ∀ i, ticks (i + 1) < ticks i + 2 ^ w

section Reading

variable {w t u : ℕ}

-- The difference of two readings never depends on how often the counter has wrapped.
theorem reading_sub (h : t ≤ u) : reading w u - reading w t = BitVec.ofNat w (u - t) := by
  have hsum : reading w u = BitVec.ofNat w (u - t) + reading w t := by
    rw [reading, reading, ← BitVec.ofNat_add, Nat.sub_add_cancel h]
  rw [hsum, BitVec.add_sub_cancel]

theorem reading_lt_iff : reading w t < reading w u ↔ t % 2 ^ w < u % 2 ^ w := by
  rw [BitVec.lt_def, reading, reading, BitVec.toNat_ofNat, BitVec.toNat_ofNat]

-- Between two readings the counter has wrapped once at most.
theorem div_cases (h : t ≤ u) (hclose : u < t + 2 ^ w) :
    u / 2 ^ w = t / 2 ^ w ∨ u / 2 ^ w = t / 2 ^ w + 1 := by
  have hpos := Nat.two_pow_pos w
  have hle : t / 2 ^ w ≤ u / 2 ^ w := Nat.div_le_div_right h
  have hnext : u / 2 ^ w ≤ (t + 2 ^ w) / 2 ^ w := Nat.div_le_div_right (Nat.le_of_lt hclose)
  rw [Nat.add_div_right t hpos] at hnext
  omega

-- It has if it reads less than before.
theorem wrapped_iff (h : t ≤ u) (hclose : u < t + 2 ^ w) :
    u / 2 ^ w = t / 2 ^ w + 1 ↔ reading w u < reading w t := by
  have ht := Nat.div_add_mod t (2 ^ w)
  have hu := Nat.div_add_mod u (2 ^ w)
  have htm := Nat.mod_lt t (Nat.two_pow_pos w)
  have hum := Nat.mod_lt u (Nat.two_pow_pos w)
  rw [reading_lt_iff]
  rcases div_cases h hclose with hq | hq
  · rw [hq] at hu ⊢
    omega
  · rw [hq, Nat.mul_add_one] at hu
    omega

end Reading

namespace Sampling

variable {w : ℕ} (S : Sampling w) {i : ℕ}

def reading (i : ℕ) : BitVec w := Counter.reading w (S.ticks i)

-- The ticks since the first reading, and how often the counter has wrapped in them.
def elapsed (i : ℕ) : ℕ := S.ticks i - S.ticks 0

def wraps (i : ℕ) : ℕ := S.ticks i / 2 ^ w - S.ticks 0 / 2 ^ w

theorem first_le (i : ℕ) : S.ticks 0 ≤ S.ticks i := by
  induction i with
  | zero => exact Nat.le_refl _
  | succ i ih => exact Nat.le_trans ih (S.mono i)

theorem first_div_le (i : ℕ) : S.ticks 0 / 2 ^ w ≤ S.ticks i / 2 ^ w :=
  Nat.div_le_div_right (S.first_le i)

theorem elapsed_succ (i : ℕ) : S.elapsed (i + 1) = S.elapsed i + (S.ticks (i + 1) - S.ticks i) := by
  have hfirst := S.first_le i
  have hmono := S.mono i
  unfold elapsed
  omega

theorem wraps_succ (i : ℕ) :
    S.wraps (i + 1) = S.wraps i + if S.reading (i + 1) < S.reading i then 1 else 0 := by
  have hfirst := S.first_div_le i
  have hiff := wrapped_iff (S.mono i) (S.close i)
  unfold wraps reading
  split_ifs with hlt
  · have hq := hiff.mpr hlt
    omega
  · have hq := (div_cases (S.mono i) (S.close i)).resolve_right fun hq => hlt (hiff.mp hq)
    omega

-- A counter that has wrapped has gone on.
theorem lt_of_reading_lt (h : S.reading (i + 1) < S.reading i) : S.ticks i < S.ticks (i + 1) := by
  refine Nat.lt_of_le_of_ne (S.mono i) fun he => ?_
  rw [reading, reading, ← he, BitVec.lt_def] at h
  exact Nat.lt_irrefl _ h

theorem wraps_le (i : ℕ) : S.wraps i ≤ S.elapsed i := by
  induction i with
  | zero => simp [wraps]
  | succ i ih =>
      rw [S.wraps_succ, S.elapsed_succ]
      split_ifs with hlt
      · have hgone := S.lt_of_reading_lt hlt
        omega
      · omega

theorem elapsed_lt (h : S.wraps i = 0) : S.elapsed i < 2 ^ w := by
  have hfirst := S.first_div_le i
  have hq : S.ticks i / 2 ^ w = S.ticks 0 / 2 ^ w := by
    unfold wraps at h
    omega
  have h0 := Nat.div_add_mod (S.ticks 0) (2 ^ w)
  have hi := Nat.div_add_mod (S.ticks i) (2 ^ w)
  have hmod := Nat.mod_lt (S.ticks i) (Nat.two_pow_pos w)
  rw [hq] at hi
  unfold elapsed
  omega

-- A count of `w` bits that misses a tick at every wrap is right as long as there is none.
theorem counted_iff (i : ℕ) :
    (S.elapsed i - S.wraps i) % 2 ^ w = S.elapsed i ↔ S.wraps i = 0 := by
  constructor
  · intro he
    have hle := S.wraps_le i
    have hmod := Nat.mod_le (S.elapsed i - S.wraps i) (2 ^ w)
    omega
  · intro hzero
    rw [hzero, Nat.sub_zero]
    exact Nat.mod_eq_of_lt (S.elapsed_lt hzero)

end Sampling

end Counter
