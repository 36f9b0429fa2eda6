import Mathlib.Data.Nat.Bitwise
import Mathlib.Tactic.Ring

-- Division by trial subtractions of the shifted divisor.
namespace LongDivision

-- The quotient `q` is settled from place `k` on, and `r` is what is left to divide.
structure Settled (a b k q r : ℕ) : Prop where
  sum : q * b + r = a
  lt : r < b * 2 ^ k
  dvd : 2 ^ k ∣ q

variable {a b k q r : ℕ}

theorem Settled.pos (h : Settled a b k q r) : 0 < b := by
  have hlt := h.lt
  rcases Nat.eq_zero_or_pos b with rfl | hb
  · omega
  · exact hb

-- Nothing is settled yet when the divisor has been shifted far enough.
theorem Settled.start (h : a < b * 2 ^ k) : Settled a b k 0 a :=
  ⟨by omega, h, Nat.dvd_zero _⟩

-- The trial at the next place succeeds.
theorem Settled.sub (h : Settled a b (k + 1) q r) (hle : b * 2 ^ k ≤ r) :
    Settled a b k (q + 2 ^ k) (r - b * 2 ^ k) := by
  obtain ⟨hsum, hlt, hdvd⟩ := h
  have hdvd : 2 ^ k ∣ q := (Nat.pow_dvd_pow 2 (Nat.le_succ k)).trans hdvd
  refine ⟨?_, ?_, Nat.dvd_add hdvd (Nat.dvd_refl _)⟩
  · rw [Nat.add_mul, Nat.mul_comm (2 ^ k) b]
    omega
  · rw [Nat.pow_succ] at hlt
    have : b * (2 ^ k * 2) = b * 2 ^ k + b * 2 ^ k := by ring
    omega

-- It fails.
theorem Settled.skip (h : Settled a b (k + 1) q r) (hlt : r < b * 2 ^ k) : Settled a b k q r :=
  ⟨h.sum, hlt, (Nat.pow_dvd_pow 2 (Nat.le_succ k)).trans h.dvd⟩

-- The bit of a place that is not settled yet can be set with an or.
theorem Settled.or (h : Settled a b (k + 1) q r) : q ||| 2 ^ k = q + 2 ^ k := by
  obtain ⟨c, hc⟩ := h.dvd
  rw [hc, Nat.two_pow_add_eq_or_of_lt (Nat.pow_lt_pow_right Nat.one_lt_two (Nat.lt_succ_self k))]

theorem Settled.quotient (h : Settled a b 0 q r) : q = a / b := by
  have hlt := h.lt
  rw [Nat.pow_zero, Nat.mul_one] at hlt
  rw [← h.sum, Nat.add_comm, Nat.add_mul_div_right _ _ h.pos, Nat.div_eq_of_lt hlt, Nat.zero_add]

theorem Settled.remainder (h : Settled a b 0 q r) : r = a % b := by
  have hlt := h.lt
  rw [Nat.pow_zero, Nat.mul_one] at hlt
  rw [← h.sum, Nat.add_comm, Nat.add_mul_mod_self_right, Nat.mod_eq_of_lt hlt]

-- With nothing left the places below are zero.
theorem Settled.exact (h : Settled a b k q 0) : Settled a b 0 q 0 :=
  ⟨h.sum, by have := h.pos; omega, by simp⟩

section Words

variable {w : ℕ} {d x : BitVec w} {j n : ℕ}

-- What is left of `x` after `k` trial subtractions of `d`, which is shifted down by one place
-- behind each.
def left (x d : BitVec w) : ℕ → BitVec w
  | 0 => x
  | k + 1 => if d >>> k ≤ left x d k then left x d k - d >>> k else left x d k

-- Whether trial `k` succeeds.
def hit (x d : BitVec w) (k : ℕ) : Bool := d >>> k ≤ left x d k

theorem left_of_hit (h : hit x d k = true) : left x d (k + 1) = left x d k - d >>> k :=
  if_pos (of_decide_eq_true h)

theorem left_of_not_hit (h : hit x d k = false) : left x d (k + 1) = left x d k :=
  if_neg (of_decide_eq_false h)

-- A trial can be taken back.
theorem left_add_back (x d : BitVec w) (k : ℕ) :
    left x d (k + 1) + (bif hit x d k then d >>> k else 0) = left x d k := by
  cases h : hit x d k with
  | true => rw [left_of_hit h, cond_true, BitVec.sub_add_cancel]
  | false =>
      rw [left_of_not_hit h, cond_false]
      exact BitVec.add_zero _

theorem left_toNat (x d : BitVec w) (k : ℕ) :
    (left x d (k + 1)).toNat + (hit x d k).toNat * (d >>> k).toNat = (left x d k).toNat := by
  cases h : hit x d k with
  | true =>
      have hle := of_decide_eq_true h
      rw [left_of_hit h, BitVec.toNat_sub_of_le hle, Bool.toNat_true, Nat.one_mul]
      exact Nat.sub_add_cancel hle
  | false => rw [left_of_not_hit h, Bool.toNat_false, Nat.zero_mul, Nat.add_zero]

theorem toNat_shiftRight (hd : d.toNat = n * 2 ^ j) (hk : k ≤ j) :
    (d >>> k).toNat = n * 2 ^ (j - k) := by
  have hsplit : n * 2 ^ j = 2 ^ k * (n * 2 ^ (j - k)) := by
    rw [Nat.mul_left_comm, ← Nat.pow_add, Nat.add_sub_cancel' hk]
  rw [BitVec.toNat_ushiftRight, hd, Nat.shiftRight_eq_div_pow, hsplit,
    Nat.mul_div_cancel_left _ (Nat.two_pow_pos k)]

-- Down to place 0 a trial settles a place.
theorem left_settled (hd : d.toNat = n * 2 ^ j) (h : Settled a n (j + 1) q x.toNat) (hk : k ≤ j + 1) :
    ∃ q, Settled a n (j + 1 - k) q (left x d k).toNat := by
  induction k with
  | zero => exact ⟨q, h⟩
  | succ k ih =>
      have hkj : k ≤ j := by omega
      obtain ⟨q, hq⟩ := ih (by omega)
      rw [Nat.succ_sub hkj] at hq
      rw [Nat.add_sub_add_right, left]
      have hval := toNat_shiftRight hd hkj
      split_ifs with hle
      · rw [BitVec.toNat_sub_of_le hle, hval]
        rw [BitVec.le_def, hval] at hle
        exact ⟨_, hq.sub hle⟩
      · rw [BitVec.le_def, hval, Nat.not_le] at hle
        exact ⟨q, hq.skip hle⟩

-- A signed division divides the amounts.
theorem sdiv_eq_abs (x y : BitVec w) :
    x.sdiv y = bif (x ^^^ y).msb then -(x.abs / y.abs) else x.abs / y.abs := by
  rw [BitVec.sdiv_eq, BitVec.msb_xor, BitVec.abs_eq, BitVec.abs_eq]
  cases x.msb <;> cases y.msb <;> rfl

-- The remainder has the sign of the dividend.
theorem srem_eq_abs (x y : BitVec w) :
    x.srem y = bif x.msb then -(x.abs % y.abs) else x.abs % y.abs := by
  rw [BitVec.srem_eq, BitVec.abs_eq, BitVec.abs_eq]
  cases x.msb <;> cases y.msb <;> rfl

end Words

-- The numbers that have no bit in common with their predecessor.
theorem eq_two_pow {x : ℕ} (hx : x ≠ 0) (h : x &&& (x - 1) = 0) : x = 2 ^ x.log2 := by
  by_contra hne
  have hle : 2 ^ x.log2 ≤ x := Nat.log2_self_le hx
  have hlt : x < 2 ^ (x.log2 + 1) := Nat.lt_log2_self
  have hlog : (x - 1).log2 = x.log2 := by
    rw [Nat.log2_eq_iff (by omega)]
    omega
  have hbit := congrArg (·.testBit x.log2) h
  simp only [Nat.testBit_and, Nat.zero_testBit] at hbit
  rw [Nat.testBit_log2 hx, ← hlog, Nat.testBit_log2 (by omega)] at hbit
  exact Bool.noConfusion hbit

theorem eq_twoPow {w : ℕ} {x : BitVec w} (hx : x ≠ 0) (h : x &&& (x - 1) = 0) :
    ∃ k < w, x = BitVec.twoPow w k := by
  have hpos : x.toNat ≠ 0 := fun hf => hx (BitVec.eq_of_toNat_eq (by rw [hf]; rfl))
  have hone : (x - 1).toNat = x.toNat - 1 := by
    have hlt := x.isLt
    have hw : 1 < 2 ^ w := by omega
    have hval : (1 : BitVec w).toNat = 1 := by
      rw [BitVec.ofNat_eq_ofNat, BitVec.toNat_ofNat, Nat.mod_eq_of_lt hw]
    rw [BitVec.toNat_sub_of_le (by rw [BitVec.le_def, hval]; omega), hval]
  have hand : x.toNat &&& (x.toNat - 1) = 0 := by
    rw [← hone, ← BitVec.toNat_and, h]
    rfl
  have hpow := eq_two_pow hpos hand
  have hk : x.toNat.log2 < w := (Nat.log2_lt hpos).mpr x.isLt
  refine ⟨x.toNat.log2, hk, BitVec.eq_of_toNat_eq ?_⟩
  rw [BitVec.toNat_twoPow_of_lt hk]
  exact hpow

end LongDivision
