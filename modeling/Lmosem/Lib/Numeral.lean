import Mathlib.Data.Nat.Digits.Lemmas

-- Numerals of natural numbers, the least significant digit first.
namespace Numeral

-- A numeral has at least one digit.
def numeral (b n : ℕ) : List ℕ := if n = 0 then [0] else Nat.digits b n

-- What digits that are read one after the other come to, after `r` has been read.
def read (b r : ℕ) (ds : List ℕ) : ℕ := ds.foldl (fun r d => r * b + d) r

variable {b n d k : ℕ}

theorem numeral_of_lt (h : n < b) : numeral b n = [n] := by
  unfold numeral
  split_ifs with hn
  · rw [hn]
  · exact Nat.digits_of_lt b n hn h

theorem numeral_of_le (hb : 1 < b) (h : b ≤ n) : numeral b n = n % b :: numeral b (n / b) := by
  have hn : n ≠ 0 := by omega
  have hq : n / b ≠ 0 := (Nat.div_pos h (by omega)).ne'
  rw [numeral, if_neg hn, numeral, if_neg hq, Nat.digits_eq_cons_digits_div hb hn]

theorem numeral_ne_nil (b n : ℕ) : numeral b n ≠ [] := by
  unfold numeral
  split_ifs with hn
  · exact List.cons_ne_nil _ _
  · exact Nat.digits_ne_nil_iff_ne_zero.mpr hn

theorem numeral_lt (hb : 1 < b) (hd : d ∈ numeral b n) : d < b := by
  unfold numeral at hd
  split_ifs at hd with hn
  · rw [List.mem_singleton.mp hd]
    omega
  · exact Nat.digits_lt_base hb hd

theorem numeral_length_le (hb : 1 < b) (hk : 0 < k) (hn : n < b ^ k) : (numeral b n).length ≤ k := by
  unfold numeral
  split_ifs
  · exact hk
  · exact (Nat.digits_length_le_iff hb n).mpr hn

theorem read_append (b r : ℕ) (xs ys : List ℕ) : read b r (xs ++ ys) = read b (read b r xs) ys :=
  List.foldl_append

theorem read_replicate_zero (b k : ℕ) (ds : List ℕ) :
    read b 0 (List.replicate k 0 ++ ds) = read b 0 ds := by
  induction k with
  | zero => rfl
  | succ k ih =>
      rw [List.replicate_succ, List.cons_append, read, List.foldl_cons, Nat.zero_mul]
      exact ih

-- Reading a numeral from its most significant digit on gives the number back.
theorem read_numeral (b n : ℕ) : read b 0 (numeral b n).reverse = n := by
  have hread (ds : List ℕ) : read b 0 ds.reverse = Nat.ofDigits b ds := by
    induction ds with
    | nil => rfl
    | cons d ds ih =>
        rw [List.reverse_cons, read_append, ih, Nat.ofDigits_cons, read, List.foldl_cons,
          List.foldl_nil, Nat.mul_comm, Nat.add_comm]
  rw [hread, numeral]
  split_ifs with hn
  · rw [hn]
    rfl
  · exact Nat.ofDigits_digits b n

end Numeral
