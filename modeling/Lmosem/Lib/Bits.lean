import Mathlib.Data.Finset.Range
import Mathlib.Data.Finset.Card
import Mathlib.Data.BitVec

-- A machine word read as the set of the positions of its one bits.
namespace Bits

variable {w : ℕ}

def ones (x : BitVec w) : Finset ℕ := (Finset.range w).filter fun i => x.getLsbD i = true

@[simp] theorem mem_ones (x : BitVec w) (i : ℕ) : i ∈ ones x ↔ x.getLsbD i = true := by
  simp only [ones, Finset.mem_filter, Finset.mem_range, and_iff_right_iff_imp]
  exact BitVec.lt_of_getLsbD

theorem ones_injective (x y : BitVec w) (h : ones x = ones y) : x = y := by
  apply BitVec.eq_of_getLsbD_eq
  intro i _
  have hi := congrArg (i ∈ ·) h
  simp only [mem_ones, eq_iff_iff] at hi
  exact Bool.eq_iff_iff.mpr hi

@[simp] theorem ones_zero : ones (0#w) = ∅ := by
  ext i
  simp

theorem ones_eq_empty (x : BitVec w) : ones x = ∅ ↔ x = 0#w := by
  constructor
  · exact fun h => ones_injective x 0#w (h.trans ones_zero.symm)
  · rintro rfl
    exact ones_zero

theorem getLsbD_bit (b i : ℕ) : (1#w <<< b).getLsbD i = (decide (i = b) && decide (b < w)) := by
  rw [BitVec.getLsbD_shiftLeft, BitVec.getLsbD_one]
  by_cases hi : i = b
  · subst hi
    by_cases hw : i < w <;> simp [hw]
    omega
  · by_cases hlt : i < b
    · simp [hi, hlt]
    · have : i - b ≠ 0 := by omega
      simp [hi, this]

theorem ones_set (x : BitVec w) {b : ℕ} (hb : b < w) :
    ones (x ||| 1#w <<< b) = insert b (ones x) := by
  ext i
  rw [mem_ones, BitVec.getLsbD_or, getLsbD_bit, Finset.mem_insert, mem_ones]
  simp [hb, or_comm]

theorem ones_clear (x : BitVec w) (b : ℕ) :
    ones (x &&& ~~~(1#w <<< b)) = (ones x).erase b := by
  ext i
  simp only [mem_ones, BitVec.getLsbD_and, BitVec.getLsbD_not, getLsbD_bit, Finset.mem_erase]
  by_cases hi : i < w
  · by_cases he : i = b
    · subst he
      simp [hi]
    · simp [hi, he]
  · have hx : x.getLsbD i = false := BitVec.getLsbD_of_ge x i (by omega)
    simp [hx]

-- Setting a bit that is zero, or clearing one that is set, flips it.
theorem set_eq_xor {x : BitVec w} {b : ℕ} (hb : b ∉ ones x) : x ||| 1#w <<< b = x ^^^ 1#w <<< b := by
  apply BitVec.eq_of_getLsbD_eq
  intro i hi
  rw [mem_ones, Bool.not_eq_true] at hb
  rw [BitVec.getLsbD_or, BitVec.getLsbD_xor, getLsbD_bit]
  by_cases hib : i = b
  · subst hib
    simp [hb]
  · simp [hib]

theorem clear_eq_xor {x : BitVec w} {b : ℕ} (hb : b ∈ ones x) :
    x &&& ~~~(1#w <<< b) = x ^^^ 1#w <<< b := by
  apply BitVec.eq_of_getLsbD_eq
  intro i hi
  rw [mem_ones] at hb
  rw [BitVec.getLsbD_and, BitVec.getLsbD_not, BitVec.getLsbD_xor, getLsbD_bit]
  by_cases hib : i = b
  · subst hib
    simp [hb, hi]
  · simp [hib, hi]

-- The test of one bit, as C writes it.
theorem test_bit (x : BitVec w) (hw : 0 < w) (b : ℕ) :
    (x >>> b) &&& 1#w = if b ∈ ones x then 1#w else 0#w := by
  apply BitVec.eq_of_getLsbD_eq
  intro i hi
  rw [BitVec.getLsbD_and, BitVec.getLsbD_ushiftRight, BitVec.getLsbD_one]
  by_cases h0 : i = 0
  · subst h0
    by_cases hb : x.getLsbD b <;> simp [hb, hw]
  · split_ifs <;> simp [h0]

theorem one_ne_zero (hw : 0 < w) : (1#w) ≠ 0#w := by
  intro h
  have h0 := congrArg (BitVec.getLsbD · 0) h
  simp [hw] at h0

theorem test_bit_eq_zero (x : BitVec w) (hw : 0 < w) (b : ℕ) :
    (x >>> b) &&& 1#w = 0#w ↔ b ∉ ones x := by
  rw [test_bit x hw]
  split_ifs with hb <;> simp [hb, one_ne_zero hw]

theorem test_bit_eq_one (x : BitVec w) (hw : 0 < w) (b : ℕ) :
    (x >>> b) &&& 1#w = 1#w ↔ b ∈ ones x := by
  rw [test_bit x hw]
  split_ifs with hb <;> simp [hb, (one_ne_zero hw).symm]

theorem ones_and (x y : BitVec w) : ones (x &&& y) = ones x ∩ ones y := by
  ext i
  simp

theorem ones_or (x y : BitVec w) : ones (x ||| y) = ones x ∪ ones y := by
  ext i
  simp

theorem and_mask_eq_mask (x m : BitVec w) : x &&& m = m ↔ ones m ⊆ ones x := by
  constructor
  · intro h
    rw [← h, ones_and]
    exact Finset.inter_subset_left
  · intro h
    apply ones_injective
    rw [ones_and]
    exact Finset.inter_eq_right.mpr h

theorem and_mask_eq_zero (x m : BitVec w) : x &&& m = 0#w ↔ ones x ∩ ones m = ∅ := by
  rw [← ones_eq_empty, ones_and]

theorem and_not_eq_zero (x m : BitVec w) : x &&& ~~~m = 0#w ↔ ones x ⊆ ones m := by
  rw [← ones_eq_empty, ones_and, Finset.eq_empty_iff_forall_notMem]
  constructor
  · intro h i hi
    by_contra hn
    have hlt : i < w := BitVec.lt_of_getLsbD ((mem_ones x i).mp hi)
    refine h i (Finset.mem_inter.mpr ⟨hi, ?_⟩)
    rw [mem_ones, Bool.not_eq_true] at hn
    rw [mem_ones, BitVec.getLsbD_not, hn]
    simp [hlt]
  · intro h i hi
    obtain ⟨hx, hm⟩ := Finset.mem_inter.mp hi
    have hmi := (mem_ones m i).mp (h hx)
    rw [mem_ones, BitVec.getLsbD_not, hmi] at hm
    simp at hm

-- A mask of `n` low bits.
theorem ones_lowMask {n : ℕ} (hn : n ≤ w) :
    ones (BitVec.ofNat w (2 ^ n - 1)) = Finset.range n := by
  ext i
  rw [mem_ones, BitVec.getLsbD_ofNat, Nat.testBit_two_pow_sub_one, Finset.mem_range]
  simp only [Bool.and_eq_true, decide_eq_true_eq]
  omega

-- The first zero bit below `count`, searched upwards.
def firstZero (used : Finset ℕ) (count : ℕ) : Option ℕ :=
  (List.range count).find? fun b => b ∉ used

theorem firstZero_some {used : Finset ℕ} {count b : ℕ} (h : firstZero used count = some b) :
    b < count ∧ b ∉ used := by
  have hmem := List.mem_of_find?_eq_some h
  have hb := List.find?_some h
  exact ⟨List.mem_range.mp hmem, by simpa using hb⟩

theorem firstZero_eq_some {used : Finset ℕ} {count b : ℕ} :
    firstZero used count = some b ↔ b < count ∧ b ∉ used ∧ ∀ c < b, c ∈ used := by
  rw [firstZero, List.find?_range_eq_some]
  simp only [decide_not, Bool.not_eq_eq_eq_not, Bool.not_true, decide_eq_false_iff_not, Bool.not_not,
    decide_eq_true_eq, List.mem_range]
  tauto

theorem firstZero_none {used : Finset ℕ} {count : ℕ} :
    firstZero used count = none ↔ Finset.range count ⊆ used := by
  simp only [firstZero, List.find?_eq_none, List.mem_range, decide_not, Bool.not_eq_eq_eq_not,
    Bool.not_true, decide_eq_false_iff_not, not_not]
  exact ⟨fun h b hb => h b (Finset.mem_range.mp hb), fun h b hb => h (Finset.mem_range.mpr hb)⟩

theorem firstZero_empty {count : ℕ} (h : 0 < count) : firstZero ∅ count = some 0 := by
  obtain ⟨n, rfl⟩ := Nat.exists_eq_succ_of_ne_zero h.ne'
  simp [firstZero, List.range_succ_eq_map]

end Bits
