import Mathlib.Data.List.Basic
import Mathlib.Data.List.Pairwise
import Mathlib.Tactic.Ring

-- Address ranges, given by their first address and their length.
namespace Region

def Apart (x y : ℕ × ℕ) : Prop := x.1 + x.2 ≤ y.1 ∨ y.1 + y.2 ≤ x.1

def Within (x y : ℕ × ℕ) : Prop := y.1 ≤ x.1 ∧ x.1 + x.2 ≤ y.1 + y.2

instance (x y : ℕ × ℕ) : Decidable (Apart x y) := inferInstanceAs (Decidable (_ ∨ _))

instance (x y : ℕ × ℕ) : Decidable (Within x y) := inferInstanceAs (Decidable (_ ∧ _))

theorem Apart.symm {x y : ℕ × ℕ} (h : Apart x y) : Apart y x := Or.symm h

theorem Within.trans {x y z : ℕ × ℕ} (hxy : Within x y) (hyz : Within y z) : Within x z :=
  ⟨hyz.1.trans hxy.1, hxy.2.trans hyz.2⟩

theorem Apart.mono {x x' y y' : ℕ × ℕ} (h : Apart x' y') (hx : Within x x') (hy : Within y y') :
    Apart x y := by
  unfold Apart Within at *
  omega

theorem Within.refl (x : ℕ × ℕ) : Within x x := ⟨Nat.le_refl _, Nat.le_refl _⟩

theorem Within.not_apart {x y : ℕ × ℕ} (h : Within x y) (hx : 0 < x.2) : ¬Apart x y := by
  unfold Apart Within at *
  omega

theorem not_apart_self {x : ℕ × ℕ} (hx : 0 < x.2) : ¬Apart x x := (Within.refl x).not_apart hx

-- The `b`-th of the equal slots a range is cut into.
def slot (base size b : ℕ) : ℕ × ℕ := (base + b * size, size)

theorem slot_apart (base size : ℕ) {b c : ℕ} (h : b ≠ c) :
    Apart (slot base size b) (slot base size c) := by
  have hstep {b c : ℕ} (hlt : b < c) : b * size + size ≤ c * size := by
    rw [← Nat.succ_mul]
    exact Nat.mul_le_mul_right size hlt
  rcases Nat.lt_or_gt_of_ne h with hlt | hlt <;> have := hstep hlt <;>
    simp only [Apart, slot] <;> omega

theorem slot_within (base size : ℕ) {b n : ℕ} (h : b < n) :
    Within (slot base size b) (base, n * size) := by
  have : (b + 1) * size ≤ n * size := Nat.mul_le_mul_right size h
  rw [Nat.succ_mul] at this
  simp only [Within, slot]
  omega

theorem slot_injective (base : ℕ) {size b c : ℕ} (hs : 0 < size)
    (h : slot base size b = slot base size c) : b = c := by
  have hm := congrArg Prod.fst h
  simp only [slot, Nat.add_left_cancel_iff] at hm
  exact Nat.eq_of_mul_eq_mul_right hs hm

-- Ranges of one length at multiples of that length are apart or equal.
theorem apart_of_dvd {n a b : ℕ} (ha : n ∣ a) (hb : n ∣ b) (h : a ≠ b) : Apart (a, n) (b, n) := by
  obtain ⟨i, rfl⟩ := ha
  obtain ⟨j, rfl⟩ := hb
  have hij : i ≠ j := fun he => h (he ▸ rfl)
  have := slot_apart 0 n hij
  simpa only [slot, Nat.zero_add, Nat.mul_comm] using this

-- The last address of a range, computed on machine words.
theorem last_toNat {w : ℕ} (x y : BitVec w) (h : 0 < x.toNat + y.toNat) :
    (x + y - 1).toNat = (x.toNat + y.toNat - 1) % 2 ^ w := by
  have hone : x.toNat + y.toNat = x.toNat + y.toNat - 1 + 1 := by omega
  have hsum : x + y = BitVec.ofNat w (x.toNat + y.toNat - 1) + 1 := by
    rw [BitVec.add_def, hone, BitVec.ofNat_add]
    rfl
  rw [hsum, BitVec.add_sub_cancel, BitVec.toNat_ofNat]

end Region
