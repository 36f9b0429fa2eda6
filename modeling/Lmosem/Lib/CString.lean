import Lmosem.Lib.Memory
import Mathlib.Data.List.GetD
import Mathlib.Data.List.TakeWhile

-- Texts in a memory, each up to a byte that is zero.
namespace Memory

variable {w : ℕ}

inductive Holds (m : Mem w) : BitVec w → List (BitVec 8) → Prop
  | nil {p : BitVec w} (hend : m p = 0) : Holds m p []
  | cons {p : BitVec w} {c : BitVec 8} {text : List (BitVec 8)} (hc : m p = c) (hne : c ≠ 0)
      (htail : Holds m (p + 1#w) text) : Holds m p (c :: text)

variable {m : Mem w} {p : BitVec w} {text xs ys : List (BitVec 8)}

theorem add_ofNat_succ (p : BitVec w) (i : ℕ) :
    p + BitVec.ofNat w (i + 1) = p + 1#w + BitVec.ofNat w i := by
  rw [BitVec.add_assoc, ← BitVec.ofNat_add, Nat.add_comm 1 i]

-- The bytes from `p` on that stand in front of a zero, `n` at most.
def textAt (m : Mem w) : ℕ → BitVec w → List (BitVec 8)
  | 0, _ => []
  | n + 1, p => if m p = 0 then [] else m p :: textAt m n (p + 1#w)

theorem Holds.textAt_eq (h : Holds m p text) {n : ℕ} (hn : text.length ≤ n) : textAt m n p = text := by
  induction h generalizing n with
  | nil hend =>
      cases n with
      | zero => rfl
      | succ n => rw [textAt, if_pos hend]
  | cons hc hne _ ih =>
      obtain ⟨n, rfl⟩ : ∃ k, n = k + 1 := ⟨n - 1, by simp only [List.length_cons] at hn; omega⟩
      rw [textAt, hc, if_neg hne, ih (by simpa using hn)]

theorem Holds.headD (h : Holds m p text) : m p = text.headD 0 := by
  cases h with
  | nil hend => exact hend
  | cons hc _ _ => exact hc

theorem Holds.headD_tail (h : Holds m p text) (hne : m p ≠ 0) : m (p + 1#w) = text.tail.headD 0 := by
  cases h with
  | nil hend => exact absurd hend hne
  | cons _ _ htail => exact htail.headD

theorem Holds.ne_zero (h : Holds m p text) : ∀ c ∈ text, c ≠ 0 := by
  induction h with
  | nil _ => simp
  | cons _ hne _ ih => exact List.forall_mem_cons.mpr ⟨hne, ih⟩

-- What is behind the first characters.
theorem Holds.drop (h : Holds m p (xs ++ ys)) : Holds m (p + BitVec.ofNat w xs.length) ys := by
  induction xs generalizing p with
  | nil => simpa using h
  | cons x xs ih =>
      cases h with
      | cons _ _ htail =>
          rw [List.length_cons, add_ofNat_succ]
          exact ih htail

theorem Holds.stop (h : Holds m p text) : m (p + BitVec.ofNat w text.length) = 0 := by
  rw [← List.append_nil text] at h
  cases h.drop with
  | nil hend => exact hend

theorem Holds.getD (h : Holds m p text) {i : ℕ} (hi : i < text.length) :
    m (p + BitVec.ofNat w i) = text.getD i 0 := by
  obtain ⟨xs, c, ys, rfl, rfl⟩ : ∃ xs c ys, text = xs ++ c :: ys ∧ xs.length = i :=
    ⟨text.take i, text[i], text.drop (i + 1), by simp, by simp; omega⟩
  cases h.drop with
  | cons hc _ _ => simpa using hc

-- A text does not go round the memory.
theorem Holds.length_lt (h : Holds m p text) : text.length < 2 ^ w := by
  by_contra hge
  have hlen : text.length - 2 ^ w < text.length := by
    have := Nat.two_pow_pos w
    omega
  have hsame : p + BitVec.ofNat w (text.length - 2 ^ w) = p + BitVec.ofNat w text.length := by
    congr 1
    apply BitVec.eq_of_toNat_eq
    rw [BitVec.toNat_ofNat, BitVec.toNat_ofNat, ← Nat.mod_eq_sub_mod (by omega)]
  have hzero := h.stop
  rw [← hsame, h.getD hlen, List.getD_eq_getElem _ _ hlen] at hzero
  exact h.ne_zero _ (List.getElem_mem hlen) hzero

-- What is written elsewhere leaves the text there.
theorem Holds.congr {m' : Mem w} (h : Holds m p text)
    (hsame : ∀ i ≤ text.length, m' (p + BitVec.ofNat w i) = m (p + BitVec.ofNat w i)) :
    Holds m' p text := by
  induction h with
  | nil hend => exact .nil (by simpa [hend] using hsame 0 (Nat.le_refl 0))
  | cons hc hne _ ih =>
      refine .cons (by simpa [hc] using hsame 0 (Nat.zero_le _)) hne (ih fun i hi => ?_)
      rw [← add_ofNat_succ]
      exact hsame (i + 1) (Nat.succ_le_succ hi)

theorem holds_of_bytes (hne : ∀ c ∈ text, c ≠ 0)
    (h : ∀ i ≤ text.length, m (p + BitVec.ofNat w i) = text.getD i 0) : Holds m p text := by
  induction text generalizing p with
  | nil => exact .nil (by simpa using h 0 (Nat.le_refl 0))
  | cons c text ih =>
      obtain ⟨hc, hrest⟩ := List.forall_mem_cons.mp hne
      refine .cons (by simpa using h 0 (Nat.zero_le _)) hc (ih hrest fun i hi => ?_)
      rw [← add_ofNat_succ, h (i + 1) (by simpa using hi), List.getD_cons_succ]

-- One more byte behind those that are there.
theorem fill_concat (m : Mem w) (p : BitVec w) (bytes : List (BitVec 8)) (c : BitVec 8)
    (h : bytes.length < 2 ^ w) :
    Function.update (fill m p bytes.length fun i => bytes.getD i 0)
        (p + BitVec.ofNat w bytes.length) c =
      fill m p (bytes ++ [c]).length fun i => (bytes ++ [c]).getD i 0 := by
  have hold : (fill m p bytes.length fun i => bytes.getD i 0) =
      fill m p bytes.length fun i => (bytes ++ [c]).getD i 0 :=
    fill_congr fun i hi => (List.getD_append _ _ _ _ hi).symm
  have hnew : (bytes ++ [c]).getD bytes.length 0 = c := by simp
  rw [hold, List.length_append, List.length_singleton, ← fill_succ m p _ h, hnew]

theorem getD_first_zero (bytes : List (BitVec 8)) :
    bytes.getD (bytes.takeWhile (· ≠ 0)).length 0 = 0 := by
  induction bytes with
  | nil => rfl
  | cons c bytes ih =>
      rw [List.takeWhile_cons]
      by_cases hc : c = 0#8
      · simp [hc]
      · simpa [hc] using ih

-- What is filled in is a text up to its first zero.
theorem holds_fill (m : Mem w) (p : BitVec w) {bytes : List (BitVec 8)} (h : bytes.length < 2 ^ w) :
    Holds (fill m p (bytes.length + 1) fun i => bytes.getD i 0) p (bytes.takeWhile (· ≠ 0)) := by
  have hle : (bytes.takeWhile (· ≠ 0)).length ≤ bytes.length :=
    (List.takeWhile_prefix _).length_le
  refine holds_of_bytes (fun c hc => by simpa using List.mem_takeWhile_imp hc) fun i hi => ?_
  rw [fill_add (by omega) (by omega)]
  rcases Nat.lt_or_eq_of_le hi with hlt | rfl
  · rw [List.getD_eq_getElem _ _ hlt, List.getD_eq_getElem _ _ (hlt.trans_le hle)]
    exact ((List.takeWhile_prefix _).getElem hlt).symm
  · rw [List.getD_eq_default _ _ (Nat.le_refl _), getD_first_zero]

end Memory
