import Mathlib.Data.List.Perm.Subperm
import Mathlib.Data.List.Nodup

-- Singly linked chains threaded through the cells of an array.
namespace Chain

variable {α : Type*}

-- Following `next` from `head` meets `xs` in order and then ends.
def Chained (next : α → Option α) : Option α → List α → Prop
  | head, [] => head = none
  | head, x :: xs => head = some x ∧ Chained next (next x) xs

variable {next next' : α → Option α} {head : Option α} {x : α} {xs ys : List α}

theorem Chained.head_eq (h : Chained next head xs) : head = xs.head? := by
  cases xs with
  | nil => exact h
  | cons x xs => exact h.1

theorem Chained.frame (h : Chained next head xs) (hsame : ∀ x ∈ xs, next' x = next x) :
    Chained next' head xs := by
  induction xs generalizing head with
  | nil => exact h
  | cons x xs ih =>
      refine ⟨h.1, ?_⟩
      rw [hsame x (by simp)]
      exact ih h.2 fun y hy => hsame y (List.mem_cons_of_mem _ hy)

-- Only the last cell of a chain has no successor.
theorem Chained.next_eq_none (h : Chained next head xs) (hnd : xs.Nodup) (hx : x ∈ xs) :
    next x = none ↔ xs.getLast? = some x := by
  induction xs generalizing head with
  | nil => exact absurd hx List.not_mem_nil
  | cons y ys ih =>
      obtain ⟨hy, hnd⟩ := List.nodup_cons.mp hnd
      cases ys with
      | nil =>
          obtain rfl := List.mem_singleton.mp hx
          simpa using h.2.head_eq
      | cons z zs =>
          rw [List.getLast?_cons_cons]
          rcases List.mem_cons.mp hx with rfl | hx
          · have hn := h.2.1
            refine iff_of_false (by simp [hn]) fun hlast => hy ?_
            exact List.mem_of_getLast? hlast
          · exact ih h.2 hnd hx

section Array

variable {count : ℕ} {next : ℕ → Option ℕ} {head : Option ℕ} {free : List ℕ} {i : ℕ}

-- The cells `0, …, count - 1`, with those in `free` chained from `head` and all others cut off.
structure FreeChain (count : ℕ) (next : ℕ → Option ℕ) (head : Option ℕ) (free : List ℕ) : Prop where
  chained : Chained next head free
  nodup : free.Nodup
  bounded : ∀ i ∈ free, i < count
  cutOff : ∀ i < count, i ∉ free → next i = none

theorem FreeChain.length_le (h : FreeChain count next head free) : free.length ≤ count := by
  have hsub : free ⊆ List.range count := fun i hi => List.mem_range.mpr (h.bounded i hi)
  simpa using (h.nodup.subperm hsub).length_le

-- A chain as long as the array leaves no cell out.
theorem FreeChain.mem_of_length_eq (h : FreeChain count next head free)
    (hlen : free.length = count) (hi : i < count) : i ∈ free := by
  have hsub : free ⊆ List.range count := fun i hi => List.mem_range.mpr (h.bounded i hi)
  have hperm := (h.nodup.subperm hsub).perm_of_length_le (by simp [hlen])
  exact hperm.mem_iff.mpr (List.mem_range.mpr hi)

theorem FreeChain.length_lt (h : FreeChain count next head free) (hi : i < count)
    (hnot : i ∉ free) : free.length < count :=
  Nat.lt_of_le_of_ne h.length_le fun he => hnot (h.mem_of_length_eq he hi)

-- Taking the first free cell off the chain.
theorem FreeChain.take {rest : List ℕ} (h : FreeChain count next head (i :: rest)) :
    FreeChain count (Function.update next i none) (next i) rest := by
  obtain ⟨hi, hnd⟩ := List.nodup_cons.mp h.nodup
  refine ⟨h.chained.2.frame fun x hx => ?_, hnd, fun x hx => h.bounded x (List.mem_cons_of_mem _ hx),
    fun x hx hnot => ?_⟩
  · have hne : x ≠ i := fun he => hi (he ▸ hx)
    exact Function.update_of_ne hne _ _
  · by_cases hxi : x = i
    · subst hxi
      exact Function.update_self _ _ _
    · rw [Function.update_of_ne hxi]
      exact h.cutOff x hx fun hm => (List.mem_cons.mp hm).elim hxi hnot

-- Giving a cell back to the front of the chain.
theorem FreeChain.give (h : FreeChain count next head free) (hi : i < count) (hnot : i ∉ free) :
    FreeChain count (Function.update next i head) (some i) (i :: free) := by
  refine ⟨⟨rfl, ?_⟩, List.nodup_cons.mpr ⟨hnot, h.nodup⟩, fun x hx => ?_, fun x hx hx' => ?_⟩
  · rw [Function.update_self]
    refine h.chained.frame fun x hx => ?_
    have hne : x ≠ i := fun he => hnot (he ▸ hx)
    exact Function.update_of_ne hne _ _
  · rcases List.mem_cons.mp hx with rfl | hx
    · exact hi
    · exact h.bounded x hx
  · obtain ⟨hne, hx'⟩ := List.ne_and_not_mem_of_not_mem_cons hx'
    rw [Function.update_of_ne hne]
    exact h.cutOff x hx hx'

-- The chain a fresh array starts with: each cell links to the following one.
theorem freeChain_range (hnext : ∀ i < count, next i = if i + 1 < count then some (i + 1) else none) :
    FreeChain count next (if 0 < count then some 0 else none) (List.range count) := by
  have tail : ∀ n start, start + n = count →
      Chained next (if start < count then some start else none) (List.range' start n) := by
    intro n
    induction n with
    | zero =>
        intro start hstart
        simp [Chained, show ¬start < count by omega]
    | succ n ih =>
        intro start hstart
        rw [List.range'_succ, if_pos (by omega)]
        refine ⟨rfl, ?_⟩
        rw [hnext start (by omega)]
        exact ih (start + 1) (by omega)
  refine ⟨?_, List.nodup_range, fun i hi => List.mem_range.mp hi,
    fun i hi hnot => absurd (List.mem_range.mpr hi) hnot⟩
  rw [List.range_eq_range']
  exact tail count 0 (by omega)

end Array

end Chain
