import Mathlib.Data.List.Nodup

namespace Queues

variable {ι α : Type*}

-- A family of queues in which no element stands twice, within one queue or across two.
structure Apart (q : ι → List α) : Prop where
  nodup : ∀ i, (q i).Nodup
  unique : ∀ i j a, a ∈ q i → a ∈ q j → i = j

section Move

variable [DecidableEq α]

-- Take `a` out of whichever queue holds it.
def remove (q : ι → List α) (a : α) (i : ι) : List α := (q i).erase a

-- Take `a` out of whichever queue holds it and append it to queue `j`.
def move [DecidableEq ι] (q : ι → List α) (a : α) (j i : ι) : List α :=
  if i = j then (q i).erase a ++ [a] else (q i).erase a

theorem Apart.mem_remove {q : ι → List α} (h : Apart q) (a x : α) (i : ι) :
    x ∈ remove q a i ↔ x ≠ a ∧ x ∈ q i :=
  (h.nodup i).mem_erase_iff

theorem Apart.remove {q : ι → List α} (h : Apart q) (a : α) : Apart (remove q a) := by
  constructor
  · exact fun i => (h.nodup i).erase a
  · intro i j x hi hj
    exact h.unique i j x ((h.mem_remove a x i).mp hi).2 ((h.mem_remove a x j).mp hj).2

theorem remove_of_notMem {q : ι → List α} {a : α} {i : ι} (h : a ∉ q i) : remove q a i = q i :=
  List.erase_of_not_mem h

variable [DecidableEq ι]

theorem move_self (q : ι → List α) (a : α) (j : ι) : move q a j j = remove q a j ++ [a] := by
  simp [move, remove]

theorem move_of_ne (q : ι → List α) (a : α) {j i : ι} (h : i ≠ j) : move q a j i = remove q a i := by
  simp [move, remove, h]

-- Membership after a move, the only fact about `move` that later proofs use.
theorem Apart.mem_move {q : ι → List α} (h : Apart q) (a x : α) (j i : ι) :
    x ∈ move q a j i ↔ (x ≠ a ∧ x ∈ q i) ∨ (x = a ∧ i = j) := by
  by_cases hi : i = j
  · subst hi
    simp [move_self, h.mem_remove]
  · simp [move_of_ne q a hi, h.mem_remove, hi]

theorem Apart.move {q : ι → List α} (h : Apart q) (a : α) (j : ι) : Apart (move q a j) := by
  constructor
  · intro i
    by_cases hi : i = j
    · subst hi
      rw [move_self]
      exact ((h.remove a).nodup i).append (List.nodup_singleton a)
        (List.disjoint_singleton.mpr fun hm => ((h.mem_remove a a i).mp hm).1 rfl)
    · rw [move_of_ne q a hi]
      exact (h.remove a).nodup i
  · intro i k x hi hk
    rcases (h.mem_move a x j i).mp hi with ⟨hx, hi⟩ | ⟨hx, hi⟩ <;>
      rcases (h.mem_move a x j k).mp hk with ⟨hx', hk⟩ | ⟨hx', hk⟩
    · exact h.unique i k x hi hk
    · exact absurd hx' hx
    · exact absurd hx hx'
    · rw [hi, hk]

theorem move_remove (q : ι → List α) (h : Apart q) (a : α) (j : ι) :
    move (remove q a) a j = move q a j := by
  funext i
  have hn : a ∉ remove q a i := fun hm => ((h.mem_remove a a i).mp hm).1 rfl
  have he : (remove q a i).erase a = (q i).erase a := List.erase_of_not_mem hn
  simp only [move, he]

-- What is not moved keeps its queue and its place among the others there.
theorem Apart.erase_move {q : ι → List α} (h : Apart q) (a : α) (j i : ι) :
    (Queues.move q a j i).erase a = (q i).erase a := by
  have hn : a ∉ Queues.remove q a i := fun hm => ((h.mem_remove a a i).mp hm).1 rfl
  by_cases hi : i = j
  · subst hi
    rw [move_self, List.erase_append_right _ hn, List.erase_cons_head, List.append_nil]
    rfl
  · rw [move_of_ne q a hi, List.erase_of_not_mem hn]
    rfl

-- Two moves to one queue can be taken in either order, but for the order at its end.
theorem move_comm_of_ne (q : ι → List α) (a b : α) {j i : ι} (h : i ≠ j) :
    move (move q a j) b j i = move (move q b j) a j i := by
  rw [move_of_ne _ _ h, move_of_ne _ _ h, remove, remove, move_of_ne _ _ h, move_of_ne _ _ h]
  exact List.erase_comm a b

theorem move_perm {q q' : ι → List α} (a : α) {j : ι} (h : (q j).Perm (q' j)) :
    (move q a j j).Perm (move q' a j j) := by
  rw [move_self, move_self]
  exact (h.erase a).append_right [a]

theorem move_comm_perm (q : ι → List α) {a b : α} (h : a ≠ b) (j : ι) :
    (move (move q a j) b j j).Perm (move (move q b j) a j j) := by
  have hexpand (x y : α) (hxy : x ≠ y) :
      (move (move q x j) y j j).Perm (((q j).erase x).erase y ++ [x, y]) := by
    rw [move_self, remove, move_self, remove]
    have hy : ([x] : List α).erase y = [x] := List.erase_of_not_mem (by simpa using hxy.symm)
    by_cases hm : y ∈ (q j).erase x
    · rw [List.erase_append_left _ hm, List.append_assoc, List.singleton_append]
    · rw [List.erase_append_right _ hm, hy, List.erase_of_not_mem hm, List.append_assoc,
        List.singleton_append]
  have hswap : (((q j).erase b).erase a ++ [b, a]).Perm (((q j).erase a).erase b ++ [a, b]) := by
    rw [List.erase_comm (a := b) (b := a)]
    exact (List.Perm.swap a b []).append_left _
  exact (hexpand a b h).trans (hswap.symm.trans (hexpand b a h.symm).symm)

end Move

end Queues
