import Lmosem.Lib.Outcome
import Lmosem.Lib.Ring
import Mathlib.Data.Sum.Basic
import Mathlib.Algebra.Group.Nat.Defs

namespace Lmosem

open Intrusive

-- The cells of every `struct list_head` of a component, addressed by what holds them.
abbrev ListHeads (ν : Type) := Links ν

variable {ν : Type} [DecidableEq ν]

def INIT_LIST_HEAD (l : ListHeads ν) (list : ν) : ListHeads ν where
  next := Function.update l.next list list
  prev := Function.update l.prev list list

-- `__list_add` and `__list_del` carry a prime here.
def listAdd' (l : ListHeads ν) (entry prev next : ν) : ListHeads ν where
  next := Function.update (Function.update l.next entry next) prev entry
  prev := Function.update (Function.update l.prev next entry) entry prev

def listAddTail (l : ListHeads ν) (entry head : ν) : ListHeads ν :=
  listAdd' l entry (l.prev head) head

def listDel' (l : ListHeads ν) (prev next : ν) : ListHeads ν where
  next := Function.update l.next prev next
  prev := Function.update l.prev next prev

def listDel (l : ListHeads ν) (entry : ν) : ListHeads ν :=
  listDel' l (l.prev entry) (l.next entry)

def listDelInit (l : ListHeads ν) (entry : ν) : ListHeads ν :=
  INIT_LIST_HEAD (listDel' l (l.prev entry) (l.next entry)) entry

def listMoveTail (l : ListHeads ν) (list head : ν) : ListHeads ν :=
  listAddTail (listDel' l (l.prev list) (l.next list)) list head

def listEmpty (l : ListHeads ν) (head : ν) : Bool := l.next head = head

-- No ring of the 32-bit machine has more cells than this, so a walk that has
-- not come back to its head by then never does.
def WALK_LIMIT : ℕ := 2 ^ 32

-- `list_for_each_entry`. The body either returns from the function around the
-- loop (`inr`) or leaves the loop variable at the cell given by `inl`, from
-- where `next` reads the following one.
def listForEachEntry {β : Type} (next : ν → Outcome ν) (head : ν)
    (body : ν → Outcome (ν ⊕ β)) : ℕ → ν → Outcome (Option β)
  | 0, _ => .hang
  | fuel + 1, pos =>
      if pos = head then .ok none
      else do
        match ← body pos with
        | .inl pos => listForEachEntry next head body fuel (← next pos)
        | .inr result => .ok (some result)

section Rings

variable {ι α : Type} [DecidableEq ι] [DecidableEq α] {l : ListHeads (Node ι α)} {q : ι → List α}

theorem listAddTail_rings (h : Rings l q) {a : α} (ha : ∀ i, a ∉ q i) (i : ι) :
    Rings (listAddTail l (.entry a) (.head i)) (Queues.move q a i) :=
  h.linkLast ha i

theorem listDel_rings (h : Rings l q) {i : ι} {a : α} (ha : a ∈ q i) :
    Rings (listDel l (.entry a)) (Queues.remove q a) :=
  h.unlink ha

theorem listMoveTail_rings (h : Rings l q) {i : ι} {a : α} (ha : a ∈ q i) (j : ι) :
    Rings (listMoveTail l (.entry a) (.head j)) (Queues.move q a j) :=
  h.relink ha j

theorem INIT_LIST_HEAD_rings (h : Rings l q) {a : α} (ha : ∀ i, a ∉ q i) :
    Rings (INIT_LIST_HEAD l (.entry a)) q := by
  refine ⟨fun i => (h.ring i).frame (fun x hx => ?_) (fun x hx => ?_), h.apart⟩ <;>
  · have hne : x ≠ .entry a := by
      rintro rfl
      simp [ha i] at hx
    simp [INIT_LIST_HEAD, Function.update_of_ne hne]

theorem INIT_LIST_HEAD_empty [Subsingleton ι] (l : ListHeads (Node ι α)) (i : ι) :
    Rings (INIT_LIST_HEAD l (.head i)) fun _ => [] := by
  refine ⟨fun j => ?_, ⟨fun _ => List.nodup_nil, by simp⟩⟩
  obtain rfl := Subsingleton.elim i j
  simp [Intrusive.Ring, Linked, INIT_LIST_HEAD]

theorem listEmpty_rings (h : Rings l q) (i : ι) :
    listEmpty l (.head i) = (q i).isEmpty := by
  simp only [listEmpty, h.next_head i]
  cases q i <;> simp

-- A walk whose body leaves the loop variable alone is a search of the queue.
theorem listForEachEntry_rings {β : Type} (h : Rings l q) (i : ι)
    (body : Node ι α → Outcome (Node ι α ⊕ β)) (f : α → Option β) (fuel : ℕ)
    (hfuel : (q i).length < fuel)
    (hbody : ∀ a ∈ q i, body (.entry a) = .ok (match f a with
      | some b => .inr b
      | none => .inl (.entry a))) :
    listForEachEntry (fun pos => .ok (l.next pos)) (.head i) body fuel (l.next (.head i)) =
      .ok ((q i).findSome? f) := by
  have walk : ∀ (xs : List α) (x : Node ι α) (fuel : ℕ), xs.length < fuel → (∀ a ∈ xs, a ∈ q i) →
      (x :: xs.map Node.entry ++ [Node.head i]).IsChain (Linked l) →
      listForEachEntry (fun pos => .ok (l.next pos)) (.head i) body fuel (l.next x) =
        .ok (xs.findSome? f) := by
    intro xs
    induction xs with
    | nil =>
        intro x fuel hf _ hc
        obtain ⟨fuel, rfl⟩ := Nat.exists_eq_succ_of_ne_zero (Nat.ne_of_gt hf)
        have hx : l.next x = .head i := (List.isChain_cons_cons.mp hc).1.1
        simp [listForEachEntry, hx]
    | cons a xs ih =>
        intro x fuel hf hmem hc
        obtain ⟨fuel, rfl⟩ := Nat.exists_eq_succ_of_ne_zero (Nat.ne_of_gt (Nat.zero_lt_of_lt hf))
        obtain ⟨⟨hx, -⟩, hc⟩ := List.isChain_cons_cons.mp hc
        rw [hx, listForEachEntry, if_neg (by simp), hbody a (hmem a (by simp))]
        cases hfa : f a with
        | some b => simp [hfa]
        | none =>
            have hrest := ih (.entry a) fuel (by simpa using hf)
              (fun b hb => hmem b (List.mem_cons_of_mem _ hb)) hc
            simpa [hfa] using hrest
  exact walk (q i) (.head i) fuel hfuel (fun _ ha => ha) (h.ring i)

-- What such a walk returns from is an entry of the queue, however far it was allowed to go.
theorem listForEachEntry_mem {β : Type} (h : Rings l q) {i : ι}
    {body : Node ι α → Outcome (Node ι α ⊕ β)}
    (hbody : ∀ a pos, body (.entry a) = .ok (.inl pos) → pos = .entry a) {fuel : ℕ} {b : β}
    (hwalk : listForEachEntry (fun pos => .ok (l.next pos)) (.head i) body fuel
      (l.next (.head i)) = .ok (some b)) : ∃ a ∈ q i, body (.entry a) = .ok (.inr b) := by
  have walk : ∀ (xs : List α) (x : Node ι α) (fuel : ℕ),
      (x :: xs.map Node.entry ++ [Node.head i]).IsChain (Linked l) →
      listForEachEntry (fun pos => .ok (l.next pos)) (.head i) body fuel (l.next x) =
        .ok (some b) → ∃ a ∈ xs, body (.entry a) = .ok (.inr b) := by
    intro xs
    induction xs with
    | nil =>
        intro x fuel hc hx
        rw [(List.isChain_cons_cons.mp hc).1.1] at hx
        cases fuel <;> simp [listForEachEntry] at hx
    | cons a xs ih =>
        intro x fuel hc hx
        obtain ⟨⟨hnext, -⟩, hc⟩ := List.isChain_cons_cons.mp hc
        cases fuel with
        | zero => simp [listForEachEntry] at hx
        | succ fuel =>
            rw [hnext, listForEachEntry, if_neg (by simp), Outcome.bind_eq_ok] at hx
            obtain ⟨res, hres, hx⟩ := hx
            cases res with
            | inl pos =>
                obtain rfl := hbody a pos hres
                obtain ⟨c, hc, hcb⟩ := ih (.entry a) fuel hc hx
                exact ⟨c, List.mem_cons_of_mem _ hc, hcb⟩
            | inr r =>
                obtain rfl : r = b := by simpa using hx
                exact ⟨a, List.mem_cons_self, hres⟩
  exact walk (q i) (.head i) fuel (h.ring i) hwalk

end Rings

end Lmosem
