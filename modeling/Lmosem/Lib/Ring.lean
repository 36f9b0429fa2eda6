import Lmosem.Lib.Queues
import Mathlib.Data.List.Chain

-- Circular doubly linked lists whose links live inside the listed entries.
namespace Intrusive

-- A link cell is the anchor of a list or sits inside an entry.
inductive Node (ι α : Type*)
  | head (i : ι)
  | entry (a : α)
deriving DecidableEq

structure Links (ν : Type*) where
  next : ν → ν
  prev : ν → ν

variable {ν : Type*}

def Linked (l : Links ν) (x y : ν) : Prop := l.next x = y ∧ l.prev y = x

-- Following `next` from `head` meets `xs` in order and comes back to `head`,
-- and `prev` undoes each of these steps.
def Ring (l : Links ν) (head : ν) (xs : List ν) : Prop :=
  (head :: xs ++ [head]).IsChain (Linked l)

-- A chain reads `next` of every node but the last and `prev` of every node but the first.
theorem linked_frame {l l' : Links ν} {xs : List ν} (h : xs.IsChain (Linked l))
    (hn : ∀ x ∈ xs.dropLast, l'.next x = l.next x) (hp : ∀ x ∈ xs.tail, l'.prev x = l.prev x) :
    xs.IsChain (Linked l') := by
  induction xs with
  | nil => exact .nil
  | cons x xs ih =>
      cases xs with
      | nil => exact .singleton x
      | cons y ys =>
          obtain ⟨⟨hx, hy⟩, hrest⟩ := List.isChain_cons_cons.mp h
          refine List.isChain_cons_cons.mpr ⟨⟨?_, ?_⟩, ih hrest ?_ ?_⟩
          · rw [hn x (by simp), hx]
          · rw [hp y (by simp), hy]
          · exact fun z hz => hn z (by simp [hz])
          · exact fun z hz => hp z (List.mem_cons_of_mem _ hz)

-- Two rings with the same anchor are the same list.
theorem Ring.unique {l : Links ν} {head : ν} {xs ys : List ν} (hx : Ring l head xs)
    (hy : Ring l head ys) (hnx : head ∉ xs) (hny : head ∉ ys) : xs = ys := by
  have walk : ∀ (xs ys : List ν) (a : ν), (a :: xs ++ [head]).IsChain (Linked l) →
      (a :: ys ++ [head]).IsChain (Linked l) → head ∉ xs → head ∉ ys → xs = ys := by
    intro xs
    induction xs with
    | nil =>
        intro ys a hx hy _ hny
        cases ys with
        | nil => rfl
        | cons y ys =>
            have h1 := (List.isChain_cons_cons.mp hx).1.1
            have h2 := (List.isChain_cons_cons.mp hy).1.1
            exact absurd (h1.symm.trans h2) (fun he => hny (by simp [he]))
    | cons x xs ih =>
        intro ys a hx hy hnx hny
        obtain ⟨⟨hax, _⟩, hx⟩ := List.isChain_cons_cons.mp hx
        cases ys with
        | nil =>
            have h2 := (List.isChain_cons_cons.mp hy).1.1
            exact absurd (h2.symm.trans hax) (fun he => hnx (by simp [he]))
        | cons y ys =>
            obtain ⟨⟨hay, _⟩, hy⟩ := List.isChain_cons_cons.mp hy
            obtain rfl : x = y := hax.symm.trans hay
            rw [ih ys x hx hy (fun hm => hnx (by simp [hm])) (fun hm => hny (by simp [hm]))]
  exact walk xs ys head hx hy hnx hny

-- The neighbours of an entry, with the ring cut open on either side of it.
theorem Ring.split {l : Links ν} {head entry : ν} {xs ys : List ν}
    (h : Ring l head (xs ++ entry :: ys)) :
    ∃ before after, head :: xs = before ++ [l.prev entry] ∧ ys ++ [head] = l.next entry :: after ∧
      (before ++ [l.prev entry]).IsChain (Linked l) ∧ (l.next entry :: after).IsChain (Linked l) := by
  have hb : head :: xs ≠ [] := by simp
  have ha : ys ++ [head] ≠ [] := by simp
  have hpre := (List.dropLast_append_getLast hb).symm
  obtain ⟨n, after, hpost⟩ := List.exists_cons_of_ne_nil ha
  have he : head :: (xs ++ entry :: ys) ++ [head] =
      (head :: xs).dropLast ++ (head :: xs).getLast hb :: entry :: n :: after := by
    rw [← hpost]
    calc head :: (xs ++ entry :: ys) ++ [head] = (head :: xs) ++ entry :: (ys ++ [head]) := by simp
      _ = _ := by
        conv_lhs => rw [hpre]
        simp
  rw [Ring, he, List.isChain_append_cons_cons] at h
  obtain ⟨hleft, ⟨-, hprev⟩, hright⟩ := h
  obtain ⟨⟨hnext, -⟩, hright⟩ := List.isChain_cons_cons.mp hright
  rw [← hprev] at hpre hleft
  rw [← hnext] at hpost hright
  exact ⟨_, after, hpre, hpost, hleft, hright⟩

-- The last entry of a ring, or the anchor of an empty one, is what `prev` of the anchor reads.
theorem Ring.last {l : Links ν} {head : ν} {xs : List ν} (h : Ring l head xs) :
    ∃ before, head :: xs = before ++ [l.prev head] ∧ (before ++ [l.prev head]).IsChain (Linked l) := by
  have hb : head :: xs ≠ [] := by simp
  have hpre := (List.dropLast_append_getLast hb).symm
  have he : head :: xs ++ [head] = (head :: xs).dropLast ++ [(head :: xs).getLast hb, head] := by
    conv_lhs => rw [hpre]
    simp
  rw [Ring, he, List.isChain_append_cons_cons] at h
  obtain ⟨hleft, ⟨-, hprev⟩, -⟩ := h
  rw [← hprev] at hpre hleft
  exact ⟨_, hpre, hleft⟩

section Edit

variable [DecidableEq ν]

def unlink (l : Links ν) (entry : ν) : Links ν where
  next := Function.update l.next (l.prev entry) (l.next entry)
  prev := Function.update l.prev (l.next entry) (l.prev entry)

def linkLast (l : Links ν) (entry head : ν) : Links ν where
  next := Function.update (Function.update l.next entry head) (l.prev head) entry
  prev := Function.update (Function.update l.prev head entry) entry (l.prev head)

theorem Ring.unlink {l : Links ν} {head entry : ν} {xs ys : List ν}
    (h : Ring l head (xs ++ entry :: ys)) (hnd : (head :: (xs ++ entry :: ys)).Nodup) :
    Ring (unlink l entry) head (xs ++ ys) := by
  obtain ⟨before, after, hb, ha, hleft, hright⟩ := h.split
  have hcut : head :: (xs ++ ys) ++ [head] = before ++ l.prev entry :: l.next entry :: after := by
    calc head :: (xs ++ ys) ++ [head] = (head :: xs) ++ (ys ++ [head]) := by simp
      _ = _ := by rw [hb, ha]; simp
  have hpmem : l.prev entry ∈ head :: xs := by rw [hb]; simp
  have hnmem : l.next entry ∈ ys ++ [head] := by rw [ha]; simp
  have hnd' : (before ++ [l.prev entry]).Nodup := by
    rw [← hb]
    exact hnd.sublist (by simp)
  have hright' : (ys ++ [head]).Nodup :=
    (List.perm_append_singleton head ys).nodup_iff.mpr (hnd.sublist (by simp))
  rw [Ring, hcut, List.isChain_append_cons_cons]
  simp only [List.nodup_cons, List.mem_append, List.mem_cons, not_or, List.nodup_append] at hnd
  obtain ⟨⟨hhx, hhe, hhy⟩, -, ⟨-, -⟩, hsep⟩ := hnd
  refine ⟨linked_frame hleft ?_ ?_, ⟨by simp [Intrusive.unlink], by simp [Intrusive.unlink]⟩,
    linked_frame hright ?_ ?_⟩
  · intro x hx
    have hne : x ≠ l.prev entry := by
      rintro rfl
      simp only [List.dropLast_concat] at hx
      exact (List.nodup_append.mp hnd').2.2 _ hx _ (by simp) rfl
    simp [Intrusive.unlink, Function.update_of_ne hne]
  · intro x hx
    rw [← hb, List.tail_cons] at hx
    have hne : x ≠ l.next entry := by
      rintro rfl
      rcases List.mem_append.mp hnmem with hm | hm
      · exact hsep _ hx _ (Or.inr hm) rfl
      · exact hhx ((List.mem_singleton.mp hm) ▸ hx)
    simp [Intrusive.unlink, Function.update_of_ne hne]
  · intro x hx
    rw [← ha, List.dropLast_concat] at hx
    have hne : x ≠ l.prev entry := by
      rintro rfl
      rcases List.mem_cons.mp hpmem with hm | hm
      · exact hhy (hm ▸ hx)
      · exact hsep _ hm _ (Or.inr hx) rfl
    simp [Intrusive.unlink, Function.update_of_ne hne]
  · intro x hx
    rw [List.tail_cons] at hx
    have hne : x ≠ l.next entry := by
      rintro rfl
      exact (List.nodup_cons.mp (ha ▸ hright')).1 hx
    simp [Intrusive.unlink, Function.update_of_ne hne]

theorem Ring.linkLast {l : Links ν} {head entry : ν} {xs : List ν} (h : Ring l head xs)
    (hnd : (head :: xs).Nodup) (hnew : entry ∉ head :: xs) :
    Ring (linkLast l entry head) head (xs ++ [entry]) := by
  obtain ⟨before, hb, hleft⟩ := h.last
  have hcut : head :: (xs ++ [entry]) ++ [head] = before ++ l.prev head :: entry :: [head] := by
    calc head :: (xs ++ [entry]) ++ [head] = (head :: xs) ++ [entry, head] := by simp
      _ = _ := by rw [hb]; simp
  have hpmem : l.prev head ∈ head :: xs := by rw [hb]; simp
  have hpe : l.prev head ≠ entry := fun he => hnew (he ▸ hpmem)
  have hhe : head ≠ entry := fun he => hnew (by simp [he])
  rw [Ring, hcut, List.isChain_append_cons_cons]
  refine ⟨linked_frame hleft ?_ ?_, ⟨by simp [Intrusive.linkLast], by simp [Intrusive.linkLast]⟩, ?_⟩
  · intro x hx
    rw [List.dropLast_concat] at hx
    have hmem : x ∈ head :: xs := by rw [hb]; simp [hx]
    have hne : x ≠ l.prev head := by
      rintro rfl
      exact (List.nodup_append.mp (hb ▸ hnd)).2.2 _ hx _ (by simp) rfl
    have hne' : x ≠ entry := fun he => hnew (he ▸ hmem)
    simp [Intrusive.linkLast, Function.update_of_ne hne, Function.update_of_ne hne']
  · intro x hx
    rw [← hb, List.tail_cons] at hx
    have hne : x ≠ head := fun he => (List.nodup_cons.mp hnd).1 (he ▸ hx)
    have hne' : x ≠ entry := fun he => hnew (by simp [← he, hx])
    simp [Intrusive.linkLast, Function.update_of_ne hne, Function.update_of_ne hne']
  · refine List.isChain_pair.mpr ⟨?_, ?_⟩
    · simp [Intrusive.linkLast, Function.update_of_ne (Ne.symm hpe)]
    · simp [Intrusive.linkLast, Function.update_of_ne hhe]

end Edit

section Family

variable {ι α : Type*}

-- One ring for each anchor, no entry on two of them.
structure Rings (l : Links (Node ι α)) (q : ι → List α) : Prop where
  ring : ∀ i, Ring l (.head i) ((q i).map .entry)
  apart : Queues.Apart q

theorem head_notMem_entries (i : ι) (xs : List α) :
    (Node.head i : Node ι α) ∉ xs.map Node.entry := by simp

theorem entry_mem_entries (a : α) (xs : List α) :
    (Node.entry a : Node ι α) ∈ xs.map Node.entry ↔ a ∈ xs := by simp

theorem Rings.nodup {l : Links (Node ι α)} {q : ι → List α} (h : Rings l q) (i : ι) :
    (Node.head i :: (q i).map Node.entry : List (Node ι α)).Nodup :=
  List.nodup_cons.mpr ⟨head_notMem_entries i _,
    (h.apart.nodup i).map fun _ _ he => Node.entry.inj he⟩

-- What a walk round an anchor meets is the queue behind it.
theorem Rings.eq_of_ring {l : Links (Node ι α)} {q : ι → List α} (h : Rings l q) {i : ι} {xs : List α}
    (hx : Ring l (.head i) (xs.map .entry)) : xs = q i := by
  have he := hx.unique (h.ring i) (head_notMem_entries i _) (head_notMem_entries i _)
  exact (List.map_injective_iff.mpr fun _ _ he => Node.entry.inj he) he

-- Rings through the same anchors determine the queues.
theorem Rings.queue_unique {l : Links (Node ι α)} {q q' : ι → List α} (h : Rings l q)
    (h' : Rings l q') : q = q' := by
  funext i
  exact h'.eq_of_ring (h.ring i)

-- A ring keeps its shape when the links of its own nodes do.
theorem Ring.frame {l l' : Links (Node ι α)} {i : ι} {xs : List α}
    (h : Ring l (.head i) (xs.map .entry))
    (hn : ∀ x ∈ (Node.head i :: xs.map Node.entry : List (Node ι α)), l'.next x = l.next x)
    (hp : ∀ x ∈ (Node.head i :: xs.map Node.entry : List (Node ι α)), l'.prev x = l.prev x) :
    Ring l' (.head i) (xs.map .entry) := by
  refine linked_frame h (fun x hx => hn x ?_) (fun x hx => hp x ?_)
  · rwa [List.dropLast_concat] at hx
  · rw [List.cons_append, List.tail_cons, List.mem_append, List.mem_singleton] at hx
    exact List.mem_cons.mpr hx.symm

-- The nodes an edit of ring `i` writes are no nodes of another ring.
theorem Rings.separate {l : Links (Node ι α)} {q : ι → List α} (h : Rings l q) {i j : ι}
    (hij : i ≠ j) {x y : Node ι α} (hx : x ∈ (Node.head i :: (q i).map Node.entry : List (Node ι α)))
    (hy : y ∈ (Node.head j :: (q j).map Node.entry : List (Node ι α))) : x ≠ y := by
  rintro rfl
  cases x with
  | head k =>
      simp only [List.mem_cons, Node.head.injEq, head_notMem_entries, or_false] at hx hy
      exact hij (hx.symm.trans hy)
  | entry a =>
      simp only [List.mem_cons, reduceCtorEq, entry_mem_entries, false_or] at hx hy
      exact hij (h.apart.unique i j a hx hy)

-- Reading the first entry of a ring.
theorem Rings.next_head {l : Links (Node ι α)} {q : ι → List α} (h : Rings l q) (i : ι) :
    l.next (.head i) = match q i with
      | [] => .head i
      | a :: _ => .entry a := by
  have hr := h.ring i
  cases hq : q i with
  | nil =>
      rw [hq] at hr
      exact (List.isChain_cons_cons.mp hr).1.1
  | cons a as =>
      rw [hq] at hr
      exact (List.isChain_cons_cons.mp hr).1.1

variable [DecidableEq ι] [DecidableEq α]

theorem Rings.unlink {l : Links (Node ι α)} {q : ι → List α} (h : Rings l q) {i : ι} {a : α}
    (ha : a ∈ q i) : Rings (unlink l (.entry a)) (Queues.remove q a) := by
  obtain ⟨xs, ys, hq⟩ := List.append_of_mem ha
  have hnd := h.nodup i
  have hr := h.ring i
  rw [hq, List.map_append, List.map_cons] at hnd hr
  obtain ⟨before, after, hb, haf, -, -⟩ := hr.split
  have hprev : l.prev (.entry a) ∈ (Node.head i :: (q i).map Node.entry : List (Node ι α)) := by
    have hm : l.prev (.entry a) ∈ (Node.head i :: xs.map Node.entry : List (Node ι α)) := by
      rw [hb]; simp
    rw [hq]
    simp only [List.map_append, List.mem_cons, List.mem_append] at hm ⊢
    tauto
  have hnext : l.next (.entry a) ∈ (Node.head i :: (q i).map Node.entry : List (Node ι α)) := by
    have hm : l.next (.entry a) ∈ (ys.map Node.entry ++ [Node.head i] : List (Node ι α)) := by
      rw [haf]; simp
    rw [hq]
    simp only [List.map_append, List.map_cons, List.mem_cons, List.mem_append] at hm ⊢
    tauto
  refine ⟨fun j => ?_, h.apart.remove a⟩
  by_cases hij : i = j
  · subst hij
    have hna : a ∉ xs := by
      have := h.apart.nodup i
      rw [hq] at this
      exact fun hm => (List.nodup_append.mp this).2.2 a hm a (by simp) rfl
    have he : Queues.remove q a i = xs ++ ys := by
      rw [Queues.remove, hq, List.erase_append_right _ hna, List.erase_cons_head]
    rw [he, List.map_append]
    exact hr.unlink hnd
  · have hj : a ∉ q j := fun hm => hij (h.apart.unique i j a ha hm)
    rw [Queues.remove_of_notMem hj]
    exact (h.ring j).frame
      (fun x hx => Function.update_of_ne (h.separate hij hprev hx).symm _ _)
      (fun x hx => Function.update_of_ne (h.separate hij hnext hx).symm _ _)

theorem Rings.linkLast {l : Links (Node ι α)} {q : ι → List α} (h : Rings l q) {a : α}
    (ha : ∀ i, a ∉ q i) (i : ι) : Rings (linkLast l (.entry a) (.head i)) (Queues.move q a i) := by
  have hnew (j : ι) : (Node.entry a : Node ι α) ∉ (Node.head j :: (q j).map Node.entry) := by
    simp [ha j]
  obtain ⟨before, hb, -⟩ := (h.ring i).last
  have hprev : l.prev (.head i) ∈ (Node.head i :: (q i).map Node.entry : List (Node ι α)) := by
    rw [hb]; simp
  refine ⟨fun j => ?_, h.apart.move a i⟩
  by_cases hij : i = j
  · subst hij
    rw [Queues.move_self, Queues.remove_of_notMem (ha i), List.map_append, List.map_singleton]
    exact (h.ring i).linkLast (h.nodup i) (hnew i)
  · rw [Queues.move_of_ne q a (Ne.symm hij), Queues.remove_of_notMem (ha j)]
    refine (h.ring j).frame (fun x hx => ?_) (fun x hx => ?_)
    · have h1 := (h.separate hij hprev hx).symm
      have h2 : x ≠ .entry a := fun he => hnew j (he ▸ hx)
      simp [Intrusive.linkLast, Function.update_of_ne h1, Function.update_of_ne h2]
    · have h1 := (h.separate hij (List.mem_cons_self) hx).symm
      have h2 : x ≠ .entry a := fun he => hnew j (he ▸ hx)
      simp [Intrusive.linkLast, Function.update_of_ne h1, Function.update_of_ne h2]

theorem Rings.relink {l : Links (Node ι α)} {q : ι → List α} (h : Rings l q) {i : ι} {a : α}
    (ha : a ∈ q i) (j : ι) :
    Rings (Intrusive.linkLast (Intrusive.unlink l (.entry a)) (.entry a) (.head j))
      (Queues.move q a j) := by
  have hr := (h.unlink ha).linkLast (a := a)
    (fun k hm => ((h.apart.mem_remove a a k).mp hm).1 rfl) j
  rwa [Queues.move_remove q h.apart] at hr

end Family

end Intrusive
