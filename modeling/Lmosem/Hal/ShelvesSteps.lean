import Lmosem.Hal.Shelves

namespace Lmosem.Shelves

open SlabQueue Region

variable {m : MemMap} {t t' : Shelves} {i j : Slab} {k b addr : ℕ}

theorem onShelf_move {q : SlabQueue} (ha : Queues.Apart t.queue) (hq : t'.queue = Queues.move t.queue k (i, q))
    (j : Slab) (x : ℕ) :
    t'.OnShelf j x ↔ (x ≠ k ∧ t.OnShelf j x) ∨ (x = k ∧ j = i ∧ q ≠ emptyList) := by
  simp only [OnShelf, hq, ha.mem_move, Prod.mk.injEq]
  cases q <;> simp <;> tauto

theorem pick_cases (h : t.pick i = some k) :
    k ∈ t.queue (i, partialList) ∨
      (t.queue (i, partialList) = [] ∧ k ∈ t.queue (lastSlab, emptyList)) := by
  cases hp : t.queue (i, partialList) with
  | cons x xs =>
      simp only [pick, hp, List.cons_append, List.head?_cons, Option.some.injEq] at h
      exact Or.inl (h ▸ List.mem_cons_self)
  | nil =>
      simp only [pick, hp, List.nil_append] at h
      exact Or.inr ⟨rfl, List.mem_of_mem_head? h⟩

theorem pick_eq_none : t.pick i = none ↔
    t.queue (i, partialList) = [] ∧ t.queue (lastSlab, emptyList) = [] := by
  simp [pick, List.head?_eq_none_iff]

-- What an allocation of class `i` that succeeds has done.
theorem alloc_cases (h : t.alloc i = some ((k, b), t')) :
    t.pick i = some k ∧ b < blkBits i ∧ b ∉ t.used k ∧
      t'.used = Function.update t.used k (insert b (t.used k)) ∧
      ∃ q, q ≠ emptyList ∧ (q = fullList ↔ Finset.range (blkBits i) ⊆ insert b (t.used k)) ∧
        t'.queue = Queues.move t.queue k (i, q) := by
  simp only [alloc, Option.bind_eq_bind, Option.bind_eq_some_iff, Option.some.injEq,
    Prod.mk.injEq] at h
  obtain ⟨k', hk, b', hb, ⟨rfl, rfl⟩, rfl⟩ := h
  obtain ⟨hlt, hnot⟩ := Bits.firstZero_some hb
  refine ⟨hk, hlt, hnot, rfl, _, ?_, ?_, rfl⟩
  · split_ifs <;> simp
  · split_ifs with hf <;> simp [hf]

theorem alloc_firstZero (h : t.alloc i = some ((k, b), t')) :
    Bits.firstZero (t.used k) (blkBits i) = some b := by
  simp only [alloc, Option.bind_eq_bind, Option.bind_eq_some_iff, Option.some.injEq,
    Prod.mk.injEq] at h
  obtain ⟨_, _, _, hb, ⟨rfl, rfl⟩, -⟩ := h
  exact hb

theorem Inv.pick_used (hi : Inv m t) (h : t.pick i = some k) :
    t.used k ⊆ Finset.range (blkBits i) ∧ ¬Finset.range (blkBits i) ⊆ t.used k := by
  rcases pick_cases h with hp | ⟨-, he⟩
  · exact ⟨(hi.split i k (Or.inr hp)).2, hi.room i k hp⟩
  · rw [hi.unused k he]
    exact ⟨Finset.empty_subset _, fun hsub => by
      simpa using hsub (Finset.mem_range.mpr (blkBits_pos i))⟩

-- A descriptor at hand always has room, so only an empty shelf refuses.
theorem Inv.alloc_eq_none (hi : Inv m t) : t.alloc i = none ↔
    t.queue (i, partialList) = [] ∧ t.queue (lastSlab, emptyList) = [] := by
  rw [← pick_eq_none]
  cases hp : t.pick i with
  | none => simp [alloc, hp]
  | some k =>
      cases hb : Bits.firstZero (t.used k) (blkBits i) with
      | none => exact absurd (Bits.firstZero_none.mp hb) (hi.pick_used hp).2
      | some b => simp [alloc, hp, hb]

theorem Inv.pick_mem (_ : Inv m t) (h : t.pick i = some k) : ∃ p, k ∈ t.queue p :=
  (pick_cases h).elim (fun hm => ⟨_, hm⟩) (fun hm => ⟨_, hm.2⟩)

theorem Inv.pick_shelf (hi : Inv m t) (h : t.pick i = some k) (hj : t.OnShelf j k) : j = i := by
  rcases pick_cases h with hp | ⟨-, he⟩
  · exact hi.onShelf_unique hj (Or.inr hp)
  · exact absurd hj (hi.not_onShelf_of_empty he)

theorem cover_move (hi : Inv m t) {p : SlabHead} (hp : ∃ p, k ∈ t.queue p)
    (hq : t'.queue = Queues.move t.queue k p) (x : ℕ) : x < m.count ↔ ∃ p, x ∈ t'.queue p := by
  rw [hi.cover x]
  simp only [hq, hi.apart.mem_move]
  by_cases hx : x = k
  · subst hx
    exact ⟨fun _ => ⟨p, Or.inr ⟨rfl, rfl⟩⟩, fun _ => hp⟩
  · simp [hx]

theorem noEmpty_move (hi : Inv m t) {p : SlabHead} (hp : p.2 = emptyList → p.1 = lastSlab)
    (hq : t'.queue = Queues.move t.queue k p) (j : Slab) (hj : j ≠ lastSlab) :
    t'.queue (j, emptyList) = [] := by
  have hne : (j, emptyList) ≠ p := by
    rintro rfl
    exact hj (hp rfl)
  rw [hq, Queues.move_of_ne _ _ hne, Queues.remove, hi.noEmpty j hj, List.erase_nil]

theorem Inv.alloc (hi : Inv m t) (h : t.alloc i = some ((k, b), t')) : Inv m t' := by
  obtain ⟨hpick, hb, hnot, hused, q, hq, hfull, hqueue⟩ := alloc_cases h
  have hshelf := onShelf_move hi.apart hqueue
  obtain ⟨hsub, -⟩ := hi.pick_used hpick
  refine ⟨hqueue ▸ hi.apart.move k _, cover_move hi (hi.pick_mem hpick) hqueue,
    noEmpty_move hi (fun he => absurd he hq) hqueue, ?_, ?_, ?_⟩
  · intro x hx
    rw [hqueue, hi.apart.mem_move] at hx
    rcases hx with ⟨hxk, hx⟩ | ⟨-, hp⟩
    · rw [hused, Function.update_of_ne hxk]
      exact hi.unused x hx
    · exact absurd (congrArg Prod.snd hp).symm hq
  · intro j x hx
    rcases (hshelf j x).mp hx with ⟨hxk, hx⟩ | ⟨rfl, rfl, -⟩
    · rw [hused, Function.update_of_ne hxk]
      exact hi.split j x hx
    · rw [hused, Function.update_self]
      exact ⟨Finset.insert_nonempty _ _, Finset.insert_subset (Finset.mem_range.mpr hb) hsub⟩
  · intro j x hx
    rw [hqueue, hi.apart.mem_move] at hx
    rcases hx with ⟨hxk, hx⟩ | ⟨rfl, hp⟩
    · rw [hused, Function.update_of_ne hxk]
      exact hi.room j x hx
    · obtain ⟨rfl, rfl⟩ := Prod.mk.inj hp
      rw [hused, Function.update_self]
      exact fun hf => absurd (hfull.mpr hf) (by simp)

-- An allocation marks one block more.
theorem Inv.marked_alloc (hi : Inv m t) (h : t.alloc i = some ((k, b), t')) (blk : ℕ × ℕ) :
    t'.Marked m blk ↔ t.Marked m blk ∨ blk = block m i k b := by
  obtain ⟨hpick, -, -, hused, q, hq, -, hqueue⟩ := alloc_cases h
  have hshelf := onShelf_move hi.apart hqueue
  constructor
  · rintro ⟨j, l, c, hl, hc, rfl⟩
    rcases (hshelf j l).mp hl with ⟨hlk, hl⟩ | ⟨rfl, rfl, -⟩
    · rw [hused, Function.update_of_ne hlk] at hc
      exact Or.inl ⟨j, l, c, hl, hc, rfl⟩
    · rw [hused, Function.update_self, Finset.mem_insert] at hc
      rcases hc with rfl | hc
      · exact Or.inr rfl
      · rcases pick_cases hpick with hp | ⟨-, he⟩
        · exact Or.inl ⟨j, l, c, Or.inr hp, hc, rfl⟩
        · simp [hi.unused l he] at hc
  · rintro (⟨j, l, c, hl, hc, rfl⟩ | rfl)
    · by_cases hlk : l = k
      · subst hlk
        obtain rfl := hi.pick_shelf hpick hl
        refine ⟨j, l, c, (hshelf j l).mpr (Or.inr ⟨rfl, rfl, hq⟩), ?_, rfl⟩
        rw [hused, Function.update_self]
        exact Finset.mem_insert_of_mem hc
      · refine ⟨j, l, c, (hshelf j l).mpr (Or.inl ⟨hlk, hl⟩), ?_, rfl⟩
        rwa [hused, Function.update_of_ne hlk]
    · refine ⟨i, k, b, (hshelf i k).mpr (Or.inr ⟨rfl, rfl, hq⟩), ?_, rfl⟩
      rw [hused, Function.update_self]
      exact Finset.mem_insert_self b _

theorem Inv.alloc_fresh (hi : Inv m t) (h : t.alloc i = some ((k, b), t')) :
    ¬t.Marked m (block m i k b) := by
  obtain ⟨hpick, hb, hnot, -, -⟩ := alloc_cases h
  rintro ⟨j, l, c, hl, hc, he⟩
  obtain ⟨p, hp⟩ := hi.pick_mem hpick
  have hk : k < m.count := (hi.cover k).mpr ⟨p, hp⟩
  by_cases hlk : k = l
  · subst hlk
    obtain rfl := hi.pick_shelf hpick hl
    exact hnot (slot_injective _ (blkSize_pos _) he ▸ hc)
  · have hcl := Finset.mem_range.mp ((hi.split j l hl).2 hc)
    have ha := (pieces_apart hk (hi.onShelf_lt hl) hlk).mono (block_within hb k)
      (block_within hcl l)
    rw [he] at ha
    exact not_apart_self (blkSize_pos j) ha

theorem find_cases (h : t.find m i addr = some k) :
    t.OnShelf i k ∧ m.Covers k addr := by
  have hm := List.mem_append.mp (List.mem_of_find?_eq_some h)
  have hp := List.find?_some h
  exact ⟨hm, by simpa using hp⟩

theorem Inv.find_eq (hi : Inv m t) (hk : t.OnShelf i k) (hcov : m.Covers k addr) :
    t.find m i addr = some k := by
  have hsome : (t.find m i addr).isSome :=
    List.find?_isSome.mpr ⟨k, List.mem_append.mpr hk, decide_eq_true hcov⟩
  obtain ⟨l, hl⟩ := Option.isSome_iff_exists.mp hsome
  obtain ⟨hs, hcov'⟩ := find_cases hl
  by_contra hne
  have hkl : k ≠ l := fun he => hne (he ▸ hl)
  have ha := pieces_apart (hi.onShelf_lt hk) (hi.onShelf_lt hs) hkl
  simp only [Apart, MemMap.Covers] at ha hcov hcov'
  omega

-- What a successful release has done.
theorem free_cases (h : t.free m i addr = some ((k, b), t')) :
    t.find m i addr = some k ∧ b = (addr - m.base k) / blkSize i ∧ b ∈ t.used k ∧
      t'.used = Function.update t.used k ((t.used k).erase b) ∧
      t'.queue = if (t.used k).erase b = ∅ then Queues.move t.queue k (lastSlab, emptyList)
        else t.queue := by
  simp only [free, Option.bind_eq_bind, Option.bind_eq_some_iff, Option.ite_none_right_eq_some,
    Option.some.injEq, Prod.mk.injEq] at h
  obtain ⟨k', hk, hb, ⟨rfl, rfl⟩, rfl⟩ := h
  exact ⟨hk, rfl, hb, rfl, rfl⟩

theorem Inv.onShelf_free (hi : Inv m t) (h : t.free m i addr = some ((k, b), t')) (j : Slab)
    (x : ℕ) : t'.OnShelf j x ↔ t.OnShelf j x ∧ ¬(x = k ∧ (t.used k).erase b = ∅) := by
  obtain ⟨-, -, -, -, hqueue⟩ := free_cases h
  by_cases he : (t.used k).erase b = ∅
  · rw [if_pos he] at hqueue
    rw [onShelf_move hi.apart hqueue]
    simp only [he]
    tauto
  · rw [if_neg he] at hqueue
    simp [OnShelf, hqueue, he]

theorem Inv.free (hi : Inv m t) (h : t.free m i addr = some ((k, b), t')) : Inv m t' := by
  have hshelf := hi.onShelf_free h
  obtain ⟨hfind, -, -, hused, hqueue⟩ := free_cases h
  obtain ⟨hk, -⟩ := find_cases hfind
  have hsplit (j : Slab) (x : ℕ) (hx : t'.OnShelf j x) :
      (t'.used x).Nonempty ∧ t'.used x ⊆ Finset.range (blkBits j) := by
    obtain ⟨hx, hne⟩ := (hshelf j x).mp hx
    by_cases hxk : x = k
    · subst hxk
      rw [hused, Function.update_self]
      exact ⟨Finset.nonempty_iff_ne_empty.mpr fun he => hne ⟨rfl, he⟩,
        (Finset.erase_subset _ _).trans (hi.split j x hx).2⟩
    · rw [hused, Function.update_of_ne hxk]
      exact hi.split j x hx
  have hroom (j : Slab) (x : ℕ) (hx : x ∈ t.queue (j, partialList)) :
      ¬Finset.range (blkBits j) ⊆ t'.used x := by
    intro hsub
    refine hi.room j x hx (hsub.trans ?_)
    rw [hused]
    by_cases hxk : x = k
    · subst hxk
      rw [Function.update_self]
      exact Finset.erase_subset _ _
    · rw [Function.update_of_ne hxk]
  by_cases he : (t.used k).erase b = ∅
  · rw [if_pos he] at hqueue
    refine ⟨hqueue ▸ hi.apart.move k _, ?_, noEmpty_move hi (fun _ => rfl) hqueue, ?_, hsplit, ?_⟩
    · exact cover_move hi ((hi.cover k).mp (hi.onShelf_lt hk)) hqueue
    · intro x hx
      rw [hqueue, hi.apart.mem_move] at hx
      rcases hx with ⟨hxk, hx⟩ | ⟨rfl, -⟩
      · rw [hused, Function.update_of_ne hxk]
        exact hi.unused x hx
      · rw [hused, Function.update_self, he]
    · intro j x hx
      rw [hqueue, hi.apart.mem_move] at hx
      rcases hx with ⟨-, hx⟩ | ⟨-, hp⟩
      · exact hroom j x hx
      · simp at hp
  · rw [if_neg he] at hqueue
    refine ⟨hqueue ▸ hi.apart, hqueue ▸ hi.cover, hqueue ▸ hi.noEmpty, ?_, hsplit, ?_⟩
    · intro x hx
      rw [hqueue] at hx
      have hxk : x ≠ k := fun hxk => hi.not_onShelf_of_empty hx (hxk ▸ hk)
      rw [hused, Function.update_of_ne hxk]
      exact hi.unused x hx
    · exact fun j x hx => hroom j x (hqueue ▸ hx)

-- A release takes away the mark of one block and of no other.
theorem Inv.marked_free (hi : Inv m t) (h : t.free m i addr = some ((k, b), t')) (blk : ℕ × ℕ) :
    t'.Marked m blk ↔ t.Marked m blk ∧ blk ≠ block m i k b := by
  have hshelf := hi.onShelf_free h
  obtain ⟨hfind, -, hb, hused, -⟩ := free_cases h
  obtain ⟨hk, -⟩ := find_cases hfind
  constructor
  · rintro ⟨j, l, c, hl, hc, rfl⟩
    obtain ⟨hl, -⟩ := (hshelf j l).mp hl
    have hc' : c ∈ t.used l ∧ ¬(l = k ∧ c = b) := by
      by_cases hlk : l = k
      · subst hlk
        rw [hused, Function.update_self, Finset.mem_erase] at hc
        exact ⟨hc.2, fun he => hc.1 he.2⟩
      · rw [hused, Function.update_of_ne hlk] at hc
        exact ⟨hc, fun he => hlk he.1⟩
    exact ⟨⟨j, l, c, hl, hc'.1, rfl⟩, fun he => hc'.2 (hi.block_injective hl hk hc'.1 hb he)⟩
  · rintro ⟨⟨j, l, c, hl, hc, rfl⟩, hne⟩
    by_cases hlk : l = k
    · subst hlk
      obtain rfl := hi.onShelf_unique hl hk
      have hcb : c ≠ b := fun he => hne (he ▸ rfl)
      have hmem : c ∈ (t.used l).erase b := Finset.mem_erase.mpr ⟨hcb, hc⟩
      refine ⟨j, l, c, (hshelf j l).mpr ⟨hl, fun he => ?_⟩, ?_, rfl⟩
      · simp [he.2] at hmem
      · rwa [hused, Function.update_self]
    · refine ⟨j, l, c, (hshelf j l).mpr ⟨hl, fun he => hlk he.1⟩, ?_, rfl⟩
      rwa [hused, Function.update_of_ne hlk]

-- What a release needs, and what it then releases.
theorem Inv.free_of (hi : Inv m t) (hk : t.OnShelf i k) (hcov : m.Covers k addr)
    (hdiv : (addr - m.base k) / blkSize i = b) (hb : b ∈ t.used k) :
    ∃ t', t.free m i addr = some ((k, b), t') := by
  simp only [Shelves.free, hi.find_eq hk hcov, Option.bind_eq_bind, Option.bind_some, hdiv, if_pos hb]
  exact ⟨_, rfl⟩

-- A marked block can be released under its own address.
theorem Inv.free_block (hi : Inv m t) (hk : t.OnShelf i k) (hb : b ∈ t.used k) :
    ∃ t', t.free m i (block m i k b).1 = some ((k, b), t') := by
  have hlt := Finset.mem_range.mp ((hi.split i k hk).2 hb)
  have hw := block_within (m := m) hlt k
  have hsz := blkSize_le i
  have hcov : m.Covers k (block m i k b).1 := by
    simp only [Within, MemMap.Covers, block, slot] at hw ⊢
    omega
  have hdiv : ((block m i k b).1 - m.base k) / blkSize i = b := by
    simp only [block, slot, Nat.add_sub_cancel_left]
    exact Nat.mul_div_cancel b (blkSize_pos i)
  exact hi.free_of hk hcov hdiv hb

end Lmosem.Shelves
