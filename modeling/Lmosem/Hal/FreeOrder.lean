import Lmosem.Hal.Runs
import Lmosem.Lib.Reorder

namespace Lmosem

open Intrusive SlabQueue Region Shelves Transition

namespace Shelves

variable {m : MemMap} {t t' u : Shelves} {i j : Slab} {k l b c a a' : ℕ}

-- Equal but for the order in which wholly free descriptors wait.
structure Alike (t u : Shelves) : Prop where
  used : t.used = u.used
  queue : ∀ p, p ≠ (lastSlab, emptyList) → t.queue p = u.queue p
  empty : (t.queue (lastSlab, emptyList)).Perm (u.queue (lastSlab, emptyList))

theorem Alike.refl (t : Shelves) : Alike t t := ⟨rfl, fun _ _ => rfl, List.Perm.refl _⟩

theorem Alike.trans {v : Shelves} (h : Alike t u) (h' : Alike u v) : Alike t v :=
  ⟨h.used.trans h'.used, fun p hp => (h.queue p hp).trans (h'.queue p hp), h.empty.trans h'.empty⟩

theorem Alike.onShelf (h : Alike t u) : t.OnShelf i k ↔ u.OnShelf i k := by
  unfold OnShelf
  rw [h.queue _ (by simp), h.queue _ (by simp)]

-- The shelves without bit `b` of descriptor `k`.
def clear (t : Shelves) (k b : ℕ) : Shelves :=
  ⟨if (t.used k).erase b = ∅ then Queues.move t.queue k (lastSlab, emptyList) else t.queue,
    Function.update t.used k ((t.used k).erase b)⟩

theorem eq_clear (hf : t.free m i a = some ((k, b), t')) : t' = t.clear k b := by
  obtain ⟨-, -, -, hused, hqueue⟩ := free_cases hf
  unfold clear
  rw [← hused, ← hqueue]

theorem Alike.clear (h : Alike t u) (k b : ℕ) : Alike (t.clear k b) (u.clear k b) := by
  unfold Shelves.clear
  rw [h.used]
  refine ⟨rfl, fun p hp => ?_, ?_⟩
  · dsimp only
    split_ifs
    · rw [Queues.move_of_ne _ _ hp, Queues.move_of_ne _ _ hp, Queues.remove, Queues.remove,
        h.queue p hp]
    · exact h.queue p hp
  · dsimp only
    split_ifs
    · exact Queues.move_perm _ h.empty
    · exact h.empty

-- The second bit of one descriptor keeps it in its class, two descriptors do not meet.
theorem clear_comm (hb : b ∈ t.used k) (hc : c ∈ t.used l) (hne : ¬(k = l ∧ b = c)) :
    Alike ((t.clear k b).clear l c) ((t.clear l c).clear k b) := by
  by_cases hkl : k = l
  · subst hkl
    have hbc : b ≠ c := fun he => hne ⟨rfl, he⟩
    have hb' : (t.used k).erase c ≠ ∅ := Finset.ne_empty_of_mem (Finset.mem_erase.mpr ⟨hbc, hb⟩)
    have hc' : (t.used k).erase b ≠ ∅ :=
      Finset.ne_empty_of_mem (Finset.mem_erase.mpr ⟨hbc.symm, hc⟩)
    have heq : (t.clear k b).clear k c = (t.clear k c).clear k b := by
      simp only [clear, if_neg hb', if_neg hc', Function.update_self, Function.update_idem,
        Finset.erase_right_comm (a := b) (b := c)]
    exact heq ▸ Alike.refl _
  · unfold clear
    simp only [Function.update_of_ne hkl, Function.update_of_ne (Ne.symm hkl)]
    refine ⟨Function.update_comm hkl _ _ _, fun p hp => ?_, ?_⟩
    · dsimp only
      split_ifs
      · exact Queues.move_comm_of_ne _ _ _ hp
      all_goals rfl
    · dsimp only
      split_ifs
      · exact Queues.move_comm_perm _ hkl _
      all_goals exact List.Perm.refl _

-- Shelves that are alike release alike.
theorem Alike.free (h : Alike t u) (hu : Inv m u) (hf : t.free m i a = some ((k, b), t')) :
    ∃ u', u.free m i a = some ((k, b), u') ∧ Alike t' u' := by
  obtain ⟨hfind, hdiv, hb, -, -⟩ := free_cases hf
  obtain ⟨hk, hcov⟩ := find_cases hfind
  obtain ⟨u', hf'⟩ := hu.free_of (h.onShelf.mp hk) hcov hdiv.symm (h.used ▸ hb)
  refine ⟨u', hf', ?_⟩
  rw [eq_clear hf, eq_clear hf']
  exact h.clear k b

-- Two releases can be swapped: they clear different bits, so neither takes the
-- other's descriptor out of its class.
theorem Inv.free_swap (hi : Inv m t) (hf : t.free m i a = some ((k, b), t'))
    (hg : t'.free m j a' = some ((l, c), u)) :
    ∃ v w, t.free m j a' = some ((l, c), v) ∧ v.free m i a = some ((k, b), w) ∧ Alike u w := by
  have hshelf := hi.onShelf_free hf
  obtain ⟨hfind, hdiv, hb, hused, -⟩ := free_cases hf
  obtain ⟨hfind', hdiv', hc, -, -⟩ := free_cases hg
  obtain ⟨hk, hcov⟩ := find_cases hfind
  obtain ⟨hl, hcov'⟩ := find_cases hfind'
  have hclear : c ∈ t.used l ∧ ¬(k = l ∧ b = c) := by
    rw [hused] at hc
    by_cases hkl : k = l
    · subst hkl
      rw [Function.update_self, Finset.mem_erase] at hc
      exact ⟨hc.2, fun he => hc.1 he.2.symm⟩
    · rw [Function.update_of_ne (Ne.symm hkl)] at hc
      exact ⟨hc, fun he => hkl he.1⟩
  obtain ⟨v, hv⟩ := hi.free_of ((hshelf j l).mp hl).1 hcov' hdiv'.symm hclear.1
  have hstill : b ∈ v.used k ∧ ¬(k = l ∧ (t.used l).erase c = ∅) := by
    rw [(free_cases hv).2.2.2.1]
    by_cases hkl : k = l
    · subst hkl
      have hmem : b ∈ (t.used k).erase c :=
        Finset.mem_erase.mpr ⟨fun he => hclear.2 ⟨rfl, he⟩, hb⟩
      rw [Function.update_self]
      exact ⟨hmem, fun he => Finset.ne_empty_of_mem hmem he.2⟩
    · rw [Function.update_of_ne hkl]
      exact ⟨hb, fun he => hkl he.1⟩
  have hkv : v.OnShelf i k := (hi.onShelf_free hv i k).mpr ⟨hk, hstill.2⟩
  obtain ⟨w, hw⟩ := (hi.free hv).free_of hkv hcov hdiv.symm hstill.1
  refine ⟨v, w, hv, hw, ?_⟩
  rw [eq_clear hg, eq_clear hf, eq_clear hw, eq_clear hv]
  exact clear_comm hb hclear.1 hclear.2

-- The release of one block, whatever its class.
def Released (m : MemMap) (t : Shelves) (blk : Adr × SizeT) (t' : Shelves) : Prop :=
  ∃ i k b, blk.2 = slabSize i ∧ t.free m i blk.1.toNat = some ((k, b), t')

theorem Released.inv {blk : Adr × SizeT} (hi : Inv m t) (h : Released m t blk t') : Inv m t' := by
  obtain ⟨i, k, b, -, hf⟩ := h
  exact hi.free hf

-- Any order of releases leads to shelves that are alike.
theorem released_perm {blks blks' : List (Adr × SizeT)} (hp : blks.Perm blks') (hi : Inv m t)
    (h : Follows (Released m) blks t t') :
    ∃ u, Follows (Released m) blks' t u ∧ Alike t' u := by
  refine h.perm (I := Inv m) Alike.refl (fun _ _ _ => Alike.trans) ?_ ?_ ?_ hp hi
  · exact fun _ _ _ hi hr => hr.inv hi
  · rintro v w blk v' - hw ha ⟨i, k, b, hsize, hf⟩
    obtain ⟨w', hf', ha'⟩ := ha.free hw hf
    exact ⟨w', ⟨i, k, b, hsize, hf'⟩, ha'⟩
  · rintro v x y v' w hv ⟨i, k, b, hsize, hf⟩ ⟨j, l, c, hsize', hg⟩
    obtain ⟨v'', w', hg', hf', ha⟩ := hv.free_swap hf hg
    exact ⟨v'', w', ⟨j, l, c, hsize', hg'⟩, ⟨i, k, b, hsize, hf'⟩, ha⟩

end Shelves

-- Freeing some blocks one after the other.
def freeMemBlks : List (Adr × SizeT) → Mm → Outcome (List Bool × Mm)
  | [], s => .ok ([], s)
  | blk :: blks, s => do
      let (ret, s) ← freeMemBlk s blk.1 blk.2
      let (rets, s) ← freeMemBlks blks s
      .ok (ret :: rets, s)

section Lists

variable {m : MemMap} {t t' : Shelves} {s : Mm} {live blks : List (Adr × SizeT)}

theorem BlkInv.released (h : BlkInv m t s live) (hnd : blks.Nodup) (hsub : blks ⊆ live) :
    ∃ t', Follows (Released m) blks t t' := by
  induction blks generalizing t s live with
  | nil => exact ⟨t, rfl⟩
  | cons blk blks ih =>
      obtain ⟨hnot, hnd⟩ := List.nodup_cons.mp hnd
      obtain ⟨i, k, b, t', s', hsize, hf, -, -, -, h'⟩ := h.free_spec (hsub List.mem_cons_self)
      have hsub' : blks ⊆ live.erase blk := fun x hx =>
        h.distinct.mem_erase_iff.mpr
          ⟨fun he => hnot (he ▸ hx), hsub (List.mem_cons_of_mem _ hx)⟩
      obtain ⟨u, hu⟩ := ih h' hnd hsub'
      exact ⟨u, t', ⟨i, k, b, hsize, hf⟩, hu⟩

-- The calls follow the releases of the shelves, and none is refused.
theorem Rep.freeMemBlks (h : Rep m s t) (hi : Inv m t) (hr : Follows (Released m) blks t t') :
    ∃ s', Lmosem.freeMemBlks blks s = .ok (List.replicate blks.length true, s') ∧ Rep m s' t' ∧
      Inv m t' := by
  induction blks generalizing t s with
  | nil =>
      obtain rfl : t' = t := hr
      exact ⟨s, rfl, h, hi⟩
  | cons blk blks ih =>
      obtain ⟨u, ⟨i, k, b, hsize, hf⟩, hr⟩ := hr
      obtain ⟨v, hcall, hrep, -⟩ := h.free hi hf
      obtain ⟨s', hcalls, hrep', hi'⟩ := ih hrep (hi.free hf) hr
      refine ⟨s', ?_, hrep', hi'⟩
      unfold Lmosem.freeMemBlks
      rw [hsize, hcall]
      simp only [Outcome.ok_bind, hcalls, List.length_cons, List.replicate_succ]

end Lists

-- The order in which live blocks are freed shows only in the order of `slabs[5].empty_list`.
theorem free_order_independent {s : Mm} {c : BlkState} (hb : Booted s)
    (hr : Reachable BlkStep ⟨s, []⟩ c) {blks blks' : List (Adr × SizeT)} (hlive : blks ⊆ c.live)
    (hnd : blks.Nodup) (hp : blks.Perm blks') :
    ∃ s₁ s₂, freeMemBlks blks c.mm = .ok (List.replicate blks.length true, s₁) ∧
      freeMemBlks blks' c.mm = .ok (List.replicate blks'.length true, s₂) ∧
      (∀ k < c.mm.mach.memDescCount, ∃ d, s₁.descs k = some d ∧ s₂.descs k = some d) ∧
      ∃ q₁ q₂, Rings s₁.links q₁ ∧ Rings s₂.links q₂ ∧
        (∀ k < c.mm.mach.memDescCount, ∃ p, k ∈ q₁ p ∧ k ∈ q₂ p) ∧
        (∀ p, p ≠ (lastSlab, emptyList) → q₁ p = q₂ p) ∧
        (q₁ (lastSlab, emptyList)).Perm (q₂ (lastSlab, emptyList)) := by
  obtain ⟨m, t, h⟩ := hb.reachable hr
  obtain ⟨t₁, hf₁⟩ := h.released hnd hlive
  obtain ⟨t₂, hf₂, ha⟩ := released_perm hp h.inv hf₁
  obtain ⟨s₁, hcall₁, hrep₁, hi₁⟩ := h.rep.freeMemBlks h.inv hf₁
  obtain ⟨s₂, hcall₂, hrep₂, hi₂⟩ := h.rep.freeMemBlks h.inv hf₂
  have hmem (p : SlabHead) (k : ℕ) : k ∈ t₁.queue p ↔ k ∈ t₂.queue p := by
    by_cases hp : p = (lastSlab, emptyList)
    · subst hp
      exact ha.empty.mem_iff
    · rw [ha.queue p hp]
  refine ⟨s₁, s₂, hcall₁, hcall₂, fun k hk => ?_, t₁.queue, t₂.queue, hrep₁.rings, hrep₂.rings,
    fun k hk => ?_, ha.queue, ha.empty⟩
  · rw [h.rep.count] at hk
    obtain ⟨p, hkp⟩ := (hi₁.cover k).mp hk
    obtain ⟨d, hd, hd₁⟩ := hrep₁.descs p k hkp
    obtain ⟨d', hd', hd₂⟩ := hrep₂.descs p k ((hmem p k).mp hkp)
    obtain rfl := hd₁.unique hd₂ (congrFun ha.used k)
    exact ⟨d, hd, hd'⟩
  · rw [h.rep.count] at hk
    obtain ⟨p, hkp⟩ := (hi₁.cover k).mp hk
    exact ⟨p, hkp, (hmem p k).mp hkp⟩

-- Three blocks of two sizes, freed first to last and last to first.
theorem free_order_independent_shipped : ∃ c s₁ s₂, Reachable BlkStep ⟨bootMm, []⟩ c ∧
    c.live.length = 3 ∧ freeMemBlks c.live c.mm = .ok ([true, true, true], s₁) ∧
    freeMemBlks c.live.reverse c.mm = .ok ([true, true, true], s₂) ∧
    ∀ k < c.mm.mach.memDescCount, ∃ d, s₁.descs k = some d ∧ s₂.descs k = some d := by
  obtain ⟨trace, c, hrun, hc⟩ := exists_run
    [.alloc BLK2MB_SIZE, .alloc BLK1MB_SIZE, .alloc BLK2MB_SIZE] ⟨bootMm, []⟩
    (fun _ c => c.live.length = 3 ∧ c.live.Nodup) (by decide +kernel)
  obtain ⟨hlen, hnd⟩ := of_decide_eq_true hc
  have hr : Reachable BlkStep ⟨bootMm, []⟩ c := ⟨trace, hrun⟩
  obtain ⟨s₁, s₂, h₁, h₂, hdescs, -⟩ := free_order_independent bootMm_booted hr
    (List.Subset.refl c.live) hnd (List.reverse_perm c.live).symm
  rw [hlen] at h₁
  rw [List.length_reverse, hlen] at h₂
  exact ⟨c, s₁, s₂, hr, hlen, h₁, h₂, hdescs⟩

end Lmosem
