import Lmosem.Kernel.Pools
import Lmosem.Hal.Runs

-- The page allocator as what it is for: pools in the order of their list, over
-- the shelves their blocks come from.
namespace Lmosem

open Region

-- The pool has a free page of this size.
def Pool.Fits (P : Pool) (size : SizeT) : Prop := P.free ≠ [] ∧ P.size = size.toNat

instance (P : Pool) (size : SizeT) : Decidable (P.Fits size) := inferInstanceAs (Decidable (_ ∧ _))

-- A pool's pages lie behind its first one, so none starts at NULL.
theorem Pool.page_ne_null {P : Pool} {ret : Adr} {size : SizeT} {i : ℕ}
    (hrange : range (ret, size) = P.page i) : ret ≠ NULL := by
  have haddr : ret.toNat = P.base + 2 ^ 12 + i * P.size := congrArg Prod.fst hrange
  rw [ne_null_iff]
  omega

structure Pools where
  shelves : Shelves
  order : List Adr
  pool : Adr → Pool

namespace Pools

def set (p : Pools) (a : Adr) (P : Pool) : Pools := { p with pool := Function.update p.pool a P }

def insert (p : Pools) (t : Shelves) (a : Adr) (P : Pool) : Pools where
  shelves := t
  order := p.order ++ [a]
  pool := Function.update p.pool a P

def remove (p : Pools) (t : Shelves) (a : Adr) : Pools :=
  { p with shelves := t, order := p.order.erase a }

@[simp] theorem set_self (p : Pools) (a : Adr) (P : Pool) : (p.set a P).pool a = P :=
  Function.update_self ..

@[simp] theorem set_of_ne (p : Pools) {a b : Adr} (h : b ≠ a) (P : Pool) :
    (p.set a P).pool b = p.pool b :=
  Function.update_of_ne h ..

@[simp] theorem insert_self (p : Pools) (t : Shelves) (a : Adr) (P : Pool) :
    (p.insert t a P).pool a = P :=
  Function.update_self ..

@[simp] theorem insert_of_ne (p : Pools) (t : Shelves) {a b : Adr} (h : b ≠ a) (P : Pool) :
    (p.insert t a P).pool b = p.pool b :=
  Function.update_of_ne h ..

-- A new pool at `a`, with every page free, in a block fresh from the shelves.
structure Opens (p : Pools) (size : SizeT) (a : Adr) (P : Pool) (p' : Pools) : Prop where
  full : ∀ b ∈ p.order, ¬(p.pool b).Fits size
  fresh : a ∉ p.order
  base : P.base = a.toNat
  size : P.size = size.toNat
  free : P.free = List.range P.capacity
  block : ∃ kb t', p.shelves.alloc P.cls = some (kb, t') ∧ p' = p.insert t' a P

-- One call of the page allocator. Which of several fitting pools serves it is left open.
inductive Step (m : MemMap) (p : Pools) : BlkEvent → Pools → Prop
  | take {a ret : Adr} {size : SizeT} {i : ℕ} {rest : List ℕ} (ha : a ∈ p.order)
      (hsize : (p.pool a).size = size.toNat) (hfree : (p.pool a).free = i :: rest)
      (hrange : range (ret, size) = (p.pool a).page i) :
      Step m p (.alloc size ret) (p.set a ((p.pool a).take rest))
  | unserved {size : SizeT} (hcls : poolClass size.toNat = none) : Step m p (.alloc size NULL) p
  | refuse {size : SizeT} {c : Slab} (hfull : ∀ a ∈ p.order, ¬(p.pool a).Fits size)
      (hcls : poolClass size.toNat = some c) (hnone : p.shelves.alloc c = none) :
      Step m p (.alloc size NULL) p
  | barren {a : Adr} {size : SizeT} {P : Pool} {p' : Pools} (hopen : p.Opens size a P p')
      (hnone : P.capacity = 0) : Step m p (.alloc size NULL) p'
  | create {a ret : Adr} {size : SizeT} {P : Pool} {p' : Pools} {i : ℕ} {rest : List ℕ}
      (hopen : p.Opens size a P p') (hfree : P.free = i :: rest)
      (hrange : range (ret, size) = P.page i) : Step m p (.alloc size ret) (p'.set a (P.take rest))
  | give {a addr : Adr} {size : SizeT} {i j : ℕ} (ha : a ∈ p.order) (hi : (p.pool a).InUse i)
      (hrange : range (addr, size) = (p.pool a).page i) (hj : (p.pool a).InUse j) (hij : j ≠ i) :
      Step m p (.free addr size true) (p.set a ((p.pool a).give i))
  | close {a addr : Adr} {size : SizeT} {i : ℕ} {kb : ℕ × ℕ} {t' : Shelves} (ha : a ∈ p.order)
      (hi : (p.pool a).InUse i) (hrange : range (addr, size) = (p.pool a).page i)
      (hlast : ∀ j, (p.pool a).InUse j → j = i)
      (hfree : p.shelves.free m (p.pool a).cls a.toNat = some (kb, t')) :
      Step m p (.free addr size true) ((p.set a ((p.pool a).give i)).remove t' a)

end Pools

end Lmosem
