import Mathlib.Tactic.TypeStar

-- What running a piece of a kernel can come to.
inductive Outcome (α : Type) where
  | ok (value : α)
  | die (message : String)
  | fault
  | hang
deriving DecidableEq, Repr

namespace Outcome

variable {α β : Type}

def bind : Outcome α → (α → Outcome β) → Outcome β
  | ok a, f => f a
  | die message, _ => die message
  | fault, _ => fault
  | hang, _ => hang

instance : Monad Outcome where
  pure := ok
  bind := bind

def isOk : Outcome α → Bool
  | ok _ => true
  | _ => false

def getD : Outcome α → α → α
  | ok a, _ => a
  | _, b => b

@[simp] theorem pure_eq (a : α) : (pure a : Outcome α) = ok a := rfl

@[simp] theorem ok_bind (a : α) (f : α → Outcome β) : (ok a >>= f) = f a := rfl

@[simp] theorem die_bind (message : String) (f : α → Outcome β) :
    ((die message : Outcome α) >>= f) = die message := rfl

@[simp] theorem fault_bind (f : α → Outcome β) : ((fault : Outcome α) >>= f) = fault := rfl

@[simp] theorem hang_bind (f : α → Outcome β) : ((hang : Outcome α) >>= f) = hang := rfl

theorem bind_eq_ok {x : Outcome α} {f : α → Outcome β} {b : β} :
    (x >>= f) = ok b ↔ ∃ a, x = ok a ∧ f a = ok b := by
  cases x <;> simp

-- Steps answer with a pair, what they return and the state they leave.
theorem pair_inj {a c : α} {b d : β} (h : ok (a, b) = ok (c, d)) : a = c ∧ b = d :=
  Prod.mk.inj (ok.inj h)

theorem pair_unique {x : Outcome (α × β)} {a c : α} {b d : β} (h : x = ok (a, b))
    (h' : x = ok (c, d)) : a = c ∧ b = d :=
  pair_inj (h.symm.trans h')

theorem exists_of_isOk {x : Outcome α} (h : x.isOk = true) : ∃ a, x = ok a := by
  cases x with
  | ok a => exact ⟨a, rfl⟩
  | die _ | fault | hang => simp [isOk] at h

theorem eq_ok_getD {x : Outcome α} (h : x.isOk = true) (b : α) : x = ok (x.getD b) := by
  obtain ⟨a, rfl⟩ := exists_of_isOk h
  rfl

end Outcome
