import Lmosem.Lib.Outcome
import Mathlib.Data.Nat.Notation
import Mathlib.Data.Sum.Basic

-- Loops that take one reading a turn and go on until they break.
namespace Poll

variable {α σ ρ : Type}

-- The loop from reading number `i` on. Its body goes on with `inl` and breaks with `inr`.
def loop (body : α → σ → σ ⊕ ρ) (input : ℕ → α) : ℕ → ℕ → σ → Outcome (ℕ × ρ)
  | 0, _, _ => .hang
  | fuel + 1, i, s =>
      match body (input i) s with
      | .inl t => loop body input fuel (i + 1) t
      | .inr r => .ok (i, r)

-- Where a loop that starts with reading number 1 is after number `i`, if it gets that far.
def turn (body : α → σ → σ ⊕ ρ) (input : ℕ → α) (s : σ) : ℕ → Option (σ ⊕ ρ)
  | 0 => some (.inl s)
  | i + 1 =>
      match turn body input s i with
      | some (.inl t) => some (body (input (i + 1)) t)
      | _ => none

variable {body : α → σ → σ ⊕ ρ} {input : ℕ → α} {s t : σ} {r : ρ} {x : σ ⊕ ρ} {i j : ℕ}

theorem turn_succ (h : turn body input s i = some (.inl t)) :
    turn body input s (i + 1) = some (body (input (i + 1)) t) := by
  rw [turn, h]

theorem turn_inv (h : turn body input s (i + 1) = some x) :
    ∃ t, turn body input s i = some (.inl t) ∧ x = body (input (i + 1)) t := by
  rw [turn] at h
  split at h
  · next t ht => exact ⟨t, ht, (Option.some.inj h).symm⟩
  · cases h

-- A loop that has got to a turn has gone on in all turns before it.
theorem turn_before (h : turn body input s i = some x) (hj : j < i) :
    ∃ t, turn body input s j = some (.inl t) := by
  induction i generalizing x with
  | zero => omega
  | succ i ih =>
      obtain ⟨t, ht, -⟩ := turn_inv h
      rcases Nat.lt_succ_iff_lt_or_eq.mp hj with hlt | rfl
      · exact ih ht hlt
      · exact ⟨t, ht⟩

-- It gets to every turn it does not break before.
theorem exists_turn (hgo : ∀ j < i, ∀ r, turn body input s j ≠ some (.inr r)) :
    ∃ x, turn body input s i = some x := by
  induction i with
  | zero => exact ⟨_, rfl⟩
  | succ i ih =>
      obtain ⟨x, hx⟩ := ih fun j hj => hgo j (by omega)
      cases x with
      | inl t => exact ⟨_, turn_succ hx⟩
      | inr r => exact absurd hx (hgo i (by omega) r)

theorem loop_turn (h : turn body input s i = some (.inl t)) (fuel : ℕ) :
    loop body input (i + fuel) 1 s = loop body input fuel (i + 1) t := by
  induction i generalizing fuel t with
  | zero =>
      obtain rfl := Sum.inl.inj (Option.some.inj h)
      rw [Nat.zero_add]
  | succ i ih =>
      obtain ⟨u, hu, ht⟩ := turn_inv h
      rw [Nat.add_right_comm, Nat.add_assoc, ih hu, loop, ← ht]

theorem turn_of_loop {fuel : ℕ} (ht : turn body input s i = some (.inl t))
    (h : loop body input fuel (i + 1) t = .ok (j, r)) : turn body input s j = some (.inr r) := by
  induction fuel generalizing i t with
  | zero => cases h
  | succ fuel ih =>
      have hnext := turn_succ ht
      rw [loop] at h
      split at h
      · next u hu => exact ih (hnext.trans (congrArg some hu)) h
      · next u hu =>
          obtain ⟨rfl, rfl⟩ := Outcome.pair_inj h
          exact hnext.trans (congrArg some hu)

-- The loop comes to an end with the turn that breaks.
theorem loop_eq_ok_iff :
    (∃ fuel, loop body input fuel 1 s = .ok (i, r)) ↔ turn body input s i = some (.inr r) := by
  constructor
  · rintro ⟨fuel, h⟩
    exact turn_of_loop rfl h
  · intro h
    cases i with
    | zero => cases h
    | succ i =>
        obtain ⟨t, ht, hr⟩ := turn_inv h
        exact ⟨i + 1, by rw [loop_turn ht, loop, ← hr]⟩

section Exact

variable {Good : ℕ → σ ⊕ ρ → Prop} {Due Clean : ℕ → Prop}

-- A loop that breaks when it is due, as long as it is clean, gets to its first due turn.
theorem exists_turn_of_clean
    (hdue : ∀ i x, turn body input s i = some x → Clean i → (x.isRight = true ↔ Due i))
    (hclean : ∀ i, (∀ j < i, ¬Due j) → Clean i) (hfirst : ∀ j < i, ¬Due j) :
    ∃ x, turn body input s i = some x := by
  refine exists_turn fun j hj r hr => hfirst j hj ?_
  exact (hdue j _ hr (hclean j fun l hl => hfirst l (by omega))).mp rfl

-- What is good in clean turns alone is so in all turns, and the loop breaks with the first
-- due one, exactly when no turn up to that one is unclean.
theorem exact_iff (hgood : ∀ i x, turn body input s i = some x → (Good i x ↔ Clean i))
    (hdue : ∀ i x, turn body input s i = some x → Clean i → (x.isRight = true ↔ Due i)) :
    ((∀ i x, turn body input s i = some x → Good i x) ∧
        ∀ i, (∃ r, turn body input s i = some (.inr r)) ↔ Due i ∧ ∀ j < i, ¬Due j) ↔
      ∀ i, (∀ j < i, ¬Due j) → Clean i := by
  constructor
  · rintro ⟨hall, hleave⟩ i hfirst
    obtain ⟨x, hx⟩ := exists_turn fun j hj r hr => hfirst j hj ((hleave j).mp ⟨r, hr⟩).1
    exact (hgood i x hx).mp (hall i x hx)
  · intro hclean
    have hgo {i : ℕ} {x : σ ⊕ ρ} (hx : turn body input s i = some x) : ∀ j < i, ¬Due j := by
      induction i using Nat.strongRecOn generalizing x with
      | ind i ih =>
          intro j hj hd
          obtain ⟨t, ht⟩ := turn_before hx hj
          have hbreak := (hdue j _ ht (hclean j (ih j hj ht))).mpr hd
          cases hbreak
    refine ⟨fun i x hx => (hgood i x hx).mpr (hclean i (hgo hx)), fun i => ?_⟩
    constructor
    · rintro ⟨r, hr⟩
      exact ⟨(hdue i _ hr (hclean i (hgo hr))).mp rfl, hgo hr⟩
    · rintro ⟨hd, hfirst⟩
      obtain ⟨x, hx⟩ := exists_turn_of_clean hdue hclean hfirst
      have hbreak := (hdue i x hx (hclean i hfirst)).mpr hd
      obtain ⟨r, rfl⟩ := Sum.isRight_iff.mp hbreak
      exact ⟨r, hx⟩

end Exact

end Poll
