import Lmosem.Lib.Outcome
import Mathlib.Data.BitVec
import Mathlib.Data.Int.Notation
import Mathlib.Data.Nat.Notation
import Mathlib.Data.Sum.Basic
import Mathlib.Logic.Function.Iterate
import Mathlib.Tactic.SplitIfs

-- Loops that go on with `inl` and leave with `inr`, and loops that count an `int` down.
namespace While

variable {σ ρ : Type}

def loop (body : σ → σ ⊕ ρ) : ℕ → σ → Outcome ρ
  | 0, _ => .hang
  | fuel + 1, s =>
      match body s with
      | .inl t => loop body fuel t
      | .inr r => .ok r

variable {body : σ → σ ⊕ ρ} {fuel : ℕ} {s t : σ} {r : ρ}

theorem loop_inl (h : body s = .inl t) : loop body (fuel + 1) s = loop body fuel t := by
  rw [loop, h]

theorem loop_inr (h : body s = .inr r) : loop body (fuel + 1) s = .ok r := by
  rw [loop, h]

-- The same for a body that may fail.
def tryLoop (body : σ → Outcome (σ ⊕ ρ)) : ℕ → σ → Outcome ρ
  | 0, _ => .hang
  | fuel + 1, s => do
      match ← body s with
      | .inl t => tryLoop body fuel t
      | .inr r => .ok r

variable {failing : σ → Outcome (σ ⊕ ρ)}

theorem tryLoop_inl (h : failing s = .ok (.inl t)) :
    tryLoop failing (fuel + 1) s = tryLoop failing fuel t := by
  rw [tryLoop, h]
  rfl

theorem tryLoop_inr (h : failing s = .ok (.inr r)) : tryLoop failing (fuel + 1) s = .ok r := by
  rw [tryLoop, h]
  rfl

-- An `int` that is counted down with every test, as long as this comes out true.
def decLoop (test : BitVec 32 → Bool) (body : σ → σ) : ℕ → BitVec 32 → σ → BitVec 32 × σ
  | 0, x, s => (x, s)
  | fuel + 1, x, s =>
      if test x then decLoop test body fuel (x - 1) (body s) else (x - 1, s)

-- `while (--x >= lo) s = body(s);` gives `x` and `s` behind the loop. There are less than 2^32
-- turns, unless every number is at least `lo`.
def preDec (lo : BitVec 32) (body : σ → σ) (x : BitVec 32) (s : σ) : BitVec 32 × σ :=
  decLoop (fun x => lo.sle (x - 1)) body (2 ^ 32) x s

-- The same for `while (lo < x--) s = body(s);`.
def postDec (lo : BitVec 32) (body : σ → σ) (x : BitVec 32) (s : σ) : BitVec 32 × σ :=
  decLoop (fun x => lo.slt x) body (2 ^ 32) x s

-- How many turns the loops make, and where they leave `x`. From the least number on, `--x` and
-- `x--` go on with the greatest one.
def preTurns (lo x : BitVec 32) : ℕ := ((x - 1).toInt + 1 - lo.toInt).toNat

def preRest (lo x : BitVec 32) : BitVec 32 := if lo.sle (x - 1) then lo - 1 else x - 1

def postTurns (lo x : BitVec 32) : ℕ := (x.toInt - lo.toInt).toNat

def postRest (lo x : BitVec 32) : BitVec 32 := if lo.slt x then lo - 1 else x - 1

section Counting

variable {lo x : BitVec 32}

theorem toInt_bounds (x : BitVec 32) : -2 ^ 31 ≤ x.toInt ∧ x.toInt < 2 ^ 31 :=
  ⟨BitVec.le_toInt x, BitVec.toInt_lt⟩

theorem toInt_pred (h : -2 ^ 31 < x.toInt) : (x - 1).toInt = x.toInt - 1 := by
  obtain ⟨-, hhigh⟩ := toInt_bounds x
  have hone : (1 : BitVec 32).toInt = 1 := by decide
  rw [BitVec.toInt_sub, hone]
  exact Int.bmod_eq_of_le (by omega) (by omega)

theorem decLoop_eq {test : BitVec 32 → Bool} {turns : BitVec 32 → ℕ}
    {rest : BitVec 32 → BitVec 32}
    (hgo : ∀ x, test x = true → turns x = turns (x - 1) + 1 ∧ rest (x - 1) = rest x)
    (hstop : ∀ x, ¬test x = true → turns x = 0 ∧ rest x = x - 1) (body : σ → σ) {fuel : ℕ} (s : σ)
    (h : turns x < fuel) : decLoop test body fuel x s = (rest x, body^[turns x] s) := by
  induction fuel generalizing x s with
  | zero => omega
  | succ fuel ih =>
      rw [decLoop]
      by_cases htest : test x = true
      · obtain ⟨hturns, hrest⟩ := hgo x htest
        rw [if_pos htest, ih _ (by omega), hrest, hturns, Function.iterate_succ_apply]
      · obtain ⟨hturns, hrest⟩ := hstop x htest
        rw [if_neg htest, hrest, hturns, Function.iterate_zero_apply]

theorem preDec_eq (hlo : -2 ^ 31 < lo.toInt) (body : σ → σ) (x : BitVec 32) (s : σ) :
    preDec lo body x s = (preRest lo x, body^[preTurns lo x] s) := by
  refine decLoop_eq (fun x hle => ⟨?_, ?_⟩) (fun x hle => ⟨?_, ?_⟩) body s ?_
  · have hle' := BitVec.sle_iff_toInt_le.mp hle
    have hpred := toInt_pred (x := x - 1) (by omega)
    unfold preTurns
    omega
  · rw [preRest, preRest, if_pos hle]
    split_ifs with hnext
    · rfl
    · have hle' := BitVec.sle_iff_toInt_le.mp hle
      have hnext' := BitVec.sle_iff_toInt_le.not.mp hnext
      have hpred := toInt_pred (x := x - 1) (by omega)
      obtain rfl : x - 1 = lo := BitVec.eq_of_toInt_eq (by omega)
      rfl
  · have hle' := BitVec.sle_iff_toInt_le.not.mp hle
    unfold preTurns
    omega
  · exact if_neg hle
  · have hbound := toInt_bounds (x - 1)
    unfold preTurns
    omega

theorem postDec_eq (lo : BitVec 32) (body : σ → σ) (x : BitVec 32) (s : σ) :
    postDec lo body x s = (postRest lo x, body^[postTurns lo x] s) := by
  have hlow := toInt_bounds lo
  refine decLoop_eq (fun x hlt => ⟨?_, ?_⟩) (fun x hlt => ⟨?_, ?_⟩) body s ?_
  · have hlt' := BitVec.slt_iff_toInt_lt.mp hlt
    have hpred := toInt_pred (x := x) (by omega)
    unfold postTurns
    omega
  · rw [postRest, postRest, if_pos hlt]
    split_ifs with hnext
    · rfl
    · have hlt' := BitVec.slt_iff_toInt_lt.mp hlt
      have hnext' := BitVec.slt_iff_toInt_lt.not.mp hnext
      have hpred := toInt_pred (x := x) (by omega)
      obtain rfl : x - 1 = lo := BitVec.eq_of_toInt_eq (by omega)
      rfl
  · have hlt' := BitVec.slt_iff_toInt_lt.not.mp hlt
    unfold postTurns
    omega
  · exact if_neg hlt
  · have hx := toInt_bounds x
    unfold postTurns
    omega

-- A number that is not the least one has nothing to wrap around to.
theorem preTurns_eq (h : -2 ^ 31 < x.toInt) : preTurns lo x = (x.toInt - lo.toInt).toNat := by
  have hpred := toInt_pred h
  unfold preTurns
  omega

theorem preRest_toInt (hlo : -2 ^ 31 < lo.toInt) (h : -2 ^ 31 < x.toInt) :
    (preRest lo x).toInt = min x.toInt lo.toInt - 1 := by
  have hpred := toInt_pred h
  have hlast := toInt_pred hlo
  unfold preRest
  simp only [BitVec.sle_iff_toInt_le]
  split_ifs <;> omega

end Counting

end While
