import Lmosem.Hal.Types
import Lmosem.Lib.Counter
import Lmosem.Lib.Poll

-- The delay loop on the microsecond counter of GPT1.
namespace Lmosem

open Counter

-- What `udelay` keeps from one reading of `GPT1->CNT` to the next.
structure UdelayVars where
  oldcnt : U32
  tcntvalue : U32
deriving DecidableEq, Repr

-- One turn of its loop with the reading it takes. `inr` is the `break`.
def udelayTurn (usdelay newcnt : U32) (v : UdelayVars) : UdelayVars ⊕ UdelayVars :=
  if newcnt ≠ v.oldcnt then
    let tcntvalue :=
      if newcnt > v.oldcnt then v.tcntvalue + (newcnt - v.oldcnt)
      else v.tcntvalue + (0xffffffff - v.oldcnt + newcnt)
    if tcntvalue ≥ usdelay then .inr ⟨newcnt, tcntvalue⟩ else .inl ⟨newcnt, tcntvalue⟩
  else .inl v

-- `cnt i` is what `GPT1->CNT` gives when it is read for the `i`-th time, number 0 being the
-- reading in front of the loop. The number of the last reading is returned as well.
def udelay (usdelay : U32) (cnt : ℕ → U32) (fuel : ℕ) : Outcome (ℕ × UdelayVars) :=
  Poll.loop (udelayTurn usdelay) cnt fuel 1 ⟨cnt 0, 0⟩

-- Where `udelay` is after reading number `i`, if it takes so many.
def udelayAfter (usdelay : U32) (cnt : ℕ → U32) (i : ℕ) : Option (UdelayVars ⊕ UdelayVars) :=
  Poll.turn (udelayTurn usdelay) cnt ⟨cnt 0, 0⟩ i

def udelayVars : UdelayVars ⊕ UdelayVars → UdelayVars := Sum.elim id id

-- After every reading that `udelay` takes `tcntvalue` is the time that has passed.
def Accounted (usdelay : U32) (S : Sampling 32) : Prop :=
  ∀ i x, udelayAfter usdelay S.reading i = some x → (udelayVars x).tcntvalue.toNat = S.elapsed i

-- The reading differs from the one before, and the time to wait has passed.
def DelayDue (usdelay : U32) (S : Sampling 32) (i : ℕ) : Prop :=
  0 < i ∧ S.reading i ≠ S.reading (i - 1) ∧ usdelay.toNat ≤ S.elapsed i

-- `udelay` comes back, and does so with the first such reading.
def OnTime (usdelay : U32) (S : Sampling 32) : Prop :=
  ∀ i, (∃ fuel v, udelay usdelay S.reading fuel = .ok (i, v)) ↔
    DelayDue usdelay S i ∧ ∀ j < i, ¬DelayDue usdelay S j

-- A wrap costs a tick, for `0xffffffff` stands where 2^32 belongs.
theorem udelayTurn_vars (usdelay newcnt : U32) (v : UdelayVars) :
    udelayVars (udelayTurn usdelay newcnt v) =
      ⟨newcnt, v.tcntvalue + (newcnt - v.oldcnt) - if newcnt < v.oldcnt then 1#32 else 0#32⟩ := by
  obtain ⟨oldcnt, tcntvalue⟩ := v
  by_cases hlt : newcnt < oldcnt
  · have hne : newcnt ≠ oldcnt := BitVec.ne_of_lt hlt
    have hgt : ¬newcnt > oldcnt := BitVec.lt_asymm hlt
    have hsum : tcntvalue + (0xffffffff - oldcnt + newcnt) =
        tcntvalue + (newcnt - oldcnt) - 1#32 := by bv_omega
    simp only [udelayTurn, udelayVars, if_pos hne, if_neg hgt, if_pos hlt, hsum]
    split_ifs <;> rfl
  · rw [if_neg hlt, BitVec.sub_zero]
    by_cases hne : newcnt ≠ oldcnt
    · have hgt : newcnt > oldcnt := by bv_omega
      simp only [udelayTurn, udelayVars, if_pos hne, if_pos hgt]
      split_ifs <;> rfl
    · obtain rfl := not_not.mp hne
      simp [udelayTurn, udelayVars]

theorem udelayTurn_breaks (usdelay newcnt : U32) (v : UdelayVars) :
    (udelayTurn usdelay newcnt v).isRight = true ↔
      newcnt ≠ v.oldcnt ∧ usdelay ≤ (udelayVars (udelayTurn usdelay newcnt v)).tcntvalue := by
  by_cases hne : newcnt ≠ v.oldcnt
  · simp only [udelayTurn, if_pos hne, udelayVars, ge_iff_le]
    generalize (if newcnt > v.oldcnt then _ else _ : U32) = tcntvalue
    split_ifs with hdue <;> simp [hne, hdue]
  · simp [udelayTurn, hne]

section Readings

variable {usdelay : U32} {S : Sampling 32} {x : UdelayVars ⊕ UdelayVars} {i : ℕ}

-- What `tcntvalue` really counts.
theorem udelayAfter_vars (hx : udelayAfter usdelay S.reading i = some x) :
    udelayVars x = ⟨S.reading i, BitVec.ofNat 32 (S.elapsed i - S.wraps i)⟩ := by
  induction i generalizing x with
  | zero =>
      obtain rfl := Option.some.inj hx
      simp [udelayVars, Sampling.elapsed]
  | succ i ih =>
      obtain ⟨v, hv, rfl⟩ := Poll.turn_inv hx
      have hv : v = ⟨S.reading i, BitVec.ofNat 32 (S.elapsed i - S.wraps i)⟩ := ih hv
      have hle := S.wraps_le i
      have hsub : S.reading (i + 1) - S.reading i = BitVec.ofNat 32 (S.ticks (i + 1) - S.ticks i) :=
        reading_sub (S.mono i)
      rw [udelayTurn_vars, hv, hsub, S.elapsed_succ, S.wraps_succ]
      split_ifs with hlt
      · have hgone := S.lt_of_reading_lt hlt
        have hcount : S.elapsed i - S.wraps i + (S.ticks (i + 1) - S.ticks i) =
            S.elapsed i + (S.ticks (i + 1) - S.ticks i) - (S.wraps i + 1) + 1 := by omega
        rw [← BitVec.ofNat_add, hcount, BitVec.ofNat_add]
        exact congrArg _ (BitVec.add_sub_cancel _ _)
      · have hcount : S.elapsed i - S.wraps i + (S.ticks (i + 1) - S.ticks i) =
            S.elapsed i + (S.ticks (i + 1) - S.ticks i) - (S.wraps i + 0) := by omega
        rw [← BitVec.ofNat_add, hcount, BitVec.sub_zero]

theorem udelayAfter_toNat (hx : udelayAfter usdelay S.reading i = some x) :
    (udelayVars x).tcntvalue.toNat = (S.elapsed i - S.wraps i) % 2 ^ 32 := by
  rw [udelayAfter_vars hx, BitVec.toNat_ofNat]

theorem udelayAfter_breaks (hx : udelayAfter usdelay S.reading i = some x) :
    x.isRight = true ↔ 0 < i ∧ S.reading i ≠ S.reading (i - 1) ∧
      usdelay.toNat ≤ (S.elapsed i - S.wraps i) % 2 ^ 32 := by
  rw [← udelayAfter_toNat hx, ← BitVec.le_def]
  cases i with
  | zero =>
      obtain rfl := Option.some.inj hx
      simp
  | succ i =>
      obtain ⟨v, hv, rfl⟩ := Poll.turn_inv hx
      have hold : v.oldcnt = S.reading i := congrArg UdelayVars.oldcnt (udelayAfter_vars hv)
      rw [udelayTurn_breaks, hold]
      simp

end Readings

-- The accounts are right and the delay ends in time exactly when the counter does not wrap
-- up to the reading with which it should end.
theorem delay_exact_iff (usdelay : U32) (S : Sampling 32) :
    Accounted usdelay S ∧ OnTime usdelay S ↔
      ∀ i, (∀ j < i, ¬DelayDue usdelay S j) → S.wraps i = 0 := by
  have hleave (i : ℕ) : (∃ fuel v, udelay usdelay S.reading fuel = .ok (i, v)) ↔
      ∃ v, udelayAfter usdelay S.reading i = some (.inr v) := by
    rw [exists_comm]
    exact exists_congr fun v => Poll.loop_eq_ok_iff
  simp only [OnTime, hleave]
  refine Poll.exact_iff (fun i x hx => ?_) fun i x hx hzero => ?_
  · rw [udelayAfter_toNat hx, S.counted_iff]
  · rw [udelayAfter_breaks hx, (S.counted_iff i).mpr hzero]
    rfl

-- The counter is at its top when it is read first, and is read again after every tick.
def topSampling : Sampling 32 where
  ticks i := 0xffffffff + i
  mono _ := by omega
  close _ := by omega

-- The loop waits two ticks instead of one.
example : udelay 1 topSampling.reading 2 = .ok (2, ⟨1, 1⟩) := by decide

theorem wrap_not_counted : ¬∀ (usdelay : U32) (S : Sampling 32),
    Accounted usdelay S ∧ OnTime usdelay S := by
  intro h
  have hafter : udelayAfter 1 topSampling.reading 1 = some (.inl ⟨0, 0⟩) := by decide
  have htime := (h 1 topSampling).1 1 _ hafter
  exact absurd htime (by decide)

end Lmosem
