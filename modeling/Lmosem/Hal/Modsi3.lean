import Lmosem.Hal.Divsi3

-- `__modsi3`.
namespace Lmosem

open Arm LongDivision

variable {s t : Cpu} {post : Cpu → Word → Prop} {m n j : ℕ}

-- A trial that is not noted.
def modTrial (x : Operand) : List (Cond × Op) := [(.al, .cmp .r0 x), (.cs, .sub .r0 .r0 x)]

theorem modTrial_spec (x : Operand) (s : Cpu) :
    (s.steps (modTrial x)).reg .r0 =
        (if x.value s ≤ s.reg .r0 then s.reg .r0 - x.value s else s.reg .r0) ∧
      Keeps [.r0] s (s.steps (modTrial x)) := by
  refine ⟨?_, steps_keeps (by simp [modTrial, Op.isStack]) (by simp [modTrial, Op.dest]) s⟩
  let u := s.compare (s.reg .r0) (x.value s)
  have hcs : Cond.cs.holds u = decide (x.value s ≤ s.reg .r0) := rfl
  change (u.step .cs (.sub .r0 .r0 x)).reg .r0 = _
  by_cases h : x.value s ≤ s.reg .r0
  · rw [step_of_holds (hcs.trans (decide_eq_true h)), if_pos h, Op.exec, set_reg_self, value_compare]
    rfl
  · rw [step_of_not (hcs.trans (decide_eq_false h)), if_neg h]
    rfl

def modTrials : List (Cond × Op) :=
  modTrial (.reg .r1) ++ (modTrial (.lsr .r1 1) ++ (modTrial (.lsr .r1 2) ++ modTrial (.lsr .r1 3)))

theorem modTrials_spec (s : Cpu) :
    (s.steps modTrials).reg .r0 = left (s.reg .r0) (s.reg .r1) 4 ∧
      Keeps [.r0] s (s.steps modTrials) := by
  have hnext {u : Cpu} {k : ℕ} {x : Operand} (hu : Keeps [.r0] s u)
      (hr0 : u.reg .r0 = left (s.reg .r0) (s.reg .r1) k) (hx : x.value u = s.reg .r1 >>> k) :
      (u.steps (modTrial x)).reg .r0 = left (s.reg .r0) (s.reg .r1) (k + 1) ∧
        Keeps [.r0] s (u.steps (modTrial x)) := by
    obtain ⟨hsub, hk⟩ := modTrial_spec x u
    rw [hr0, hx] at hsub
    exact ⟨hsub, hu.trans hk⟩
  have hval {u : Cpu} (hu : Keeps [.r0] s u) (k : ℕ) :
      (Operand.lsr .r1 k).value u = s.reg .r1 >>> k := by
    rw [Operand.value, hu.reg .r1 (by decide)]
  unfold modTrials
  rw [steps_append, steps_append, steps_append]
  obtain ⟨h₁, hk₁⟩ := hnext (x := .reg .r1) (k := 0) (Keeps.refl _ s) rfl
    (BitVec.ushiftRight_zero _).symm
  obtain ⟨h₂, hk₂⟩ := hnext hk₁ h₁ (hval hk₁ 1)
  obtain ⟨h₃, hk₃⟩ := hnext hk₂ h₂ (hval hk₂ 2)
  exact hnext hk₃ h₃ (hval hk₃ 3)

-- Signed comparisons of words below 2 ^ 31.
theorem compare_ge (s : Cpu) {x y : Word} (hx : x.toNat < 2 ^ 31) (hy : y.toNat < 2 ^ 31) :
    Cond.ge.holds (s.compare x y) = decide (y ≤ x) := by
  have hmx : x.msb = false := by
    rw [BitVec.msb_eq_decide, decide_eq_false]
    exact Nat.not_le.mpr hx
  have hmy : y.msb = false := by
    rw [BitVec.msb_eq_decide, decide_eq_false]
    exact Nat.not_le.mpr hy
  have hn : (x - y).msb = !decide (y ≤ x) := by
    rw [BitVec.msb_eq_decide, ← decide_not]
    refine decide_eq_decide.mpr ?_
    rw [BitVec.toNat_sub, BitVec.le_def]
    omega
  rw [Cond.holds]
  change ((x - y).msb == (x.msb != y.msb && (x - y).msb != x.msb)) = _
  rw [hmx, hmy, hn]
  cases decide (y ≤ x) <;> rfl

theorem compare_ge_ofNat (s : Cpu) {i k : ℕ} (hi : i < 32) (hk : k < 32) :
    Cond.ge.holds (s.compare (BitVec.ofNat 32 i) (BitVec.ofNat 32 k)) = decide (k ≤ i) := by
  have hval {x : ℕ} (hx : x < 32) : (BitVec.ofNat 32 x).toNat = x := by
    rw [BitVec.toNat_ofNat]
    omega
  rw [compare_ge s (by rw [hval hi]; omega) (by rw [hval hk]; omega)]
  exact decide_eq_decide.mpr (by rw [BitVec.le_def, hval hi, hval hk])

-- The places below `p + 1` remain.
structure Remains (m n p : ℕ) (s : Cpu) : Prop where
  divisor : (s.reg .r1).toNat = n * 2 ^ p
  settled : ∃ q, Settled m n (p + 1) q (s.reg .r0).toNat

-- One trial settles one place.
theorem Remains.trial {p : ℕ} (h : Remains m n p s) :
    (∃ q, Settled m n p q ((s.steps (modTrial (.reg .r1))).reg .r0).toNat) ∧
      Keeps [.r0] s (s.steps (modTrial (.reg .r1))) := by
  obtain ⟨hr0, hk⟩ := modTrial_spec (.reg .r1) s
  obtain ⟨q, hq⟩ := h.settled
  have hleft := left_settled h.divisor hq (by omega : 1 ≤ p + 1)
  refine ⟨?_, hk⟩
  rw [hr0]
  rw [left, left, BitVec.ushiftRight_zero, Nat.add_sub_cancel] at hleft
  exact hleft

-- With a shift behind it the next place remains.
theorem Remains.next {p : ℕ} (h : Remains m n (p + 1) s) :
    Remains m n p (s.steps (modTrial (.reg .r1) ++ [(.al, .mov .r1 (.lsr .r1 1))])) ∧
      Keeps [.r0, .r1] s (s.steps (modTrial (.reg .r1) ++ [(.al, .mov .r1 (.lsr .r1 1))])) := by
  obtain ⟨hq, hk⟩ := h.trial
  rw [steps_append]
  generalize s.steps (modTrial (.reg .r1)) = u at hq hk
  have hmov := exec_keeps (o := .mov .r1 (.lsr .r1 1)) rfl u
  have hk' := (hk.mono (by simp : _ ⊆ [Reg.r0, Reg.r1])).trans (hmov.mono (by simp [Op.dest]))
  refine ⟨⟨?_, ?_⟩, hk'⟩
  · change (u.reg .r1 >>> 1).toNat = _
    rw [hk.reg .r1 (by decide), toNat_shiftRight h.divisor (by omega), Nat.add_sub_cancel]
  · exact hq

section Ends

variable (link : Word)

-- What `__modsi3` gives for the amount `x` of the remainder.
def ModEnd (s : Cpu) (x : ℕ) (t : Cpu) (pc : Word) : Prop :=
  pc = s.reg .lr ∧ t.reg .r0 = (bif (s.reg .ip).msb then -BitVec.ofNat 32 x else BitVec.ofNat 32 x) ∧
    Keeps [.r0, .r1, .r2] s t

theorem modsi3_ten (s : Cpu) {x : ℕ} (hx : (s.reg .r0).toNat = x) :
    Gives (fun _ => div0) (modsi3 link) (behind .ten (modsi3 link)) s (ModEnd s x) := by
  refine (gives_sign s).mono ?_
  rintro t pc ⟨hpc, hr0, hk⟩
  have hword : s.reg .r0 = BitVec.ofNat 32 x := by
    rw [← hx, BitVec.ofNat_toNat, BitVec.setWidth_eq]
  rw [hword] at hr0
  exact ⟨hpc, hr0, hk.mono (by simp)⟩

theorem ModEnd.after {s u t : Cpu} {x : ℕ} {pc : Word} (h : ModEnd u x t pc)
    (hk : Keeps [.r0, .r1, .r2] s u) : ModEnd s x t pc := by
  obtain ⟨hpc, hr0, hkeeps⟩ := h
  rw [hk.reg .ip (by decide)] at hr0
  exact ⟨hpc.trans (hk.reg .lr (by decide)), hr0, hk.trans hkeeps⟩

-- The trial at place 0.
theorem modsi3_four (s : Cpu) (h : Remains m n 0 s) :
    Gives (fun _ => div0) (modsi3 link) (behind .four (modsi3 link)) s (ModEnd s (m % n)) := by
  obtain ⟨⟨q, hq⟩, hk⟩ := h.trial
  change Gives _ _ (lines (modTrial (.reg .r1)) ++ .label .five :: .label .ten ::
    behind .ten (modsi3 link)) s _
  refine gives_steps (gives_label (gives_label ((modsi3_ten link _ hq.remainder).mono ?_)))
  exact fun t pc hend => hend.after (hk.mono (by simp))

theorem modsi3_three (s : Cpu) (h : Remains m n 1 s) :
    Gives (fun _ => div0) (modsi3 link) (behind .three (modsi3 link)) s (ModEnd s (m % n)) := by
  obtain ⟨hnext, hk⟩ := Remains.next h
  change Gives _ _ (lines (modTrial (.reg .r1) ++ [(.al, .mov .r1 (.lsr .r1 1))]) ++
    .label .four :: behind .four (modsi3 link)) s _
  refine gives_steps (gives_label ((modsi3_four link _ hnext).mono ?_))
  exact fun t pc hend => hend.after (hk.mono (by simp))

-- At most three places remain, and `order` says how many.
theorem modsi3_two (s : Cpu) {p : ℕ} (hp : p < 3) (h : Remains m n p s)
    (hr2 : s.reg .r2 = BitVec.ofNat 32 p - 3) :
    Gives (fun _ => div0) (modsi3 link) (behind .two (modsi3 link)) s (ModEnd s (m % n)) := by
  let u := s.compareNeg (s.reg .r2) 2
  have hu : Keeps [.r0, .r1, .r2] s u := ⟨fun _ _ => rfl, rfl⟩
  have hlt : Cond.lt.holds u = decide (p = 0) := by
    change Cond.lt.holds (s.compareNeg (s.reg .r2) 2) = _
    rw [hr2]
    interval_cases p <;> rfl
  have heq : Cond.eq.holds u = decide (p = 1) := by
    change Cond.eq.holds (s.compareNeg (s.reg .r2) 2) = _
    rw [hr2]
    interval_cases p <;> rfl
  have hu' : Remains m n p u := ⟨h.divisor, h.settled⟩
  refine gives_ins ?_
  obtain rfl | rfl | rfl : p = 0 ∨ p = 1 ∨ p = 2 := by omega
  · exact gives_b_taken hlt ((modsi3_four link u hu').mono fun t pc hend => hend.after hu)
  · exact gives_b_not hlt
      (gives_b_taken heq ((modsi3_three link u hu').mono fun t pc hend => hend.after hu))
  · obtain ⟨hnext, hk⟩ := Remains.next hu'
    refine gives_b_not hlt (gives_b_not heq ?_)
    change Gives _ _ (lines (modTrial (.reg .r1) ++ [(.al, .mov .r1 (.lsr .r1 1))]) ++
      .label .three :: behind .three (modsi3 link)) u _
    refine gives_steps (gives_label ((modsi3_three link _ hnext).mono ?_))
    exact fun t pc hend => hend.after (hu.trans (hk.mono (by simp)))

-- Behind the trials of a turn.
def modTurnEnd : List (Cond × Op) :=
  [(.al, .cmp .r0 (.imm 1)), (.al, .mov .r1 (.lsr .r1 4)), (.ge, .subs .r2 .r2 (.imm 4))]

def modLeave : List (Cond × Op) := [(.al, .tst .r2 (.imm 3)), (.ne, .teq .r0 (.imm 0))]

theorem modLoop_eq : behind .loop3 (modsi3 link) = lines modTrials ++ (lines modTurnEnd ++
    .b .ge .loop3 :: (lines modLeave ++ .b .eq .five :: .label .two :: behind .two (modsi3 link))) :=
  rfl

-- Nothing is left to divide.
theorem modTurnEnd_zero (s : Cpu) (h : s.reg .r0 = 0) :
    Cond.ge.holds (s.steps modTurnEnd) = false ∧ Keeps [.r1] s (s.steps modTurnEnd) := by
  let u := s.steps [(.al, .cmp .r0 (.imm 1)), (.al, .mov .r1 (.lsr .r1 4))]
  have hu : Keeps [.r1] s u := steps_keeps (by decide) (by decide) s
  have hge : Cond.ge.holds u = false := by
    change Cond.ge.holds (s.compare (s.reg .r0) 1) = false
    rw [h]
    rfl
  have hlast : s.steps modTurnEnd = u := step_of_not hge
  rw [hlast]
  exact ⟨hge, hu⟩

-- Something is left: the places of the turn are counted off.
theorem modTurnEnd_more (s : Cpu) {i : ℕ} (hi : i < 32) (h : s.reg .r0 ≠ 0)
    (hsmall : (s.reg .r0).toNat < 2 ^ 31) (hr2 : s.reg .r2 = BitVec.ofNat 32 i) :
    Cond.ge.holds (s.steps modTurnEnd) = decide (4 ≤ i) ∧
      (s.steps modTurnEnd).reg .r1 = s.reg .r1 >>> 4 ∧
      (s.steps modTurnEnd).reg .r2 = BitVec.ofNat 32 i - 4 ∧
      Keeps [.r1, .r2] s (s.steps modTurnEnd) := by
  let u := s.steps [(.al, .cmp .r0 (.imm 1)), (.al, .mov .r1 (.lsr .r1 4))]
  have hu : Keeps [.r1] s u := steps_keeps (by decide) (by decide) s
  have hge : Cond.ge.holds u = true := by
    change Cond.ge.holds (s.compare (s.reg .r0) 1) = true
    rw [compare_ge s hsmall (by decide)]
    refine decide_eq_true ?_
    bv_omega
  have hlast : s.steps modTurnEnd = (u.compare (u.reg .r2) 4).set .r2 (u.reg .r2 - 4) :=
    step_of_holds hge
  have hur2 : u.reg .r2 = BitVec.ofNat 32 i := hr2
  refine ⟨?_, ?_, ?_, steps_keeps (by decide) (by decide) s⟩
  · rw [hlast, hur2]
    change Cond.ge.holds (u.compare (BitVec.ofNat 32 i) 4) = _
    exact compare_ge_ofNat u hi (by decide : 4 < 32)
  · rw [hlast, set_reg_of_ne (by decide)]
    rfl
  · rw [hlast, set_reg_self, hur2]

theorem modLeave_spec (s : Cpu) :
    Cond.eq.holds (s.steps modLeave) = (s.reg .r2 &&& 3 == 0 || s.reg .r0 == 0) ∧
      Keeps [] s (s.steps modLeave) := by
  let u := s.step .al (.tst .r2 (.imm 3))
  have hz : u.z = (s.reg .r2 &&& 3 == 0) := rfl
  have hlast : s.steps modLeave = u.step .ne (.teq .r0 (.imm 0)) := rfl
  refine ⟨?_, steps_keeps (by decide) (by decide) s⟩
  rw [hlast, ← hz]
  cases h : u.z with
  | true =>
      have hne : Cond.ne.holds u = false := congrArg (!·) h
      rw [step_of_not hne]
      exact h
  | false =>
      have hne : Cond.ne.holds u = true := congrArg (!·) h
      rw [step_of_holds hne]
      exact congrArg (· == 0) BitVec.xor_zero

-- The order behind the loop counts the places that are left.
theorem order_left : ∀ j < 7, 3 < j → (BitVec.ofNat 32 (j - 3) - 4 &&& 3 == 0) = false ∧
    BitVec.ofNat 32 (j - 3) - 4 = BitVec.ofNat 32 (j - 4) - 3 := by
  decide

-- The loop, by induction on the place it starts at.
theorem modLoop (s : Cpu) (h : Remains m n j s) (hlow : 3 ≤ j) (hj : j < 32)
    (hr2 : s.reg .r2 = BitVec.ofNat 32 (j - 3)) :
    Gives (fun _ => div0) (modsi3 link) (behind .loop3 (modsi3 link)) s (ModEnd s (m % n)) := by
  induction j using Nat.strongRecOn generalizing s with
  | ind j ih =>
      obtain ⟨q, hq⟩ := h.settled
      obtain ⟨q', hq'⟩ := left_settled h.divisor hq (by omega : 4 ≤ j + 1)
      obtain ⟨hleft, hk⟩ := modTrials_spec s
      rw [modLoop_eq]
      refine gives_steps (gives_steps ?_)
      rw [← hleft] at hq'
      generalize s.steps modTrials = t at hleft hk hq'
      have htr1 : t.reg .r1 = s.reg .r1 := hk.reg .r1 (by decide)
      have htr2 : t.reg .r2 = BitVec.ofNat 32 (j - 3) := (hk.reg .r2 (by decide)).trans hr2
      have hk : Keeps [.r0, .r1, .r2] s t := hk.mono (by simp)
      have hdone (u : Cpu) (hu : Keeps [.r0, .r1, .r2] s u)
          (hrem : (u.reg .r0).toNat = m % n) :
          Gives (fun _ => div0) (modsi3 link) (behind .five (modsi3 link)) u (ModEnd s (m % n)) :=
        gives_label ((modsi3_ten link u hrem).mono fun t pc hend => hend.after hu)
      by_cases hzero : t.reg .r0 = 0
      · obtain ⟨hge, hk₂⟩ := modTurnEnd_zero t hzero
        obtain ⟨heq, hk₃⟩ := modLeave_spec (t.steps modTurnEnd)
        rw [hk₂.reg .r0 (by decide), hzero] at heq
        have heq := heq.trans (Bool.or_true _)
        refine gives_b_not hge (gives_steps (gives_b_taken heq (hdone _ ?_ ?_)))
        · exact hk.trans ((hk₂.mono (by simp)).trans (hk₃.mono (by simp)))
        · rw [hk₃.reg .r0 (by decide), hk₂.reg .r0 (by decide), hzero]
          rw [hzero] at hq'
          exact hq'.exact.remainder
      · have hpos : 2 ^ (j - 3) ≤ n * 2 ^ (j - 3) := Nat.le_mul_of_pos_left _ hq.pos
        have hsmall : (t.reg .r0).toNat < 2 ^ 31 := by
          have hword := (s.reg .r1).isLt
          have hsplit : n * 2 ^ j = n * 2 ^ (j - 3) * 8 := by
            rw [Nat.mul_assoc]
            exact congrArg (n * ·) (by rw [← Nat.pow_add (m := j - 3) (n := 3), Nat.sub_add_cancel hlow])
          have hlt : (t.reg .r0).toNat < n * 2 ^ (j - 3) := hq'.lt
          rw [h.divisor, hsplit] at hword
          omega
        obtain ⟨hge, hr1, hr2, hk₂⟩ := modTurnEnd_more t (by omega : j - 3 < 32) hzero hsmall htr2
        have hur0 : (t.steps modTurnEnd).reg .r0 = t.reg .r0 := hk₂.reg .r0 (by decide)
        have hu : Keeps [.r0, .r1, .r2] s (t.steps modTurnEnd) := hk.trans (hk₂.mono (by simp))
        generalize t.steps modTurnEnd = u at hge hr1 hr2 hu hur0
        rw [htr1] at hr1
        by_cases hmore : 4 ≤ j - 3
        · refine gives_b_taken (hge.trans (decide_eq_true hmore))
            ((ih (j - 4) (by omega) u ⟨?_, q', ?_⟩ (by omega) (by omega) ?_).mono
              fun v pc hend => hend.after hu)
          · rw [hr1, toNat_shiftRight h.divisor (by omega)]
          · rw [hur0, ← Nat.sub_add_comm (by omega : 4 ≤ j)]
            exact hq'
          · rw [hr2, Nat.sub_right_comm]
            exact BitVec.ofNat_sub_ofNat_of_le _ _ (by decide) hmore
        · obtain ⟨heq, hk₃⟩ := modLeave_spec u
          refine gives_b_not (hge.trans (decide_eq_false hmore)) (gives_steps ?_)
          rw [hr2, hur0, beq_eq_false_iff_ne.mpr hzero, Bool.or_false] at heq
          have hu₃ : Keeps [.r0, .r1, .r2] s (u.steps modLeave) := hu.trans (hk₃.mono (by simp))
          generalize u.steps modLeave = v at heq hk₃ hu₃
          have hvr0 : v.reg .r0 = t.reg .r0 := (hk₃.reg .r0 List.not_mem_nil).trans hur0
          obtain rfl | hj₃ : j = 3 ∨ 3 < j := by omega
          · refine gives_b_taken (heq.trans rfl) (hdone v hu₃ ?_)
            rw [hvr0]
            exact hq'.remainder
          · obtain ⟨hrest, horder⟩ := order_left j (by omega) hj₃
            have hremains : Remains m n (j - 4) v := by
              refine ⟨?_, q', ?_⟩
              · rw [hk₃.reg .r1 List.not_mem_nil, hr1, toNat_shiftRight h.divisor (by omega)]
              · rw [hvr0, ← Nat.sub_add_comm (by omega : 4 ≤ j)]
                exact hq'
            have hvr2 : v.reg .r2 = BitVec.ofNat 32 (j - 4) - 3 := by
              rw [hk₃.reg .r2 List.not_mem_nil, hr2, horder]
            refine gives_b_not (heq.trans hrest) (gives_label ?_)
            exact (modsi3_two link v (by omega) hremains hvr2).mono fun w pc hend => hend.after hu₃

-- The body, with the amounts in r0 and r1.
theorem modsi3_body (s : Cpu) (hpos : 0 < (s.reg .r1).toNat) :
    Gives (fun _ => div0) (modsi3 link)
      (ARM_MOD_BODY .r0 .r1 .r2 ++ .label .ten :: behind .ten (modsi3 link)) s
      (ModEnd s ((s.reg .r0).toNat % (s.reg .r1).toNat)) := by
  let u := s.set .r2 0
  have hu : Keeps [.r0, .r1, .r2] s u := (exec_keeps (o := .mov .r2 (.imm 0)) rfl s).mono (by decide)
  change Gives _ _ (.ins .al (.mov .r2 (.imm 0)) :: .label .loop1 :: behind .loop1 (modsi3 link)) s _
  refine gives_ins (gives_label ?_)
  have hposu : 0 < (u.reg .r1).toNat := hpos
  refine normalise (counts_add .r2 (BitVec.ofNat 32 4)) (counts_add .r2 (BitVec.ofNat 32 1))
    (g := fun j x => x + BitVec.ofNat 32 j) ?_ (by decide) (by decide) (by decide) hposu rfl rfl ?_
  · intro i i' x
    rw [iterate_add, iterate_add, BitVec.add_assoc, ← BitVec.ofNat_add, Nat.one_mul]
  intro j t hnormal horder hkeeps
  have ht : Keeps [.r0, .r1, .r2] s t := hu.trans (hkeeps.mono (by simp))
  have horder : t.reg .r2 = BitVec.ofNat 32 j := horder.trans (BitVec.zero_add _)
  have hremains : Remains (s.reg .r0).toNat (s.reg .r1).toNat j t := by
    refine ⟨hnormal.divisor, 0, ?_⟩
    rw [hkeeps.reg .r0 (by decide)]
    exact Settled.start hnormal.above
  have hj : j < 32 := by
    have hsmall := (t.reg .r1).isLt
    have hle : 2 ^ j ≤ (s.reg .r1).toNat * 2 ^ j := Nat.le_mul_of_pos_left _ hpos
    rw [hremains.divisor] at hsmall
    exact (Nat.pow_lt_pow_iff_right Nat.one_lt_two).mp (hle.trans_lt hsmall)
  let v := (t.compare (t.reg .r2) 3).set .r2 (t.reg .r2 - 3)
  have hv : Keeps [.r2] t v := exec_keeps (o := .subs .r2 .r2 (.imm 3)) rfl t
  have hall : Keeps [.r0, .r1, .r2] s v := ht.trans (hv.mono (by simp))
  have hvr2 : v.reg .r2 = BitVec.ofNat 32 j - 3 := by
    rw [← horder]
    exact set_reg_self _ _ _
  have hlt : Cond.lt.holds v = !decide (3 ≤ j) := by
    have hge : Cond.ge.holds v = decide (3 ≤ j) := by
      rw [← compare_ge_ofNat t hj (by decide : 3 < 32), ← horder]
      rfl
    rw [← hge, Cond.holds, Cond.holds, bne]
  have hremains : Remains (s.reg .r0).toNat (s.reg .r1).toNat j v :=
    ⟨hremains.divisor, hremains.settled⟩
  refine gives_ins ?_
  by_cases hlow : 3 ≤ j
  · rw [decide_eq_true hlow] at hlt
    change Gives _ _ (.b .lt .two :: .label .loop3 :: behind .loop3 (modsi3 link)) v _
    have hvr2 : v.reg .r2 = BitVec.ofNat 32 (j - 3) :=
      hvr2.trans (BitVec.ofNat_sub_ofNat_of_le _ _ (by decide) hlow)
    refine gives_b_not hlt (gives_label ((modLoop link v hremains hlow hj hvr2).mono ?_))
    exact fun w pc hend => hend.after hall
  · rw [decide_eq_false hlow] at hlt
    refine gives_b_taken hlt ((modsi3_two link v (by omega) hremains hvr2).mono ?_)
    exact fun w pc hend => hend.after hall

end Ends

-- The tests for the cases without a loop.
def modCases : List (Cond × Op) :=
  [(.eq, .mov .r0 (.imm 0)), (.hi, .tst .r1 (.reg .r2)), (.eq, .and .r0 .r0 (.reg .r2))]

def modTests : List (Cond × Op) := (.ne, .cmp .r0 (.reg .r1)) :: modCases

theorem modCases_eq (s : Cpu) : s.steps modCases = ((s.step .eq (.mov .r0 (.imm 0))).step .hi
    (.tst .r1 (.reg .r2))).step .eq (.and .r0 .r0 (.reg .r2)) := rfl

-- Nothing remains.
theorem modCases_zero (hz : s.z = true) :
    Cond.ls.holds (s.steps modCases) = true ∧ (s.steps modCases).reg .r0 = 0 := by
  have heq : Cond.eq.holds s = true := hz
  have heq' : Cond.eq.holds (s.set .r0 0) = true := hz
  have hhi : Cond.hi.holds (s.set .r0 0) = false := by
    change (s.c && !s.z) = false
    rw [hz]
    exact Bool.and_false _
  rw [modCases_eq, step_of_holds heq, Op.exec, Operand.value, step_of_not hhi, step_of_holds heq']
  refine ⟨?_, (set_reg_self _ _ _).trans BitVec.zero_and⟩
  change (!s.c || s.z) = true
  rw [hz, Bool.or_true]

-- The dividend is the smaller one.
theorem modCases_below (hz : s.z = false) (hc : s.c = false) :
    Cond.ls.holds (s.steps modCases) = true ∧ (s.steps modCases).reg .r0 = s.reg .r0 := by
  have heq : Cond.eq.holds s = false := hz
  have hhi : Cond.hi.holds s = false := by
    rw [Cond.holds, hc]
    rfl
  rw [modCases_eq, step_of_not heq, step_of_not hhi, step_of_not heq]
  refine ⟨?_, rfl⟩
  rw [Cond.holds, hc]
  rfl

-- It is the larger one.
theorem modCases_above (hz : s.z = false) (hc : s.c = true) :
    Cond.ls.holds (s.steps modCases) = (s.reg .r1 &&& s.reg .r2 == 0) ∧
      (s.steps modCases).reg .r0 = if s.reg .r1 &&& s.reg .r2 = 0 then s.reg .r0 &&& s.reg .r2
        else s.reg .r0 := by
  have heq : Cond.eq.holds s = false := hz
  have hhi : Cond.hi.holds s = true := by
    rw [Cond.holds, hc, hz]
    rfl
  let u := (Op.tst .r1 (.reg .r2)).exec s
  have huz : u.z = (s.reg .r1 &&& s.reg .r2 == 0) := rfl
  have hu : s.step .hi (.tst .r1 (.reg .r2)) = u := step_of_holds hhi
  have hls (v : Cpu) (hvc : v.c = s.c) (hvz : v.z = u.z) : Cond.ls.holds v = u.z := by
    rw [Cond.holds, hvc, hvz, hc]
    rfl
  rw [modCases_eq, step_of_not heq, hu, ← huz]
  by_cases hpow : s.reg .r1 &&& s.reg .r2 = 0
  · have heq' : Cond.eq.holds u = true := huz.trans (beq_iff_eq.mpr hpow)
    rw [step_of_holds heq', if_pos hpow]
    exact ⟨hls _ rfl rfl, set_reg_self _ _ _⟩
  · have heq' : Cond.eq.holds u = false := huz.trans (beq_eq_false_iff_ne.mpr hpow)
    rw [step_of_not heq', if_neg hpow]
    exact ⟨hls _ rfl rfl, rfl⟩

-- The remainder by a power of two.
theorem umod_of_and {x y : Word} (hy : y ≠ 0) (h : y &&& (y - 1) = 0) : x &&& (y - 1) = x % y := by
  obtain ⟨k, hk, rfl⟩ := eq_twoPow hy h
  have hval := BitVec.toNat_twoPow_of_lt hk
  have hpred : (BitVec.twoPow 32 k - 1).toNat = 2 ^ k - 1 := by
    have hle : (1 : Word) ≤ BitVec.twoPow 32 k := by
      rw [BitVec.le_def, hval]
      exact Nat.two_pow_pos k
    rw [BitVec.toNat_sub_of_le hle, hval]
    rfl
  apply BitVec.eq_of_toNat_eq
  rw [BitVec.toNat_and, BitVec.toNat_umod, hval, hpred, Nat.and_two_pow_sub_one_eq_mod]

-- They leave the remainder, or they do nothing and the loop is entered.
theorem modTests_spec (s : Cpu) (hpos : s.reg .r1 ≠ 0) (hr2 : s.reg .r2 = s.reg .r1 - 1)
    (hz : s.z = decide (s.reg .r1 = 1)) :
    Keeps [.r0] s (s.steps modTests) ∧
      (s.steps modTests).reg .r0 =
        if Cond.ls.holds (s.steps modTests) then s.reg .r0 % s.reg .r1 else s.reg .r0 := by
  refine ⟨steps_keeps (by decide) (by decide) s, ?_⟩
  have hsteps : s.steps modTests = (s.step .ne (.cmp .r0 (.reg .r1))).steps modCases := rfl
  rw [hsteps]
  by_cases hone : s.reg .r1 = 1
  · have hz : s.z = true := hz.trans (decide_eq_true hone)
    have hne : Cond.ne.holds s = false := congrArg (!·) hz
    obtain ⟨hls, hr0⟩ := modCases_zero hz
    rw [step_of_not hne, hls, if_pos rfl, hr0, hone]
    exact BitVec.umod_one.symm
  have hne : Cond.ne.holds s = true := congrArg (!·) (hz.trans (decide_eq_false hone))
  have hcmp : s.step .ne (.cmp .r0 (.reg .r1)) = s.compare (s.reg .r0) (s.reg .r1) :=
    step_of_holds hne
  have hwz := compare_z s (s.reg .r0) (s.reg .r1)
  have hwc : (s.compare (s.reg .r0) (s.reg .r1)).c = decide (s.reg .r1 ≤ s.reg .r0) := rfl
  rw [hcmp]
  by_cases hsame : s.reg .r0 = s.reg .r1
  · obtain ⟨hls, hr0⟩ := modCases_zero (hwz.trans (decide_eq_true hsame))
    rw [hls, if_pos rfl, hr0, hsame]
    exact BitVec.umod_self.symm
  have hwz := hwz.trans (decide_eq_false hsame)
  by_cases hlt : s.reg .r0 < s.reg .r1
  · have hbelow := hwc.trans (decide_eq_false (BitVec.not_le.mpr hlt))
    obtain ⟨hls, hr0⟩ := modCases_below hwz hbelow
    rw [hls, if_pos rfl, hr0, BitVec.umod_eq_of_lt hlt]
    rfl
  · obtain ⟨hls, hr0⟩ := modCases_above hwz (hwc.trans (decide_eq_true (BitVec.not_lt.mp hlt)))
    have hreg : (s.compare (s.reg .r0) (s.reg .r1)).reg = s.reg := rfl
    rw [hls, hr0, hreg, hr2]
    by_cases hpow : s.reg .r1 &&& (s.reg .r1 - 1) = 0
    · rw [if_pos hpow, if_pos (beq_iff_eq.mpr hpow), umod_of_and hpos hpow]
    · rw [if_neg hpow, if_neg (by simpa using hpow)]

-- The amounts are worked out.
def modAmounts : List (Cond × Op) :=
  [(.mi, .rsb .r1 .r1 (.imm 0)), (.al, .movs .ip (.reg .r0)), (.mi, .rsb .r0 .r0 (.imm 0)),
   (.al, .subs .r2 .r1 (.imm 1))]

theorem modAmounts_spec (s : Cpu) (hn : s.n = (s.reg .r1).msb) :
    (s.steps modAmounts).reg .r0 = (s.reg .r0).abs ∧ (s.steps modAmounts).reg .r1 = (s.reg .r1).abs ∧
      (s.steps modAmounts).reg .r2 = (s.reg .r1).abs - 1 ∧
      (s.steps modAmounts).reg .ip = s.reg .r0 ∧
      (s.steps modAmounts).z = decide ((s.reg .r1).abs = 1) := by
  let u := s.step .mi (.rsb .r1 .r1 (.imm 0))
  have hur1 : u.reg .r1 = (s.reg .r1).abs := steps_abs .r1 s hn
  have hu : Keeps [.r1] s u := (step_negate .r1 .r1 s).2
  let v := u.step .al (.movs .ip (.reg .r0))
  have hv : Keeps [.ip] u v := step_keeps (o := .movs .ip (.reg .r0)) rfl u
  have hvr0 : v.reg .r0 = s.reg .r0 := (hv.reg .r0 (by decide)).trans (hu.reg .r0 (by decide))
  have hvip : v.reg .ip = s.reg .r0 := hu.reg .r0 (by decide)
  have hvn : v.n = (v.reg .r0).msb := rfl
  let w := v.step .mi (.rsb .r0 .r0 (.imm 0))
  have hwr0 : w.reg .r0 = (s.reg .r0).abs := by
    rw [← hvr0]
    exact steps_abs .r0 v hvn
  have hw : Keeps [.r0] v w := (step_negate .r0 .r0 v).2
  have hwr1 : w.reg .r1 = (s.reg .r1).abs := by
    rw [hw.reg .r1 (by decide), hv.reg .r1 (by decide), hur1]
  have hsteps : s.steps modAmounts = (w.compare (w.reg .r1) 1).set .r2 (w.reg .r1 - 1) := rfl
  have hkeeps : Keeps [.r2] w (s.steps modAmounts) := exec_keeps (o := .subs .r2 .r1 (.imm 1)) rfl w
  refine ⟨?_, ?_, ?_, ?_, ?_⟩
  · rw [hkeeps.reg .r0 (by decide), hwr0]
  · rw [hkeeps.reg .r1 (by decide), hwr1]
  · rw [hsteps, set_reg_self, hwr1]
  · rw [hkeeps.reg .ip (by decide), hw.reg .ip (by decide), hvip]
  · rw [← hwr1]
    exact compare_z w _ _

-- `__modsi3` gives the remainder of signed numbers, and 0 for a division by zero.
theorem modsi3_srem (link : Word) (s : Cpu) :
    Gives (fun _ => div0) (modsi3 link) (modsi3 link) s fun t pc =>
      pc = s.reg .lr ∧
        t.reg .r0 = (if s.reg .r1 = 0 then 0 else (s.reg .r0).srem (s.reg .r1)) ∧
        Leaves [.r0, .r1, .r2, .ip, .lr] 4 s t := by
  refine gives_ins ?_
  by_cases hzero : s.reg .r1 = 0
  · refine gives_b_taken ?_ ((gives_div0 link _).mono ?_)
    · exact (compare_zero s _).trans (beq_iff_eq.mpr hzero)
    · rintro t pc ⟨hpc, hr0, hleaves⟩
      have hleaves : Leaves [.r0, .r1, .r2, .ip, .lr] 4 _ t := hleaves.mono (by simp)
      refine ⟨hpc, by rw [if_pos hzero, hr0], hleaves.after ?_ (by decide)⟩
      exact ⟨fun _ _ => rfl, rfl⟩
  refine gives_b_not ((compare_zero s _).trans (beq_eq_false_iff_ne.mpr hzero)) ?_
  rw [if_neg hzero]
  have hn : (s.compare (s.reg .r1) 0).n = (s.reg .r1).msb := compare_zero_n s _
  obtain ⟨hr0, hr1, hr2, hip, hz⟩ := modAmounts_spec (s.compare (s.reg .r1) 0) hn
  have hu : Keeps [.r0, .r1, .r2, .ip] s (s.steps ((.al, .cmp .r1 (.imm 0)) :: modAmounts)) :=
    steps_keeps (by decide) (by decide) s
  have hu : Keeps [.r0, .r1, .r2, .ip] s ((s.compare (s.reg .r1) 0).steps modAmounts) := hu
  change Gives _ _ (lines modAmounts ++ (lines modTests ++ .b .ls .ten ::
    (ARM_MOD_BODY .r0 .r1 .r2 ++ .label .ten :: behind .ten (modsi3 link))))
    (s.compare (s.reg .r1) 0) _
  refine gives_steps (gives_steps ?_)
  generalize (s.compare (s.reg .r1) 0).steps modAmounts = u at hr0 hr1 hr2 hip hz hu
  have hr0 : u.reg .r0 = (s.reg .r0).abs := hr0
  have hr1 : u.reg .r1 = (s.reg .r1).abs := hr1
  have hne := abs_ne_zero hzero
  obtain ⟨hk, htests⟩ := modTests_spec u (by rwa [hr1]) (by rw [hr1]; exact hr2) (by rw [hr1]; exact hz)
  rw [hr0, hr1] at htests
  have hv : Keeps [.r0, .r1, .r2, .ip] s (u.steps modTests) := hu.trans (hk.mono (by simp))
  have hvr1 : (u.steps modTests).reg .r1 = (s.reg .r1).abs := (hk.reg .r1 (by decide)).trans hr1
  have hvip : (u.steps modTests).reg .ip = s.reg .r0 := (hk.reg .ip (by decide)).trans hip
  generalize u.steps modTests = v at htests hk hv hvr1 hvip
  have hend (t : Cpu) (pc : Word)
      (h : ModEnd v ((s.reg .r0).abs.toNat % (s.reg .r1).abs.toNat) t pc) :
      pc = s.reg .lr ∧ t.reg .r0 = (s.reg .r0).srem (s.reg .r1) ∧
        Leaves [.r0, .r1, .r2, .ip, .lr] 4 s t := by
    obtain ⟨hpc, ht, hkt⟩ := h
    refine ⟨hpc.trans (hv.reg .lr (by decide)), ?_,
      ((hv.trans (hkt.mono (by simp))).leaves 4).mono (by simp)⟩
    rw [ht, hvip, srem_eq_abs, ← BitVec.toNat_umod, BitVec.ofNat_toNat, BitVec.setWidth_eq]
  cases hls : Cond.ls.holds v with
  | true =>
      rw [hls, if_pos rfl] at htests
      refine gives_b_taken hls ((modsi3_ten link v ?_).mono hend)
      rw [htests, BitVec.toNat_umod]
  | false =>
      rw [hls, if_neg Bool.false_ne_true] at htests
      have hpos : 0 < (v.reg .r1).toNat := by
        rw [hvr1]
        exact Nat.pos_of_ne_zero fun hf => hne (BitVec.eq_of_toNat_eq hf)
      have hbody := modsi3_body link v hpos
      rw [htests, hvr1] at hbody
      exact gives_b_not hls (hbody.mono hend)

end Lmosem
