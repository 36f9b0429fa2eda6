import Lmosem.Hal.Udivsi3
import Mathlib.Tactic.IntervalCases

-- `__umodsi3`.
namespace Lmosem

open Arm LongDivision

variable {L F : Type} [DecidableEq L]
variable {call : F → Cpu → Outcome (Cpu × Word)} {prog rest : List (Line L F)}
variable {s t : Cpu} {post : Cpu → Word → Prop}

-- The note that a turn makes in `overdone` of its last three trials.
def overdone (hit₁ hit₂ hit₃ : Bool) (curbit : Word) : Word :=
  (bif hit₁ then curbit.rotateRight 1 else 0) ||| (bif hit₂ then curbit.rotateRight 2 else 0) |||
    bif hit₃ then curbit.rotateRight 3 else 0

-- Whether the subtraction of trial `k` is taken back.
def fixed (due curbit : Word) (k : ℕ) : Bool :=
  due &&& 0xe0000000 &&& curbit.rotateRight k != 0

-- A subtraction below place 0 is taken back. So is one of a turn that starts so far up that
-- its notes are among the top three bits.
theorem fixed_overdone (hit₁ hit₂ hit₃ : Bool) {j : ℕ} (hj : j < 32) :
    let due := overdone hit₁ hit₂ hit₃ (.twoPow 32 j)
    (fixed due (.twoPow 32 j) 1 = (hit₁ && (j < 1 || 30 ≤ j))) ∧
      (fixed due (.twoPow 32 j) 2 = (hit₂ && (j < 2 || 31 ≤ j))) ∧
      (fixed due (.twoPow 32 j) 3 = (hit₃ && j < 3)) := by
  have hall : ∀ j : Fin 32, ∀ hit₁ hit₂ hit₃ : Bool,
      let due := overdone hit₁ hit₂ hit₃ (.twoPow 32 j)
      (fixed due (.twoPow 32 j) 1 = (hit₁ && (j.val < 1 || 30 ≤ j.val))) ∧
        (fixed due (.twoPow 32 j) 2 = (hit₂ && (j.val < 2 || 31 ≤ j.val))) ∧
        (fixed due (.twoPow 32 j) 3 = (hit₃ && j.val < 3)) := by decide +kernel
  exact hall ⟨j, hj⟩ hit₁ hit₂ hit₃

-- What a turn gives back in the end.
def fixups (x d due curbit : Word) : Word :=
  x + (bif fixed due curbit 3 then d >>> 3 else 0) + (bif fixed due curbit 2 then d >>> 2 else 0) +
    bif fixed due curbit 1 then d >>> 1 else 0

theorem fixups_zero {x d due curbit : Word} (h : due &&& 0xe0000000 = 0) :
    fixups x d due curbit = x := by
  have hfixed (k : ℕ) : fixed due curbit k = false := by
    rw [fixed, h, bne_eq_false_iff_eq]
    exact BitVec.zero_and
  have hzero : x + 0 = x := BitVec.add_zero x
  rw [fixups, hfixed, hfixed, hfixed, cond_false, cond_false, cond_false, hzero, hzero, hzero]

section Turn

variable {k : ℕ} {due : Word} {u : Cpu}

-- After `k` trials of a turn, which have noted `over`.
structure AfterTrials (s : Cpu) (k : ℕ) (due : Word) (u : Cpu) : Prop where
  dividend : u.reg .r0 = left (s.reg .r0) (s.reg .r1) k
  overdone : u.reg .r2 = due
  keeps : Keeps [.r0, .r2] s u

-- The first trial is not noted.
def umodFirst : List (Cond × Op) :=
  [(.al, .mov .r2 (.imm 0)), (.al, .cmp .r0 (.reg .r1)), (.cs, .sub .r0 .r0 (.reg .r1))]

def umodTrial (k : ℕ) : List (Cond × Op) := trial .r0 .r2 (.lsr .r1 k) (.ror .r3 k)

def umodTrials : List (Cond × Op) := umodFirst ++ (umodTrial 1 ++ (umodTrial 2 ++ umodTrial 3))

def umodTurn : List (Cond × Op) :=
  umodTrials ++ ((.al, .mov .ip (.reg .r3)) :: divisionNext .r0 .r1 .r3)

theorem umodFirst_after (s : Cpu) : AfterTrials s 1 0 (s.steps umodFirst) := by
  have hkeeps : Keeps [.r0, .r2] s (s.steps umodFirst) := steps_keeps (by decide) (by decide) s
  let u := s.steps [(.al, .mov .r2 (.imm 0)), (.al, .cmp .r0 (.reg .r1))]
  have hu : s.steps umodFirst = u.step .cs (.sub .r0 .r0 (.reg .r1)) := rfl
  have hcarry : Cond.cs.holds u = hit (s.reg .r0) (s.reg .r1) 0 := by
    rw [hit, BitVec.ushiftRight_zero]
    rfl
  refine ⟨?_, ?_, hkeeps⟩
  · cases h : hit (s.reg .r0) (s.reg .r1) 0 with
    | true =>
        rw [left_of_hit h, BitVec.ushiftRight_zero, hu, step_of_holds (hcarry.trans h)]
        rfl
    | false =>
        rw [left_of_not_hit h, hu, step_of_not (hcarry.trans h)]
        rfl
  · exact ((step_keeps (c := .cs) (o := .sub .r0 .r0 (.reg .r1)) rfl u).reg .r2 (by decide))

theorem AfterTrials.trial (h : AfterTrials s k due u) :
    AfterTrials s (k + 1)
      (due ||| bif hit (s.reg .r0) (s.reg .r1) k then (s.reg .r3).rotateRight k else 0)
      (u.steps (umodTrial k)) := by
  have hx : (Operand.lsr .r1 k).value u = s.reg .r1 >>> k := by
    rw [Operand.value, h.keeps.reg .r1 (by decide)]
  have hy : (Operand.ror .r3 k).value u = (s.reg .r3).rotateRight k := by
    rw [Operand.value, h.keeps.reg .r3 (by decide)]
  cases hhit : hit (s.reg .r0) (s.reg .r1) k with
  | true =>
      have hle : (Operand.lsr .r1 k).value u ≤ u.reg .r0 := by
        rw [hx, h.dividend]
        exact of_decide_eq_true hhit
      obtain ⟨ha, hq, hkeeps⟩ := trial_sub (q := .r2) (y := .ror .r3 k) (by decide)
        (fun _ _ => rfl) hle
      refine ⟨?_, ?_, h.keeps.trans hkeeps⟩
      · rw [umodTrial, ha, hx, h.dividend, left_of_hit hhit]
      · rw [umodTrial, hq, hy, h.overdone, cond_true]
  | false =>
      have hlt : u.reg .r0 < (Operand.lsr .r1 k).value u := by
        rw [hx, h.dividend]
        exact BitVec.not_le.mp (of_decide_eq_false hhit)
      have hkeeps := trial_skip (q := .r2) (y := .ror .r3 k) hlt
      refine ⟨?_, ?_, h.keeps.trans (hkeeps.mono (by simp))⟩
      · rw [umodTrial, hkeeps.reg .r0 List.not_mem_nil, h.dividend, left_of_not_hit hhit]
      · rw [umodTrial, hkeeps.reg .r2 List.not_mem_nil, h.overdone, cond_false]
        exact BitVec.or_zero.symm

-- What a turn has noted.
def turnOver (s : Cpu) : Word :=
  overdone (hit (s.reg .r0) (s.reg .r1) 1) (hit (s.reg .r0) (s.reg .r1) 2)
    (hit (s.reg .r0) (s.reg .r1) 3) (s.reg .r3)

theorem umodTrials_after (s : Cpu) : AfterTrials s 4 (turnOver s) (s.steps umodTrials) := by
  have hfirst := (umodFirst_after s).trial
  have hzero (x : Word) : 0 ||| x = x := BitVec.zero_or
  rw [hzero] at hfirst
  have hall := hfirst.trial.trial
  unfold umodTrials
  rw [steps_append, steps_append, steps_append]
  exact hall

-- The lines behind the loop.
def umodFixups (link : Word) : List (Line UdivLabel DivCall) :=
  [.ins .al (.ands .r2 .r2 (.imm 0xe0000000)),
   .movPc .eq .lr,
   .ins .al (.tst .r2 (.ror .ip 3)),
   .ins .ne (.add .r0 .r0 (.lsr .r1 3)),
   .ins .al (.tst .r2 (.ror .ip 2)),
   .ins .ne (.add .r0 .r0 (.lsr .r1 2)),
   .ins .al (.tst .r2 (.ror .ip 1)),
   .ins .ne (.add .r0 .r0 (.lsr .r1 1)),
   .movPc .al .lr] ++ .label .Ldiv0 :: div0Lines link

-- One of the fixups.
def umodFixup (k : ℕ) : List (Cond × Op) :=
  [(.al, .tst .r2 (.ror .ip k)), (.ne, .add .r0 .r0 (.lsr .r1 k))]

theorem umodFixup_adds (k : ℕ) (s : Cpu) :
    (s.steps (umodFixup k)).reg .r0 =
        s.reg .r0 + (bif s.reg .r2 &&& (s.reg .ip).rotateRight k != 0 then s.reg .r1 >>> k else 0) ∧
      Keeps [.r0] s (s.steps (umodFixup k)) := by
  let u := s.step .al (.tst .r2 (.ror .ip k))
  have hu : Keeps [] s u := ⟨fun _ _ => rfl, rfl⟩
  have hcond : Cond.ne.holds u = (s.reg .r2 &&& (s.reg .ip).rotateRight k != 0) := rfl
  refine ⟨?_, steps_keeps (by simp [umodFixup, Op.isStack]) (by simp [umodFixup, Op.dest]) s⟩
  change (u.step .ne (.add .r0 .r0 (.lsr .r1 k))).reg .r0 = _
  cases h : (s.reg .r2 &&& (s.reg .ip).rotateRight k != 0) with
  | true =>
      rw [step_of_holds (hcond.trans h), cond_true]
      exact set_reg_self _ _ _
  | false =>
      rw [step_of_not (hcond.trans h), cond_false, hu.reg .r0 List.not_mem_nil]
      exact (BitVec.add_zero _).symm

theorem gives_fixups {call : DivCall → Cpu → Outcome (Cpu × Word)}
    {prog : List (Line UdivLabel DivCall)} (link : Word) (s : Cpu) :
    Gives call prog (umodFixups link) s fun t pc =>
      pc = s.reg .lr ∧ t.reg .r0 = fixups (s.reg .r0) (s.reg .r1) (s.reg .r2) (s.reg .ip) ∧
        Keeps [.r0, .r2] s t := by
  let u := s.step .al (.ands .r2 .r2 (.imm 0xe0000000))
  have hu : Keeps [.r0, .r2] s u := (step_keeps rfl s).mono (by simp [Op.dest])
  have hr2 : u.reg .r2 = s.reg .r2 &&& 0xe0000000 := rfl
  have heq : Cond.eq.holds u = (s.reg .r2 &&& 0xe0000000 == 0) := rfl
  refine gives_ins ?_
  change Gives call prog (_ :: _) u _
  cases h : (s.reg .r2 &&& 0xe0000000 == 0) with
  | true =>
      refine gives_movPc_taken (heq.trans h) ⟨rfl, ?_, hu⟩
      exact (fixups_zero (beq_iff_eq.mp h)).symm
  | false =>
      refine gives_movPc_not (heq.trans h) ?_
      change Gives call prog (lines (umodFixup 3 ++ (umodFixup 2 ++ umodFixup 1)) ++ _) u _
      refine gives_steps ?_
      rw [steps_append, steps_append]
      obtain ⟨h₃, hk₃⟩ := umodFixup_adds 3 u
      obtain ⟨h₂, hk₂⟩ := umodFixup_adds 2 (u.steps (umodFixup 3))
      obtain ⟨h₁, hk₁⟩ := umodFixup_adds 1 ((u.steps (umodFixup 3)).steps (umodFixup 2))
      have hk := hk₃.trans hk₂
      refine gives_movPc_taken rfl ⟨?_, ?_, hu.trans ((hk.trans hk₁).mono (by simp))⟩
      · rw [(hk.trans hk₁).reg .lr (by decide)]
        exact hu.reg .lr (by decide)
      · rw [h₁, hk.reg .r2 (by decide), hk.reg .ip (by decide), hk.reg .r1 (by decide), h₂,
          hk₃.reg .r2 (by decide), hk₃.reg .ip (by decide), hk₃.reg .r1 (by decide), h₃, hr2]
        rfl

-- In front of the test for the end of the loop.
theorem umodTurn_noted (s : Cpu) :
    ∃ u, s.steps umodTurn = u.steps (divisionNext .r0 .r1 .r3) ∧
      u.reg .r0 = left (s.reg .r0) (s.reg .r1) 4 ∧ u.reg .r2 = turnOver s ∧
      u.reg .ip = s.reg .r3 ∧ Keeps [.r0, .r2, .ip] s u := by
  have htrials := umodTrials_after s
  have hmov := exec_keeps (o := .mov .ip (.reg .r3)) rfl (s.steps umodTrials)
  refine ⟨(s.steps umodTrials).step .al (.mov .ip (.reg .r3)), ?_, ?_, ?_, ?_, ?_⟩
  · exact steps_append s umodTrials _
  · exact (hmov.reg .r0 (by decide)).trans htrials.dividend
  · exact (hmov.reg .r2 (by decide)).trans htrials.overdone
  · exact (set_reg_self _ _ _).trans (htrials.keeps.reg .r3 (by decide))
  · exact (htrials.keeps.mono (by simp)).trans (hmov.mono (by simp [Op.dest]))

theorem umodLoop_eq (link : Word) :
    behind .Loop3 (umodsi3 link) = lines umodTurn ++ .b .ne .Loop3 :: umodFixups link := rfl

-- The last turn.
theorem umodLoop_stop (link : Word) (s : Cpu)
    (hstop : left (s.reg .r0) (s.reg .r1) 4 = 0 ∨ s.reg .r3 >>> 4 = 0) :
    Gives (fun _ => div0) (umodsi3 link) (behind .Loop3 (umodsi3 link)) s fun t pc =>
      pc = s.reg .lr ∧
        t.reg .r0 = fixups (left (s.reg .r0) (s.reg .r1) 4) (s.reg .r1) (turnOver s) (s.reg .r3) ∧
        Keeps [.r0, .r1, .r2, .r3, .ip] s t := by
  obtain ⟨u, hu, hr0, hr2, hip, hkeeps⟩ := umodTurn_noted s
  have hend : (u.steps (divisionNext .r0 .r1 .r3)).z = true ∧
      Keeps [.r3] u (u.steps (divisionNext .r0 .r1 .r3)) := by
    by_cases hzero : u.reg .r0 = 0
    · obtain ⟨hz, hk⟩ := divisionNext_zero (b := .r1) (c := .r3) hzero
      exact ⟨hz, hk.mono (by simp)⟩
    · have hlast := hstop.resolve_left (hr0 ▸ hzero)
      rw [← hkeeps.reg .r3 (by decide)] at hlast
      exact divisionNext_last hzero hlast
  obtain ⟨hz, hk⟩ := hend
  rw [umodLoop_eq]
  refine gives_steps (gives_b_not ?_ ((gives_fixups link _).mono ?_))
  · rw [hu, Cond.holds, hz]
    rfl
  · rw [hu]
    rintro t pc ⟨hpc, ht, hk'⟩
    refine ⟨?_, ?_, ((hkeeps.mono (by simp)).trans (hk.mono (by simp))).trans (hk'.mono (by simp))⟩
    · rw [hpc, hk.reg .lr (by decide), hkeeps.reg .lr (by decide)]
    · rw [ht, hk.reg .r0 (by decide), hk.reg .r1 (by decide), hk.reg .r2 (by decide),
        hk.reg .ip (by decide), hr0, hr2, hip, hkeeps.reg .r1 (by decide)]

-- Any other turn.
theorem umodLoop_go (link : Word) (s : Cpu) (hzero : left (s.reg .r0) (s.reg .r1) 4 ≠ 0)
    (hgo : s.reg .r3 >>> 4 ≠ 0)
    (hrest : ∀ t, t.reg .r0 = left (s.reg .r0) (s.reg .r1) 4 → t.reg .r1 = s.reg .r1 >>> 4 →
      t.reg .r3 = s.reg .r3 >>> 4 → Keeps [.r0, .r1, .r2, .r3, .ip] s t →
      Gives (fun _ => div0) (umodsi3 link) (behind .Loop3 (umodsi3 link)) t post) :
    Gives (fun _ => div0) (umodsi3 link) (behind .Loop3 (umodsi3 link)) s post := by
  obtain ⟨u, hu, hr0, hr2, hip, hkeeps⟩ := umodTurn_noted s
  have hr1 : u.reg .r1 = s.reg .r1 := hkeeps.reg .r1 (by decide)
  have hr3 : u.reg .r3 = s.reg .r3 := hkeeps.reg .r3 (by decide)
  obtain ⟨hz, hb, hc, hk⟩ := divisionNext_go (a := .r0) (b := .r1) (c := .r3) (by decide)
    (by rwa [hr0]) (by rwa [hr3])
  rw [umodLoop_eq]
  refine gives_steps (gives_b_taken ?_ (hrest _ ?_ ?_ ?_ ?_))
  · rw [hu, Cond.holds, hz]
    rfl
  · rw [hu, hk.reg .r0 (by decide), hr0]
  · rw [hu, hb, hr1]
  · rw [hu, hc, hr3]
  · rw [hu]
    exact (hkeeps.mono (by simp)).trans (hk.mono (by simp))

end Turn

section Places

variable {m n j : ℕ}

-- In front of a turn that starts at place `j`.
structure AtPlace (m n j : ℕ) (s : Cpu) : Prop where
  divisor : (s.reg .r1).toNat = n * 2 ^ j
  curbit : s.reg .r3 = BitVec.twoPow 32 j
  settled : ∃ q, Settled m n (j + 1) q (s.reg .r0).toNat

theorem AtPlace.lt (h : AtPlace m n j s) : j < 32 := by
  obtain ⟨q, hq⟩ := h.settled
  have hsmall := (s.reg .r1).isLt
  have hle : 2 ^ j ≤ n * 2 ^ j := Nat.le_mul_of_pos_left _ hq.pos
  rw [h.divisor] at hsmall
  exact (Nat.pow_lt_pow_iff_right Nat.one_lt_two).mp (hle.trans_lt hsmall)

theorem AtPlace.left_settled (h : AtPlace m n j s) {k : ℕ} (hk : k ≤ j + 1) :
    ∃ q, Settled m n (j + 1 - k) q (left (s.reg .r0) (s.reg .r1) k).toNat := by
  obtain ⟨q, hq⟩ := h.settled
  exact LongDivision.left_settled h.divisor hq hk

-- What the last turn gives back.
theorem AtPlace.fixups (h : AtPlace m n j s) :
    fixups (left (s.reg .r0) (s.reg .r1) 4) (s.reg .r1) (turnOver s) (s.reg .r3) =
      left (s.reg .r0) (s.reg .r1) 4 +
        (bif hit (s.reg .r0) (s.reg .r1) 3 && j < 3 then s.reg .r1 >>> 3 else 0) +
        (bif hit (s.reg .r0) (s.reg .r1) 2 && (j < 2 || 31 ≤ j) then s.reg .r1 >>> 2 else 0) +
        bif hit (s.reg .r0) (s.reg .r1) 1 && (j < 1 || 30 ≤ j) then s.reg .r1 >>> 1 else 0 := by
  obtain ⟨h₁, h₂, h₃⟩ := fixed_overdone (hit (s.reg .r0) (s.reg .r1) 1)
    (hit (s.reg .r0) (s.reg .r1) 2) (hit (s.reg .r0) (s.reg .r1) 3) h.lt
  rw [Lmosem.fixups, turnOver, h.curbit, h₁, h₂, h₃]

-- In the last four places it takes back what is below place 0.
theorem AtPlace.fixups_last (h : AtPlace m n j s) (hj : j < 4) :
    Lmosem.fixups (left (s.reg .r0) (s.reg .r1) 4) (s.reg .r1) (turnOver s) (s.reg .r3) =
      left (s.reg .r0) (s.reg .r1) (j + 1) := by
  rw [h.fixups]
  have hback (k : ℕ) := left_add_back (s.reg .r0) (s.reg .r1) k
  have hback₃ := hback 3
  have hback₂ := hback 2
  have hback₁ := hback 1
  interval_cases j <;> simp_all

theorem AtPlace.fixups_inner (h : AtPlace m n j s) (hlow : 4 ≤ j) (hhigh : j < 30) :
    Lmosem.fixups (left (s.reg .r0) (s.reg .r1) 4) (s.reg .r1) (turnOver s) (s.reg .r3) =
      left (s.reg .r0) (s.reg .r1) 4 := by
  rw [h.fixups]
  simp (disch := omega) [not_lt_of_ge, not_le_of_gt]

theorem twoPow_ne_zero (hj : j < 32) : BitVec.twoPow 32 j ≠ 0 := by
  intro hf
  have hval := BitVec.toNat_twoPow_of_lt hj
  rw [hf] at hval
  exact absurd hval (Nat.two_pow_pos j).ne

theorem twoPow_shiftRight {k : ℕ} (hk : k ≤ j) (hj : j < 32) :
    BitVec.twoPow 32 j >>> k = BitVec.twoPow 32 (j - k) := by
  apply BitVec.eq_of_toNat_eq
  have hone : (BitVec.twoPow 32 j).toNat = 1 * 2 ^ j := by
    rw [BitVec.toNat_twoPow_of_lt hj, Nat.one_mul]
  rw [toNat_shiftRight hone hk, BitVec.toNat_twoPow_of_lt (by omega), Nat.one_mul]

-- The next turn starts four places below.
theorem umodLoop_next (link : Word) (h : AtPlace m n j s) (hlow : 4 ≤ j)
    (hzero : left (s.reg .r0) (s.reg .r1) 4 ≠ 0)
    (hrest : ∀ t, AtPlace m n (j - 4) t → Keeps [.r0, .r1, .r2, .r3, .ip] s t →
      Gives (fun _ => div0) (umodsi3 link) (behind .Loop3 (umodsi3 link)) t post) :
    Gives (fun _ => div0) (umodsi3 link) (behind .Loop3 (umodsi3 link)) s post := by
  have hlt := h.lt
  have hnext : s.reg .r3 >>> 4 = BitVec.twoPow 32 (j - 4) := by
    rw [h.curbit, twoPow_shiftRight hlow hlt]
  refine umodLoop_go link s hzero (hnext ▸ twoPow_ne_zero (by omega)) ?_
  intro t hr0 hr1 hr3 hkeeps
  obtain ⟨q, hq⟩ := h.left_settled (by omega : 4 ≤ j + 1)
  refine hrest t ⟨?_, ?_, q, ?_⟩ hkeeps
  · rw [hr1, toNat_shiftRight h.divisor hlow]
  · rw [hr3, hnext]
  · rw [hr0, ← Nat.sub_add_comm hlow]
    exact hq

-- A turn below the top leads to the remainder.
theorem umodLoop_low (link : Word) (h : AtPlace m n j s) (hj : j < 30) :
    Gives (fun _ => div0) (umodsi3 link) (behind .Loop3 (umodsi3 link)) s fun t pc =>
      pc = s.reg .lr ∧ (t.reg .r0).toNat = m % n ∧ Keeps [.r0, .r1, .r2, .r3, .ip] s t := by
  induction j using Nat.strongRecOn generalizing s with
  | ind j ih =>
      by_cases hlast : j < 4
      · have hzero : s.reg .r3 >>> 4 = 0 := by
          rw [h.curbit]
          interval_cases j <;> rfl
        refine (umodLoop_stop link s (Or.inr hzero)).mono ?_
        rintro t pc ⟨hpc, ht, hkeeps⟩
        obtain ⟨q, hq⟩ := h.left_settled (Nat.le_refl (j + 1))
        rw [Nat.sub_self] at hq
        refine ⟨hpc, ?_, hkeeps⟩
        rw [ht, h.fixups_last hlast, hq.remainder]
      · have hlow : 4 ≤ j := Nat.not_lt.mp hlast
        by_cases hzero : left (s.reg .r0) (s.reg .r1) 4 = 0
        · refine (umodLoop_stop link s (Or.inl hzero)).mono ?_
          rintro t pc ⟨hpc, ht, hkeeps⟩
          obtain ⟨q, hq⟩ := h.left_settled (by omega : 4 ≤ j + 1)
          rw [hzero] at hq
          refine ⟨hpc, ?_, hkeeps⟩
          rw [ht, h.fixups_inner hlow hj, hzero]
          exact hq.exact.remainder
        · refine umodLoop_next link h hlow hzero fun t hplace hkeeps => ?_
          refine (ih (j - 4) (by omega) hplace (by omega)).mono ?_
          rintro u pc ⟨hpc, hu, hkeeps'⟩
          exact ⟨hpc.trans (hkeeps.reg .lr (by decide)), hu, hkeeps.trans hkeeps'⟩

-- The dividends and divisors that are not divided right. They end in the first turn, and it
-- starts so far up that a subtraction is taken back by mistake.
def umodsi3Wrong : List (Word × Word) :=
  [(0x28000000, 1), (0x30000000, 1), (0x38000000, 1), (0x50000000, 1), (0x60000000, 1),
   (0x70000000, 1), (0xa0000000, 1), (0xb0000000, 1), (0xc0000000, 1), (0xd0000000, 1),
   (0xe0000000, 1), (0xf0000000, 1), (0x50000000, 2), (0x60000000, 2), (0x70000000, 2),
   (0xc0000000, 2), (0xd0000000, 2), (0xe0000000, 2), (0xf0000000, 2), (0x78000000, 3),
   (0x90000000, 3), (0xa8000000, 3)]

-- The divisor `n` is shifted up by `j` places for the dividend `m`.
structure Placed (m n j : ℕ) : Prop where
  small : n * 2 ^ j < 2 ^ 32
  stop : 2 ^ 31 ≤ n * 2 ^ j ∨ m ≤ n * 2 ^ j
  near : 28 < j → n * 2 ^ (j - 1) < m

instance (m n j : ℕ) : Decidable (Placed m n j) :=
  decidable_of_iff (n * 2 ^ j < 2 ^ 32 ∧ (2 ^ 31 ≤ n * 2 ^ j ∨ m ≤ n * 2 ^ j) ∧
    (28 < j → n * 2 ^ (j - 1) < m)) ⟨fun ⟨h₁, h₂, h₃⟩ => ⟨h₁, h₂, h₃⟩, fun ⟨h₁, h₂, h₃⟩ => ⟨h₁, h₂, h₃⟩⟩

theorem wrong_big : ∀ p ∈ umodsi3Wrong,
    p.2.toNat * 2 ^ 29 < 2 ^ 31 ∧ p.2.toNat * 2 ^ 29 < p.1.toNat := by
  have hall : umodsi3Wrong.all (fun p => decide (p.2.toNat * 2 ^ 29 < 2 ^ 31 ∧
      p.2.toNat * 2 ^ 29 < p.1.toNat)) = true := by decide +kernel
  exact fun p hp => of_decide_eq_true (List.all_eq_true.mp hall p hp)

-- A wrong division ends in the first turn.
theorem wrong_left : ∀ p ∈ umodsi3Wrong, ∀ j ∈ [30, 31], Placed p.1.toNat p.2.toNat j →
    left p.1 (p.2 <<< j) 4 = 0 := by
  have hall : umodsi3Wrong.all (fun p => decide (∀ j ∈ ([30, 31] : List ℕ),
      Placed p.1.toNat p.2.toNat j → left p.1 (p.2 <<< j) 4 = 0)) = true := by decide +kernel
  exact fun p hp => of_decide_eq_true (List.all_eq_true.mp hall p hp)

-- The dividends that are used up in a first turn far up.
theorem wrong_iff : ∀ nj ∈ [(1, 30), (1, 31), (2, 30), (3, 30)], ∀ h₀ h₁ h₂ h₃ : Bool,
    let d := nj.1 * 2 ^ nj.2
    let m := h₃.toNat * (d / 8) + h₂.toNat * (d / 4) + h₁.toNat * (d / 2) + h₀.toNat * d
    m < 2 ^ 32 → Placed m nj.1 nj.2 →
    ((bif h₂ && 31 ≤ nj.2 then BitVec.ofNat 32 d >>> 2 else 0) +
        (bif h₁ then BitVec.ofNat 32 d >>> 1 else 0) = 0 ↔
      (BitVec.ofNat 32 m, BitVec.ofNat 32 nj.1) ∉ umodsi3Wrong) := by
  decide +kernel

theorem Placed.divisor (h : Placed m n j) (hn : 0 < n) (hj : 30 ≤ j) :
    (n, j) ∈ [(1, 30), (1, 31), (2, 30), (3, 30)] := by
  have hsmall := h.small
  have hpow : 2 ^ j ≤ n * 2 ^ j := Nat.le_mul_of_pos_left _ hn
  have hj32 : j < 32 := (Nat.pow_lt_pow_iff_right Nat.one_lt_two).mp (hpow.trans_lt hsmall)
  obtain rfl | rfl : j = 30 ∨ j = 31 := by omega
  · obtain rfl | rfl | rfl : n = 1 ∨ n = 2 ∨ n = 3 := by omega
    all_goals decide
  · obtain rfl : n = 1 := by omega
    decide

-- What is subtracted in a turn.
theorem left_sum (x d : Word) : x.toNat = (left x d 4).toNat + (hit x d 3).toNat * (d.toNat / 8) +
    (hit x d 2).toNat * (d.toNat / 4) + (hit x d 1).toNat * (d.toNat / 2) +
    (hit x d 0).toNat * d.toNat := by
  have h₀ := left_toNat x d 0
  have h₁ := left_toNat x d 1
  have h₂ := left_toNat x d 2
  have h₃ := left_toNat x d 3
  rw [BitVec.toNat_ushiftRight, Nat.shiftRight_eq_div_pow] at h₀ h₁ h₂ h₃
  rw [Nat.pow_zero, Nat.div_one, left] at h₀
  norm_num only at h₀ h₁ h₂ h₃
  omega

-- A turn far up leads to the remainder as well, unless the division is one of the wrong ones.
theorem umodLoop_high (link : Word) (h : AtPlace (s.reg .r0).toNat n j s)
    (hplaced : Placed (s.reg .r0).toNat n j) (hn : 0 < n) (hj : 30 ≤ j) :
    Gives (fun _ => div0) (umodsi3 link) (behind .Loop3 (umodsi3 link)) s fun t pc =>
      pc = s.reg .lr ∧
        ((t.reg .r0).toNat = (s.reg .r0).toNat % n ↔
          (s.reg .r0, BitVec.ofNat 32 n) ∉ umodsi3Wrong) ∧
        Keeps [.r0, .r1, .r2, .r3, .ip] s t := by
  have hmem := hplaced.divisor hn hj
  have hr1 : s.reg .r1 = BitVec.ofNat 32 (n * 2 ^ j) := by
    apply BitVec.eq_of_toNat_eq
    rw [h.divisor, BitVec.toNat_ofNat, Nat.mod_eq_of_lt hplaced.small]
  by_cases hzero : left (s.reg .r0) (s.reg .r1) 4 = 0
  · refine (umodLoop_stop link s (Or.inl hzero)).mono ?_
    rintro t pc ⟨hpc, ht, hkeeps⟩
    refine ⟨hpc, ?_, hkeeps⟩
    obtain ⟨q, hq⟩ := h.left_settled (by omega : 4 ≤ j + 1)
    rw [hzero] at hq
    have hrem : (s.reg .r0).toNat % n = 0 := hq.exact.remainder.symm
    have hiff := wrong_iff (n, j) hmem (hit (s.reg .r0) (s.reg .r1) 0)
      (hit (s.reg .r0) (s.reg .r1) 1) (hit (s.reg .r0) (s.reg .r1) 2) (hit (s.reg .r0) (s.reg .r1) 3)
    have hsum := left_sum (s.reg .r0) (s.reg .r1)
    have hnothing : (0 : Word).toNat = 0 := rfl
    rw [hzero, h.divisor, hnothing, Nat.zero_add] at hsum
    simp only [← hsum, BitVec.ofNat_toNat, BitVec.setWidth_eq] at hiff
    rw [← hiff (s.reg .r0).isLt hplaced, ← hr1, hrem, ht, h.fixups, hzero]
    have hj₃ : ¬j < 3 := by omega
    have hj₂ : ¬j < 2 := by omega
    have hj₁ : ¬j < 1 := by omega
    simp only [hj₃, hj₂, hj₁, hj, decide_true, decide_false, Bool.and_false, Bool.false_or,
      Bool.and_true, cond_false]
    have hzeros (x y : Word) : 0 + 0 + x + y = x + y := by
      rw [BitVec.add_assoc]
      exact BitVec.zero_add _
    rw [hzeros]
    exact BitVec.toNat_inj (y := 0)
  · refine umodLoop_next link h (by omega) hzero fun t hplace hkeeps => ?_
    refine (umodLoop_low link hplace (by have := h.lt; omega)).mono ?_
    rintro u pc ⟨hpc, hu, hkeeps'⟩
    refine ⟨hpc.trans (hkeeps.reg .lr (by decide)), iff_of_true hu fun hwrong => hzero ?_,
      hkeeps.trans hkeeps'⟩
    have hn32 : n < 2 ^ 32 := (Nat.le_mul_of_pos_right n (Nat.two_pow_pos j)).trans_lt hplaced.small
    have hdiv : (BitVec.ofNat 32 n).toNat = n := by rw [BitVec.toNat_ofNat, Nat.mod_eq_of_lt hn32]
    have hj : j ∈ [30, 31] := by
      have := h.lt
      simp only [List.mem_cons, List.not_mem_nil, or_false]
      omega
    have hleft := wrong_left _ hwrong j hj (hdiv.symm ▸ hplaced)
    have hshift : BitVec.ofNat 32 n <<< j = s.reg .r1 := by
      apply BitVec.eq_of_toNat_eq
      rw [BitVec.toNat_shiftLeft, hdiv, Nat.shiftLeft_eq, Nat.mod_eq_of_lt hplaced.small, h.divisor]
    rwa [hshift] at hleft

-- The divisor has been shifted up by the loops in front.
theorem Normal.placed (h : Normal .r0 .r1 j s t) : Placed (s.reg .r0).toNat (s.reg .r1).toNat j := by
  have hsmall := (t.reg .r1).isLt
  have hstop := h.stop
  have htop : (0x80000000 : Word).toNat = 2 ^ 31 := by decide
  rw [BitVec.le_def, BitVec.le_def, h.divisor, htop] at hstop
  rw [h.divisor] at hsmall
  exact ⟨hsmall, hstop, h.near⟩

theorem Normal.atPlace (h : Normal .r0 .r1 j s t) (hr0 : t.reg .r0 = s.reg .r0)
    (hr3 : t.reg .r3 = 1 <<< j) : AtPlace (s.reg .r0).toNat (s.reg .r1).toNat j t := by
  refine ⟨h.divisor, hr3.trans (BitVec.twoPow_eq 32 j).symm, 0, ?_⟩
  rw [hr0]
  exact Settled.start h.above

theorem Placed.not_wrong {x y : Word} (h : Placed x.toNat y.toNat j) (hj : j < 30) :
    (x, y) ∉ umodsi3Wrong := by
  intro hwrong
  have hbig := wrong_big (x, y) hwrong
  dsimp only at hbig
  have hle : y.toNat * 2 ^ j ≤ y.toNat * 2 ^ 29 :=
    Nat.mul_le_mul_left _ (Nat.pow_le_pow_right Nat.two_pos (Nat.le_of_lt_succ hj))
  rcases h.stop with hstop | hstop
  · exact absurd (hstop.trans hle) (Nat.not_le.mpr hbig.1)
  · exact absurd (hstop.trans hle) (Nat.not_le.mpr hbig.2)

end Places

-- `__umodsi3` gives the remainder, except for 22 pairs of a dividend and a divisor, and 0 for
-- a division by zero.
theorem umodsi3_mod_iff (link : Word) (s : Cpu) :
    Gives (fun _ => div0) (umodsi3 link) (umodsi3 link) s fun t pc =>
      pc = s.reg .lr ∧ (s.reg .r1 = 0 → t.reg .r0 = 0) ∧
        (s.reg .r1 ≠ 0 → (t.reg .r0 = s.reg .r0 % s.reg .r1 ↔
          (s.reg .r0, s.reg .r1) ∉ umodsi3Wrong)) ∧
        Leaves [.r0, .r1, .r2, .r3, .ip, .lr] 4 s t := by
  refine gives_ins ?_
  by_cases hzero : s.reg .r1 = 0
  · refine gives_b_taken ?_ ((gives_div0 link _).mono ?_)
    · change ((s.compare (s.reg .r1) 0)).z = true
      rw [compare_zero, hzero]
      rfl
    · rintro t pc ⟨hpc, hr0, hleaves⟩
      have hleaves : Leaves [.r0, .r1, .r2, .r3, .ip, .lr] 4 _ t := hleaves.mono (by simp)
      exact ⟨hpc, fun _ => hr0, fun hne => absurd hzero hne,
        hleaves.after ((step_keeps rfl s).mono (by simp [Op.dest])) (by decide)⟩
  · refine gives_b_not ?_ (gives_ins (gives_ins ?_))
    · change ((s.compare (s.reg .r1) 0)).z = false
      rw [compare_zero]
      exact beq_eq_false_iff_ne.mpr hzero
    let u := s.steps [(.al, .cmp .r1 (.imm 0)), (.al, .mov .r3 (.imm 1)), (.al, .cmp .r0 (.reg .r1))]
    have hu : Keeps [.r0, .r1, .r2, .r3, .ip, .lr] s u := steps_keeps (by decide) (by decide) s
    change Gives _ _ (.movPc .cc .lr :: .label .Loop1 :: behind .Loop1 (umodsi3 link)) u _
    have hpos : 0 < (u.reg .r1).toNat := Nat.pos_of_ne_zero fun hf =>
      hzero (BitVec.eq_of_toNat_eq hf)
    by_cases hlt : s.reg .r0 < s.reg .r1
    · refine gives_movPc_taken (congrArg (!·) (decide_eq_false (BitVec.not_le.mpr hlt)))
        ⟨rfl, fun hf => absurd hf hzero, fun _ => iff_of_true ?_ fun hwrong => ?_, hu.leaves 4⟩
      · apply BitVec.eq_of_toNat_eq
        rw [BitVec.toNat_umod, Nat.mod_eq_of_lt hlt]
        rfl
      · have hbig : (s.reg .r1).toNat * 2 ^ 29 < (s.reg .r0).toNat := (wrong_big _ hwrong).2
        rw [BitVec.lt_def] at hlt
        omega
    · refine gives_movPc_not (congrArg (!·) (decide_eq_true (BitVec.not_lt.mp hlt))) (gives_label ?_)
      refine normalise (counts_lsl .r3 4) (counts_lsl .r3 1) (g := fun j x => x <<< j) ?_ (by decide)
        (by decide) (by decide) hpos rfl rfl ?_
      · intro i i' x
        rw [iterate_shiftLeft, iterate_shiftLeft, ← BitVec.shiftLeft_add, Nat.one_mul]
      · intro j t hnormal hcurbit hkeeps
        change Gives _ _ (.label .Loop3 :: behind .Loop3 (umodsi3 link)) t _
        have hr0 : t.reg .r0 = s.reg .r0 := hkeeps.reg .r0 (by decide)
        have hplaced : Placed (s.reg .r0).toNat (s.reg .r1).toNat j := hnormal.placed
        have hplace : AtPlace (s.reg .r0).toNat (s.reg .r1).toNat j t := hnormal.atPlace hr0 hcurbit
        have hlr : t.reg .lr = s.reg .lr := hkeeps.reg .lr (by decide)
        have hkeeps : Keeps [.r0, .r1, .r2, .r3, .ip, .lr] u t := hkeeps.mono (by simp)
        have hmod (x : Word) : x = s.reg .r0 % s.reg .r1 ↔
            x.toNat = (s.reg .r0).toNat % (s.reg .r1).toNat := by
          rw [← BitVec.toNat_umod, BitVec.toNat_inj]
        refine gives_label ?_
        by_cases hj : j < 30
        · refine (umodLoop_low link hplace hj).mono ?_
          rintro t' pc ⟨hpc, ht, hkeeps'⟩
          refine ⟨hpc.trans hlr, fun hf => absurd hf hzero, fun _ => ?_, ?_⟩
          · exact iff_of_true ((hmod _).mpr ht) (hplaced.not_wrong hj)
          · exact ((hu.trans hkeeps).trans (hkeeps'.mono (by simp))).leaves 4
        · rw [← hr0] at hplaced hplace
          refine (umodLoop_high link hplace hplaced hpos (Nat.not_lt.mp hj)).mono ?_
          rintro t' pc ⟨hpc, ht, hkeeps'⟩
          rw [BitVec.ofNat_toNat, BitVec.setWidth_eq, hr0] at ht
          refine ⟨hpc.trans hlr, fun hf => absurd hf hzero, fun _ => ?_, ?_⟩
          · rw [hmod, ht]
          · exact ((hu.trans hkeeps).trans (hkeeps'.mono (by simp))).leaves 4

end Lmosem
