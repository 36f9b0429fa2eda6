import Lmosem.Hal.Udivsi3
import Mathlib.Tactic.IntervalCases

-- `__divsi3`.
namespace Lmosem

open Arm LongDivision

variable {L F : Type} [DecidableEq L]
variable {call : F → Cpu → Outcome (Cpu × Word)} {prog rest : List (Line L F)}
variable {s t : Cpu} {post : Cpu → Word → Prop}

-- A register is negated when the last result was negative.
theorem step_negate (d e : Reg) (s : Cpu) :
    (s.step .mi (.rsb d e (.imm 0))).reg d = (bif s.n then -s.reg e else s.reg d) ∧
      Keeps [d] s (s.step .mi (.rsb d e (.imm 0))) := by
  have hcond : Cond.mi.holds s = s.n := rfl
  refine ⟨?_, step_keeps (o := .rsb d e (.imm 0)) rfl s⟩
  cases h : s.n with
  | true =>
      rw [step_of_holds (hcond.trans h), cond_true]
      exact (set_reg_self _ _ _).trans (BitVec.zero_sub _)
  | false => rw [step_of_not (hcond.trans h), cond_false]

theorem compare_zero_n (s : Cpu) (x : Word) : (s.compare x 0).n = x.msb := by
  rw [Cpu.compare]
  exact congrArg BitVec.msb (BitVec.sub_zero x)

theorem compare_z (s : Cpu) (x y : Word) : (s.compare x y).z = decide (x = y) := by
  have hiff : x - y = 0 ↔ x = y := by bv_omega
  change decide (x - y = 0) = _
  exact decide_eq_decide.mpr hiff

theorem compare_hi (s : Cpu) (x y : Word) : Cond.hi.holds (s.compare x y) = decide (y < x) := by
  have hc : (s.compare x y).c = decide (y ≤ x) := rfl
  rw [Cond.holds, hc, compare_z, ← decide_not, ← Bool.decide_and]
  refine decide_eq_decide.mpr ?_
  bv_omega

-- The amount of a register.
theorem steps_abs (d : Reg) (s : Cpu) (h : s.n = (s.reg d).msb) :
    (s.step .mi (.rsb d d (.imm 0))).reg d = (s.reg d).abs := by
  rw [(step_negate d d s).1, h, BitVec.abs_eq]
  cases (s.reg d).msb <;> rfl

-- The sign of a result.
theorem gives_sign (s : Cpu) :
    Gives call prog
      (.ins .al (.cmp .ip (.imm 0)) :: .ins .mi (.rsb .r0 .r0 (.imm 0)) :: .movPc .al .lr :: rest) s
      fun t pc => pc = s.reg .lr ∧
        t.reg .r0 = (bif (s.reg .ip).msb then -s.reg .r0 else s.reg .r0) ∧ Keeps [.r0] s t := by
  obtain ⟨hr0, hkeeps⟩ := step_negate .r0 .r0 (s.compare (s.reg .ip) 0)
  rw [compare_zero_n] at hr0
  have hkeeps : Keeps [.r0] s _ := ⟨hkeeps.reg, hkeeps.mem⟩
  exact gives_ins (gives_ins (gives_movPc_taken rfl ⟨hkeeps.reg .lr (by decide), hr0, hkeeps⟩))

-- 1 or -1, by the sign of `x`.
theorem sshiftRight_or_one (x : Word) : x.sshiftRight 31 ||| 1 = bif x.msb then -1 else 1 := by
  have hfill : x.sshiftRight 31 = bif x.msb then -1 else 0 := by
    apply BitVec.eq_of_getLsbD_eq
    intro i hi
    have hones : (-1 : Word).getLsbD i = true := by
      change (BitVec.allOnes 32).getLsbD i = true
      rw [BitVec.getLsbD_allOnes, decide_eq_true hi]
    rw [BitVec.getLsbD_sshiftRight]
    by_cases h0 : i = 0
    · subst h0
      rw [BitVec.msb_eq_getLsbD_last]
      cases x.getLsbD 31 <;> rfl
    · have hout : ¬31 + i < 32 := by omega
      cases x.msb
      · simp [hout]
      · rw [cond_true, hones]
        simp [hi, hout]
  rw [hfill]
  cases x.msb <;> rfl

section Order

-- One halving of the places that are searched for the bit of a power of two.
def halve (x : Word) (k : ℕ) (p : Word × Word) : Word × Word :=
  if x ≤ p.1 then (p.1 >>> k, p.2 + BitVec.ofNat 32 k) else p

def div2Order (d : Word) : Word :=
  let p := halve 0x10 4 (halve 0x100 8 (halve 0x10000 16 (d, 0)))
  if 4 < p.1 then p.2 + 3 else p.2 + p.1 >>> 1

theorem div2Order_twoPow : ∀ k < 32, div2Order (BitVec.twoPow 32 k) = BitVec.ofNat 32 k := by
  decide

def halveFirst (x : Word) : List (Cond × Op) :=
  [(.al, .cmp .r1 (.imm x)), (.cs, .mov .r1 (.lsr .r1 16)), (.cs, .mov .r2 (.imm 16)),
   (.cc, .mov .r2 (.imm 0))]

def halveTurn (x : Word) (k : ℕ) : List (Cond × Op) :=
  [(.al, .cmp .r1 (.imm x)), (.cs, .mov .r1 (.lsr .r1 k)),
   (.cs, .add .r2 .r2 (.imm (BitVec.ofNat 32 k)))]

def halveLast (x : Word) : List (Cond × Op) :=
  [(.al, .cmp .r1 (.imm x)), (.hi, .add .r2 .r2 (.imm 3)), (.ls, .add .r2 .r2 (.lsr .r1 1))]

theorem halveTurn_spec (x : Word) (k : ℕ) (s : Cpu) :
    ((s.steps (halveTurn x k)).reg .r1, (s.steps (halveTurn x k)).reg .r2) =
        halve x k (s.reg .r1, s.reg .r2) ∧
      Keeps [.r1, .r2] s (s.steps (halveTurn x k)) := by
  refine ⟨?_, steps_keeps (by simp [halveTurn, Op.isStack]) (by simp [halveTurn, Op.dest]) s⟩
  by_cases h : x ≤ s.reg .r1
  · simp [Cpu.steps, halveTurn, Cpu.step, Cond.holds, Op.exec, Operand.value, Cpu.compare, Cpu.set,
      halve, h]
  · simp [Cpu.steps, halveTurn, Cpu.step, Cond.holds, Op.exec, Operand.value, Cpu.compare, Cpu.set,
      halve, h]

theorem halveFirst_spec (x : Word) (s : Cpu) :
    ((s.steps (halveFirst x)).reg .r1, (s.steps (halveFirst x)).reg .r2) =
        halve x 16 (s.reg .r1, 0) ∧
      Keeps [.r1, .r2] s (s.steps (halveFirst x)) := by
  refine ⟨?_, steps_keeps (by simp [halveFirst, Op.isStack]) (by simp [halveFirst, Op.dest]) s⟩
  by_cases h : x ≤ s.reg .r1
  · simp [Cpu.steps, halveFirst, Cpu.step, Cond.holds, Op.exec, Operand.value, Cpu.compare, Cpu.set,
      halve, h]
  · simp [Cpu.steps, halveFirst, Cpu.step, Cond.holds, Op.exec, Operand.value, Cpu.compare, Cpu.set,
      halve, h]

theorem halveLast_spec (x : Word) (s : Cpu) :
    (s.steps (halveLast x)).reg .r2 =
        (if x < s.reg .r1 then s.reg .r2 + 3 else s.reg .r2 + s.reg .r1 >>> 1) ∧
      Keeps [.r1, .r2] s (s.steps (halveLast x)) := by
  refine ⟨?_, steps_keeps (by simp [halveLast, Op.isStack]) (by simp [halveLast, Op.dest]) s⟩
  let u := s.compare (s.reg .r1) x
  have hu : Keeps [] s u := ⟨fun _ _ => rfl, rfl⟩
  change ((u.step .hi (.add .r2 .r2 (.imm 3))).step .ls (.add .r2 .r2 (.lsr .r1 1))).reg .r2 = _
  have hls (v : Cpu) (hc : v.c = u.c) (hz : v.z = u.z) : Cond.ls.holds v = !Cond.hi.holds u := by
    rw [Cond.holds, Cond.holds, hc, hz]
    cases u.c <;> cases u.z <;> rfl
  have hhi : Cond.hi.holds u = decide (x < s.reg .r1) := compare_hi s _ _
  by_cases h : x < s.reg .r1
  · rw [decide_eq_true h] at hhi
    have hls' : Cond.ls.holds ((Op.add .r2 .r2 (.imm 3)).exec u) = false :=
      (hls _ rfl rfl).trans (congrArg (!·) hhi)
    rw [step_of_holds hhi, step_of_not hls', if_pos h]
    exact set_reg_self _ _ _
  · rw [decide_eq_false h] at hhi
    have hls' : Cond.ls.holds u = true := (hls _ rfl rfl).trans (congrArg (!·) hhi)
    rw [step_of_not hhi, step_of_holds hls', if_neg h]
    exact set_reg_self _ _ _

def div2Lines : List (Cond × Op) :=
  halveFirst 0x10000 ++ (halveTurn 0x100 8 ++ (halveTurn 0x10 4 ++ halveLast 4))

theorem div2Lines_spec (s : Cpu) :
    (s.steps div2Lines).reg .r2 = div2Order (s.reg .r1) ∧ Keeps [.r1, .r2] s (s.steps div2Lines) := by
  unfold div2Lines
  rw [steps_append, steps_append, steps_append]
  obtain ⟨h₁, hk₁⟩ := halveFirst_spec 0x10000 s
  generalize s.steps (halveFirst 0x10000) = s₁ at h₁ hk₁ ⊢
  obtain ⟨h₂, hk₂⟩ := halveTurn_spec 0x100 8 s₁
  generalize s₁.steps (halveTurn 0x100 8) = s₂ at h₂ hk₂ ⊢
  obtain ⟨h₃, hk₃⟩ := halveTurn_spec 0x10 4 s₂
  generalize s₂.steps (halveTurn 0x10 4) = s₃ at h₃ hk₃ ⊢
  obtain ⟨h₄, hk₄⟩ := halveLast_spec 4 s₃
  refine ⟨?_, ((hk₁.trans hk₂).trans hk₃).trans hk₄⟩
  rw [h₄, div2Order, ← h₁, ← h₂, ← h₃]

end Order

section Exits

variable (link : Word) (s : Cpu)

-- The divisor is 1 or -1.
theorem divsi3_ten :
    Gives (fun _ => div0) (divsi3 link) (behind .ten (divsi3 link)) s fun t pc =>
      pc = s.reg .lr ∧
        t.reg .r0 = (bif (s.reg .ip ^^^ s.reg .r0).msb then -s.reg .r0 else s.reg .r0) ∧
        Keeps [.r0] s t := by
  obtain ⟨hr0, hkeeps⟩ := step_negate .r0 .r0 (s.step .al (.teq .ip (.reg .r0)))
  have hkeeps : Keeps [.r0] s _ := ⟨hkeeps.reg, hkeeps.mem⟩
  exact gives_ins (gives_ins (gives_movPc_taken rfl ⟨hkeeps.reg .lr (by decide), hr0, hkeeps⟩))

-- The amounts are equal, or that of the dividend is the smaller one.
theorem divsi3_eleven (h : s.c = s.z) :
    Gives (fun _ => div0) (divsi3 link) (behind .eleven (divsi3 link)) s fun t pc =>
      pc = s.reg .lr ∧
        t.reg .r0 = (bif s.z then bif (s.reg .ip).msb then -1 else 1 else 0) ∧ Keeps [.r0] s t := by
  let u := s.steps [(.cc, .mov .r0 (.imm 0)), (.eq, .mov .r0 (.asr .ip 31)),
    (.eq, .orr .r0 .r0 (.imm 1))]
  have hu : Keeps [.r0] s u := steps_keeps (by decide) (by decide) s
  refine gives_ins (gives_ins (gives_ins (gives_movPc_taken rfl ⟨hu.reg .lr (by decide), ?_, hu⟩)))
  change u.reg .r0 = _
  cases hz : s.z with
  | true =>
      rw [hz] at h
      have hcc : Cond.cc.holds s = false := congrArg (!·) h
      have heq : Cond.eq.holds s = true := hz
      have heq' (x : Word) : Cond.eq.holds (s.set .r0 x) = true := hz
      change (((s.step .cc _).step .eq _).step .eq _).reg .r0 = _
      rw [step_of_not hcc, step_of_holds heq, Op.exec, step_of_holds (heq' _)]
      exact (set_reg_self _ _ _).trans (sshiftRight_or_one _)
  | false =>
      rw [hz] at h
      have hcc : Cond.cc.holds s = true := congrArg (!·) h
      have heq : Cond.eq.holds (s.set .r0 0) = false := hz
      change (((s.step .cc (.mov .r0 (.imm 0))).step .eq _).step .eq _).reg .r0 = _
      rw [step_of_holds hcc, Op.exec, Operand.value, step_of_not heq, step_of_not heq]
      rfl

-- The divisor is a power of two.
theorem divsi3_twelve {k : ℕ} (hk : k < 32) (hr1 : s.reg .r1 = BitVec.twoPow 32 k) :
    Gives (fun _ => div0) (divsi3 link) (behind .twelve (divsi3 link)) s fun t pc =>
      pc = s.reg .lr ∧
        t.reg .r0 = (bif (s.reg .ip).msb then -(s.reg .r3 / s.reg .r1) else s.reg .r3 / s.reg .r1) ∧
        Keeps [.r0, .r1, .r2] s t := by
  obtain ⟨hr2, hkeeps⟩ := div2Lines_spec s
  rw [hr1, div2Order_twoPow k hk] at hr2
  change Gives _ _ (lines div2Lines ++ _) s _
  refine gives_steps ?_
  generalize s.steps div2Lines = u at hr2 hkeeps
  have hplace : ∀ k < 32, ((BitVec.ofNat 32 k).setWidth 8).toNat = k := by decide
  let v := u.steps [(.al, .cmp .ip (.imm 0)), (.al, .mov .r0 (.lsrBy .r3 .r2))]
  have hv : Keeps [.r0] u v := steps_keeps (by decide) (by decide) u
  have hr0 : v.reg .r0 = s.reg .r3 / s.reg .r1 := by
    have hset : v.reg .r0 = u.reg .r3 >>> ((u.reg .r2).setWidth 8).toNat := set_reg_self _ _ _
    rw [hset, hr2, hplace k hk, hkeeps.reg .r3 (by decide), hr1, BitVec.udiv_twoPow_eq_of_lt hk]
  have hn : v.n = (s.reg .ip).msb := by
    rw [← hkeeps.reg .ip (by decide)]
    exact compare_zero_n u _
  obtain ⟨hneg, hk'⟩ := step_negate .r0 .r0 v
  rw [hr0, hn] at hneg
  have hall := (hkeeps.mono (by simp : _ ⊆ [.r0, .r1, .r2])).trans ((hv.trans hk').mono (by simp))
  exact gives_ins (gives_ins (gives_ins (gives_movPc_taken rfl ⟨hall.reg .lr (by decide), hneg, hall⟩)))

end Exits

-- The tests in front of the body shift the divisor up by three places if it has room for them.
theorem lt_of_and_top {x : Word} (h : x &&& 0xe0000000 = 0) : x.toNat < 2 ^ 29 := by
  by_contra hge
  obtain ⟨i, hi, hbit⟩ := Nat.exists_ge_and_testBit_of_ge_two_pow (Nat.not_lt.mp hge)
  have hi32 : i < 32 := by
    by_contra hout
    exact absurd (BitVec.getLsbD_of_ge x i (Nat.not_lt.mp hout)) (by rw [BitVec.getLsbD, hbit]; decide)
  have hmask : ∀ i < 32, 29 ≤ i → (0xe0000000 : Word).getLsbD i = true := by decide
  have hand := congrArg (·.getLsbD i) h
  rw [BitVec.getLsbD_and, hmask i hi32 hi, BitVec.getLsbD, hbit] at hand
  simp at hand

def divStart : List (Cond × Op) :=
  [(.al, .tst .r1 (.imm 0xe0000000)), (.eq, .mov .r1 (.lsl .r1 3)), (.eq, .mov .r2 (.imm 8)),
   (.ne, .mov .r2 (.imm 1))]

theorem divStart_spec (s : Cpu) :
    ∃ i, ((s.steps divStart).reg .r1).toNat = (s.reg .r1).toNat * 2 ^ i ∧
      ((s.steps divStart).reg .r2).toNat = 2 ^ i ∧ Keeps [.r1, .r2] s (s.steps divStart) := by
  have hkeeps : Keeps [.r1, .r2] s (s.steps divStart) := steps_keeps (by decide) (by decide) s
  let u := s.step .al (.tst .r1 (.imm 0xe0000000))
  have hsteps : s.steps divStart =
      ((u.step .eq (.mov .r1 (.lsl .r1 3))).step .eq (.mov .r2 (.imm 8))).step .ne
        (.mov .r2 (.imm 1)) := rfl
  cases hz : u.z with
  | true =>
      have heq : Cond.eq.holds u = true := hz
      have heq' (x : Word) : Cond.eq.holds (u.set .r1 x) = true := hz
      have hne (x y : Word) : Cond.ne.holds ((u.set .r1 x).set .r2 y) = false := congrArg (!·) hz
      rw [step_of_holds heq, Op.exec, step_of_holds (heq' _), Op.exec, step_of_not (hne _ _)] at hsteps
      refine ⟨3, ?_, by rw [hsteps, set_reg_self]; rfl, hkeeps⟩
      have hsmall : (s.reg .r1).toNat < 2 ^ 29 := lt_of_and_top (beq_iff_eq.mp hz)
      have hr1 : (s.steps divStart).reg .r1 = s.reg .r1 <<< 3 := by
        rw [hsteps]
        rfl
      rw [hr1, BitVec.toNat_shiftLeft, Nat.shiftLeft_eq, Nat.mod_eq_of_lt (by omega)]
  | false =>
      have heq : Cond.eq.holds u = false := hz
      have hne : Cond.ne.holds u = true := congrArg (!·) hz
      rw [step_of_not heq, step_of_not heq, step_of_holds hne] at hsteps
      refine ⟨0, ?_, by rw [hsteps]; rfl, hkeeps⟩
      rw [hsteps, Nat.pow_zero, Nat.mul_one]
      rfl

-- What follows the body.
def divsi3End (link : Word) : List (Line DivLabel DivCall) :=
  .ins .al (.cmp .ip (.imm 0)) :: .ins .mi (.rsb .r0 .r0 (.imm 0)) :: .movPc .al .lr ::
    .label .ten :: behind .ten (divsi3 link)

-- The body, with the amounts in r3 and r1.
theorem divsi3_body (link : Word) (s : Cpu) (hpos : 0 < (s.reg .r1).toNat) :
    Gives (fun _ => div0) (divsi3 link) (ARM_DIV_BODY .r3 .r1 .r0 .r2 ++ divsi3End link) s
      fun t pc => pc = s.reg .lr ∧
        t.reg .r0 = (bif (s.reg .ip).msb then -(s.reg .r3 / s.reg .r1) else s.reg .r3 / s.reg .r1) ∧
        Keeps [.r0, .r1, .r2, .r3] s t := by
  obtain ⟨i, hr1, hr2, hu⟩ := divStart_spec s
  change Gives _ _ (lines divStart ++ .label .loop1 :: behind .loop1 (divsi3 link)) s _
  refine gives_steps (gives_label ?_)
  generalize s.steps divStart = u at hr1 hr2 hu
  have hposu : 0 < (u.reg .r1).toNat := by
    rw [hr1]
    exact Nat.mul_pos hpos (Nat.two_pow_pos i)
  refine normalise (counts_lsl .r2 4) (counts_lsl .r2 1) (g := fun j x => x <<< j) ?_ (by decide)
    (by decide) (by decide) hposu rfl rfl ?_
  · intro i i' x
    rw [iterate_shiftLeft, iterate_shiftLeft, ← BitVec.shiftLeft_add, Nat.one_mul]
  intro j t hnormal hcurbit hkeeps
  refine gives_ins ?_
  let t' := t.set .r0 0
  have hmov : Keeps [.r0] t t' := exec_keeps (o := .mov .r0 (.imm 0)) rfl t
  have hkeeps' : Keeps [.r0, .r1, .r2, .r3] s t' :=
    ((hu.mono (by simp)).trans (hkeeps.mono (by simp))).trans (hmov.mono (by simp))
  have hnormal : Normal .r3 .r1 j u t' := ⟨hnormal.divisor, hnormal.above, hnormal.stop, hnormal.near⟩
  have hcurbit : t'.reg .r2 = u.reg .r2 <<< j := hcurbit
  have htried := hnormal.tried (q := .r0) (hkeeps.reg .r3 (by decide)) hcurbit hr1 hr2 rfl hpos
  rw [hu.reg .r3 (by decide)] at htried
  change Gives _ _ (.label .loop3 :: behind .loop3 (divsi3 link)) t' _
  refine gives_label (division_loop (by decide) rfl htried ?_)
  intro v hk hq
  have hv := hkeeps'.trans (hk.mono (by simp))
  have hquot : v.reg .r0 = s.reg .r3 / s.reg .r1 := by
    apply BitVec.eq_of_toNat_eq
    rw [hq, BitVec.toNat_udiv]
  refine (gives_sign v).mono ?_
  rintro w pc ⟨hpc, hr0, hkeeps''⟩
  rw [hquot, hv.reg .ip (by decide)] at hr0
  exact ⟨hpc.trans (hv.reg .lr (by decide)), hr0, hv.trans (hkeeps''.mono (by simp))⟩

-- The amount of the divisor is worked out.
def divsi3Divisor : List (Cond × Op) :=
  [(.mi, .rsb .r1 .r1 (.imm 0)), (.al, .subs .r2 .r1 (.imm 1))]

theorem divsi3Divisor_spec (s : Cpu) (hn : s.n = (s.reg .r1).msb) :
    (s.steps divsi3Divisor).reg .r1 = (s.reg .r1).abs ∧
      (s.steps divsi3Divisor).reg .r2 = (s.reg .r1).abs - 1 ∧
      (s.steps divsi3Divisor).z = decide ((s.reg .r1).abs = 1) ∧
      Keeps [.r1, .r2] s (s.steps divsi3Divisor) := by
  have habs := steps_abs .r1 s hn
  let u := s.step .mi (.rsb .r1 .r1 (.imm 0))
  have hu : u.reg .r1 = (s.reg .r1).abs := habs
  have hsteps : s.steps divsi3Divisor =
      (u.compare (u.reg .r1) 1).set .r2 (u.reg .r1 - 1) := rfl
  refine ⟨?_, ?_, ?_, steps_keeps (by decide) (by decide) s⟩
  · rw [hsteps, set_reg_of_ne (by decide)]
    exact hu
  · rw [hsteps, set_reg_self, hu]
  · rw [hsteps, ← hu]
    exact compare_z u _ _

-- So is that of the dividend, and they are compared.
def divsi3Dividend : List (Cond × Op) :=
  [(.al, .movs .r3 (.reg .r0)), (.mi, .rsb .r3 .r0 (.imm 0)), (.al, .cmp .r3 (.reg .r1))]

theorem divsi3Dividend_spec (s : Cpu) :
    ∃ u, s.steps divsi3Dividend = u.compare (s.reg .r0).abs (s.reg .r1) ∧
      u.reg .r3 = (s.reg .r0).abs ∧ Keeps [.r3] s u := by
  let u := s.step .al (.movs .r3 (.reg .r0))
  have hu : Keeps [.r3] s u := step_keeps (o := .movs .r3 (.reg .r0)) rfl s
  obtain ⟨hr3, hk⟩ := step_negate .r3 .r0 u
  have habs : (u.step .mi (.rsb .r3 .r0 (.imm 0))).reg .r3 = (s.reg .r0).abs := by
    have hn : u.n = (s.reg .r0).msb := rfl
    have hself : u.reg .r3 = s.reg .r0 := rfl
    rw [hr3, hn, hself, hu.reg .r0 (by decide), BitVec.abs_eq]
    cases (s.reg .r0).msb <;> rfl
  have hall := hu.trans hk
  refine ⟨u.step .mi (.rsb .r3 .r0 (.imm 0)), ?_, habs, hall⟩
  rw [← habs, ← hall.reg .r1 (by decide)]
  rfl

-- The quotient by 1 or -1.
theorem signed_one {x y : Word} (h : y.abs = 1) : (bif (x ^^^ y ^^^ x).msb then -x else x) =
    bif (x ^^^ y).msb then -(x.abs / y.abs) else x.abs / y.abs := by
  have hdiv (z : Word) : z / 1 = z := BitVec.udiv_one
  rw [h, hdiv, BitVec.msb_xor, BitVec.msb_xor, BitVec.abs_eq]
  cases x.msb <;> cases y.msb <;> simp

-- The quotient by an amount that is not below that of the dividend.
theorem signed_small {x y : Word} {m : Bool} (hy : y ≠ 0) (h : ¬y < x) :
    (bif decide (x = y) then bif m then -1 else 1 else 0) = bif m then -(x / y) else x / y := by
  by_cases heq : x = y
  · have hself : y / y = 1 := by
      rw [BitVec.udiv_self]
      exact if_neg (by simpa using hy)
    rw [decide_eq_true heq, heq, hself]
    rfl
  · have hdiv : x / y = 0 := by
      apply BitVec.eq_of_toNat_eq
      rw [BitVec.toNat_udiv]
      exact Nat.div_eq_of_lt (by bv_omega)
    rw [decide_eq_false heq, hdiv]
    cases m <;> rfl

theorem abs_ne_zero {x : Word} (h : x ≠ 0) : x.abs ≠ 0 := by
  rw [BitVec.abs_eq]
  split_ifs
  · exact fun hf => h (BitVec.neg_eq_zero_iff.mp hf)
  · exact h

-- `__divsi3` divides signed numbers, and gives 0 for a division by zero.
theorem gives_divsi3 (link : Word) (s : Cpu) :
    Gives (fun _ => div0) (divsi3 link) (divsi3 link) s fun t pc =>
      pc = s.reg .lr ∧ t.reg .r0 = (s.reg .r0).sdiv (s.reg .r1) ∧
        Leaves [.r0, .r1, .r2, .r3, .ip, .lr] 4 s t := by
  let u := s.steps [(.al, .cmp .r1 (.imm 0)), (.al, .eor .ip .r0 (.reg .r1))]
  have hu : Keeps [.ip] s u := steps_keeps (by decide) (by decide) s
  have hip : u.reg .ip = s.reg .r0 ^^^ s.reg .r1 := rfl
  have hz : u.z = (s.reg .r1 == 0) := compare_zero s _
  have hn : u.n = (u.reg .r1).msb := compare_zero_n s _
  refine gives_ins (gives_ins ?_)
  by_cases hzero : s.reg .r1 = 0
  · refine gives_b_taken (hz.trans (beq_iff_eq.mpr hzero)) ((gives_div0 link u).mono ?_)
    rintro t pc ⟨hpc, hr0, hleaves⟩
    have hleaves : Leaves [.r0, .r1, .r2, .r3, .ip, .lr] 4 u t := hleaves.mono (by simp)
    refine ⟨hpc, ?_, hleaves.after (hu.mono (by simp)) (by decide)⟩
    rw [hr0, hzero]
    exact BitVec.sdiv_zero.symm
  refine gives_b_not (hz.trans (beq_eq_false_iff_ne.mpr hzero)) ?_
  obtain ⟨hr1, hr2, hz₂, hu₂⟩ := divsi3Divisor_spec u hn
  change Gives _ _ (lines divsi3Divisor ++ _) u _
  refine gives_steps ?_
  generalize u.steps divsi3Divisor = v at hr1 hr2 hz₂ hu₂
  have hv : Keeps [.r1, .r2, .ip] s v := (hu.mono (by simp)).trans (hu₂.mono (by simp))
  have hvip : v.reg .ip = s.reg .r0 ^^^ s.reg .r1 := (hu₂.reg .ip (by decide)).trans hip
  have hr1 : v.reg .r1 = (s.reg .r1).abs := hr1
  have hr2 : v.reg .r2 = (s.reg .r1).abs - 1 := hr2
  have hend (t : Cpu) (pc : Word) (hpc : pc = s.reg .lr) (hk : Keeps [.r0, .r1, .r2, .r3, .ip] s t)
      (hr0 : t.reg .r0 = (s.reg .r0).sdiv (s.reg .r1)) :
      pc = s.reg .lr ∧ t.reg .r0 = (s.reg .r0).sdiv (s.reg .r1) ∧
        Leaves [.r0, .r1, .r2, .r3, .ip, .lr] 4 s t :=
    ⟨hpc, hr0, (hk.leaves 4).mono (by simp)⟩
  rw [sdiv_eq_abs] at hend ⊢
  by_cases hone : (s.reg .r1).abs = 1
  · refine gives_b_taken (hz₂.trans (decide_eq_true hone)) ((divsi3_ten link v).mono ?_)
    rintro t pc ⟨hpc, hr0, hk⟩
    refine hend t pc (hpc.trans (hv.reg .lr (by decide))) ((hv.mono (by simp)).trans (hk.mono (by simp))) ?_
    rw [hr0, hvip, hv.reg .r0 (by decide)]
    exact signed_one hone
  refine gives_b_not (hz₂.trans (decide_eq_false hone)) ?_
  obtain ⟨w, hw, hr3, hkw⟩ := divsi3Dividend_spec v
  rw [hv.reg .r0 (by decide)] at hw hr3
  change Gives _ _ (lines divsi3Dividend ++ _) v _
  refine gives_steps ?_
  rw [hw, hr1]
  have hall : Keeps [.r1, .r2, .r3, .ip] s w := (hv.mono (by simp)).trans (hkw.mono (by simp))
  let w' := w.compare (s.reg .r0).abs (s.reg .r1).abs
  have hall : Keeps [.r1, .r2, .r3, .ip] s w' := ⟨hall.reg, hall.mem⟩
  have hwip : w'.reg .ip = s.reg .r0 ^^^ s.reg .r1 := (hkw.reg .ip (by decide)).trans hvip
  have hwr1 : w'.reg .r1 = (s.reg .r1).abs := (hkw.reg .r1 (by decide)).trans hr1
  have hwr2 : w'.reg .r2 = (s.reg .r1).abs - 1 := (hkw.reg .r2 (by decide)).trans hr2
  have hhi : Cond.hi.holds w' = decide ((s.reg .r1).abs < (s.reg .r0).abs) := compare_hi w _ _
  have hls : Cond.ls.holds w' = !Cond.hi.holds w' := by
    rw [Cond.holds, Cond.holds]
    cases w'.c <;> cases w'.z <;> rfl
  have hne := abs_ne_zero hzero
  by_cases hlt : (s.reg .r1).abs < (s.reg .r0).abs
  · rw [hhi, decide_eq_true hlt] at hls
    refine gives_b_not hls (gives_ins ?_)
    let x := w'.step .al (.tst .r1 (.reg .r2))
    have hx : Keeps [.r1, .r2, .r3, .ip] s x := ⟨hall.reg, hall.mem⟩
    have hxz : x.z = (w'.reg .r1 &&& w'.reg .r2 == 0) := rfl
    have hxr1 : x.reg .r1 = (s.reg .r1).abs := hwr1
    have hxr3 : x.reg .r3 = (s.reg .r0).abs := hr3
    rw [hwr1, hwr2] at hxz
    by_cases hpow : (s.reg .r1).abs &&& ((s.reg .r1).abs - 1) = 0
    · obtain ⟨k, hk, htwo⟩ := eq_twoPow hne hpow
      refine gives_b_taken (hxz.trans (beq_iff_eq.mpr hpow))
        ((divsi3_twelve link x hk (hwr1.trans htwo)).mono ?_)
      rintro t pc ⟨hpc, hr0, hk⟩
      refine hend t pc (hpc.trans (hall.reg .lr (by decide))) ?_ ?_
      · exact (hx.mono (by simp)).trans (hk.mono (by simp))
      · rw [hr0, hxr3, hxr1]
        exact congrArg (fun i : Word => bif i.msb then _ else _) hwip
    · refine gives_b_not (hxz.trans (beq_eq_false_iff_ne.mpr hpow)) ?_
      change Gives _ _ (ARM_DIV_BODY .r3 .r1 .r0 .r2 ++ divsi3End link) x _
      have hpos : 0 < (x.reg .r1).toNat := by
        rw [hxr1]
        exact Nat.pos_of_ne_zero fun hf => hne (BitVec.eq_of_toNat_eq hf)
      refine (divsi3_body link x hpos).mono ?_
      rintro t pc ⟨hpc, hr0, hk⟩
      refine hend t pc (hpc.trans (hall.reg .lr (by decide))) ?_ ?_
      · exact (hx.mono (by simp)).trans (hk.mono (by simp))
      · rw [hr0, hxr3, hxr1]
        exact congrArg (fun i : Word => bif i.msb then _ else _) hwip
  · rw [hhi, decide_eq_false hlt] at hls
    have hz : w'.z = decide ((s.reg .r0).abs = (s.reg .r1).abs) := compare_z w _ _
    have hcz : w'.c = w'.z := by
      rw [hz]
      refine decide_eq_decide.mpr ?_
      bv_omega
    refine gives_b_taken hls ((divsi3_eleven link w' hcz).mono ?_)
    rintro t pc ⟨hpc, hr0, hk⟩
    refine hend t pc (hpc.trans (hall.reg .lr (by decide))) ?_ ?_
    · exact (hall.mono (by simp)).trans (hk.mono (by simp))
    · rw [hr0, hz, hwip]
      exact signed_small hne hlt

end Lmosem
