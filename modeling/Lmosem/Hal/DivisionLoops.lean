import Lmosem.Hal.Division
import Lmosem.Lib.LongDivision

-- The loops that the division routines have in common.
namespace Lmosem

open Arm LongDivision Memory

variable {L F : Type} [DecidableEq L]
variable {call : F → Cpu → Outcome (Cpu × Word)} {prog rest : List (Line L F)}
variable {s t : Cpu} {post : Cpu → Word → Prop}

-- One turn of a loop that shifts the divisor up; `count` notes the shift in `q`.
def shiftTurn (a d : Reg) (limit : Word) (k : ℕ) (count : Op) : List (Cond × Op) :=
  [(.al, .cmp d (.imm limit)), (.cc, .cmp d (.reg a)), (.cc, .mov d (.lsl d k)), (.cc, count)]

-- A register is counted up by `f`.
structure Counts (count : Op) (q : Reg) (f : Word → Word) : Prop where
  stack : count.isStack = false
  dest : count.dest = [q]
  value : ∀ s, (count.exec s).reg q = f (s.reg q)
  carry : ∀ s, (count.exec s).c = s.c

section Shift

variable {a d q : Reg} {limit : Word} {k : ℕ} {count : Op} {f : Word → Word}

theorem shiftTurn_go (hcount : Counts count q f) (hdq : d ≠ q)
    (hlimit : s.reg d < limit) (hlt : s.reg d < s.reg a) :
    (s.steps (shiftTurn a d limit k count)).c = false ∧
      (s.steps (shiftTurn a d limit k count)).reg d = s.reg d <<< k ∧
      (s.steps (shiftTurn a d limit k count)).reg q = f (s.reg q) ∧
      Keeps [d, q] s (s.steps (shiftTurn a d limit k count)) := by
  have hlimit' : decide (limit ≤ s.reg d) = false := decide_eq_false (BitVec.not_le.mpr hlimit)
  have hlt' : decide (s.reg a ≤ s.reg d) = false := decide_eq_false (BitVec.not_le.mpr hlt)
  have hlast : s.steps (shiftTurn a d limit k count) = count.exec
      (((s.compare (s.reg d) limit).compare (s.reg d) (s.reg a)).set d (s.reg d <<< k)) := by
    simp [Cpu.steps, shiftTurn, Cpu.step, Cond.holds, Op.exec, Operand.value, Cpu.compare, Cpu.set,
      hlimit', hlt']
  have hkeeps := exec_keeps hcount.stack
    (((s.compare (s.reg d) limit).compare (s.reg d) (s.reg a)).set d (s.reg d <<< k))
  rw [hcount.dest] at hkeeps
  rw [hlast]
  refine ⟨(hcount.carry _).trans hlt', ?_, ?_, ⟨fun r hr => ?_, hkeeps.mem⟩⟩
  · rw [hkeeps.reg d (by simpa using hdq), set_reg_self]
  · rw [hcount.value, set_reg_of_ne hdq.symm]
    rfl
  · rw [List.mem_cons, List.mem_singleton, not_or] at hr
    rw [hkeeps.reg r (by simpa using hr.2), set_reg_of_ne hr.1]
    rfl

variable (k count) in
theorem shiftTurn_stop (hstop : limit ≤ s.reg d ∨ s.reg a ≤ s.reg d) :
    (s.steps (shiftTurn a d limit k count)).c = true ∧
      Keeps [] s (s.steps (shiftTurn a d limit k count)) := by
  by_cases hlimit : limit ≤ s.reg d
  · have hlast : s.steps (shiftTurn a d limit k count) = s.compare (s.reg d) limit := by
      simp [Cpu.steps, shiftTurn, Cpu.step, Cond.holds, Op.exec, Operand.value, Cpu.compare, hlimit]
    rw [hlast]
    exact ⟨decide_eq_true hlimit, fun _ _ => rfl, rfl⟩
  · have hle := hstop.resolve_left hlimit
    have hlast : s.steps (shiftTurn a d limit k count) =
        (s.compare (s.reg d) limit).compare (s.reg d) (s.reg a) := by
      simp [Cpu.steps, shiftTurn, Cpu.step, Cond.holds, Op.exec, Operand.value, Cpu.compare, hlimit,
        hle]
    rw [hlast]
    exact ⟨decide_eq_true hle, fun _ _ => rfl, rfl⟩

-- Where a loop that shifts comes to: after `i` turns the divisor is not below both the limit
-- and the dividend, and it was before the last turn.
structure Shifts (a d q : Reg) (limit : Word) (k : ℕ) (f : Word → Word) (i : ℕ) (s t : Cpu) :
    Prop where
  keeps : Keeps [d, q] s t
  divisor : (t.reg d).toNat = (s.reg d).toNat * 2 ^ (k * i)
  count : t.reg q = f^[i] (s.reg q)
  stop : limit ≤ t.reg d ∨ s.reg a ≤ t.reg d
  last : 0 < i → (s.reg d).toNat * 2 ^ (k * (i - 1)) < limit.toNat ∧
    (s.reg d).toNat * 2 ^ (k * (i - 1)) < (s.reg a).toNat

theorem shift_loop {l : L} (hcount : Counts count q f) (hda : d ≠ a) (hdq : d ≠ q) (hqa : q ≠ a)
    (hk : 0 < k) (hlimit : limit.toNat * 2 ^ k ≤ 2 ^ 32) (hpos : 0 < (s.reg d).toNat)
    (hloop : behind l prog = lines (shiftTurn a d limit k count) ++ .b .cc l :: rest)
    (hrest : ∀ i t, Shifts a d q limit k f i s t → Gives call prog rest t post) :
    Gives call prog (behind l prog) s post := by
  induction hn : 2 ^ 32 - (s.reg d).toNat using Nat.strongRecOn generalizing s with
  | ind n ih =>
      rw [hloop]
      refine gives_steps ?_
      by_cases hgo : s.reg d < limit ∧ s.reg d < s.reg a
      · obtain ⟨hc, hd, hq, hkeeps⟩ := shiftTurn_go (k := k) hcount hdq hgo.1 hgo.2
        generalize s.steps (shiftTurn a d limit k count) = s' at hc hd hq hkeeps
        have ha : s'.reg a = s.reg a := hkeeps.reg a (by simp [hda.symm, hqa.symm])
        rw [BitVec.lt_def, BitVec.lt_def] at hgo
        have htwo : 2 ^ 1 ≤ 2 ^ k := Nat.pow_le_pow_right Nat.two_pos hk
        have hshift : (s'.reg d).toNat = (s.reg d).toNat * 2 ^ k := by
          have hlt : (s.reg d).toNat * 2 ^ k < 2 ^ 32 :=
            (Nat.mul_lt_mul_of_pos_right hgo.1 (Nat.two_pow_pos k)).trans_le hlimit
          rw [hd, BitVec.toNat_shiftLeft, Nat.shiftLeft_eq, Nat.mod_eq_of_lt hlt]
        have hgrow : (s.reg d).toNat * 2 ≤ (s.reg d).toNat * 2 ^ k := Nat.mul_le_mul_left _ htwo
        have hsmall := (s'.reg d).isLt
        refine gives_b_taken (by rw [Cond.holds, hc]; rfl) (ih _ (by omega) (by omega) ?_ rfl)
        intro i t h
        refine hrest (i + 1) t ⟨hkeeps.trans h.keeps, ?_, ?_, ha ▸ h.stop, fun _ => ?_⟩
        · rw [h.divisor, hshift, Nat.mul_assoc, ← Nat.pow_add, Nat.mul_succ, Nat.add_comm]
        · rw [h.count, hq, Function.iterate_succ_apply]
        · rw [Nat.add_sub_cancel]
          rcases Nat.eq_zero_or_pos i with rfl | hi
          · rw [Nat.mul_zero, Nat.pow_zero, Nat.mul_one]
            exact hgo
          · have hlast := h.last hi
            have hstep : k + k * (i - 1) = k * i := by
              rw [Nat.add_comm, ← Nat.mul_succ, Nat.succ_eq_add_one, Nat.sub_add_cancel hi]
            rw [hshift, ha, Nat.mul_assoc, ← Nat.pow_add, hstep] at hlast
            exact hlast
      · have hstop : limit ≤ s.reg d ∨ s.reg a ≤ s.reg d := by
          rcases not_and_or.mp hgo with h | h
          · exact Or.inl (BitVec.not_lt.mp h)
          · exact Or.inr (BitVec.not_lt.mp h)
        obtain ⟨hc, hkeeps⟩ := shiftTurn_stop k count hstop
        refine gives_b_not (by rw [Cond.holds, hc]; rfl) (hrest 0 _ ⟨hkeeps.mono (by simp), ?_, ?_, ?_,
          fun h => absurd h (Nat.lt_irrefl 0)⟩)
        · rw [hkeeps.reg d List.not_mem_nil, Nat.mul_zero, Nat.pow_zero, Nat.mul_one]
        · exact hkeeps.reg q List.not_mem_nil
        · rw [hkeeps.reg d List.not_mem_nil]
          exact hstop

-- The divisor has been shifted by `j` places: above the dividend, but not far above it.
structure Normal (a d : Reg) (j : ℕ) (s t : Cpu) : Prop where
  divisor : (t.reg d).toNat = (s.reg d).toNat * 2 ^ j
  above : (s.reg a).toNat < (s.reg d).toNat * 2 ^ (j + 1)
  stop : 0x80000000 ≤ t.reg d ∨ s.reg a ≤ t.reg d
  near : 28 < j → (s.reg d).toNat * 2 ^ (j - 1) < (s.reg a).toNat

-- Both loops after each other: by four places first, then by one.
theorem normalise {l₁ l₂ : L} {count₁ count₂ : Op} {f₁ f₂ : Word → Word} {g : ℕ → Word → Word}
    (hcount₁ : Counts count₁ q f₁) (hcount₂ : Counts count₂ q f₂)
    (hg : ∀ i i' x, f₂^[i'] (f₁^[i] x) = g (4 * i + i') x) (hda : d ≠ a) (hdq : d ≠ q) (hqa : q ≠ a)
    (hpos : 0 < (s.reg d).toNat)
    (hloop₁ : behind l₁ prog =
      lines (shiftTurn a d 0x10000000 4 count₁) ++ .b .cc l₁ :: .label l₂ :: behind l₂ prog)
    (hloop₂ : behind l₂ prog = lines (shiftTurn a d 0x80000000 1 count₂) ++ .b .cc l₂ :: rest)
    (hrest : ∀ j t, Normal a d j s t → t.reg q = g j (s.reg q) → Keeps [d, q] s t →
      Gives call prog rest t post) :
    Gives call prog (behind l₁ prog) s post := by
  have hlimit₁ : (0x10000000 : Word).toNat = 2 ^ 28 := by decide
  have hlimit₂ : (0x80000000 : Word).toNat = 2 ^ 31 := by decide
  refine shift_loop hcount₁ hda hdq hqa (by decide) (by rw [hlimit₁]; decide) hpos hloop₁ ?_
  intro i t h
  have hat : t.reg a = s.reg a := h.keeps.reg a (by simp [hda.symm, hqa.symm])
  have hposi : 0 < (t.reg d).toNat := by
    rw [h.divisor]
    exact Nat.mul_pos hpos (Nat.two_pow_pos _)
  refine gives_label (shift_loop hcount₂ hda hdq hqa (by decide) (by rw [hlimit₂]; decide) hposi
    hloop₂ ?_)
  intro i' u h'
  have hdu : (u.reg d).toNat = (s.reg d).toNat * 2 ^ (4 * i + i') := by
    rw [h'.divisor, h.divisor, Nat.one_mul, Nat.mul_assoc, ← Nat.pow_add]
  have hstop := h'.stop
  rw [hat] at hstop
  refine hrest (4 * i + i') u ⟨hdu, ?_, hstop, fun hj => ?_⟩ ?_ (h.keeps.trans h'.keeps)
  · have hsmall := (s.reg a).isLt
    rw [Nat.pow_succ, ← Nat.mul_assoc, ← hdu]
    rcases hstop with hbig | hle
    · rw [BitVec.le_def, hlimit₂] at hbig
      omega
    · rw [BitVec.le_def] at hle
      have hposu : 0 < (u.reg d).toNat := by
        rw [hdu]
        exact Nat.mul_pos hpos (Nat.two_pow_pos _)
      omega
  · rcases Nat.eq_zero_or_pos i' with rfl | hi'
    · -- the first loop does not shift further than that
      have hlast := (h.last (by omega)).1
      rw [hlimit₁] at hlast
      have hpow : 2 ^ 28 ≤ 2 ^ (4 * (i - 1)) := Nat.pow_le_pow_right Nat.two_pos (by omega)
      have hmul : 2 ^ (4 * (i - 1)) ≤ (s.reg d).toNat * 2 ^ (4 * (i - 1)) :=
        Nat.le_mul_of_pos_left _ hpos
      omega
    · have hlast := (h'.last hi').2
      rw [h.divisor, hat, Nat.one_mul, Nat.mul_assoc, ← Nat.pow_add] at hlast
      have hpred : 4 * i + i' - 1 = 4 * i + (i' - 1) := by omega
      rwa [hpred]
  · rw [h'.count, h.count, hg]

theorem counts_lsl (q : Reg) (k : ℕ) : Counts (.mov q (.lsl q k)) q (· <<< k) :=
  ⟨rfl, rfl, fun _ => set_reg_self _ _ _, fun _ => rfl⟩

theorem counts_add (q : Reg) (x : Word) : Counts (.add q q (.imm x)) q (· + x) :=
  ⟨rfl, rfl, fun _ => set_reg_self _ _ _, fun _ => rfl⟩

theorem iterate_shiftLeft (k i : ℕ) (x : Word) : (fun x : Word => x <<< k)^[i] x = x <<< (k * i) := by
  induction i generalizing x with
  | zero => rw [Function.iterate_zero_apply, Nat.mul_zero, BitVec.shiftLeft_zero]
  | succ i ih => rw [Function.iterate_succ_apply, ih, ← BitVec.shiftLeft_add, Nat.mul_succ, Nat.add_comm]

theorem iterate_add (k i : ℕ) (x : Word) :
    (fun x : Word => x + BitVec.ofNat 32 k)^[i] x = x + BitVec.ofNat 32 (k * i) := by
  induction i generalizing x with
  | zero => rw [Function.iterate_zero_apply, Nat.mul_zero, BitVec.add_zero]
  | succ i ih =>
      rw [Function.iterate_succ_apply, ih, BitVec.add_assoc, ← BitVec.ofNat_add, Nat.mul_succ,
        Nat.add_comm k]

end Shift

-- A trial subtraction, which notes `y` in `q` when it succeeds.
def trial (a q : Reg) (x y : Operand) : List (Cond × Op) :=
  [(.al, .cmp a x), (.cs, .sub a a x), (.cs, .orr q q y)]

section Trial

variable {a b q c : Reg} {x y : Operand}

@[simp] theorem value_compare (s : Cpu) (u v : Word) (x : Operand) :
    x.value (s.compare u v) = x.value s := by
  cases x <;> rfl

-- An operand that reads `b` alone does not change with another register.
theorem lsr_value_set {d : Reg} (h : b ≠ d) (s : Cpu) (w : Word) (k : ℕ) :
    (Operand.lsr b k).value (s.set d w) = (Operand.lsr b k).value s := by
  rw [Operand.value, set_reg_of_ne h]
  rfl

theorem trial_sub (haq : a ≠ q) (hy : ∀ s w, y.value (Cpu.set s a w) = y.value s)
    (h : x.value s ≤ s.reg a) :
    (s.steps (trial a q x y)).reg a = s.reg a - x.value s ∧
      (s.steps (trial a q x y)).reg q = s.reg q ||| y.value s ∧
      Keeps [a, q] s (s.steps (trial a q x y)) := by
  have hcarry : Cond.cs.holds (s.compare (s.reg a) (x.value s)) = true := decide_eq_true h
  have hcarry' : Cond.cs.holds ((s.compare (s.reg a) (x.value s)).set a (s.reg a - x.value s)) =
      true := decide_eq_true h
  have hlast : s.steps (trial a q x y) =
      ((s.compare (s.reg a) (x.value s)).set a (s.reg a - x.value s)).set q
        (s.reg q ||| y.value s) := by
    change ((s.compare (s.reg a) (x.value s)).step .cs (.sub a a x)).step .cs (.orr q q y) = _
    rw [step_of_holds hcarry, Op.exec, value_compare]
    change (((s.compare (s.reg a) (x.value s)).set a (s.reg a - x.value s)).step .cs _) = _
    rw [step_of_holds hcarry', Op.exec, hy, value_compare, set_reg_of_ne haq.symm]
    rfl
  rw [hlast]
  refine ⟨?_, set_reg_self _ _ _, ⟨fun r hr => ?_, rfl⟩⟩
  · rw [set_reg_of_ne haq, set_reg_self]
  · rw [List.mem_cons, List.mem_singleton, not_or] at hr
    rw [set_reg_of_ne hr.2, set_reg_of_ne hr.1]
    rfl

theorem trial_skip (h : s.reg a < x.value s) : Keeps [] s (s.steps (trial a q x y)) := by
  have hcarry : Cond.cs.holds (s.compare (s.reg a) (x.value s)) = false :=
    decide_eq_false (BitVec.not_le.mpr h)
  change Keeps [] s (((s.compare (s.reg a) (x.value s)).step .cs (.sub a a x)).step .cs (.orr q q y))
  rw [step_of_not hcarry, step_of_not hcarry]
  exact ⟨fun _ _ => rfl, rfl⟩

end Trial

-- The lines behind `Ldiv0`.
def div0Lines (link : Word) : List (Line L DivCall) :=
  [.ins .al (.push [.lr]), .bl .div0 link, .ins .al (.mov .r0 (.imm 0)), .popPc]

-- A division by zero gives 0.
theorem gives_div0 {prog : List (Line L DivCall)} (link : Word) (s : Cpu) :
    Gives (fun _ => div0) prog (div0Lines link) s fun t pc =>
      pc = s.reg .lr ∧ t.reg .r0 = 0 ∧ Leaves [.r0, .lr] 4 s t := by
  have hpop : loadWord (storeWords s.mem (s.reg .sp - 4) [s.reg .lr]) (s.reg .sp - 4) = s.reg .lr := by
    have hload : loadWord (storeWords s.mem (s.reg .sp - 4) [s.reg .lr])
        (s.reg .sp - 4 + BitVec.ofNat 32 (4 * 0)) = s.reg .lr :=
      loadWord_storeWords _ _ Nat.one_pos (by simp)
    rwa [Nat.mul_zero, BitVec.add_zero] at hload
  have hsp : s.reg .sp - 4 + 4 = s.reg .sp := BitVec.sub_add_cancel _ _
  let u : Cpu := (((Op.push [.lr]).exec s).set .lr link).set .r0 0
  have husp : u.reg .sp = s.reg .sp - 4 := rfl
  have humem : u.mem = storeWords s.mem (s.reg .sp - 4) [s.reg .lr] := rfl
  refine gives_ins (gives_bl rfl (gives_ins (gives_popPc ?_)))
  change loadWord u.mem (u.reg .sp) = s.reg .lr ∧ (u.set .sp (u.reg .sp + 4)).reg .r0 = 0 ∧
    Leaves [.r0, .lr] 4 s (u.set .sp (u.reg .sp + 4))
  rw [husp, humem, hsp]
  refine ⟨hpop, rfl, fun r hr => ?_, fun x hx => ?_⟩
  · rw [List.mem_cons, List.mem_singleton, not_or] at hr
    by_cases hsp' : r = .sp
    · rw [hsp', set_reg_self]
    · rw [set_reg_of_ne hsp', set_reg_of_ne hr.1, set_reg_of_ne hr.2]
      exact set_reg_of_ne hsp' _
  · exact storeWords_out hx

end Lmosem
