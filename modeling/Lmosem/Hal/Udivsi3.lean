import Lmosem.Hal.DivisionLoops

-- `__udivsi3`.
namespace Lmosem

open Arm LongDivision

variable {L F : Type} [DecidableEq L]
variable {call : F → Cpu → Outcome (Cpu × Word)} {prog rest : List (Line L F)}
variable {s t : Cpu} {post : Cpu → Word → Prop}

-- The trials of one turn of the division loop.
def divisionTrials (a b q c : Reg) : List (Cond × Op) :=
  trial a q (.reg b) (.reg c) ++ (trial a q (.lsr b 1) (.lsr c 1) ++
    (trial a q (.lsr b 2) (.lsr c 2) ++ trial a q (.lsr b 3) (.lsr c 3)))

-- What is behind them.
def divisionNext (a b c : Reg) : List (Cond × Op) :=
  [(.al, .cmp a (.imm 0)), (.ne, .movs c (.lsr c 4)), (.ne, .mov b (.lsr b 4))]

-- In front of trial `k` of a turn that starts with the divisor shifted by `j` places. A trial
-- below the last place does not change the result any more.
structure Tried (a b q c : Reg) (m n j k : ℕ) (s : Cpu) : Prop where
  divisor : (s.reg b).toNat = n * 2 ^ j
  curbit : (s.reg c).toNat = 2 ^ j
  settled : k ≤ j + 1 → Settled m n (j + 1 - k) (s.reg q).toNat (s.reg a).toNat
  done : j < k → (s.reg q).toNat = m / n

section Loop

variable {a b q c : Reg} {m n j k : ℕ}

theorem nodup_four (h : [a, b, q, c].Nodup) :
    a ≠ b ∧ a ≠ q ∧ a ≠ c ∧ b ≠ q ∧ b ≠ c ∧ q ≠ c := by
  simpa [and_assoc] using h

-- What a trial leaves of the dividend and the result settles the next place.
theorem Tried.next (h : Tried a b q c m n j k s) (hb : t.reg b = s.reg b) (hc : t.reg c = s.reg c)
    (hgo : k ≤ j → Settled m n (j - k) (t.reg q).toNat (t.reg a).toNat)
    (hlow : j < k → t.reg q = s.reg q) : Tried a b q c m n j (k + 1) t := by
  refine ⟨hb ▸ h.divisor, hc ▸ h.curbit, fun hk => ?_, fun hk => ?_⟩
  · rw [Nat.add_sub_add_right]
    exact hgo (by omega)
  · by_cases hkj : k ≤ j
    · have hsettled := hgo hkj
      rw [Nat.sub_eq_zero_of_le (by omega)] at hsettled
      exact hsettled.quotient
    · rw [hlow (by omega)]
      exact h.done (by omega)

-- One trial.
theorem Tried.trial {x y : Operand} (hnodup : [a, b, q, c].Nodup) (h : Tried a b q c m n j k s)
    (hx : x.value s = s.reg b >>> k) (hy : y.value s = s.reg c >>> k)
    (hyset : ∀ s w, y.value (Cpu.set s a w) = y.value s) :
    Tried a b q c m n j (k + 1) (s.steps (trial a q x y)) ∧
      Keeps [a, q] s (s.steps (trial a q x y)) := by
  obtain ⟨hab, haq, hac, hbq, -, hqc⟩ := nodup_four hnodup
  have hkeep {t : Cpu} (ht : Keeps [a, q] s t) : t.reg b = s.reg b ∧ t.reg c = s.reg c :=
    ⟨ht.reg b (by simp [hab.symm, hbq]), ht.reg c (by simp [hac.symm, hqc.symm])⟩
  have hxy (hk : k ≤ j) : (x.value s).toNat = n * 2 ^ (j - k) ∧ (y.value s).toNat = 2 ^ (j - k) := by
    have hcurbit : (s.reg c).toNat = 1 * 2 ^ j := by rw [h.curbit, Nat.one_mul]
    rw [hx, hy, toNat_shiftRight h.divisor hk, toNat_shiftRight hcurbit hk, Nat.one_mul]
    exact ⟨rfl, rfl⟩
  have hsettled (hk : k ≤ j) : Settled m n (j - k + 1) (s.reg q).toNat (s.reg a).toNat := by
    have hs := h.settled (by omega)
    rwa [Nat.succ_sub hk] at hs
  by_cases hle : x.value s ≤ s.reg a
  · obtain ⟨ha, hq, hkeeps⟩ := trial_sub haq hyset hle
    refine ⟨h.next (hkeep hkeeps).1 (hkeep hkeeps).2 (fun hk => ?_) fun hk => ?_, hkeeps⟩
    · have hsub := (hsettled hk).sub ((hxy hk).1 ▸ BitVec.le_def.mp hle)
      rw [ha, hq, BitVec.toNat_sub_of_le hle, BitVec.toNat_or, (hxy hk).1, (hxy hk).2,
        (hsettled hk).or]
      exact hsub
    · have hzero : y.value s = 0 := by
        apply BitVec.eq_of_toNat_eq
        rw [hy, BitVec.toNat_ushiftRight, h.curbit, Nat.shiftRight_eq_div_pow]
        exact Nat.div_eq_of_lt (Nat.pow_lt_pow_right Nat.one_lt_two hk)
      rw [hq, hzero]
      exact BitVec.or_zero
  · have hlt := BitVec.not_le.mp hle
    have hkeeps := trial_skip (q := q) (y := y) hlt
    refine ⟨h.next (hkeeps.reg b List.not_mem_nil) (hkeeps.reg c List.not_mem_nil) (fun hk => ?_)
      fun _ => hkeeps.reg q List.not_mem_nil, hkeeps.mono (by simp)⟩
    rw [hkeeps.reg q List.not_mem_nil, hkeeps.reg a List.not_mem_nil]
    exact (hsettled hk).skip ((hxy hk).1 ▸ BitVec.lt_def.mp hlt)

theorem steps_append (s : Cpu) (is js : List (Cond × Op)) :
    s.steps (is ++ js) = (s.steps is).steps js := List.foldl_append

-- All four.
theorem Tried.trials (hnodup : [a, b, q, c].Nodup) (h : Tried a b q c m n j 0 s) :
    Tried a b q c m n j 4 (s.steps (divisionTrials a b q c)) ∧
      Keeps [a, q] s (s.steps (divisionTrials a b q c)) := by
  have hca : c ≠ a := (nodup_four hnodup).2.2.1.symm
  have hset (k : ℕ) (s : Cpu) (w : Word) := lsr_value_set hca s w k
  have hset0 (s : Cpu) (w : Word) : (Operand.reg c).value (s.set a w) = (Operand.reg c).value s :=
    set_reg_of_ne hca w
  unfold divisionTrials
  rw [steps_append, steps_append, steps_append]
  obtain ⟨h₁, hk₁⟩ := h.trial hnodup (x := .reg b) (BitVec.ushiftRight_zero _).symm
    (BitVec.ushiftRight_zero _).symm hset0
  obtain ⟨h₂, hk₂⟩ := h₁.trial hnodup (x := .lsr b 1) rfl rfl (hset 1)
  obtain ⟨h₃, hk₃⟩ := h₂.trial hnodup (x := .lsr b 2) rfl rfl (hset 2)
  obtain ⟨h₄, hk₄⟩ := h₃.trial hnodup (x := .lsr b 3) rfl rfl (hset 3)
  exact ⟨h₄, ((hk₁.trans hk₂).trans hk₃).trans hk₄⟩

theorem compare_zero (s : Cpu) (x : Word) : (s.compare x 0).z = (x == 0) := by
  rw [Cpu.compare]
  exact congrArg (· == 0) (BitVec.sub_zero x)

theorem divisionNext_zero (h : s.reg a = 0) :
    (s.steps (divisionNext a b c)).z = true ∧ Keeps [] s (s.steps (divisionNext a b c)) := by
  have hz : (s.compare (s.reg a) 0).z = true := by
    rw [compare_zero, h]
    rfl
  have hcond : Cond.ne.holds (s.compare (s.reg a) 0) = false := by rw [Cond.holds, hz]; rfl
  have hlast : s.steps (divisionNext a b c) = s.compare (s.reg a) 0 := by
    change (((s.compare (s.reg a) 0).step .ne _).step .ne _) = _
    rw [step_of_not hcond, step_of_not hcond]
  rw [hlast]
  exact ⟨hz, fun _ _ => rfl, rfl⟩

-- The state behind `movnes`.
theorem divisionNext_eq (h : s.reg a ≠ 0) :
    ∃ s', s.steps (divisionNext a b c) = s'.step .ne (.mov b (.lsr b 4)) ∧
      s'.z = (s.reg c >>> 4 == 0) ∧ s'.reg c = s.reg c >>> 4 ∧ Keeps [c] s s' := by
  have hcond : Cond.ne.holds (s.compare (s.reg a) 0) = true := by
    rw [Cond.holds, compare_zero]
    simpa using h
  have hkeeps := exec_keeps (o := .movs c (.lsr c 4)) rfl (s.compare (s.reg a) 0)
  refine ⟨(s.compare (s.reg a) 0).step .ne (.movs c (.lsr c 4)), rfl, ?_⟩
  rw [step_of_holds hcond]
  exact ⟨rfl, set_reg_self _ _ _, hkeeps.reg, hkeeps.mem⟩

theorem divisionNext_last (h : s.reg a ≠ 0) (hlast : s.reg c >>> 4 = 0) :
    (s.steps (divisionNext a b c)).z = true ∧ Keeps [c] s (s.steps (divisionNext a b c)) := by
  obtain ⟨s', hs, hz, -, hkeeps⟩ := divisionNext_eq (b := b) (c := c) h
  rw [hlast] at hz
  rw [hs, step_of_not (by rw [Cond.holds, hz]; rfl)]
  exact ⟨hz, hkeeps⟩

theorem divisionNext_go (hbc : b ≠ c) (h : s.reg a ≠ 0) (hgo : s.reg c >>> 4 ≠ 0) :
    (s.steps (divisionNext a b c)).z = false ∧
      (s.steps (divisionNext a b c)).reg b = s.reg b >>> 4 ∧
      (s.steps (divisionNext a b c)).reg c = s.reg c >>> 4 ∧
      Keeps [b, c] s (s.steps (divisionNext a b c)) := by
  obtain ⟨s', hs, hz, hc, hkeeps⟩ := divisionNext_eq (b := b) (c := c) h
  rw [beq_eq_false_iff_ne.mpr hgo] at hz
  rw [hs, step_of_holds (by rw [Cond.holds, hz]; rfl)]
  have hmov := exec_keeps (o := .mov b (.lsr b 4)) rfl s'
  refine ⟨hz, ?_, (hmov.reg c (by simpa [Op.dest] using hbc.symm)).trans hc,
    (hkeeps.mono (by simp)).trans (hmov.mono (by simp [Op.dest]))⟩
  rw [Op.exec, set_reg_self, Operand.value, hkeeps.reg b (by simpa using hbc)]

-- The loop, by induction on the place it starts at.
theorem division_loop {l : L} (hnodup : [a, b, q, c].Nodup)
    (hloop : behind l prog =
      lines (divisionTrials a b q c ++ divisionNext a b c) ++ .b .ne l :: rest)
    (h : Tried a b q c m n j 0 s)
    (hrest : ∀ t, Keeps [a, b, q, c] s t → (t.reg q).toNat = m / n → Gives call prog rest t post) :
    Gives call prog (behind l prog) s post := by
  obtain ⟨hab, -, hac, hbq, hbc, hqc⟩ := nodup_four hnodup
  induction j using Nat.strongRecOn generalizing s with
  | ind j ih =>
      rw [hloop]
      refine gives_steps ?_
      rw [steps_append]
      obtain ⟨ht, hkeeps⟩ := h.trials hnodup
      generalize s.steps (divisionTrials a b q c) = t at ht hkeeps
      have hkeeps : Keeps [a, b, q, c] s t := hkeeps.mono (by simp)
      by_cases hzero : t.reg a = 0
      · obtain ⟨hz, hk⟩ := divisionNext_zero (b := b) (c := c) hzero
        refine gives_b_not (by rw [Cond.holds, hz]; rfl) (hrest _ (hkeeps.trans (hk.mono (by simp))) ?_)
        rw [hk.reg q List.not_mem_nil]
        by_cases hj : 4 ≤ j + 1
        · have hsettled := ht.settled hj
          rw [hzero] at hsettled
          exact hsettled.exact.quotient
        · exact ht.done (by omega)
      · by_cases hj : 4 ≤ j
        · have hc : (t.reg c >>> 4).toNat = 2 ^ (j - 4) := by
            have hone : (t.reg c).toNat = 1 * 2 ^ j := by rw [ht.curbit, Nat.one_mul]
            rw [toNat_shiftRight hone hj, Nat.one_mul]
          have hgo : t.reg c >>> 4 ≠ 0 := by
            intro hf
            rw [hf] at hc
            exact absurd hc (Nat.two_pow_pos _).ne
          obtain ⟨hz, hb, hcur, hk⟩ := divisionNext_go hbc hzero hgo
          have hkeeps' := hkeeps.trans (hk.mono (by simp))
          refine gives_b_taken (by rw [Cond.holds, hz]; rfl) (ih (j - 4) (by omega) ?_
            fun u hu => hrest u (hkeeps'.trans hu))
          refine ⟨?_, by rw [hcur, hc], fun _ => ?_, fun hf => absurd hf (Nat.not_lt_zero _)⟩
          · rw [hb, toNat_shiftRight ht.divisor hj]
          · rw [hk.reg q (by simp [hbq.symm, hqc]), hk.reg a (by simp [hab, hac])]
            have hsettled := ht.settled (by omega)
            rwa [(by omega : j + 1 - 4 = j - 4 + 1 - 0)] at hsettled
        · have hc : t.reg c >>> 4 = 0 := by
            apply BitVec.eq_of_toNat_eq
            rw [BitVec.toNat_ushiftRight, ht.curbit, Nat.shiftRight_eq_div_pow]
            exact Nat.div_eq_of_lt (Nat.pow_lt_pow_right Nat.one_lt_two (by omega))
          obtain ⟨hz, hk⟩ := divisionNext_last (b := b) hzero hc
          refine gives_b_not (by rw [Cond.holds, hz]; rfl)
            (hrest _ (hkeeps.trans (hk.mono (by simp))) ?_)
          rw [hk.reg q (by simpa using hqc)]
          exact ht.done (by omega)

-- Where the loop starts, once the divisor has been shifted up.
theorem Normal.tried {i : ℕ} (h : Normal a b j s t) (ha : t.reg a = s.reg a)
    (hc : t.reg c = s.reg c <<< j) (hb : (s.reg b).toNat = n * 2 ^ i)
    (hci : (s.reg c).toNat = 2 ^ i) (hq : t.reg q = 0) (hn : 0 < n) :
    Tried a b q c (s.reg a).toNat n (i + j) 0 t := by
  have hdivisor : (t.reg b).toNat = n * 2 ^ (i + j) := by
    rw [h.divisor, hb, Nat.mul_assoc, ← Nat.pow_add]
  have hle : 2 ^ (i + j) ≤ (t.reg b).toNat := by
    rw [hdivisor]
    exact Nat.le_mul_of_pos_left _ hn
  have hsmall := (t.reg b).isLt
  refine ⟨hdivisor, ?_, fun _ => ?_, fun hf => absurd hf (Nat.not_lt_zero _)⟩
  · rw [hc, BitVec.toNat_shiftLeft, hci, Nat.shiftLeft_eq, ← Nat.pow_add, Nat.mod_eq_of_lt (by omega)]
  · have habove := h.above
    rw [hb, Nat.mul_assoc, ← Nat.pow_add, ← Nat.add_assoc] at habove
    rw [hq, ha]
    exact Settled.start habove

end Loop

-- `__udivsi3` divides, and gives 0 for a division by zero. It returns to its caller, and
-- changes nothing else but r1, r2, r3 and the four bytes below the stack.
theorem gives_udivsi3 (link : Word) (s : Cpu) :
    Gives (fun _ => div0) (udivsi3 link) (udivsi3 link) s fun t pc =>
      pc = s.reg .lr ∧ t.reg .r0 = s.reg .r0 / s.reg .r1 ∧
        Leaves [.r0, .r1, .r2, .r3, .lr] 4 s t := by
  refine gives_ins ?_
  by_cases hzero : s.reg .r1 = 0
  · refine gives_b_taken ?_ ((gives_div0 link _).mono ?_)
    · change ((s.compare (s.reg .r1) 0)).z = true
      rw [compare_zero, hzero]
      rfl
    · rintro t pc ⟨hpc, hr0, hleaves⟩
      have hleaves : Leaves [.r0, .r1, .r2, .r3, .lr] 4 _ t := hleaves.mono (by simp)
      refine ⟨hpc, ?_, hleaves.after ((step_keeps rfl s).mono (by simp [Op.dest])) (by decide)⟩
      rw [hr0, hzero]
      exact BitVec.udiv_zero.symm
  · refine gives_b_not ?_ (gives_ins (gives_ins (gives_ins ?_)))
    · change ((s.compare (s.reg .r1) 0)).z = false
      rw [compare_zero]
      exact beq_eq_false_iff_ne.mpr hzero
    let u := s.steps [(.al, .cmp .r1 (.imm 0)), (.al, .mov .r3 (.imm 1)), (.al, .mov .r2 (.imm 0)),
      (.al, .cmp .r0 (.reg .r1))]
    have hu : Keeps [.r0, .r1, .r2, .r3, .lr] s u := steps_keeps (by decide) (by decide) s
    -- the end of the routine
    have hgot (t : Cpu) (hkeeps : Keeps [.r0, .r1, .r2, .r3] u t)
        (hr2 : t.reg .r2 = s.reg .r0 / s.reg .r1) :
        Gives (fun _ => div0) (udivsi3 link) (behind .Lgot_result (udivsi3 link)) t fun t pc =>
          pc = s.reg .lr ∧ t.reg .r0 = s.reg .r0 / s.reg .r1 ∧
            Leaves [.r0, .r1, .r2, .r3, .lr] 4 s t := by
      refine gives_ins (gives_movPc_taken rfl ⟨?_, ?_, ?_⟩)
      · exact hkeeps.reg .lr (by decide)
      · exact hr2
      · have hmov := exec_keeps (o := .mov .r0 (.reg .r2)) rfl t
        exact ((hu.trans (hkeeps.mono (by simp))).trans (hmov.mono (by simp [Op.dest]))).leaves 4
    change Gives _ _ (.b .cc .Lgot_result :: .label .Loop1 :: behind .Loop1 (udivsi3 link)) u _
    by_cases hlt : s.reg .r0 < s.reg .r1
    · refine gives_b_taken ?_ (hgot u (Keeps.refl _ u) ?_)
      · exact congrArg (!·) (decide_eq_false (BitVec.not_le.mpr hlt))
      · apply BitVec.eq_of_toNat_eq
        rw [BitVec.toNat_udiv, Nat.div_eq_of_lt hlt]
        rfl
    · refine gives_b_not ?_ (gives_label ?_)
      · exact congrArg (!·) (decide_eq_true (BitVec.not_lt.mp hlt))
      have hpos : 0 < (u.reg .r1).toNat := Nat.pos_of_ne_zero fun hf =>
        hzero (BitVec.eq_of_toNat_eq hf)
      refine normalise (counts_lsl .r3 4) (counts_lsl .r3 1) (g := fun j x => x <<< j) ?_ (by decide)
        (by decide) (by decide) hpos rfl rfl ?_
      · intro i i' x
        rw [iterate_shiftLeft, iterate_shiftLeft, ← BitVec.shiftLeft_add, Nat.one_mul]
      · intro j t hnormal hcurbit hkeeps
        have htried := hnormal.tried (q := .r2) (i := 0) (n := (s.reg .r1).toNat)
          (hkeeps.reg .r0 (by decide)) hcurbit (Nat.mul_one _).symm rfl (hkeeps.reg .r2 (by decide)) hpos
        change Gives _ _ (.label .Loop3 :: behind .Loop3 (udivsi3 link)) t _
        refine gives_label (division_loop (by decide) rfl htried ?_)
        intro t' hkeeps' hq
        refine gives_label (hgot t' ((hkeeps.mono (by simp)).trans hkeeps') ?_)
        apply BitVec.eq_of_toNat_eq
        rw [hq, BitVec.toNat_udiv]
        rfl

end Lmosem
