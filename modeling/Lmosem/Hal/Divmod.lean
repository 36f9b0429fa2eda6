import Lmosem.Hal.Divsi3
import Mathlib.Tactic.Ring

-- `__aeabi_uidivmod` and `__aeabi_idivmod`.
namespace Lmosem

open Arm Memory

variable {s t : Cpu}

-- A remainder is what the quotient leaves.
theorem sub_udiv_mul (x y : Word) : x - x / y * y = x % y := by
  apply BitVec.eq_of_toNat_eq
  have hdiv := Nat.div_add_mod x.toNat y.toNat
  have hle : x.toNat / y.toNat * y.toNat ≤ x.toNat := Nat.div_mul_le_self _ _
  have hmul : (x / y * y).toNat = x.toNat / y.toNat * y.toNat := by
    rw [BitVec.toNat_mul, BitVec.toNat_udiv, Nat.mod_eq_of_lt (hle.trans_lt x.isLt)]
  rw [BitVec.toNat_sub_of_le (by rwa [BitVec.le_def, hmul]), hmul, BitVec.toNat_umod]
  rw [Nat.mul_comm] at hdiv
  omega

theorem sub_sdiv_mul (x y : Word) : x - x.sdiv y * y = x.srem y := by
  rw [LongDivision.sdiv_eq_abs, LongDivision.srem_eq_abs, BitVec.msb_xor, ← sub_udiv_mul,
    BitVec.abs_eq, BitVec.abs_eq]
  cases x.msb <;> cases y.msb <;> simp <;> ring

-- What the called routine starts with.
def divmodCall (link : Word) (s : Cpu) : Cpu := ((Op.push [.r0, .r1, .ip, .lr]).exec s).set .lr link

-- Both routines keep their arguments on the stack while they divide.
theorem gives_divmod {call : DivCall → Cpu → Outcome (Cpu × Word)} {f : DivCall} {quotient : Word}
    (link : Word) (s t : Cpu) (hrun : call f (divmodCall link s) = .ok (t, link))
    (hr0 : t.reg .r0 = quotient)
    (hleaves : Leaves [.r0, .r1, .r2, .r3, .ip, .lr] 4 (divmodCall link s) t) :
    Gives call (aeabiDivmod f link) (aeabiDivmod f link) s fun t pc =>
      pc = s.reg .lr ∧ t.reg .r0 = quotient ∧ t.reg .r1 = s.reg .r0 - quotient * s.reg .r1 ∧
        Leaves [.r0, .r1, .r2, .r3] 20 s t := by
  let u := divmodCall link s
  have husp : u.reg .sp = s.reg .sp - BitVec.ofNat 32 16 := rfl
  have humem : u.mem = storeWords s.mem (u.reg .sp) [s.reg .r0, s.reg .r1, s.reg .ip, s.reg .lr] := rfl
  have htsp : t.reg .sp = u.reg .sp := hleaves.reg .sp (by decide)
  have hword (i : ℕ) (hi : i < 4) : loadWord t.mem (u.reg .sp + BitVec.ofNat 32 (4 * i)) =
      [s.reg .r0, s.reg .r1, s.reg .ip, s.reg .lr].getD i 0 := by
    rw [hleaves.loadWord (by omega), humem]
    exact loadWord_storeWords _ _ hi (by simp)
  let v := (Op.pop [.r1, .r2, .ip, .lr]).exec t
  have hvr1 : v.reg .r1 = s.reg .r0 := by
    have hload : v.reg .r1 = loadWord t.mem (t.reg .sp) := rfl
    rw [hload, htsp]
    simpa using hword 0 (by decide)
  have hvr2 : v.reg .r2 = s.reg .r1 := by
    have hload : v.reg .r2 = loadWord t.mem (t.reg .sp + 4) := rfl
    rw [hload, htsp]
    exact hword 1 (by decide)
  have hvip : v.reg .ip = s.reg .ip := by
    have hload : v.reg .ip = loadWord t.mem (t.reg .sp + 4 + 4) := rfl
    rw [hload, htsp, BitVec.add_assoc]
    exact hword 2 (by decide)
  have hvlr : v.reg .lr = s.reg .lr := by
    have hload : v.reg .lr = loadWord t.mem (t.reg .sp + 4 + 4 + 4) := rfl
    rw [hload, htsp, BitVec.add_assoc, BitVec.add_assoc]
    exact hword 3 (by decide)
  have hvsp : v.reg .sp = s.reg .sp := by
    have hadd : v.reg .sp = t.reg .sp + BitVec.ofNat 32 16 := rfl
    rw [hadd, htsp, husp, BitVec.sub_add_cancel]
  have hvr0 : v.reg .r0 = quotient := hr0
  let w := v.steps [(.al, .mul .r3 .r0 .r2), (.al, .sub .r1 .r1 (.reg .r3))]
  have hwr1 : w.reg .r1 = v.reg .r1 - v.reg .r0 * v.reg .r2 := rfl
  have hw : Keeps [.r1, .r3] v w := steps_keeps (by decide) (by decide) v
  refine gives_ins (gives_bl hrun (gives_ins (gives_ins (gives_ins (gives_movPc_taken rfl ?_)))))
  change w.reg .lr = _ ∧ w.reg .r0 = _ ∧ w.reg .r1 = _ ∧ Leaves [.r0, .r1, .r2, .r3] 20 s w
  refine ⟨?_, ?_, ?_, fun r hr => ?_, fun x hx => ?_⟩
  · rw [hw.reg .lr (by decide), hvlr]
  · rw [hw.reg .r0 (by decide), hvr0]
  · rw [hwr1, hvr1, hvr0, hvr2]
  · rw [hw.reg r (fun hmem => hr (by simp_all))]
    cases r with
    | r0 | r1 | r2 | r3 => simp at hr
    | ip => exact hvip
    | sp => exact hvsp
    | lr => exact hvlr
  · have hmem : w.mem x = t.mem x := congrFun hw.mem x
    have husp' : u.reg .sp - BitVec.ofNat 32 4 = s.reg .sp - BitVec.ofNat 32 20 := by
      rw [husp, BitVec.sub_sub, ← BitVec.ofNat_add]
    have hframe : u.reg .sp = s.reg .sp - BitVec.ofNat 32 20 + BitVec.ofNat 32 4 := by
      rw [← husp', BitVec.sub_add_cancel]
    rw [hmem, hleaves.mem x (by rw [husp']; omega), humem]
    refine storeWords_out ?_
    rw [hframe, off_behind (by omega)]
    exact Nat.le_sub_of_add_le hx

-- `__udivsi3` divides unsigned numbers, and `__aeabi_uidivmod` gives the remainder as well.
-- The quotient by zero is 0, and the remainder is the dividend.
theorem unsigned_division (link link' : Word) (s : Cpu) :
    (Gives (fun _ => div0) (udivsi3 link) (udivsi3 link) s fun t pc =>
      pc = s.reg .lr ∧ t.reg .r0 = s.reg .r0 / s.reg .r1 ∧
        Leaves [.r0, .r1, .r2, .r3, .lr] 4 s t) ∧
    ∃ fuel, Gives (divCall fuel link) (aeabi_uidivmod link') (aeabi_uidivmod link') s fun t pc =>
      pc = s.reg .lr ∧ t.reg .r0 = s.reg .r0 / s.reg .r1 ∧ t.reg .r1 = s.reg .r0 % s.reg .r1 ∧
        Leaves [.r0, .r1, .r2, .r3] 20 s t := by
  refine ⟨gives_udivsi3 link s, ?_⟩
  obtain ⟨fuel, t, pc, hrun, hpc, hr0, hleaves⟩ := gives_udivsi3 link (divmodCall link' s)
  have hcall : divCall fuel link .aeabi_uidiv (divmodCall link' s) = .ok (t, link') := by
    rw [divCall, hrun, hpc]
    rfl
  refine ⟨fuel, (gives_divmod link' s t hcall hr0 (hleaves.mono (by simp))).mono ?_⟩
  rintro u pc ⟨hpc, hur0, hur1, hu⟩
  exact ⟨hpc, hur0, hur1.trans (sub_udiv_mul _ _), hu⟩

-- So do `__divsi3` and `__aeabi_idivmod` with signed numbers. The remainder has the sign of the
-- dividend, and the smallest number divided by -1 is itself.
theorem signed_division (link link' : Word) (s : Cpu) :
    (Gives (fun _ => div0) (divsi3 link) (divsi3 link) s fun t pc =>
      pc = s.reg .lr ∧ t.reg .r0 = (s.reg .r0).sdiv (s.reg .r1) ∧
        Leaves [.r0, .r1, .r2, .r3, .ip, .lr] 4 s t) ∧
    ∃ fuel, Gives (divCall fuel link) (aeabi_idivmod link') (aeabi_idivmod link') s fun t pc =>
      pc = s.reg .lr ∧ t.reg .r0 = (s.reg .r0).sdiv (s.reg .r1) ∧
        t.reg .r1 = (s.reg .r0).srem (s.reg .r1) ∧ Leaves [.r0, .r1, .r2, .r3] 20 s t := by
  refine ⟨gives_divsi3 link s, ?_⟩
  obtain ⟨fuel, t, pc, hrun, hpc, hr0, hleaves⟩ := gives_divsi3 link (divmodCall link' s)
  have hcall : divCall fuel link .aeabi_idiv (divmodCall link' s) = .ok (t, link') := by
    rw [divCall, hrun, hpc]
    rfl
  refine ⟨fuel, (gives_divmod link' s t hcall hr0 hleaves).mono ?_⟩
  rintro u pc ⟨hpc, hur0, hur1, hu⟩
  exact ⟨hpc, hur0, hur1.trans (sub_sdiv_mul _ _), hu⟩

end Lmosem
