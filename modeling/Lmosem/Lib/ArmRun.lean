import Lmosem.Lib.Arm

-- Rules for the runs of ARM routines.
namespace Arm

open Memory

variable {L F : Type} [DecidableEq L]
variable {call : F → Cpu → Outcome (Cpu × Word)} {prog code : List (Line L F)}
variable {s t : Cpu} {post : Cpu → Word → Prop}

-- A run from some lines on comes to an end, where `post` holds of the state and of the address
-- that is jumped to.
def Gives (call : F → Cpu → Outcome (Cpu × Word)) (prog code : List (Line L F)) (s : Cpu)
    (post : Cpu → Word → Prop) : Prop :=
  ∃ fuel t pc, run call prog fuel code s = .ok (t, pc) ∧ post t pc

theorem Gives.mono {post' : Cpu → Word → Prop} (h : Gives call prog code s post)
    (hpost : ∀ t pc, post t pc → post' t pc) : Gives call prog code s post' := by
  obtain ⟨fuel, t, pc, hrun, h⟩ := h
  exact ⟨fuel, t, pc, hrun, hpost t pc h⟩

theorem gives_label {l : L} (h : Gives call prog code s post) :
    Gives call prog (.label l :: code) s post := by
  obtain ⟨fuel, t, pc, h⟩ := h
  exact ⟨fuel + 1, t, pc, h⟩

theorem gives_ins {c : Cond} {o : Op} (h : Gives call prog code (s.step c o) post) :
    Gives call prog (.ins c o :: code) s post := by
  obtain ⟨fuel, t, pc, h⟩ := h
  exact ⟨fuel + 1, t, pc, h⟩

theorem gives_b_taken {c : Cond} {l : L} (hc : c.holds s = true)
    (h : Gives call prog (behind l prog) s post) : Gives call prog (.b c l :: code) s post := by
  obtain ⟨fuel, t, pc, hrun, h⟩ := h
  exact ⟨fuel + 1, t, pc, by rw [run, hc, if_pos rfl, hrun], h⟩

theorem gives_b_not {c : Cond} {l : L} (hc : c.holds s = false)
    (h : Gives call prog code s post) : Gives call prog (.b c l :: code) s post := by
  obtain ⟨fuel, t, pc, hrun, h⟩ := h
  exact ⟨fuel + 1, t, pc, by rw [run, hc, if_neg Bool.false_ne_true, hrun], h⟩

theorem gives_bl {f : F} {link : Word} (hcall : call f (s.set .lr link) = .ok (t, link))
    (h : Gives call prog code t post) : Gives call prog (.bl f link :: code) s post := by
  obtain ⟨fuel, u, pc, hrun, h⟩ := h
  refine ⟨fuel + 1, u, pc, ?_, h⟩
  rw [run, hcall]
  exact (if_pos rfl).trans hrun

theorem gives_movPc_taken {c : Cond} {d : Reg} (hc : c.holds s = true) (h : post s (s.reg d)) :
    Gives call prog (.movPc c d :: code) s post :=
  ⟨1, s, s.reg d, by rw [run, hc, if_pos rfl], h⟩

theorem gives_movPc_not {c : Cond} {d : Reg} (hc : c.holds s = false)
    (h : Gives call prog code s post) : Gives call prog (.movPc c d :: code) s post := by
  obtain ⟨fuel, t, pc, hrun, h⟩ := h
  exact ⟨fuel + 1, t, pc, by rw [run, hc, if_neg Bool.false_ne_true, hrun], h⟩

theorem gives_popPc (h : post (s.set .sp (s.reg .sp + 4)) (loadWord s.mem (s.reg .sp))) :
    Gives call prog (.popPc :: code) s post :=
  ⟨1, _, _, rfl, h⟩

-- Lines without a branch, one after the other.
def Cpu.steps (s : Cpu) (is : List (Cond × Op)) : Cpu := is.foldl (fun s i => s.step i.1 i.2) s

def lines (is : List (Cond × Op)) : List (Line L F) := is.map fun i => .ins i.1 i.2

theorem gives_steps {is : List (Cond × Op)} (h : Gives call prog code (s.steps is) post) :
    Gives call prog (lines is ++ code) s post := by
  induction is generalizing s with
  | nil => exact h
  | cons i is ih => exact gives_ins (ih h)

theorem step_of_holds {c : Cond} {o : Op} (h : c.holds s = true) : s.step c o = o.exec s := if_pos h

theorem step_of_not {c : Cond} {o : Op} (h : c.holds s = false) : s.step c o = s := by
  rw [Cpu.step, h, if_neg Bool.false_ne_true]

-- What is left alone: the registers that are not in `rs`, and memory.
structure Keeps (rs : List Reg) (s t : Cpu) : Prop where
  reg : ∀ r ∉ rs, t.reg r = s.reg r
  mem : t.mem = s.mem

variable {rs : List Reg}

theorem Keeps.refl (rs : List Reg) (s : Cpu) : Keeps rs s s := ⟨fun _ _ => rfl, rfl⟩

theorem Keeps.trans {u : Cpu} (h : Keeps rs s t) (h' : Keeps rs t u) : Keeps rs s u :=
  ⟨fun r hr => (h'.reg r hr).trans (h.reg r hr), h'.mem.trans h.mem⟩

theorem Keeps.mono {qs : List Reg} (h : Keeps rs s t) (hsub : rs ⊆ qs) : Keeps qs s t :=
  ⟨fun r hr => h.reg r fun hmem => hr (hsub hmem), h.mem⟩

@[simp] theorem set_reg_self (s : Cpu) (d : Reg) (x : Word) : (s.set d x).reg d = x := by
  simp only [Cpu.set, Function.update_self]

theorem set_reg_of_ne {d q : Reg} (h : q ≠ d) (x : Word) : (s.set d x).reg q = s.reg q := by
  simp only [Cpu.set, Function.update_of_ne h]

@[simp] theorem set_mem (s : Cpu) (d : Reg) (x : Word) : (s.set d x).mem = s.mem := rfl

-- The registers an operation without a stack access writes.
def Op.dest : Op → List Reg
  | mov d _ | movs d _ | and d _ _ | ands d _ _ | eor d _ _ | orr d _ _ | add d _ _ | sub d _ _
  | subs d _ _ | rsb d _ _ | mul d _ _ => [d]
  | cmp _ _ | cmn _ _ | tst _ _ | teq _ _ => []
  | push _ | pop _ => []

def Op.isStack : Op → Bool
  | push _ | pop _ => true
  | _ => false

theorem exec_keeps {o : Op} (ho : o.isStack = false) (s : Cpu) : Keeps o.dest s (o.exec s) := by
  cases o with
  | push rs | pop rs => cases ho
  | cmp n x | cmn n x | tst n x | teq n x => exact ⟨fun _ _ => rfl, rfl⟩
  | mov d x | movs d x | and d n x | ands d n x | eor d n x | orr d n x | add d n x | sub d n x
  | subs d n x | rsb d n x | mul d n x =>
      exact ⟨fun r hr => Function.update_of_ne (fun he => hr (List.mem_singleton.mpr he)) _ _, rfl⟩

theorem step_keeps {c : Cond} {o : Op} (ho : o.isStack = false) (s : Cpu) :
    Keeps o.dest s (s.step c o) := by
  unfold Cpu.step
  split_ifs
  · exact exec_keeps ho s
  · exact Keeps.refl _ s

-- Straight code changes what it writes and nothing else.
theorem steps_keeps {is : List (Cond × Op)} (his : ∀ i ∈ is, i.2.isStack = false)
    (hrs : ∀ i ∈ is, i.2.dest ⊆ rs) (s : Cpu) : Keeps rs s (s.steps is) := by
  induction is generalizing s with
  | nil => exact Keeps.refl rs s
  | cons i is ih =>
      obtain ⟨hi, his⟩ := List.forall_mem_cons.mp his
      obtain ⟨hri, hrs⟩ := List.forall_mem_cons.mp hrs
      exact ((step_keeps hi s).mono hri).trans (ih his hrs _)

-- What a routine may change: some registers, and some bytes below the stack.
structure Leaves (rs : List Reg) (room : ℕ) (s t : Cpu) : Prop where
  reg : ∀ r ∉ rs, t.reg r = s.reg r
  mem : ∀ x, room ≤ off (s.reg .sp - BitVec.ofNat 32 room) x → t.mem x = s.mem x

theorem Keeps.leaves (h : Keeps rs s t) (room : ℕ) : Leaves rs room s t :=
  ⟨h.reg, fun x _ => congrFun h.mem x⟩

theorem Leaves.mono {qs : List Reg} {room : ℕ} (h : Leaves rs room s t) (hsub : rs ⊆ qs) :
    Leaves qs room s t :=
  ⟨fun r hr => h.reg r fun hmem => hr (hsub hmem), h.mem⟩

theorem Leaves.after {u : Cpu} {room : ℕ} (h : Leaves rs room t u) (hkeeps : Keeps rs s t)
    (hsp : Reg.sp ∉ rs) : Leaves rs room s u := by
  refine ⟨fun r hr => (h.reg r hr).trans (hkeeps.reg r hr), fun x hx => ?_⟩
  rw [h.mem x (by rwa [hkeeps.reg _ hsp]), hkeeps.mem]

-- The bytes of a word make up the word.
theorem word_of_bytes (w : Word) :
    (w >>> 24).setWidth 8 ++ (w >>> 16).setWidth 8 ++ (w >>> 8).setWidth 8 ++ (w >>> 0).setWidth 8 =
      w := by
  apply BitVec.eq_of_getLsbD_eq
  intro i hi
  simp only [BitVec.getLsbD_append, BitVec.getLsbD_setWidth, BitVec.getLsbD_ushiftRight]
  by_cases h8 : i < 8
  · simp [h8]
  by_cases h16 : i < 16
  · have hin : i - 8 < 8 := by omega
    simp [h8, hin, Nat.add_sub_cancel' (Nat.not_lt.mp h8)]
  by_cases h24 : i < 24
  · have hout : ¬i - 8 < 8 := by omega
    have hin : i - 8 - 8 < 8 := by omega
    have hsum : 16 + (i - 8 - 8) = i := by omega
    simp [h8, hout, hin, hsum]
  · have hout : ¬i - 8 < 8 := by omega
    have hout' : ¬i - 8 - 8 < 8 := by omega
    have hin : i - 8 - 8 - 8 < 8 := by omega
    have hsum : 24 + (i - 8 - 8 - 8) = i := by omega
    simp [h8, hout, hout', hin, hsum]

theorem loadWord_storeWords (m : Mem 32) (p : Word) {ws : List Word} {i : ℕ} (hi : i < ws.length)
    (hfits : 4 * ws.length ≤ 2 ^ 32) :
    loadWord (storeWords m p ws) (p + BitVec.ofNat 32 (4 * i)) = ws.getD i 0 := by
  have hbyte {b : ℕ} (hb : b < 4) :
      storeWords m p ws (p + BitVec.ofNat 32 (4 * i) + BitVec.ofNat 32 b) =
        (ws.getD i 0 >>> (8 * b)).setWidth 8 := by
    have hdiv : (4 * i + b) / 4 = i := by omega
    have hmod : (4 * i + b) % 4 = b := by omega
    rw [BitVec.add_assoc, ← BitVec.ofNat_add, storeWords, fill_add (by omega) (by omega), hdiv, hmod]
  have hfirst := hbyte (by decide : 0 < 4)
  rw [BitVec.add_zero] at hfirst
  rw [loadWord, hbyte (by decide : 3 < 4), hbyte (by decide : 2 < 4), hbyte (by decide : 1 < 4),
    hfirst]
  exact word_of_bytes _

-- What is on the stack stays there while a routine runs.
theorem Leaves.loadWord {room i : ℕ} (h : Leaves rs room s t) (hfits : room + 4 * i + 4 ≤ 2 ^ 32) :
    loadWord t.mem (s.reg .sp + BitVec.ofNat 32 (4 * i)) =
      loadWord s.mem (s.reg .sp + BitVec.ofNat 32 (4 * i)) := by
  have hbyte {b : ℕ} (hb : b < 4) :
      t.mem (s.reg .sp + BitVec.ofNat 32 (4 * i) + BitVec.ofNat 32 b) =
        s.mem (s.reg .sp + BitVec.ofNat 32 (4 * i) + BitVec.ofNat 32 b) := by
    apply h.mem
    have hplace : s.reg .sp + BitVec.ofNat 32 (4 * i) + BitVec.ofNat 32 b =
        s.reg .sp - BitVec.ofNat 32 room + BitVec.ofNat 32 (room + (4 * i + b)) := by
      rw [BitVec.ofNat_add room, BitVec.ofNat_add, ← BitVec.add_assoc (s.reg .sp - _),
        BitVec.sub_add_cancel, BitVec.add_assoc]
    rw [hplace, off_add _ (by omega)]
    omega
  have hfirst := hbyte (by decide : 0 < 4)
  rw [BitVec.add_zero] at hfirst
  rw [Arm.loadWord, Arm.loadWord, hbyte (by decide : 3 < 4), hbyte (by decide : 2 < 4),
    hbyte (by decide : 1 < 4), hfirst]

theorem storeWords_out {m : Mem 32} {p x : Word} {ws : List Word} (h : 4 * ws.length ≤ off p x) :
    storeWords m p ws x = m x := fill_out h

end Arm
