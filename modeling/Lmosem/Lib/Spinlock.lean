import Lmosem.Lib.Run
import Mathlib.Logic.Function.Basic

-- Cores that make their calls one after the other, each call under a spin lock that is taken
-- with the interrupts of the calling core masked.
namespace Spinlock

open Transition

abbrev Word := BitVec 32

-- Where a core is in a call, with the status word it has saved.
inductive Phase (Op : Type*)
  | idle
  | waiting (op : Op) (saved : Word)
  | inside (op : Op) (saved : Word)
  | leaving (saved : Word)
deriving DecidableEq, Repr

structure Core (Op : Type*) where
  todo : List Op
  status : Word
  phase : Phase Op

structure State (ι κ Op : Type*) where
  word : κ → Word
  core : ι → Core Op

inductive Action
  | mask
  | spin
  | take
  | release
  | restore
deriving DecidableEq, Repr

section Spec

variable {ι κ Op : Type*}

-- No lock is taken and no core is in a call.
def start (status : ι → Word) (prog : ι → List Op) : State ι κ Op where
  word := fun _ => 0
  core := fun c => ⟨prog c, status c, .idle⟩

-- Core `c` is between taking the lock for `op` and releasing it.
def Inside (s : State ι κ Op) (c : ι) (op : Op) : Prop :=
  ∃ saved, (s.core c).phase = .inside op saved

def Exclusive (s : State ι κ Op) : Prop :=
  ∀ c d op op', Inside s c op → Inside s d op' → c = d

-- The call that still has its critical section before it or is in it.
def Phase.call? : Phase Op → Option Op
  | .waiting op _ | .inside op _ => some op
  | .idle | .leaving _ => none

-- `op` is such a call of a core, or one it has still to begin.
def Core.Pending (x : Core Op) (op : Op) : Prop := op ∈ x.todo ∨ x.phase.call? = some op

-- A core that began with `status` has it masked while it is in a call, and has it back outside.
def Core.Keeps (x : Core Op) (mask : Word → Word) (status : Word) : Prop :=
  match x.phase with
  | .idle => x.status = status
  | .waiting _ saved | .inside _ saved | .leaving saved => saved = status ∧ x.status = mask status

structure Inv (lockOf : Op → κ) (mask : Word → Word) (status : ι → Word) (prog : ι → List Op)
    (s : State ι κ Op) : Prop where
  locked : ∀ c op, Inside s c op → s.word (lockOf op) ≠ 0
  single : ∀ c d op op', Inside s c op → Inside s d op' → lockOf op = lockOf op' → c = d
  pending : ∀ c op, (s.core c).Pending op → op ∈ prog c
  keeps : ∀ c, (s.core c).Keeps mask (status c)

theorem start_inv (lockOf : Op → κ) (mask : Word → Word) (status : ι → Word) (prog : ι → List Op) :
    Inv lockOf mask status prog (start status prog) := by
  have hnone (c : ι) (op : Op) : ¬Inside (start status prog : State ι κ Op) c op := by
    rintro ⟨saved, hc⟩
    cases hc
  refine ⟨fun c op h => absurd h (hnone c op), fun c _ op _ h => absurd h (hnone c op), ?_,
    fun _ => rfl⟩
  rintro c op (hop | hc)
  · exact hop
  · cases hc

theorem Inv.core_inv {lockOf : Op → κ} {mask : Word → Word} {status : ι → Word} {prog : ι → List Op}
    {s : State ι κ Op} (h : Inv lockOf mask status prog s) {c : ι} {x : Core Op}
    (hcore : s.core c = x) : x.Keeps mask (status c) ∧ ∀ op, x.Pending op → op ∈ prog c := by
  subst hcore
  exact ⟨h.keeps c, h.pending c⟩

theorem Inside.mem {lockOf : Op → κ} {mask : Word → Word} {status : ι → Word} {prog : ι → List Op}
    {s : State ι κ Op} (h : Inv lockOf mask status prog s) {c : ι} {op : Op} (hc : Inside s c op) :
    op ∈ prog c := by
  obtain ⟨saved, hc⟩ := hc
  refine h.pending c op (Or.inr ?_)
  rw [hc]
  rfl

end Spec

section Writes

variable {ι κ Op : Type*}

-- Core `c` becomes `x`.
def State.put [DecidableEq ι] (s : State ι κ Op) (c : ι) (x : Core Op) : State ι κ Op :=
  { s with core := Function.update s.core c x }

-- The word of lock `l` becomes `w`.
def State.write [DecidableEq κ] (s : State ι κ Op) (l : κ) (w : Word) : State ι κ Op :=
  { s with word := Function.update s.word l w }

theorem put_put [DecidableEq ι] (s : State ι κ Op) (c : ι) (x y : Core Op) : (s.put c x).put c y = s.put c y := by
  simp only [State.put, Function.update_idem]

theorem put_self [DecidableEq ι] (s : State ι κ Op) (c : ι) (x : Core Op) : (s.put c x).core c = x := by
  simp only [State.put, Function.update_self]

theorem put_of_ne [DecidableEq ι] (s : State ι κ Op) {c d : ι} (h : d ≠ c) (x : Core Op) : (s.put c x).core d = s.core d := by
  simp only [State.put, Function.update_of_ne h]

-- A lock that is free again stands as it did before it was taken.
theorem write_write_self [DecidableEq κ] {s : State ι κ Op} {l : κ} (w : Word) (h : s.word l = 0) : (s.write l w).write l 0 = s := by
  have hword : Function.update (Function.update s.word l w) l 0 = s.word := by
    rw [Function.update_idem, ← h, Function.update_eq_self]
  simp only [State.write, hword]

end Writes

section Steps

variable {ι κ Op : Type*} [DecidableEq ι] {lockOf : Op → κ} {mask : Word → Word}
  {status : ι → Word} {prog : ι → List Op} {s t : State ι κ Op} {c : ι}

-- What a step has to show about the core that takes it.
theorem Inv.update {s' : State ι κ Op} {x : Core Op} (h : Inv lockOf mask status prog s)
    (hcore : s'.core = Function.update s.core c x)
    (hlocked : ∀ d op, d ≠ c → Inside s d op → s'.word (lockOf op) ≠ 0)
    (hinside : ∀ op saved, x.phase = .inside op saved → s'.word (lockOf op) ≠ 0 ∧
      ∀ d op', Inside s d op' → lockOf op' ≠ lockOf op)
    (hpending : ∀ op, x.Pending op → op ∈ prog c) (hkeeps : x.Keeps mask (status c)) :
    Inv lockOf mask status prog s' := by
  have hself : s'.core c = x := by rw [hcore, Function.update_self]
  have hother (d : ι) (hd : d ≠ c) : s'.core d = s.core d := by rw [hcore, Function.update_of_ne hd]
  have hin (d : ι) (op : Op) (hd : d ≠ c) : Inside s' d op ↔ Inside s d op := by
    rw [Inside, hother d hd, Inside]
  have hin' (op : Op) (ho : Inside s' c op) : ∃ saved, x.phase = .inside op saved := by
    rwa [Inside, hself] at ho
  refine ⟨fun d op ho => ?_, fun d e op op' hd he hl => ?_, fun d op ho => ?_, fun d => ?_⟩
  · by_cases hd : d = c
    · subst hd
      obtain ⟨saved, hx⟩ := hin' op ho
      exact (hinside op saved hx).1
    · exact hlocked d op hd ((hin d op hd).mp ho)
  · by_cases hdc : d = c
    · by_cases hec : e = c
      · exact hdc.trans hec.symm
      · subst hdc
        obtain ⟨saved, hx⟩ := hin' op hd
        exact absurd hl.symm ((hinside op saved hx).2 e op' ((hin e op' hec).mp he))
    · by_cases hec : e = c
      · subst hec
        obtain ⟨saved, hx⟩ := hin' op' he
        exact absurd hl ((hinside op' saved hx).2 d op ((hin d op hdc).mp hd))
      · exact h.single d e op op' ((hin d op hdc).mp hd) ((hin e op' hec).mp he) hl
  · by_cases hd : d = c
    · subst hd
      exact hpending op (hself ▸ ho)
    · exact h.pending d op (hother d hd ▸ ho)
  · by_cases hd : d = c
    · subst hd
      rwa [hself]
    · rw [hother d hd]
      exact h.keeps d

variable [DecidableEq κ]

-- One step of one core. Taking the lock reads its word as zero and writes it in one go; an
-- attempt that fails, for whatever reason, changes nothing.
inductive Step (lockOf : Op → κ) (mask : Word → Word) :
    State ι κ Op → ι × Action → State ι κ Op → Prop
  | mask {s : State ι κ Op} {c : ι} {op : Op} {ops : List Op} {status : Word}
      (hcore : s.core c = ⟨op :: ops, status, .idle⟩) :
      Step lockOf mask s (c, .mask) (s.put c ⟨ops, mask status, .waiting op status⟩)
  | spin {s : State ι κ Op} {c : ι} {op : Op} {ops : List Op} {status saved : Word}
      (hcore : s.core c = ⟨ops, status, .waiting op saved⟩) : Step lockOf mask s (c, .spin) s
  | take {s : State ι κ Op} {c : ι} {op : Op} {ops : List Op} {status saved : Word}
      (hcore : s.core c = ⟨ops, status, .waiting op saved⟩) (hfree : s.word (lockOf op) = 0) :
      Step lockOf mask s (c, .take)
        ((s.write (lockOf op) 1).put c ⟨ops, status, .inside op saved⟩)
  | release {s : State ι κ Op} {c : ι} {op : Op} {ops : List Op} {status saved : Word}
      (hcore : s.core c = ⟨ops, status, .inside op saved⟩) :
      Step lockOf mask s (c, .release)
        ((s.write (lockOf op) 0).put c ⟨ops, status, .leaving saved⟩)
  | restore {s : State ι κ Op} {c : ι} {ops : List Op} {status saved : Word}
      (hcore : s.core c = ⟨ops, status, .leaving saved⟩) :
      Step lockOf mask s (c, .restore) (s.put c ⟨ops, saved, .idle⟩)

theorem Inv.step {a : ι × Action} (h : Inv lockOf mask status prog s) (hs : Step lockOf mask s a t) :
    Inv lockOf mask status prog t := by
  cases hs with
  | @mask c op ops st hcore =>
      obtain ⟨hkeeps, hpending⟩ := h.core_inv hcore
      refine h.update rfl (fun d op _ => h.locked d op) (fun _ _ hx => by cases hx) ?_
        ⟨hkeeps, congrArg mask hkeeps⟩
      rintro op' (hop | hx)
      · exact hpending op' (Or.inl (List.mem_cons_of_mem _ hop))
      · cases hx
        exact hpending op (Or.inl List.mem_cons_self)
  | spin _ => exact h
  | @take c op ops st saved hcore hfree =>
      obtain ⟨hkeeps, hpending⟩ := h.core_inv hcore
      have hword : (s.write (lockOf op) 1).word (lockOf op) ≠ 0 := by
        simp [State.write]
      have hnone (d : ι) (op' : Op) (ho : Inside s d op') : lockOf op' ≠ lockOf op :=
        fun hl => h.locked d op' ho (hl ▸ hfree)
      refine h.update rfl (fun d op' _ ho => ?_) (fun op' _ hx => ?_) hpending hkeeps
      · have hsame : (s.write (lockOf op) 1).word (lockOf op') = s.word (lockOf op') :=
          Function.update_of_ne (hnone d op' ho) _ _
        exact hsame ▸ h.locked d op' ho
      · cases hx
        exact ⟨hword, hnone⟩
  | @release c op ops st saved hcore =>
      obtain ⟨hkeeps, hpending⟩ := h.core_inv hcore
      have hin : Inside s c op := ⟨saved, by rw [hcore]⟩
      refine h.update rfl (fun d op' hd ho => ?_) (fun _ _ hx => by cases hx) ?_ hkeeps
      · have hl : lockOf op' ≠ lockOf op := fun hl => hd (h.single d c op' op ho hin hl)
        have hsame : (s.write (lockOf op) 0).word (lockOf op') = s.word (lockOf op') :=
          Function.update_of_ne hl _ _
        exact hsame ▸ h.locked d op' ho
      · rintro op' (hop | hx)
        · exact hpending op' (Or.inl hop)
        · cases hx
  | @restore c ops st saved hcore =>
      obtain ⟨hkeeps, hpending⟩ := h.core_inv hcore
      exact h.update rfl (fun d op _ => h.locked d op) (fun _ _ hx => by cases hx) hpending hkeeps.1

theorem reachable_inv (hr : Reachable (Step lockOf mask) (start status prog) s) :
    Inv lockOf mask status prog s :=
  hr.invariant (start_inv lockOf mask status prog) fun _ _ _ hs h => h.step hs

end Steps

section Overlap

variable {ι κ Op : Type*} [DecidableEq ι] [DecidableEq κ] {lockOf : Op → κ} {mask : Word → Word}
  {status : ι → Word} {prog : ι → List Op} {s : State ι κ Op} {c d : ι} {op op' : Op}
  {ops : List Op} {st : Word}

theorem write_put (s : State ι κ Op) (c : ι) (x : Core Op) (l : κ) (w : Word) :
    (s.put c x).write l w = (s.write l w).put c x := rfl

-- A core whose lock is free gets into its next call.
theorem enter (hcore : s.core c = ⟨op :: ops, st, .idle⟩) (hfree : s.word (lockOf op) = 0) :
    Reachable (Step lockOf mask) s ((s.write (lockOf op) 1).put c ⟨ops, mask st, .inside op st⟩) := by
  have hmask : Step lockOf mask s (c, .mask) (s.put c ⟨ops, mask st, .waiting op st⟩) := .mask hcore
  have htake : Step lockOf mask (s.put c ⟨ops, mask st, .waiting op st⟩) (c, .take)
      (((s.put c ⟨ops, mask st, .waiting op st⟩).write (lockOf op) 1).put c
        ⟨ops, mask st, .inside op st⟩) := .take (put_self s c _) hfree
  rw [write_put, put_put] at htake
  exact (Reachable.single hmask).trans (Reachable.single htake)

-- Without the others it comes through the call and leaves nothing behind.
theorem call_alone (hcore : s.core c = ⟨op :: ops, st, .idle⟩) (hfree : s.word (lockOf op) = 0) :
    Reachable (Step lockOf mask) s (s.put c ⟨ops, st, .idle⟩) := by
  let inside := (s.write (lockOf op) 1).put c ⟨ops, mask st, .inside op st⟩
  have hrelease : Step lockOf mask inside (c, .release)
      ((inside.write (lockOf op) 0).put c ⟨ops, mask st, .leaving st⟩) := .release (put_self _ c _)
  rw [write_put, put_put, write_write_self _ hfree] at hrelease
  have hrestore : Step lockOf mask (s.put c ⟨ops, mask st, .leaving st⟩) (c, .restore)
      ((s.put c ⟨ops, mask st, .leaving st⟩).put c ⟨ops, st, .idle⟩) := .restore (put_self s c _)
  rw [put_put] at hrestore
  exact ((enter hcore hfree).trans (Reachable.single hrelease)).trans (Reachable.single hrestore)

theorem calls_alone (before : List Op) (hcore : s.core c = ⟨before ++ ops, st, .idle⟩)
    (hfree : ∀ l, s.word l = 0) : Reachable (Step lockOf mask) s (s.put c ⟨ops, st, .idle⟩) := by
  induction before generalizing s with
  | nil =>
      have hsame : s.put c ⟨ops, st, .idle⟩ = s := by
        rw [List.nil_append] at hcore
        simp only [State.put, ← hcore, Function.update_eq_self]
      rw [hsame]
      exact Reachable.refl s
  | cons x before ih =>
      refine (call_alone hcore (hfree _)).trans ?_
      have hrest := ih (put_self s c ⟨before ++ ops, st, .idle⟩) hfree
      rwa [put_put] at hrest

-- Two cores that use different locks get into their calls together.
theorem overlap (mask : Word → Word) (status : ι → Word) (hcd : c ≠ d) (hop : op ∈ prog c) (hop' : op' ∈ prog d)
    (hl : lockOf op ≠ lockOf op') :
    ∃ s, Reachable (Step lockOf mask) (start status prog) s ∧ Inside s c op ∧ Inside s d op' := by
  obtain ⟨before, ops, hc⟩ := List.append_of_mem hop
  obtain ⟨before', ops', hd⟩ := List.append_of_mem hop'
  let s₀ : State ι κ Op := start status prog
  let s₁ := s₀.put c ⟨op :: ops, status c, .idle⟩
  let s₂ := s₁.put d ⟨op' :: ops', status d, .idle⟩
  let s₃ := (s₂.write (lockOf op) 1).put c ⟨ops, mask (status c), .inside op (status c)⟩
  have h₁ : Reachable (Step lockOf mask) s₀ s₁ :=
    calls_alone before (by rw [← hc]; rfl) fun _ => rfl
  have h₂ : Reachable (Step lockOf mask) s₁ s₂ := by
    refine calls_alone before' ?_ fun _ => rfl
    rw [put_of_ne _ hcd.symm, ← hd]
    rfl
  have h₃ : Reachable (Step lockOf mask) s₂ s₃ := by
    refine enter ?_ rfl
    rw [put_of_ne _ hcd, put_self]
  have hd₃ : s₃.core d = ⟨op' :: ops', status d, .idle⟩ := by
    rw [put_of_ne _ hcd.symm]
    exact put_self s₁ d _
  have hw₃ : s₃.word (lockOf op') = 0 := Function.update_of_ne hl.symm _ _
  refine ⟨_, ((h₁.trans h₂).trans h₃).trans (enter hd₃ hw₃), ⟨status c, ?_⟩, ⟨status d, ?_⟩⟩
  · rw [put_of_ne _ hcd]
    exact congrArg Core.phase (put_self _ c _)
  · rw [put_self]

-- The locks keep the calls apart in every interleaving exactly when any two calls of
-- different cores use the same one.
theorem exclusive_iff (lockOf : Op → κ) (mask : Word → Word) (status : ι → Word)
    (prog : ι → List Op) :
    (∀ s, Reachable (Step lockOf mask) (start status prog) s → Exclusive s) ↔
      ∀ c d, c ≠ d → ∀ op ∈ prog c, ∀ op' ∈ prog d, lockOf op = lockOf op' := by
  constructor
  · intro hall c d hcd op hop op' hop'
    by_contra hl
    obtain ⟨s, hs, hc, hd⟩ := overlap mask status hcd hop hop' hl
    exact hcd (hall s hs c d op op' hc hd)
  · intro hone s hs c d op op' hc hd
    have h := reachable_inv hs
    by_contra hcd
    exact hcd (h.single c d op op' hc hd (hone c d hcd op (hc.mem h) op' (hd.mem h)))

end Overlap

end Spinlock
