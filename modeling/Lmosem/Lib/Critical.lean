import Lmosem.Lib.Run
import Mathlib.Logic.Function.Basic

-- Any number of cores that call on shared data, each call under a spin lock. The lock is taken
-- with a load and a store that are exclusive, and with the interrupts of the core masked.
namespace Critical

open Transition

abbrev Word := BitVec 32

-- What a call does to the data, access by access. An access may depend on what was read before.
inductive Job (σ ρ : Type*)
  | done (r : ρ)
  | access (write : σ → σ) (next : σ → Job σ ρ)

-- All of it, with nobody else in between.
def Job.run {σ ρ : Type*} : Job σ ρ → σ → ρ × σ
  | .done r, d => (r, d)
  | .access write next, d => (next d).run (write d)

-- Where a core is in a call, with the status word it has saved.
inductive Phase (Op σ ρ : Type*)
  | idle
  | trying (op : Op) (saved : Word)
  | loaded (op : Op) (saved tmp : Word)
  | inside (op : Op) (saved : Word) (job : Job σ ρ)
  | leaving (op : Op) (saved : Word) (r : ρ)

-- `own` is what the client on this core remembers between its calls.
structure Core (Op σ ρ α : Type*) where
  status : Word
  own : α
  phase : Phase Op σ ρ

-- `monitor` has the lock word that a core has loaded and that nobody has stored to since.
structure State (ι κ Op σ ρ α : Type*) where
  word : κ → Word
  monitor : ι → Option κ
  data : σ
  core : ι → Core Op σ ρ α

-- The calls, which of them a client may make, what it remembers after one, and what two clients
-- may do between their calls.
structure Calls (κ Op σ ρ α : Type*) where
  lockOf : Op → κ
  mask : Word → Word
  job : Op → Job σ ρ
  may : α → Op → Prop
  finish : α → Op → ρ → α
  trade : α → α → α → α → Prop

inductive Action (Op : Type*)
  | call (op : Op)
  | ldrex
  | retry
  | strex
  | lose
  | access
  | release
  | restore
  | trade

section Spec

variable {ι κ Op σ ρ α : Type*}

-- No lock is taken and no core is in a call.
def start (status : ι → Word) (data : σ) (own : ι → α) : State ι κ Op σ ρ α where
  word := fun _ => 0
  monitor := fun _ => none
  data := data
  core := fun c => ⟨status c, own c, .idle⟩

-- The lock that a core has taken.
def Core.lock? (P : Calls κ Op σ ρ α) (x : Core Op σ ρ α) : Option κ :=
  match x.phase with
  | .inside op _ _ => some (P.lockOf op)
  | .idle | .trying _ _ | .loaded _ _ _ | .leaving _ _ _ => none

-- A core that began with `status` has it masked while it is in a call, and has it back outside.
def Core.Keeps (P : Calls κ Op σ ρ α) (x : Core Op σ ρ α) (status : Word) : Prop :=
  match x.phase with
  | .idle => x.status = status
  | .trying op saved | .loaded op saved _ =>
      saved = status ∧ x.status = P.mask status ∧ P.may x.own op
  | .inside _ saved _ | .leaving _ saved _ => saved = status ∧ x.status = P.mask status

-- What the client remembers once the call that has got hold of its lock is over.
def Core.seen (P : Calls κ Op σ ρ α) (data : σ) (x : Core Op σ ρ α) : α :=
  match x.phase with
  | .idle | .trying _ _ | .loaded _ _ _ => x.own
  | .inside op _ job => P.finish x.own op (job.run data).1
  | .leaving op _ r => P.finish x.own op r

-- The call that has got hold of its lock and has not come back yet, with its answer.
def Core.pending (data : σ) (x : Core Op σ ρ α) : List (Op × ρ) :=
  match x.phase with
  | .idle | .trying _ _ | .loaded _ _ _ => []
  | .inside op _ job => [(op, (job.run data).1)]
  | .leaving op _ r => [(op, r)]

-- The call that a step takes the lock for, with the answer it is going to have.
def locked (mv : Move (State ι κ Op σ ρ α) (ι × Action Op)) : Option (ι × Op × ρ) :=
  match mv.event.2, (mv.after.core mv.event.1).phase with
  | .strex, .inside op _ job => some (mv.event.1, op, (job.run mv.after.data).1)
  | _, _ => none

-- The call that a step comes back from, with its answer.
def returned (mv : Move (State ι κ Op σ ρ α) (ι × Action Op)) : Option (ι × Op × ρ) :=
  match mv.event.2, (mv.before.core mv.event.1).phase with
  | .restore, .leaving op _ r => some (mv.event.1, op, r)
  | _, _ => none

-- The calls of one core.
def callsOf [DecidableEq ι] (c : ι) (calls : List (ι × Op × ρ)) : List (Op × ρ) :=
  calls.filterMap fun x => if x.1 = c then some x.2 else none

-- The calls one after the other, each as a whole.
structure Atomic (ι σ α : Type*) where
  data : σ
  own : ι → α

-- A core that has loaded a free lock word and may still store to it finds it free.
structure Inv (P : Calls κ Op σ ρ α) (status : ι → Word) (s : State ι κ Op σ ρ α) : Prop where
  taken : ∀ l, s.word l ≠ 0 ↔ ∃ c, (s.core c).lock? P = some l
  single : ∀ c d l, (s.core c).lock? P = some l → (s.core d).lock? P = some l → c = d
  watched : ∀ c op saved tmp, (s.core c).phase = .loaded op saved tmp →
    s.monitor c = some (P.lockOf op) → s.word (P.lockOf op) = tmp
  keeps : ∀ c, (s.core c).Keeps P (status c)

theorem start_inv (P : Calls κ Op σ ρ α) (status : ι → Word) (data : σ) (own : ι → α) :
    Inv P status (start status data own) where
  taken l := by
    simp only [start, Core.lock?]
    simp
  single c d l hc := by cases hc
  watched c op saved tmp hc := by cases hc
  keeps _ := rfl

theorem Inv.core_keeps {P : Calls κ Op σ ρ α} {status : ι → Word} {s : State ι κ Op σ ρ α} {c : ι}
    {x : Core Op σ ρ α} (h : Inv P status s) (hcore : s.core c = x) : x.Keeps P (status c) :=
  hcore ▸ h.keeps c

theorem Inv.status_idle {P : Calls κ Op σ ρ α} {status : ι → Word} {s : State ι κ Op σ ρ α}
    (h : Inv P status s) {c : ι} (hc : (s.core c).phase = .idle) :
    (s.core c).status = status c := by
  have hk := h.keeps c
  rw [Core.Keeps, hc] at hk
  exact hk

theorem Inv.status_call {P : Calls κ Op σ ρ α} {status : ι → Word} {s : State ι κ Op σ ρ α}
    (h : Inv P status s) {c : ι} (hc : (s.core c).phase ≠ .idle) :
    (s.core c).status = P.mask (status c) := by
  have hk := h.keeps c
  rw [Core.Keeps] at hk
  cases hphase : (s.core c).phase with
  | idle => exact absurd hphase hc
  | trying op saved | loaded op saved tmp =>
      rw [hphase] at hk
      exact hk.2.1
  | inside op saved job | leaving op saved r =>
      rw [hphase] at hk
      exact hk.2

theorem lock?_eq {P : Calls κ Op σ ρ α} {s : State ι κ Op σ ρ α} {c : ι} {x : Core Op σ ρ α}
    (hcore : s.core c = x) : (s.core c).lock? P = x.lock? P := by
  rw [hcore]

theorem core_eq {s : State ι κ Op σ ρ α} {c : ι} {phase : Phase Op σ ρ}
    (h : (s.core c).phase = phase) : s.core c = ⟨(s.core c).status, (s.core c).own, phase⟩ := by
  rw [← h]

end Spec

section Writes

variable {ι κ Op σ ρ α : Type*}

-- Core `c` becomes `x`.
def State.put [DecidableEq ι] (s : State ι κ Op σ ρ α) (c : ι) (x : Core Op σ ρ α) :
    State ι κ Op σ ρ α :=
  { s with core := Function.update s.core c x }

-- The monitor of core `c` watches `l`, or nothing.
def State.watch [DecidableEq ι] (s : State ι κ Op σ ρ α) (c : ι) (l : Option κ) :
    State ι κ Op σ ρ α :=
  { s with monitor := Function.update s.monitor c l }

-- A store to the word of lock `l`. Every monitor that watches it gives up.
def State.store [DecidableEq κ] (s : State ι κ Op σ ρ α) (l : κ) (w : Word) :
    State ι κ Op σ ρ α :=
  { s with
    word := Function.update s.word l w
    monitor := fun c => if s.monitor c = some l then none else s.monitor c }

@[simp] theorem put_core_self [DecidableEq ι] (s : State ι κ Op σ ρ α) (c : ι)
    (x : Core Op σ ρ α) : (s.put c x).core c = x := by
  simp only [State.put, Function.update_self]

theorem put_core_of_ne [DecidableEq ι] (s : State ι κ Op σ ρ α) {c d : ι} (h : d ≠ c)
    (x : Core Op σ ρ α) : (s.put c x).core d = s.core d := by
  simp only [State.put, Function.update_of_ne h]

theorem locked_strex [DecidableEq ι] (s t : State ι κ Op σ ρ α) (c : ι) (status saved : Word)
    (own : α) (op : Op) (job : Job σ ρ) :
    locked ⟨s, (c, .strex), t.put c ⟨status, own, .inside op saved job⟩⟩ =
      some (c, op, (job.run t.data).1) := by
  simp only [locked, put_core_self]
  rfl

theorem watch_monitor_of_ne [DecidableEq ι] (s : State ι κ Op σ ρ α) {c d : ι} (h : d ≠ c)
    (l : Option κ) : (s.watch c l).monitor d = s.monitor d := by
  simp only [State.watch, Function.update_of_ne h]

theorem store_monitor [DecidableEq κ] {s : State ι κ Op σ ρ α} {l m : κ} {c : ι} (w : Word)
    (h : (s.store l w).monitor c = some m) : s.monitor c = some m ∧ m ≠ l := by
  simp only [State.store] at h
  split_ifs at h with hl
  exact ⟨h, fun hm => hl (hm ▸ h)⟩

end Writes

section Steps

variable {ι κ Op σ ρ α : Type*} [DecidableEq ι] [DecidableEq κ]

-- One step of one core. A monitor may give up at any time, and the exclusive store then fails.
inductive Step (P : Calls κ Op σ ρ α) :
    State ι κ Op σ ρ α → ι × Action Op → State ι κ Op σ ρ α → Prop
  | call {s : State ι κ Op σ ρ α} {c : ι} {op : Op} {status : Word} {own : α}
      (hcore : s.core c = ⟨status, own, .idle⟩) (hmay : P.may own op) :
      Step P s (c, .call op) (s.put c ⟨P.mask status, own, .trying op status⟩)
  | ldrex {s : State ι κ Op σ ρ α} {c : ι} {op : Op} {status saved : Word} {own : α}
      (hcore : s.core c = ⟨status, own, .trying op saved⟩) :
      Step P s (c, .ldrex) ((s.watch c (some (P.lockOf op))).put c
        ⟨status, own, .loaded op saved (s.word (P.lockOf op))⟩)
  | retry {s : State ι κ Op σ ρ α} {c : ι} {op : Op} {status saved tmp : Word} {own : α}
      (hcore : s.core c = ⟨status, own, .loaded op saved tmp⟩) (htmp : tmp ≠ 0) :
      Step P s (c, .retry) (s.put c ⟨status, own, .trying op saved⟩)
  | strex {s : State ι κ Op σ ρ α} {c : ι} {op : Op} {status saved : Word} {own : α}
      (hcore : s.core c = ⟨status, own, .loaded op saved 0⟩)
      (hmonitor : s.monitor c = some (P.lockOf op)) :
      Step P s (c, .strex) ((s.store (P.lockOf op) 1).put c ⟨status, own, .inside op saved (P.job op)⟩)
  | strexFail {s : State ι κ Op σ ρ α} {c : ι} {op : Op} {status saved : Word} {own : α}
      (hcore : s.core c = ⟨status, own, .loaded op saved 0⟩)
      (hmonitor : s.monitor c ≠ some (P.lockOf op)) :
      Step P s (c, .strex) ((s.watch c none).put c ⟨status, own, .trying op saved⟩)
  | lose {s : State ι κ Op σ ρ α} (c : ι) : Step P s (c, .lose) (s.watch c none)
  | access {s : State ι κ Op σ ρ α} {c : ι} {op : Op} {status saved : Word} {own : α}
      {write : σ → σ} {next : σ → Job σ ρ}
      (hcore : s.core c = ⟨status, own, .inside op saved (.access write next)⟩) :
      Step P s (c, .access) ({ s with data := write s.data }.put c
        ⟨status, own, .inside op saved (next s.data)⟩)
  | release {s : State ι κ Op σ ρ α} {c : ι} {op : Op} {status saved : Word} {own : α} {r : ρ}
      (hcore : s.core c = ⟨status, own, .inside op saved (.done r)⟩) :
      Step P s (c, .release) ((s.store (P.lockOf op) 0).put c ⟨status, own, .leaving op saved r⟩)
  | restore {s : State ι κ Op σ ρ α} {c : ι} {op : Op} {status saved : Word} {own : α} {r : ρ}
      (hcore : s.core c = ⟨status, own, .leaving op saved r⟩) :
      Step P s (c, .restore) (s.put c ⟨saved, P.finish own op r, .idle⟩)
  | trade {s : State ι κ Op σ ρ α} {c d : ι} {status status' : Word} {own own' x y : α}
      (hcd : c ≠ d) (hcore : s.core c = ⟨status, own, .idle⟩)
      (hcore' : s.core d = ⟨status', own', .idle⟩) (htrade : P.trade own own' x y) :
      Step P s (c, .trade) ((s.put c ⟨status, x, .idle⟩).put d ⟨status', y, .idle⟩)

-- A call in one go, with what it returns.
inductive Atomic.Step (P : Calls κ Op σ ρ α) :
    Atomic ι σ α → ι × Option (Op × ρ) → Atomic ι σ α → Prop
  | call {a : Atomic ι σ α} {c : ι} {op : Op} (hmay : P.may (a.own c) op) :
      Atomic.Step P a (c, some (op, ((P.job op).run a.data).1))
        ⟨((P.job op).run a.data).2,
          Function.update a.own c (P.finish (a.own c) op ((P.job op).run a.data).1)⟩
  | trade {a : Atomic ι σ α} {c d : ι} {x y : α} (hcd : c ≠ d)
      (htrade : P.trade (a.own c) (a.own d) x y) :
      Atomic.Step P a (c, none) ⟨a.data, Function.update (Function.update a.own c x) d y⟩

-- The call that such a step is.
def Atomic.called (mv : Move (Atomic ι σ α) (ι × Option (Op × ρ))) : Option (ι × Op × ρ) :=
  mv.event.2.map fun x => (mv.event.1, x)

end Steps

section Inv

variable {ι κ Op σ ρ α : Type*} [DecidableEq ι] {P : Calls κ Op σ ρ α} {status : ι → Word}
  {s s' t : State ι κ Op σ ρ α} {c : ι} {x : Core Op σ ρ α}

-- What a step that takes and releases no lock has to show about its core.
theorem Inv.quiet (h : Inv P status s) (hcore : s'.core = Function.update s.core c x)
    (hword : s'.word = s.word) (hlock : x.lock? P = (s.core c).lock? P)
    (hmonitor : ∀ d l, d ≠ c → s'.monitor d = some l → s.monitor d = some l)
    (hwatched : ∀ op saved tmp, x.phase = .loaded op saved tmp →
      s'.monitor c = some (P.lockOf op) → s.word (P.lockOf op) = tmp)
    (hkeeps : x.Keeps P (status c)) : Inv P status s' := by
  have hself : s'.core c = x := by rw [hcore, Function.update_self]
  have hother (d : ι) (hd : d ≠ c) : s'.core d = s.core d := by rw [hcore, Function.update_of_ne hd]
  have hsame (d : ι) : (s'.core d).lock? P = (s.core d).lock? P := by
    by_cases hd : d = c
    · rw [hd, hself, hlock]
    · rw [hother d hd]
  refine ⟨fun l => ?_, fun d e l hd he => ?_, fun d op saved tmp hd hm => ?_, fun d => ?_⟩
  · simp only [hword, hsame]
    exact h.taken l
  · rw [hsame] at hd he
    exact h.single d e l hd he
  · rw [hword]
    by_cases hdc : d = c
    · subst hdc
      rw [hself] at hd
      exact hwatched op saved tmp hd hm
    · rw [hother d hdc] at hd
      exact h.watched d op saved tmp hd (hmonitor d _ hdc hm)
  · by_cases hdc : d = c
    · subst hdc
      rwa [hself]
    · rw [hother d hdc]
      exact h.keeps d

-- What a step has to show that stores to the word of the lock its core takes or releases.
theorem Inv.stored [DecidableEq κ] (h : Inv P status s) {l : κ} {w : Word}
    (hold : ∀ m, (s.core c).lock? P = some m → m = l) (hnew : ∀ m, x.lock? P = some m → m = l)
    (hothers : ∀ d, d ≠ c → (s.core d).lock? P ≠ some l) (hw : w ≠ 0 ↔ x.lock? P = some l)
    (hloaded : ∀ op saved tmp, x.phase ≠ .loaded op saved tmp)
    (hkeeps : x.Keeps P (status c)) : Inv P status ((s.store l w).put c x) := by
  have hcore (d : ι) : ((s.store l w).put c x).core d = if d = c then x else s.core d := by
    split_ifs with hd
    · rw [hd, put_core_self]
    · exact put_core_of_ne _ hd x
  have hword (m : κ) : ((s.store l w).put c x).word m = if m = l then w else s.word m := by
    simp only [State.put, State.store, Function.update_apply]
  refine ⟨fun m => ?_, fun d e m hd he => ?_, fun d op saved tmp hd hm => ?_, fun d => ?_⟩
  · simp only [hcore, hword]
    by_cases hm : m = l
    · subst hm
      rw [if_pos rfl, hw]
      constructor
      · exact fun hx => ⟨c, by rwa [if_pos rfl]⟩
      · rintro ⟨d, hd⟩
        split_ifs at hd with hdc
        · exact hd
        · exact absurd hd (hothers d hdc)
    · rw [if_neg hm, h.taken m]
      constructor
      · rintro ⟨d, hd⟩
        have hdc : d ≠ c := fun hdc => hm (hold m (hdc ▸ hd))
        exact ⟨d, by rwa [if_neg hdc]⟩
      · rintro ⟨d, hd⟩
        split_ifs at hd with hdc
        · exact absurd (hnew m hd) hm
        · exact ⟨d, hd⟩
  · rw [hcore] at hd he
    split_ifs at hd he with hdc hec hec
    · rw [hdc, hec]
    · exact absurd (hnew m hd ▸ he) (hothers e hec)
    · exact absurd (hnew m he ▸ hd) (hothers d hdc)
    · exact h.single d e m hd he
  · rw [hcore] at hd
    split_ifs at hd with hdc
    · exact absurd hd (hloaded op saved tmp)
    · obtain ⟨hm, hl⟩ : s.monitor d = some (P.lockOf op) ∧ P.lockOf op ≠ l := store_monitor w hm
      rw [hword, if_neg hl]
      exact h.watched d op saved tmp hd hm
  · rw [hcore]
    split_ifs with hdc
    · rwa [hdc]
    · exact h.keeps d

variable [DecidableEq κ]

theorem Inv.step {a : ι × Action Op} (h : Inv P status s) (hs : Step P s a t) :
    Inv P status t := by
  cases hs with
  | call hcore hmay =>
      have hk := h.core_keeps hcore
      refine h.quiet rfl rfl (lock?_eq hcore).symm (fun _ _ _ hm => hm) (fun _ _ _ hx => ?_)
        ⟨hk, congrArg P.mask hk, hmay⟩
      cases hx
  | @ldrex c op st saved own hcore =>
      have hk := h.core_keeps hcore
      refine h.quiet rfl rfl (lock?_eq hcore).symm (fun d l hd hm => ?_) (fun _ _ _ hx _ => ?_)
        hk
      · exact (watch_monitor_of_ne s hd _).symm.trans hm
      · cases hx
        rfl
  | retry hcore _ =>
      have hk := h.core_keeps hcore
      refine h.quiet rfl rfl (lock?_eq hcore).symm (fun _ _ _ hm => hm) (fun _ _ _ hx => ?_) hk
      cases hx
  | @strex c op st saved own hcore hmonitor =>
      have hfree : s.word (P.lockOf op) = 0 :=
        h.watched c op saved 0 (by rw [hcore]) hmonitor
      have hnone (d : ι) : (s.core d).lock? P ≠ some (P.lockOf op) :=
        fun hd => (h.taken _).mpr ⟨d, hd⟩ hfree
      obtain ⟨hsaved, hmask, -⟩ := h.core_keeps hcore
      refine h.stored (fun m hm => absurd ((lock?_eq hcore).symm.trans hm) (by simp [Core.lock?]))
        (fun m hm => (Option.some.inj hm).symm) (fun d _ => hnone d) (by simp [Core.lock?])
        (fun _ _ _ hx => ?_) ⟨hsaved, hmask⟩
      cases hx
  | @strexFail c op st saved own hcore _ =>
      have hk := h.core_keeps hcore
      refine h.quiet rfl rfl (lock?_eq hcore).symm (fun d l hd hm => ?_) (fun _ _ _ hx _ => ?_)
        hk
      · exact (watch_monitor_of_ne s hd _).symm.trans hm
      · cases hx
  | lose c =>
      refine h.quiet (c := c) (Function.update_eq_self c s.core).symm rfl rfl (fun d l hd hm => ?_)
        (fun _ _ _ _ hm => ?_) (h.keeps c)
      · exact (watch_monitor_of_ne s hd _).symm.trans hm
      · simp [State.watch] at hm
  | access hcore =>
      have hk := h.core_keeps hcore
      refine h.quiet rfl rfl (lock?_eq hcore).symm (fun _ _ _ hm => hm) (fun _ _ _ hx => ?_) hk
      cases hx
  | @release c op st saved own r hcore =>
      have hk := h.core_keeps hcore
      have hin : (s.core c).lock? P = some (P.lockOf op) := lock?_eq hcore
      refine h.stored (fun m hm => Option.some.inj (hm.symm.trans hin)) (fun m hm => ?_)
        (fun d hd hl => hd (h.single d c _ hl hin)) (by simp [Core.lock?]) (fun _ _ _ hx => ?_)
        hk
      · cases hm
      · cases hx
  | restore hcore =>
      obtain ⟨hsaved, -⟩ := h.core_keeps hcore
      refine h.quiet rfl rfl (lock?_eq hcore).symm (fun _ _ _ hm => hm) (fun _ _ _ hx => ?_) hsaved
      cases hx
  | @trade c d st st' own own' x y hcd hcore hcore' _ =>
      have hk := h.core_keeps hcore
      have hk' := h.core_keeps hcore'
      have hc : Inv P status (s.put c ⟨st, x, .idle⟩) := by
        refine h.quiet rfl rfl (lock?_eq hcore).symm (fun _ _ _ hm => hm) (fun _ _ _ hx => ?_) hk
        cases hx
      have hd : (s.put c ⟨st, x, .idle⟩).core d = ⟨st', own', .idle⟩ :=
        (put_core_of_ne s hcd.symm _).trans hcore'
      refine hc.quiet rfl rfl (lock?_eq hd).symm (fun _ _ _ hm => hm) (fun _ _ _ hx => ?_) hk'
      cases hx

theorem reachable_inv {data : σ} {own : ι → α}
    (hr : Reachable (Step P) (start status data own) s) : Inv P status s :=
  hr.invariant (start_inv P status data own) fun _ _ _ hs h => h.step hs

end Inv

section Refinement

variable {ι κ Op σ ρ α : Type*} {P : Calls κ Op σ ρ α} {status : ι → Word}
  {s s' t : State ι κ Op σ ρ α} {a a' : Atomic ι σ α} {c : ι} {x : Core Op σ ρ α}

-- A call has happened from the moment its core takes the lock.
structure Abs (P : Calls κ Op σ ρ α) (s : State ι κ Op σ ρ α) (a : Atomic ι σ α) : Prop where
  outside : (∀ c, (s.core c).lock? P = none) → a.data = s.data
  inside : ∀ c op saved job, (s.core c).phase = .inside op saved job → a.data = (job.run s.data).2
  own : ∀ c, a.own c = (s.core c).seen P s.data

theorem start_abs (P : Calls κ Op σ ρ α) (status : ι → Word) (data : σ) (own : ι → α) :
    Abs P (start status data own) ⟨data, own⟩ :=
  ⟨fun _ => rfl, fun _ _ _ _ hc => (by cases hc), fun _ => rfl⟩

theorem lock?_inside {op : Op} {saved : Word} {job : Job σ ρ} (h : x.phase = .inside op saved job) :
    x.lock? P = some (P.lockOf op) := by
  rw [Core.lock?, h]

theorem inside_of_lock? {l : κ} (h : x.lock? P = some l) :
    ∃ op saved job, x.phase = .inside op saved job ∧ P.lockOf op = l := by
  unfold Core.lock? at h
  cases hx : x.phase with
  | inside op saved job =>
      rw [hx] at h
      exact ⟨op, saved, job, rfl, Option.some.inj h⟩
  | idle | trying op saved | loaded op saved tmp | leaving op saved r =>
      rw [hx] at h
      cases h

-- Only a core that is inside looks at the data.
theorem seen_outside (h : x.lock? P = none) (d d' : σ) : x.seen P d = x.seen P d' := by
  unfold Core.seen
  cases hx : x.phase with
  | inside op saved job => cases (lock?_inside hx).symm.trans h
  | idle | trying op saved | loaded op saved tmp | leaving op saved r => rfl

variable [DecidableEq ι]

-- A step of a core that is not inside and leaves the data alone.
theorem Abs.quiet (h : Abs P s a) (hcore : s'.core = Function.update s.core c x)
    (hdata : s'.data = s.data) (hdata' : a'.data = a.data) (hold : (s.core c).lock? P = none)
    (hnew : x.lock? P = none) (hown : a'.own = Function.update a.own c (x.seen P s.data)) :
    Abs P s' a' := by
  have hother (d : ι) (hd : d ≠ c) : s'.core d = s.core d := by rw [hcore, Function.update_of_ne hd]
  have hself : s'.core c = x := by rw [hcore, Function.update_self]
  refine ⟨fun hnone => ?_, fun d op saved job hd => ?_, fun d => ?_⟩
  · rw [hdata, hdata']
    refine h.outside fun d => ?_
    by_cases hdc : d = c
    · rwa [hdc]
    · exact hother d hdc ▸ hnone d
  · have hdc : d ≠ c := by
      rintro rfl
      rw [hself] at hd
      cases (lock?_inside hd).symm.trans hnew
    rw [hother d hdc] at hd
    rw [hdata, hdata']
    exact h.inside d op saved job hd
  · rw [hdata]
    by_cases hdc : d = c
    · rw [hdc, hself, hown, Function.update_self]
    · rw [hother d hdc, hown, Function.update_of_ne hdc]
      exact h.own d

-- A step of a core while no other is inside.
theorem Abs.alone (h : Abs P s a) (hcore : s'.core = Function.update s.core c x)
    (hothers : ∀ d, d ≠ c → (s.core d).lock? P = none)
    (hin : ∀ op saved job, x.phase = .inside op saved job → a'.data = (job.run s'.data).2)
    (hout : x.lock? P = none → a'.data = s'.data)
    (hown : a'.own = Function.update a.own c (x.seen P s'.data)) : Abs P s' a' := by
  have hother (d : ι) (hd : d ≠ c) : s'.core d = s.core d := by rw [hcore, Function.update_of_ne hd]
  have hself : s'.core c = x := by rw [hcore, Function.update_self]
  refine ⟨fun hnone => hout (hself ▸ hnone c), fun d op saved job hd => ?_, fun d => ?_⟩
  · by_cases hdc : d = c
    · subst hdc
      exact hin op saved job (hself ▸ hd)
    · rw [hother d hdc] at hd
      cases (lock?_inside hd).symm.trans (hothers d hdc)
  · by_cases hdc : d = c
    · rw [hdc, hself, hown, Function.update_self]
    · rw [hother d hdc, hown, Function.update_of_ne hdc, h.own d]
      exact seen_outside (hothers d hdc) _ _

variable [DecidableEq κ]

omit [DecidableEq ι] [DecidableEq κ] in
theorem Inv.others_outside (hone : ∀ op op', P.lockOf op = P.lockOf op') (hi : Inv P status s) {d : ι}
    {op : Op} (hd : (s.core d).lock? P = some (P.lockOf op)) (d' : ι) (hd' : d' ≠ d) :
    (s.core d').lock? P = none := by
  rw [Option.eq_none_iff_forall_ne_some]
  intro l hl
  obtain ⟨op', -, -, -, rfl⟩ := inside_of_lock? hl
  exact hd' (hi.single d' d _ (hone op' op ▸ hl) hd)

omit [DecidableEq ι] [DecidableEq κ] in
theorem Inv.nobody_inside (hone : ∀ op op', P.lockOf op = P.lockOf op') (hi : Inv P status s)
    {op : Op} (hfree : s.word (P.lockOf op) = 0) (d : ι) : (s.core d).lock? P = none := by
  rw [Option.eq_none_iff_forall_ne_some]
  intro l hl
  obtain ⟨op', -, -, -, rfl⟩ := inside_of_lock? hl
  exact (hi.taken _).mpr ⟨d, hone op' op ▸ hl⟩ hfree

-- A step that takes the lock finds nobody inside, and its call has the answer it would have alone.
theorem Inv.locked_cases {e : ι × Action Op} {r : ρ} {op : Op}
    (hone : ∀ op op', P.lockOf op = P.lockOf op') (hi : Inv P status s) (hs : Step P s e t)
    (h : locked ⟨s, e, t⟩ = some (c, op, r)) :
    (∀ d, (s.core d).lock? P = none) ∧ P.may ((s.core c).seen P s.data) op ∧
      ((P.job op).run s.data).1 = r := by
  cases hs with
  | call _ _ | ldrex _ | retry _ _ | lose _ | access _ | release _ | restore _ | trade _ _ _ _ =>
      cases h
  | strexFail hcore _ =>
      simp only [locked, put_core_self] at h
      cases h
  | @strex c' op' st saved own hcore hmonitor =>
      simp only [locked_strex, Option.some.injEq, Prod.mk.injEq] at h
      obtain ⟨rfl, rfl, hr⟩ := h
      obtain ⟨-, -, hmay⟩ := hi.core_keeps hcore
      refine ⟨hi.nobody_inside hone (hi.watched _ _ _ _ (by rw [hcore]) hmonitor), ?_, hr⟩
      rwa [hcore]

-- At most one call happens in a step, and it is the one that the step takes the lock for.
theorem Abs.step {e : ι × Action Op} (hone : ∀ op op', P.lockOf op = P.lockOf op')
    (hi : Inv P status s) (h : Abs P s a) (hs : Step P s e t) :
    ∃ calls a', Run (Atomic.Step P) a calls a' ∧ Abs P t a' ∧
      calls.filterMap Atomic.called = (locked ⟨s, e, t⟩).toList := by
  have hquiet (hq : Abs P t a) (hnone : locked ⟨s, e, t⟩ = none) :
      ∃ calls a', Run (Atomic.Step P) a calls a' ∧ Abs P t a' ∧
        calls.filterMap Atomic.called = (locked ⟨s, e, t⟩).toList :=
    ⟨[], a, .nil, hq, by rw [hnone]; rfl⟩
  have hsame {d : ι} {x y : Core Op σ ρ α} (hd : s.core d = x) (hy : y.seen P s.data = x.seen P s.data) :
      a.own = Function.update a.own d (y.seen P s.data) := by
    refine (Function.update_eq_self_iff.mpr ?_).symm
    rw [hy, h.own d, hd]
  cases hs with
  | call hcore _ => exact hquiet (h.quiet rfl rfl rfl (lock?_eq hcore) rfl (hsame hcore rfl)) rfl
  | ldrex hcore | retry hcore _ | restore hcore =>
      exact hquiet (h.quiet rfl rfl rfl (lock?_eq hcore) rfl (hsame hcore rfl)) rfl
  | strexFail hcore _ =>
      refine hquiet (h.quiet rfl rfl rfl (lock?_eq hcore) rfl (hsame hcore rfl)) ?_
      simp only [locked, put_core_self]
  | lose c => exact hquiet ⟨h.outside, h.inside, h.own⟩ rfl
  | @strex c op st saved own hcore hmonitor =>
      have hfree : s.word (P.lockOf op) = 0 := hi.watched c op saved 0 (by rw [hcore]) hmonitor
      have hnone := hi.nobody_inside hone hfree
      have hdata := h.outside hnone
      have hown := h.own c
      obtain ⟨-, -, hmay⟩ := hi.core_keeps hcore
      rw [hcore] at hown
      refine ⟨_, _, .single (.call (show P.may (a.own c) op from hown.symm ▸ hmay)),
        h.alone rfl (fun d _ => hnone d) (fun op' saved' job hx => ?_) (fun hx => by cases hx) ?_, ?_⟩
      · cases hx
        rw [hdata]
        rfl
      · rw [hown, hdata]
        rfl
      · rw [locked_strex]
        exact congrArg (fun d => [(c, op, ((P.job op).run d).1)]) hdata
  | @access c op st saved own write next hcore =>
      have hphase : (s.core c).phase = .inside op saved (.access write next) := by rw [hcore]
      refine hquiet (h.alone rfl (hi.others_outside hone (lock?_inside hphase))
        (fun op' saved' job hx => ?_) (fun hx => by cases hx) (hsame hcore rfl)) rfl
      cases hx
      exact h.inside c op saved _ hphase
  | @release c op st saved own r hcore =>
      have hphase : (s.core c).phase = .inside op saved (.done r) := by rw [hcore]
      exact hquiet (h.alone rfl (hi.others_outside hone (lock?_inside hphase))
        (fun _ _ _ hx => by cases hx) (fun _ => h.inside c op saved _ hphase) (hsame hcore rfl)) rfl
  | @trade c d st st' own own' x y hcd hcore hcore' htrade =>
      have hown : a.own c = own := (h.own c).trans (by rw [hcore]; rfl)
      have hown' : a.own d = own' := (h.own d).trans (by rw [hcore']; rfl)
      have hc : Abs P (s.put c ⟨st, x, .idle⟩) ⟨a.data, Function.update a.own c x⟩ :=
        h.quiet rfl rfl rfl (lock?_eq hcore) rfl rfl
      have hd : (s.put c ⟨st, x, .idle⟩).core d = ⟨st', own', .idle⟩ :=
        (put_core_of_ne s hcd.symm _).trans hcore'
      exact ⟨_, _, .single (.trade hcd (hown.symm ▸ hown'.symm ▸ htrade)),
        hc.quiet rfl rfl rfl (lock?_eq hd) rfl rfl, rfl⟩

-- Where all calls use one lock, every interleaving is a run of whole calls: those that took the
-- lock, in that order.
theorem run_abs (hone : ∀ op op', P.lockOf op = P.lockOf op') {data : σ} {own : ι → α}
    {trace : List (Move (State ι κ Op σ ρ α) (ι × Action Op))}
    (hr : Run (Step P) (start status data own) trace s) :
    ∃ calls a, Run (Atomic.Step P) ⟨data, own⟩ calls a ∧ Abs P s a ∧
      calls.filterMap Atomic.called = trace.filterMap locked := by
  induction hr with
  | nil => exact ⟨[], _, .nil, start_abs P status data own, rfl⟩
  | snoc hrun hs ih =>
      obtain ⟨calls, a, ha, habs, hcalls⟩ := ih
      obtain ⟨calls', a', ha', habs', hcalls'⟩ := habs.step hone (reachable_inv ⟨_, hrun⟩) hs
      refine ⟨_, a', ha.append ha', habs', ?_⟩
      rw [List.filterMap_append, List.filterMap_append, hcalls, hcalls']
      rfl

end Refinement

section Answers

variable {ι κ Op σ ρ α : Type*} [DecidableEq ι] {P : Calls κ Op σ ρ α} {status : ι → Word}
  {s t : State ι κ Op σ ρ α} {c : ι} {x : Core Op σ ρ α}

theorem pending_outside (h : x.lock? P = none) (d d' : σ) : x.pending d = x.pending d' := by
  unfold Core.pending
  cases hx : x.phase with
  | inside op saved job => cases (lock?_inside hx).symm.trans h
  | idle | trying op saved | loaded op saved tmp | leaving op saved r => rfl

-- A step of core `c` that changes nothing the others are waiting for.
theorem pending_put {e : ι × Action Op} (hevent : e.1 = c) (hcore : t.core = s.core)
    (hothers : ∀ d, d ≠ c → (s.core d).pending s.data = (s.core d).pending t.data)
    (hself : (s.core c).pending s.data ++ callsOf c (locked ⟨s, e, t.put c x⟩).toList =
      callsOf c (returned ⟨s, e, t.put c x⟩).toList ++ x.pending t.data) (d : ι) :
    (s.core d).pending s.data ++ callsOf d (locked ⟨s, e, t.put c x⟩).toList =
      callsOf d (returned ⟨s, e, t.put c x⟩).toList ++
        ((t.put c x).core d).pending (t.put c x).data := by
  by_cases hdc : d = c
  · rw [hdc, put_core_self]
    exact hself
  · have hlocked : callsOf d (locked ⟨s, e, t.put c x⟩).toList = [] := by
      unfold locked
      split <;> simp [callsOf, hevent, Ne.symm hdc]
    have hreturned : callsOf d (returned ⟨s, e, t.put c x⟩).toList = [] := by
      unfold returned
      split <;> simp [callsOf, hevent, Ne.symm hdc]
    rw [hlocked, hreturned, put_core_of_ne t hdc, hcore, List.append_nil, List.nil_append]
    exact hothers d hdc

variable [DecidableEq κ]

-- A call that takes the lock is pending from then on, with one answer, until it comes back.
theorem Inv.pending {e : ι × Action Op} (hone : ∀ op op', P.lockOf op = P.lockOf op')
    (hi : Inv P status s) (hs : Step P s e t) (d : ι) :
    (s.core d).pending s.data ++ callsOf d (locked ⟨s, e, t⟩).toList =
      callsOf d (returned ⟨s, e, t⟩).toList ++ (t.core d).pending t.data := by
  cases hs with
  | call hcore _ | ldrex hcore | retry hcore _ | strexFail hcore _ | release hcore | restore hcore =>
      refine pending_put ?_ ?_ (fun _ _ => ?_) ?_ d
      · rfl
      · rfl
      · rfl
      · simp [callsOf, locked, returned, Core.pending, Job.run, hcore]
  | strex hcore _ =>
      refine pending_put ?_ ?_ (fun _ _ => ?_) ?_ d
      · rfl
      · rfl
      · rfl
      · rw [locked_strex]
        simp [callsOf, returned, Core.pending, hcore]
  | lose c => exact List.append_nil _
  | @access c op st saved own write next hcore =>
      have hphase : (s.core c).phase = .inside op saved (.access write next) := by rw [hcore]
      have houtside := hi.others_outside hone (lock?_inside hphase)
      refine pending_put ?_ ?_ (fun d hd => pending_outside (houtside d hd) _ _) ?_ d
      · rfl
      · rfl
      · simp [callsOf, locked, returned, Core.pending, Job.run, hcore]
  | @trade c c' st st' own own' x y hcd hcore hcore' _ =>
      have hidle : (s.core d).pending s.data =
          (((s.put c ⟨st, x, .idle⟩).put c' ⟨st', y, .idle⟩).core d).pending s.data := by
        by_cases hdc' : d = c'
        · rw [hdc', hcore', put_core_self]
          rfl
        by_cases hdc : d = c
        · rw [hdc, hcore, put_core_of_ne _ hcd, put_core_self]
          rfl
        · rw [put_core_of_ne _ hdc', put_core_of_ne _ hdc]
      exact (List.append_nil _).trans hidle

end Answers

section Progress

variable {ι κ Op σ ρ α : Type*} [DecidableEq ι] [DecidableEq κ] {P : Calls κ Op σ ρ α}
  {status : ι → Word} {s : State ι κ Op σ ρ α} {c : ι} {op : Op} {st saved tmp : Word} {own : α}

-- A core that is inside comes out, and the others stay where they are.
theorem comes_out (job : Job σ ρ) (hcore : s.core c = ⟨st, own, .inside op saved job⟩) :
    ∃ t, Reachable (Step P) s t ∧ t.core c = ⟨st, own, .leaving op saved (job.run s.data).1⟩ ∧
      t.data = (job.run s.data).2 ∧ t.word = Function.update s.word (P.lockOf op) 0 ∧
      ∀ d, d ≠ c → t.core d = s.core d := by
  induction job generalizing s with
  | done r =>
      exact ⟨_, .single (.release hcore), put_core_self _ _ _, rfl, rfl,
        fun d hd => put_core_of_ne _ hd _⟩
  | access write next ih =>
      let u := { s with data := write s.data }.put c ⟨st, own, .inside op saved (next s.data)⟩
      obtain ⟨t, hr, hc, hdata, hword, hothers⟩ := ih s.data (s := u) (put_core_self _ _ _)
      refine ⟨t, (Reachable.single (.access hcore)).trans hr, hc, hdata, hword, fun d hd => ?_⟩
      rw [hothers d hd]
      exact put_core_of_ne _ hd _

-- It comes all the way back.
theorem goes_through (job : Job σ ρ) (hcore : s.core c = ⟨st, own, .inside op saved job⟩) :
    ∃ t, Reachable (Step P) s t ∧ t.core c = ⟨saved, P.finish own op (job.run s.data).1, .idle⟩ ∧
      t.data = (job.run s.data).2 ∧ t.word = Function.update s.word (P.lockOf op) 0 ∧
      ∀ d, d ≠ c → t.core d = s.core d := by
  obtain ⟨t, hr, hc, hdata, hword, hothers⟩ := comes_out job hcore
  refine ⟨_, hr.trans (.single (.restore hc)), put_core_self _ _ _, hdata, hword, fun d hd => ?_⟩
  exact (put_core_of_ne _ hd _).trans (hothers d hd)

-- With the lock free it gets in.
theorem gets_in (hcore : s.core c = ⟨st, own, .trying op saved⟩) (hfree : s.word (P.lockOf op) = 0) :
    ∃ t, Reachable (Step P) s t ∧
      t.core c = ⟨saved, P.finish own op ((P.job op).run s.data).1, .idle⟩ ∧
      t.data = ((P.job op).run s.data).2 ∧ t.word = s.word ∧ ∀ d, d ≠ c → t.core d = s.core d := by
  let u := (s.watch c (some (P.lockOf op))).put c
    ⟨st, own, .loaded op saved (s.word (P.lockOf op))⟩
  let v := (u.store (P.lockOf op) 1).put c ⟨st, own, .inside op saved (P.job op)⟩
  have hu : u.core c = ⟨st, own, .loaded op saved 0⟩ := by rw [put_core_self, hfree]
  have hmonitor : u.monitor c = some (P.lockOf op) := Function.update_self c _ s.monitor
  obtain ⟨t, ht, hc, hdata, hword, hothers⟩ := goes_through (s := v) (P.job op) (put_core_self _ _ _)
  refine ⟨t, ((Reachable.single (.ldrex hcore)).trans (.single (.strex hu hmonitor))).trans ht, hc,
    hdata, ?_, fun d hd => ?_⟩
  · have hback : Function.update (Function.update s.word (P.lockOf op) 1) (P.lockOf op) 0 = s.word := by
      rw [Function.update_idem, ← hfree, Function.update_eq_self]
    exact hword.trans hback
  · have huv : v.core d = u.core d := put_core_of_ne _ hd _
    have hsu : u.core d = s.core d := put_core_of_ne _ hd _
    rw [hothers d hd, huv, hsu]

-- A core that nobody disturbs makes its call in one go.
theorem call_alone (hcore : s.core c = ⟨st, own, .idle⟩) (hmay : P.may own op)
    (hfree : s.word (P.lockOf op) = 0) :
    ∃ t, Reachable (Step P) s t ∧
      t.core c = ⟨st, P.finish own op ((P.job op).run s.data).1, .idle⟩ ∧
      t.data = ((P.job op).run s.data).2 ∧ t.word = s.word ∧ ∀ d, d ≠ c → t.core d = s.core d := by
  let u := s.put c ⟨P.mask st, own, .trying op st⟩
  obtain ⟨t, ht, hc, hdata, hword, hothers⟩ := gets_in (s := u) (put_core_self _ _ _) hfree
  refine ⟨t, (Reachable.single (.call hcore hmay)).trans ht, hc, hdata, hword, fun d hd => ?_⟩
  exact (hothers d hd).trans (put_core_of_ne _ hd _)

-- Of two cores that go for one lock the first one gets in, and the other one finds it taken.
theorem one_waits {d : ι} {op' : Op} {st' : Word} {own' : α} (hne : d ≠ c)
    (hcore : s.core c = ⟨st, own, .idle⟩) (hcore' : s.core d = ⟨st', own', .idle⟩)
    (hmay : P.may own op) (hmay' : P.may own' op') (hlock : P.lockOf op' = P.lockOf op)
    (hfree : s.word (P.lockOf op) = 0) :
    ∃ trace t, Run (Step P) s trace t ∧
      trace.filterMap locked = [(c, op, ((P.job op).run s.data).1)] ∧
      t.core c = ⟨P.mask st, own, .inside op st (P.job op)⟩ ∧
      t.core d = ⟨P.mask st', own', .loaded op' st' 1⟩ := by
  let u := s.put c ⟨P.mask st, own, .trying op st⟩
  let v := (u.watch c (some (P.lockOf op))).put c ⟨P.mask st, own, .loaded op st (s.word (P.lockOf op))⟩
  let w := (v.store (P.lockOf op) 1).put c ⟨P.mask st, own, .inside op st (P.job op)⟩
  let x := w.put d ⟨P.mask st', own', .trying op' st'⟩
  have hv : v.core c = ⟨P.mask st, own, .loaded op st 0⟩ := by rw [put_core_self, hfree]
  have hmonitor : v.monitor c = some (P.lockOf op) := Function.update_self c _ s.monitor
  have hw : w.core d = ⟨st', own', .idle⟩ := by
    rw [put_core_of_ne _ hne, ← hcore']
    exact (put_core_of_ne _ hne _).trans (put_core_of_ne _ hne _)
  have htaken : x.word (P.lockOf op') = 1 := by
    rw [hlock]
    exact Function.update_self _ _ v.word
  have hlocked : locked ⟨v, (c, Action.strex), w⟩ = some (c, op, ((P.job op).run s.data).1) :=
    locked_strex _ _ _ _ _ _ _ _
  have h₁ : Step P s (c, .call op) u := .call hcore hmay
  have h₂ : Step P u (c, .ldrex) v := .ldrex (put_core_self _ _ _)
  have h₃ : Step P v (c, .strex) w := .strex hv hmonitor
  have h₄ : Step P w (d, .call op') x := .call hw hmay'
  have h₅ : Step P x (d, .ldrex) _ := .ldrex (put_core_self w d _)
  refine ⟨_, _, (((((Run.nil.snoc h₁).snoc h₂).snoc h₃).snoc h₄).snoc h₅), ?_, ?_, ?_⟩
  · calc
      _ = [Move.mk v (c, Action.strex) w].filterMap locked := rfl
      _ = _ := by rw [List.filterMap_cons_some hlocked, List.filterMap_nil]
  · rw [put_core_of_ne _ hne.symm]
    exact (put_core_of_ne _ hne.symm _).trans (put_core_self _ _ _)
  · rw [put_core_self, htaken]

theorem trying_returns (h : Inv P status s) (hcore : s.core c = ⟨st, own, .trying op saved⟩) :
    ∃ t, Reachable (Step P) s t ∧ (t.core c).phase = .idle := by
  have hin {u : State ι κ Op σ ρ α} (hr : Reachable (Step P) s u)
      (hu : u.core c = ⟨st, own, .trying op saved⟩) (hfree : u.word (P.lockOf op) = 0) :
      ∃ t, Reachable (Step P) s t ∧ (t.core c).phase = .idle := by
    obtain ⟨t, ht, hc, -⟩ := gets_in hu hfree
    exact ⟨t, hr.trans ht, by rw [hc]⟩
  by_cases hfree : s.word (P.lockOf op) = 0
  · exact hin (.refl s) hcore hfree
  -- The core that holds the lock goes first.
  obtain ⟨d, hd⟩ := (h.taken _).mp hfree
  obtain ⟨op', saved', job, hphase, hl⟩ := inside_of_lock? hd
  have hdc : c ≠ d := by
    rintro rfl
    rw [hcore] at hphase
    cases hphase
  obtain ⟨t, hr, -, -, hword, hothers⟩ := comes_out job (core_eq hphase)
  refine hin hr ((hothers c hdc).trans hcore) ?_
  rw [hword, hl, Function.update_self]

-- It tries again, or it gets in at once.
theorem loaded_returns (h : Inv P status s) (hcore : s.core c = ⟨st, own, .loaded op saved tmp⟩) :
    ∃ t, Reachable (Step P) s t ∧ (t.core c).phase = .idle := by
  have hagain {e : ι × Action Op} {u : State ι κ Op σ ρ α} (hs : Step P s e u)
      (hu : u.core c = ⟨st, own, .trying op saved⟩) :
      ∃ t, Reachable (Step P) s t ∧ (t.core c).phase = .idle := by
    obtain ⟨t, ht, hidle⟩ := trying_returns (h.step hs) hu
    exact ⟨t, (Reachable.single hs).trans ht, hidle⟩
  by_cases htmp : tmp = 0
  · subst htmp
    by_cases hmonitor : s.monitor c = some (P.lockOf op)
    · obtain ⟨t, ht, hc, -⟩ := goes_through (P.job op) (put_core_self (s.store (P.lockOf op) 1) c
        ⟨st, own, .inside op saved (P.job op)⟩)
      exact ⟨t, (Reachable.single (.strex hcore hmonitor)).trans ht, by rw [hc]⟩
    · exact hagain (.strexFail hcore hmonitor) (put_core_self _ _ _)
  · exact hagain (.retry hcore htmp) (put_core_self _ _ _)

-- No call is ever stuck.
theorem calls_return (h : Inv P status s) (c : ι) :
    ∃ t, Reachable (Step P) s t ∧ (t.core c).phase = .idle := by
  cases hphase : (s.core c).phase with
  | idle => exact ⟨s, .refl s, hphase⟩
  | trying op saved => exact trying_returns h (core_eq hphase)
  | loaded op saved tmp => exact loaded_returns h (core_eq hphase)
  | inside op saved job =>
      obtain ⟨t, ht, hc, -⟩ := goes_through job (core_eq hphase)
      exact ⟨t, ht, by rw [hc]⟩
  | leaving op saved r => exact ⟨_, .single (.restore (core_eq hphase)), by rw [put_core_self]⟩

end Progress

end Critical
