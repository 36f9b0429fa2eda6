import Mathlib.Data.List.Basic

-- Runs of a labelled transition system, with everything that happened in them.
namespace Transition

structure Move (σ ε : Type*) where
  before : σ
  event : ε
  after : σ

variable {σ ε κ : Type*}

inductive Run (step : σ → ε → σ → Prop) (s : σ) : List (Move σ ε) → σ → Prop
  | nil : Run step s [] s
  | snoc {trace : List (Move σ ε)} {t u : σ} {e : ε} (hrun : Run step s trace t) (hstep : step t e u) :
      Run step s (trace ++ [⟨t, e, u⟩]) u

def Reachable (step : σ → ε → σ → Prop) (s u : σ) : Prop := ∃ trace, Run step s trace u

-- The states a run passes through, its first and its last one included.
def states (s : σ) (trace : List (Move σ ε)) : List σ := s :: trace.map Move.after

variable {step : σ → ε → σ → Prop} {s u : σ} {trace : List (Move σ ε)}

-- What every step of this run keeps holds all along it.
theorem Run.keeps {I : σ → Prop} (h : Run step s trace u) (h0 : I s)
    (hstep : ∀ m ∈ trace, step m.before m.event m.after → I m.before → I m.after) :
    I u ∧ ∀ m ∈ trace, step m.before m.event m.after ∧ I m.before ∧ I m.after := by
  induction h with
  | nil => exact ⟨h0, by simp⟩
  | @snoc trace t u e hrun ht ih =>
      obtain ⟨hI, hall⟩ := ih fun m hm => hstep m (List.mem_append_left _ hm)
      have hu : I u := hstep ⟨t, e, u⟩ (by simp) ht hI
      refine ⟨hu, fun m hm => ?_⟩
      rcases List.mem_append.mp hm with hm | hm
      · exact hall m hm
      · obtain rfl := List.mem_singleton.mp hm
        exact ⟨ht, hI, hu⟩

theorem Run.forall_states {I : σ → Prop} (h : Run step s trace u) (h0 : I s)
    (hstep : ∀ m ∈ trace, step m.before m.event m.after → I m.before → I m.after) :
    ∀ x ∈ states s trace, I x := by
  intro x hx
  rcases List.mem_cons.mp hx with rfl | hx
  · exact h0
  · obtain ⟨m, hm, rfl⟩ := List.mem_map.mp hx
    exact ((h.keeps h0 hstep).2 m hm).2.2

theorem Run.invariant {I : σ → Prop} (h : Run step s trace u) (h0 : I s)
    (hstep : ∀ t e v, step t e v → I t → I v) : I u :=
  (h.keeps h0 fun _ _ => hstep _ _ _).1

theorem Reachable.invariant {I : σ → Prop} (h : Reachable step s u) (h0 : I s)
    (hstep : ∀ t e v, step t e v → I t → I v) : I u := by
  obtain ⟨trace, hrun⟩ := h
  exact hrun.invariant h0 hstep

-- Two properties of moves that agree wherever `I` holds agree on the whole of a
-- run, when the moves with the second one keep `I`.
theorem Run.forall_iff {I : σ → Prop} {P Q : Move σ ε → Prop} (h : Run step s trace u) (h0 : I s)
    (hiff : ∀ m, step m.before m.event m.after → I m.before → (P m ↔ Q m))
    (hkeep : ∀ m, step m.before m.event m.after → I m.before → Q m → I m.after) :
    ((∀ m ∈ trace, P m) ↔ ∀ m ∈ trace, Q m) ∧ ((∀ m ∈ trace, Q m) → I u) := by
  induction h with
  | nil => exact ⟨by simp, fun _ => h0⟩
  | @snoc trace t u e hrun ht ih =>
      obtain ⟨hall, hI⟩ := ih
      simp only [List.forall_mem_append, List.forall_mem_singleton]
      refine ⟨?_, fun hQ => hkeep ⟨t, e, u⟩ ht (hI hQ.1) hQ.2⟩
      constructor
      · intro hP
        have hQ := hall.mp hP.1
        exact ⟨hQ, (hiff ⟨t, e, u⟩ ht (hI hQ)).mp hP.2⟩
      · intro hQ
        exact ⟨hall.mpr hQ.1, (hiff ⟨t, e, u⟩ ht (hI hQ.1)).mpr hQ.2⟩

theorem Run.mono {step' : σ → ε → σ → Prop} (hstep : ∀ s e t, step s e t → step' s e t)
    (h : Run step s trace u) : Run step' s trace u := by
  induction h with
  | nil => exact .nil
  | snoc _ ht ih => exact .snoc ih (hstep _ _ _ ht)

-- A run in two parts.
theorem Run.cons {t : σ} {e : ε} (ht : step s e t) (h : Run step t trace u) :
    Run step s (⟨s, e, t⟩ :: trace) u := by
  induction h with
  | nil => exact .snoc .nil ht
  | snoc _ hv ih => exact .snoc ih hv

theorem Reachable.refl (s : σ) : Reachable step s s := ⟨[], .nil⟩

theorem Run.append {t : σ} {trace' : List (Move σ ε)} (h : Run step s trace t)
    (h' : Run step t trace' u) : Run step s (trace ++ trace') u := by
  induction h' with
  | nil => rwa [List.append_nil]
  | snoc _ hv ih =>
      rw [← List.append_assoc]
      exact .snoc ih hv

theorem Reachable.trans {t : σ} (h : Reachable step s t) (h' : Reachable step t u) :
    Reachable step s u := by
  obtain ⟨trace, hr⟩ := h
  obtain ⟨trace', hr'⟩ := h'
  exact ⟨_, hr.append hr'⟩

theorem Run.single {e : ε} (h : step s e u) : Run step s [⟨s, e, u⟩] u := .snoc .nil h

theorem Reachable.single {e : ε} (h : step s e u) : Reachable step s u := ⟨_, .single h⟩

-- The moves of a run are steps from states that it reaches.
theorem Run.moves (h : Run step s trace u) :
    ∀ m ∈ trace, Reachable step s m.before ∧ step m.before m.event m.after := by
  intro m hm
  obtain ⟨-, hall⟩ := h.keeps (I := Reachable step s) (.refl s)
    fun m _ hstep hreach => hreach.trans (.single hstep)
  obtain ⟨hstep, hreach, -⟩ := hall m hm
  exact ⟨hreach, hstep⟩

-- Running a list of calls with an executable step.
def drive (next : κ → σ → Option (ε × σ)) : List κ → σ → Option (List (Move σ ε) × σ)
  | [], s => some ([], s)
  | call :: calls, s => do
      let (e, t) ← next call s
      let (trace, u) ← drive next calls t
      some (⟨s, e, t⟩ :: trace, u)

theorem run_of_drive {next : κ → σ → Option (ε × σ)}
    (hnext : ∀ call s e t, next call s = some (e, t) → step s e t) (calls : List κ) {s u : σ}
    {trace : List (Move σ ε)} (h : drive next calls s = some (trace, u)) : Run step s trace u := by
  induction calls generalizing s trace with
  | nil =>
      simp only [drive, Option.some.injEq, Prod.mk.injEq] at h
      obtain ⟨rfl, rfl⟩ := h
      exact .nil
  | cons call calls ih =>
      simp only [drive, Option.bind_eq_bind, Option.bind_eq_some_iff, Option.some.injEq,
        Prod.mk.injEq] at h
      obtain ⟨⟨e, t⟩, hcall, ⟨trace', v⟩, hrest, rfl, rfl⟩ := h
      exact .cons (hnext call s e t hcall) (ih hrest)

end Transition
