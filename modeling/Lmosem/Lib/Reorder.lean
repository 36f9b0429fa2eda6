import Mathlib.Data.List.Basic

-- Steps of a labelled transition system that may be taken in another order.
namespace Transition

variable {σ ε : Type*}

-- The steps `es` lead from `s` to `u`.
def Follows (step : σ → ε → σ → Prop) : List ε → σ → σ → Prop
  | [], s, u => u = s
  | e :: es, s, u => ∃ t, step s e t ∧ Follows step es t u

variable {step : σ → ε → σ → Prop}

section Commuting

variable {I : σ → Prop} {r : σ → σ → Prop}
  (hrefl : ∀ s, r s s)
  (htrans : ∀ s t u, r s t → r t u → r s u)
  (hI : ∀ s e t, I s → step s e t → I t)
  (hresp : ∀ s s' e t, I s → I s' → r s s' → step s e t → ∃ t', step s' e t' ∧ r t t')
  (hswap : ∀ s e f t u, I s → step s e t → step t f u →
    ∃ t' u', step s f t' ∧ step t' e u' ∧ r u u')

include hI hresp in
-- States that look the same allow the same steps.
theorem Follows.respects {es : List ε} {s s' u : σ} (hs : I s) (hs' : I s') (hr : r s s')
    (h : Follows step es s u) : ∃ u', Follows step es s' u' ∧ r u u' := by
  induction es generalizing s s' with
  | nil => exact ⟨s', rfl, h ▸ hr⟩
  | cons e es ih =>
      obtain ⟨t, ht, h⟩ := h
      obtain ⟨t', ht', hrt⟩ := hresp s s' e t hs hs' hr ht
      obtain ⟨u', hu', hru⟩ := ih (hI s e t hs ht) (hI s' e t' hs' ht') hrt h
      exact ⟨u', ⟨t', ht', hu'⟩, hru⟩

include hrefl htrans hI hresp hswap in
-- When two neighbouring steps can be swapped, so can any steps of a run.
theorem Follows.perm {es es' : List ε} (hp : es.Perm es') {s u : σ} (hs : I s)
    (h : Follows step es s u) : ∃ u', Follows step es' s u' ∧ r u u' := by
  induction hp generalizing s u with
  | nil => exact ⟨u, h, hrefl u⟩
  | cons e _ ih =>
      obtain ⟨t, ht, h⟩ := h
      obtain ⟨u', hu', hru⟩ := ih (hI s e t hs ht) h
      exact ⟨u', ⟨t, ht, hu'⟩, hru⟩
  | swap e f es =>
      obtain ⟨t, ht, v, hv, h⟩ := h
      obtain ⟨t', v', ht', hv', hrv⟩ := hswap s f e t v hs ht hv
      have hIv : I v := hI t e v (hI s f t hs ht) hv
      have hIv' : I v' := hI t' f v' (hI s e t' hs ht') hv'
      obtain ⟨u', hu', hru⟩ := Follows.respects hI hresp hIv hIv' hrv h
      exact ⟨u', ⟨t', ht', v', hv', hu'⟩, hru⟩
  | trans _ _ ih₁ ih₂ =>
      obtain ⟨v, hv, hrv⟩ := ih₁ hs h
      obtain ⟨w, hw, hrw⟩ := ih₂ hs hv
      exact ⟨w, hw, htrans u v w hrv hrw⟩

end Commuting

end Transition
