import Mathlib.Tactic.TypeStar

namespace KevOS.Lib.Execution

variable {σ ε : Type*} {step : σ → ε → Option σ} {p q : List (σ × ε) × σ} {es : List ε}

/-- The steps of an order of events, with what happened in which state, the last one first. -/
def perform (step : σ → ε → Option σ) (p : List (σ × ε) × σ) (es : List ε) :
    Option (List (σ × ε) × σ) :=
  es.foldlM (fun p e ↦ (step p.2 e).map fun s ↦ ((p.2, e) :: p.1, s)) p

theorem perform_cons {e : ε} (h : perform step p (e :: es) = some q) : ∃ s,
    step p.2 e = some s ∧ perform step ((p.2, e) :: p.1, s) es = some q := by
  simp only [perform, List.foldlM_cons, Option.bind_eq_bind, Option.bind_eq_some_iff,
    Option.map_eq_some_iff] at h
  obtain ⟨_, ⟨s, hs, rfl⟩, h⟩ := h
  exact ⟨s, hs, h⟩

/-- What every step preserves holds at the end. -/
theorem perform_inv {P : List (σ × ε) → σ → Prop}
    (hstep : ∀ {h s s' e}, P h s → step s e = some s' → P ((s, e) :: h) s')
    (hp : P p.1 p.2) (h : perform step p es = some q) : P q.1 q.2 := by
  induction es generalizing p with
  | nil =>
    cases h
    exact hp
  | cons e es ih =>
    obtain ⟨s, hs, h⟩ := perform_cons h
    exact ih (hstep hp hs) h

theorem perform_events (h : perform step p es = some q) :
    q.1.map Prod.snd = es.reverse ++ p.1.map Prod.snd := by
  induction es generalizing p with
  | nil =>
    cases h
    rfl
  | cons e es ih =>
    obtain ⟨s, -, h⟩ := perform_cons h
    rw [ih h, List.map_cons, List.reverse_cons, List.append_assoc, List.singleton_append]

end KevOS.Lib.Execution
