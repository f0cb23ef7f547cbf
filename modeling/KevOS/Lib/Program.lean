import Mathlib.Logic.Function.Basic
import Mathlib.Data.Nat.Notation

namespace KevOS.Lib.Program

/-- The ways in which a program never comes back to its caller. `fuel` is the
model's own bound on a loop, the other two are behaviours of the machine. -/
inductive Stop
  | fault
  | halt
  | fuel
  deriving DecidableEq, Repr

/-- A program over a state. The state it had reached stays visible when it stops. -/
abbrev Prog (σ α : Type) := EStateM Stop σ α

variable {σ τ ρ α β : Type}

theorem run_bind_ok {x : Prog σ α} {f : α → Prog σ β} {s s' : σ} {a : α}
    (h : x.run s = .ok a s') : (x >>= f).run s = (f a).run s' := by
  rw [EStateM.run_bind, h]

theorem run_bind_error {x : Prog σ α} {f : α → Prog σ β} {s s' : σ} {e : Stop}
    (h : x.run s = .error e s') : (x >>= f).run s = .error e s' := by
  rw [EStateM.run_bind, h]

theorem run_get_bind {k : σ → Prog σ β} {s : σ} : (get >>= k).run s = (k s).run s := rfl

theorem run_modify_bind {g : σ → σ} {k : Unit → Prog σ β} {s : σ} :
    (modify g >>= k).run s = (k ()).run (g s) := rfl

theorem bind_eq_ok {x : Prog σ α} {f : α → Prog σ β} {s s'' : σ} {b : β} :
    (x >>= f).run s = .ok b s'' ↔ ∃ a s', x.run s = .ok a s' ∧ (f a).run s' = .ok b s'' := by
  rw [EStateM.run_bind]
  cases h : x.run s with
  | ok a s' =>
    refine ⟨fun hf ↦ ⟨a, s', rfl, hf⟩, ?_⟩
    rintro ⟨_, _, ⟨⟩, hf⟩
    exact hf
  | error e s' => simp

theorem bind_eq_error {x : Prog σ α} {f : α → Prog σ β} {s s'' : σ} {e : Stop} :
    (x >>= f).run s = .error e s'' ↔ x.run s = .error e s'' ∨
      ∃ a s', x.run s = .ok a s' ∧ (f a).run s' = .error e s'' := by
  rw [EStateM.run_bind]
  cases h : x.run s with
  | ok a s' =>
    refine ⟨fun hf ↦ .inr ⟨a, s', rfl, hf⟩, ?_⟩
    rintro (h | ⟨_, _, ⟨⟩, hf⟩)
    · cases h
    · exact hf
  | error e s' => simp

/-- Run a program on one component of a larger state. -/
def zoom (get : τ → σ) (put : τ → σ → τ) (x : Prog σ α) : Prog τ α := fun t ↦
  match x.run (get t) with
  | .ok a s => .ok a (put t s)
  | .error e s => .error e (put t s)

theorem zoom_ok {get : τ → σ} {put : τ → σ → τ} {x : Prog σ α} {t : τ} {a : α} {s : σ}
    (h : x.run (get t) = .ok a s) : (zoom get put x).run t = .ok a (put t s) := by
  simp only [zoom, EStateM.run] at h ⊢
  rw [h]

theorem zoom_error {get : τ → σ} {put : τ → σ → τ} {x : Prog σ α} {t : τ} {e : Stop} {s : σ}
    (h : x.run (get t) = .error e s) : (zoom get put x).run t = .error e (put t s) := by
  simp only [zoom, EStateM.run] at h ⊢
  rw [h]

theorem zoom_eq_ok {get : τ → σ} {put : τ → σ → τ} {x : Prog σ α} {t t' : τ} {a : α}
    (h : (zoom get put x).run t = .ok a t') : ∃ s, x.run (get t) = .ok a s ∧ t' = put t s := by
  cases hx : x.run (get t) with
  | ok b s =>
    rw [zoom_ok hx] at h
    cases h
    exact ⟨s, rfl, rfl⟩
  | error e s => rw [zoom_error hx] at h; cases h

theorem zoom_eq_error {get : τ → σ} {put : τ → σ → τ} {x : Prog σ α} {t t' : τ} {e : Stop}
    (h : (zoom get put x).run t = .error e t') :
    ∃ s, x.run (get t) = .error e s ∧ t' = put t s := by
  cases hx : x.run (get t) with
  | ok b s => rw [zoom_ok hx] at h; cases h
  | error e s =>
    rw [zoom_error hx] at h
    cases h
    exact ⟨s, rfl, rfl⟩

/-- Zooming in on a component commutes with sequencing. -/
theorem zoom_bind {get : τ → σ} {put : τ → σ → τ} (hget : ∀ t s, get (put t s) = s)
    (hput : ∀ t s s', put (put t s) s' = put t s') (x : Prog σ α) (f : α → Prog σ β) :
    zoom get put (x >>= f) = zoom get put x >>= fun a ↦ zoom get put (f a) := by
  funext t
  change (zoom get put (x >>= f)).run t = (zoom get put x >>= fun a ↦ zoom get put (f a)).run t
  cases hx : x.run (get t) with
  | ok a s =>
    rw [run_bind_ok (zoom_ok hx)]
    cases hf : (f a).run s with
    | ok b s' =>
      have hin : (f a).run (get (put t s)) = .ok b s' := by rwa [hget]
      rw [zoom_ok ((run_bind_ok hx).trans hf), zoom_ok hin, hput]
    | error e s' =>
      have hin : (f a).run (get (put t s)) = .error e s' := by rwa [hget]
      rw [zoom_error ((run_bind_ok hx).trans hf), zoom_error hin, hput]
  | error e s => rw [run_bind_error (zoom_error hx), zoom_error (run_bind_error hx)]

/-- Total correctness with a known result: from every state in `P` the program
comes back with `r`, in a state of `Q`. -/
def Returns (P : σ → Prop) (x : Prog σ α) (r : α) (Q : σ → Prop) : Prop :=
  ∀ s, P s → ∃ s', x.run s = .ok r s' ∧ Q s'

section Rules

variable {P Q R : σ → Prop} {x : Prog σ α} {f : α → Prog σ β} {r : α} {b : β}

theorem Returns.pure (r : α) : Returns P (pure r) r P := fun s hs ↦ ⟨s, rfl, hs⟩

theorem Returns.bind (hx : Returns P x r Q) (hf : Returns Q (f r) b R) :
    Returns P (x >>= f) b R := by
  intro s hs
  obtain ⟨s', hr, hq⟩ := hx s hs
  obtain ⟨s'', hr', hq'⟩ := hf s' hq
  exact ⟨s'', by rw [run_bind_ok hr, hr'], hq'⟩

theorem Returns.seq {x : Prog σ Unit} {k : Prog σ β} (hx : Returns P x () Q)
    (hk : Returns Q k b R) : Returns P (do x; k) b R := hx.bind hk

theorem Returns.ite_pos {c : Prop} [Decidable c] {y : Prog σ α} (hc : c) (h : Returns P x r Q) :
    Returns P (if c then x else y) r Q := by rwa [if_pos hc]

theorem Returns.ite_neg {c : Prop} [Decidable c] {y : Prog σ α} (hc : ¬ c) (h : Returns P y r Q) :
    Returns P (if c then x else y) r Q := by rwa [if_neg hc]

theorem Returns.modify {g : σ → σ} (h : ∀ s, P s → Q (g s)) :
    Returns P (modify g : Prog σ Unit) () Q := fun s hs ↦ ⟨g s, rfl, h s hs⟩

/-- What the program reads from the state, it may use through the precondition. -/
theorem Returns.get {k : σ → Prog σ β} (h : ∀ t, P t → Returns P (k t) b Q) :
    Returns P (get >>= k) b Q := fun s hs ↦ h s hs s hs

/-- A run that came back is the one the triple speaks of. -/
theorem Returns.eq_of_run {s s' : σ} {a : α} (h : Returns P x r Q) (hs : P s)
    (hr : x.run s = .ok a s') : a = r ∧ Q s' := by
  obtain ⟨t, ht, hq⟩ := h s hs
  rw [ht] at hr
  cases hr
  exact ⟨rfl, hq⟩

/-- From every state in `P` the program stops with `e`, in a state of `Q`. -/
def Stops (P : σ → Prop) (x : Prog σ α) (e : Stop) (Q : σ → Prop) : Prop :=
  ∀ s, P s → ∃ s', x.run s = .error e s' ∧ Q s'

theorem Stops.throw (e : Stop) : Stops P (throw e : Prog σ α) e P := fun s hs ↦ ⟨s, rfl, hs⟩

theorem Returns.stops {x : Prog σ Unit} {k : Prog σ β} {e : Stop} (hx : Returns P x () Q) (hk : Stops Q k e R) :
    Stops P (do x; k) e R := by
  intro s hs
  obtain ⟨s', hr, hq⟩ := hx s hs
  obtain ⟨s'', hr', hq'⟩ := hk s' hq
  exact ⟨s'', (run_bind_ok hr).trans hr', hq'⟩

end Rules

/-- Whether the program comes back or stops, its last state is related to its first one. -/
structure Always (R : σ → σ → Prop) (x : Prog σ α) : Prop where
  ok : ∀ s a s', x.run s = .ok a s' → R s s'
  error : ∀ s e s', x.run s = .error e s' → R s s'

section Always

variable {R S : σ → σ → Prop} {x : Prog σ α} {f : α → Prog σ β}

theorem Always.pure (hR : ∀ s, R s s) (a : α) : Always R (pure a : Prog σ α) := by
  refine ⟨fun s b s' h ↦ ?_, fun s e s' h ↦ ?_⟩
  · cases h
    exact hR s
  · cases h

theorem Always.throw (hR : ∀ s, R s s) (e : Stop) : Always R (throw e : Prog σ α) := by
  refine ⟨fun s b s' h ↦ ?_, fun s e s' h ↦ ?_⟩
  · cases h
  · cases h
    exact hR s

theorem Always.bind (hx : Always R x) (hf : ∀ a, Always S (f a))
    (hRS : ∀ s s' s'', R s s' → S s' s'' → R s s'') : Always R (x >>= f) := by
  refine ⟨fun s b s'' h ↦ ?_, fun s e s'' h ↦ ?_⟩
  · obtain ⟨a, s', hr, hr'⟩ := bind_eq_ok.mp h
    exact hRS s s' s'' (hx.ok s a s' hr) ((hf a).ok s' b s'' hr')
  · obtain hr | ⟨a, s', hr, hr'⟩ := bind_eq_error.mp h
    · exact hx.error s e s'' hr
    · exact hRS s s' s'' (hx.ok s a s' hr) ((hf a).error s' e s'' hr')

theorem Always.mono (hx : Always R x) (hRS : ∀ s s', R s s' → S s s') : Always S x :=
  ⟨fun s a s' h ↦ hRS s s' (hx.ok s a s' h), fun s e s' h ↦ hRS s s' (hx.error s e s' h)⟩

theorem Always.ite {c : Prop} [Decidable c] {y : Prog σ α} (hx : Always R x) (hy : Always R y) :
    Always R (if c then x else y) := by
  by_cases hc : c
  · rwa [if_pos hc]
  · rwa [if_neg hc]

end Always

end KevOS.Lib.Program
