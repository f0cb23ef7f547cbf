import KevOS.Lib.Program

namespace KevOS.Lib.Noninterference

open Program

/-- What a program looks up, the addresses it has looked at, and what it has put out. -/
structure Traced (ε ω : Type) where
  env : ε
  reads : List ℕ
  output : List ω

variable {ε ω σ α β : Type}

/-- The state in which a program came back or stopped. -/
def final : EStateM.Result Stop σ α → σ
  | .ok _ s => s
  | .error _ s => s

def mapState (g : σ → σ) : EStateM.Result Stop σ α → EStateM.Result Stop σ α
  | .ok r s => .ok r (g s)
  | .error e s => .error e (g s)

def Traced.over (s : Traced ε ω) (e : ε) : Traced ε ω := { s with env := e }

def put (w : ω) : Prog (Traced ε ω) Unit := fun s ↦ .ok () { s with output := s.output ++ [w] }

/-- An address counts as read even where there is nothing. -/
def look (f : ε → ℕ → Option α) (a : ℕ) : Prog (Traced ε ω) α := fun s ↦
  match f s.env a with
  | some x => .ok x { s with reads := s.reads ++ [a] }
  | none => .error .fault { s with reads := s.reads ++ [a] }

/-- As long as a program looks only at what is visible, it cannot tell apart environments
that agree. -/
structure Blind (visible : ε → ℕ → Prop) (agree : ε → ε → Prop) (x : Prog (Traced ε ω) α) :
    Prop where
  env : ∀ s, (final (x.run s)).env = s.env
  reads : ∀ s, s.reads ⊆ (final (x.run s)).reads
  same : ∀ s e, agree s.env e → (∀ a ∈ (final (x.run s)).reads, visible s.env a) →
    x.run (s.over e) = mapState (fun s ↦ s.over e) (x.run s)

section Rules

variable {visible : ε → ℕ → Prop} {agree : ε → ε → Prop} {x : Prog (Traced ε ω) α}
  {k : α → Prog (Traced ε ω) β}

theorem Blind.pure (r : α) : Blind (ω := ω) visible agree (pure r) :=
  ⟨fun _ ↦ rfl, fun _ ↦ List.Subset.refl _, fun _ _ _ _ ↦ rfl⟩

theorem Blind.throw (e : Stop) : Blind (ω := ω) (α := α) visible agree (throw e) :=
  ⟨fun _ ↦ rfl, fun _ ↦ List.Subset.refl _, fun _ _ _ _ ↦ rfl⟩

theorem Blind.put (w : ω) : Blind visible agree (put w) :=
  ⟨fun _ ↦ rfl, fun _ ↦ List.Subset.refl _, fun _ _ _ _ ↦ rfl⟩

theorem final_look (f : ε → ℕ → Option α) (a : ℕ) (s : Traced ε ω) :
    final ((look f a).run s) = { s with reads := s.reads ++ [a] } := by
  unfold look EStateM.run
  cases h : f s.env a <;> simp only [h] <;> rfl

theorem run_look_ok {f : ε → ℕ → Option α} {a : ℕ} {y : α} {s : Traced ε ω} (h : f s.env a = some y) :
    (look f a).run s = .ok y { s with reads := s.reads ++ [a] } := by
  unfold look EStateM.run
  simp only [h]

theorem Blind.look {f : ε → ℕ → Option α} {a : ℕ}
    (h : ∀ e e', agree e e' → visible e a → f e' a = f e a) :
    Blind (ω := ω) visible agree (look f a) where
  env s := by rw [final_look]
  reads s := by
    rw [final_look]
    exact List.subset_append_left _ _
  same s e he hv := by
    rw [final_look] at hv
    have hf : f e a = f s.env a := h _ _ he (hv a (by simp))
    unfold Noninterference.look EStateM.run
    cases hx : f s.env a <;> simp only [Traced.over, hf, hx] <;> rfl

/-- A program that goes on with what `x` has returned, or that stops with `x`. -/
theorem run_bind_cases (x : Prog σ α) (k : α → Prog σ β) (s : σ) :
    (∃ r s', x.run s = .ok r s' ∧ (x >>= k).run s = (k r).run s') ∨
      ∃ e s', x.run s = .error e s' ∧ (x >>= k).run s = .error e s' := by
  cases h : x.run s with
  | ok r s' => exact .inl ⟨r, s', rfl, run_bind_ok h⟩
  | error e s' => exact .inr ⟨e, s', rfl, run_bind_error h⟩

/-- What `x` has looked at is among what the whole program looks at. -/
theorem reads_subset_bind (hk : ∀ r, Blind visible agree (k r)) (s : Traced ε ω) :
    (final (x.run s)).reads ⊆ (final ((x >>= k).run s)).reads := by
  rcases run_bind_cases x k s with ⟨r, s', h, hrun⟩ | ⟨e, s', h, hrun⟩ <;> rw [h, hrun]
  · exact (hk r).reads s'
  · exact List.Subset.refl _

theorem Blind.bind (hx : Blind visible agree x) (hk : ∀ r, Blind visible agree (k r)) :
    Blind visible agree (x >>= k) := by
  refine ⟨fun s ↦ ?_, fun s ↦ List.Subset.trans (hx.reads s) (reads_subset_bind hk s), fun s e he hv ↦ ?_⟩
  · have henv := hx.env s
    rcases run_bind_cases x k s with ⟨r, s', h, hrun⟩ | ⟨e, s', h, hrun⟩ <;> rw [h] at henv <;>
      rw [hrun]
    · exact ((hk r).env s').trans henv
    · exact henv
  · have henv := hx.env s
    have hsame := hx.same s e he fun a ha ↦ hv a (reads_subset_bind hk s ha)
    rcases run_bind_cases x k s with ⟨r, s', h, hrun⟩ | ⟨e', s', h, hrun⟩ <;>
      rw [h] at henv hsame <;> rw [hrun] at hv ⊢
    · have hs' : s'.env = s.env := henv
      rw [run_bind_ok hsame]
      apply (hk r).same s' e
      · rwa [hs']
      · intro a ha
        rw [hs']
        exact hv a ha
    · exact run_bind_error hsame

end Rules

/-- Over `e` the program looks only at what is visible and finds something there. What it
returns is in `Q`. -/
def Stays (visible : ε → ℕ → Prop) (e : ε) (x : Prog (Traced ε ω) α) (Q : α → Prop) : Prop :=
  ∀ s, s.env = e → (∀ a ∈ s.reads, visible e a) →
    match x.run s with
    | .ok r s' => s'.env = e ∧ (∀ a ∈ s'.reads, visible e a) ∧ Q r
    | .error stop s' => stop ≠ .fault ∧ ∀ a ∈ s'.reads, visible e a

section StaysRules

variable {visible : ε → ℕ → Prop} {e : ε} {x : Prog (Traced ε ω) α} {k : α → Prog (Traced ε ω) β}
  {P : α → Prop} {Q : β → Prop}

theorem Stays.pure {r : β} (h : Q r) : Stays (ω := ω) visible e (pure r) Q :=
  fun _ hs hv ↦ ⟨hs, hv, h⟩

theorem Stays.throw {stop : Stop} (h : stop ≠ .fault) :
    Stays (ω := ω) visible e (throw stop) Q := fun _ _ hv ↦ ⟨h, hv⟩

theorem Stays.put (w : ω) : Stays visible e (put w) (fun _ ↦ True) :=
  fun _ hs hv ↦ ⟨hs, hv, trivial⟩

theorem Stays.look {f : ε → ℕ → Option β} {a : ℕ} {y : β} (hv : visible e a) (hf : f e a = some y)
    (hQ : Q y) : Stays (ω := ω) visible e (look f a) Q := by
  intro s hs hs'
  rw [run_look_ok (hs ▸ hf)]
  refine ⟨hs, fun b hb ↦ ?_, hQ⟩
  rcases List.mem_append.mp hb with hb | hb
  · exact hs' b hb
  · rw [List.mem_singleton.mp hb]
    exact hv

theorem Stays.reads {s : Traced ε ω} (h : Stays visible e x P) (hs : s.env = e)
    (hv : ∀ a ∈ s.reads, visible e a) : ∀ a ∈ (final (x.run s)).reads, visible e a := by
  have hx := h s hs hv
  cases hr : x.run s with
  | ok r s' => rw [hr] at hx; exact hx.2.1
  | error stop s' => rw [hr] at hx; exact hx.2

theorem Stays.ne_fault {s s' : Traced ε ω} (h : Stays visible e x P) (hs : s.env = e)
    (hv : ∀ a ∈ s.reads, visible e a) : x.run s ≠ .error .fault s' := by
  intro hr
  have hx := h s hs hv
  rw [hr] at hx
  exact hx.1 rfl

theorem Stays.bind (hx : Stays visible e x P) (hk : ∀ r, P r → Stays visible e (k r) Q) :
    Stays visible e (x >>= k) Q := by
  intro s hs hv
  have hx' := hx s hs hv
  rcases run_bind_cases x k s with ⟨r, s', h, hrun⟩ | ⟨err, s', h, hrun⟩ <;> rw [h] at hx' <;>
    rw [hrun]
  · exact hk r hx'.2.2 s' hx'.1 hx'.2.1
  · exact hx'

end StaysRules

end KevOS.Lib.Noninterference
