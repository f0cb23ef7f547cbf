import KevOS.Lib.Program

namespace KevOS.Lib.ByteMemory

open Function Program

/-- Memory read and written one byte at a time. An access may fault. -/
class ByteMem (σ : Type) where
  load8 : ℕ → Prog σ UInt8
  store8 : ℕ → UInt8 → Prog σ Unit

export ByteMem (load8 store8)

section Words

variable {σ : Type} [ByteMem σ]

/-- A little-endian 32-bit word. -/
def load32 (a : ℕ) : Prog σ ℕ := do
  let b₀ ← load8 a
  let b₁ ← load8 (a + 1)
  let b₂ ← load8 (a + 2)
  let b₃ ← load8 (a + 3)
  pure (b₀.toNat + 256 * b₁.toNat + 65536 * b₂.toNat + 16777216 * b₃.toNat)

def store32 (a v : ℕ) : Prog σ Unit := do
  store8 a (UInt8.ofNat v)
  store8 (a + 1) (UInt8.ofNat (v / 256))
  store8 (a + 2) (UInt8.ofNat (v / 65536))
  store8 (a + 3) (UInt8.ofNat (v / 16777216))

def memset (a : ℕ) (v : UInt8) : ℕ → Prog σ Unit
  | 0 => pure ()
  | n + 1 => do
    store8 a v
    memset (a + 1) v n

theorem memset_add {a : ℕ} {v : UInt8} {j n : ℕ} {s s' : σ} (h : (memset a v j).run s = .ok () s') :
    (memset a v (j + n)).run s = (memset (a + j) v n).run s' := by
  induction j generalizing a s with
  | zero =>
    cases h
    rw [Nat.zero_add, Nat.add_zero]
  | succ j ih =>
    obtain ⟨_, s₁, hstore, hrest⟩ := bind_eq_ok.mp h
    rw [Nat.succ_add, memset, run_bind_ok hstore, ih hrest, Nat.add_assoc, Nat.add_comm 1 j]

end Words

/-- The contents of a memory, as a function of the address. -/
abbrev Bytes := ℕ → UInt8

def word (m : Bytes) (a : ℕ) : ℕ :=
  (m a).toNat + 256 * (m (a + 1)).toNat + 65536 * (m (a + 2)).toNat
    + 16777216 * (m (a + 3)).toNat

def setWord (m : Bytes) (a v : ℕ) : Bytes :=
  update (update (update (update m a (UInt8.ofNat v)) (a + 1) (UInt8.ofNat (v / 256)))
    (a + 2) (UInt8.ofNat (v / 65536))) (a + 3) (UInt8.ofNat (v / 16777216))

def fill (m : Bytes) (a : ℕ) (v : UInt8) (n : ℕ) : Bytes :=
  fun b ↦ if a ≤ b ∧ b < a + n then v else m b

theorem word_lt (m : Bytes) (a : ℕ) : word m a < 4294967296 := by
  have h₀ := (m a).toNat_lt
  have h₁ := (m (a + 1)).toNat_lt
  have h₂ := (m (a + 2)).toNat_lt
  have h₃ := (m (a + 3)).toNat_lt
  unfold word
  omega

theorem word_congr {m m' : Bytes} {a : ℕ} (h : ∀ b, a ≤ b → b < a + 4 → m' b = m b) :
    word m' a = word m a := by
  unfold word
  rw [h a (by omega) (by omega), h (a + 1) (by omega) (by omega),
    h (a + 2) (by omega) (by omega), h (a + 3) (by omega) (by omega)]

theorem setWord_of_ne {m : Bytes} {a v b : ℕ} (h : b < a ∨ a + 4 ≤ b) :
    setWord m a v b = m b := by
  unfold setWord
  rw [update_of_ne (by omega), update_of_ne (by omega), update_of_ne (by omega),
    update_of_ne (by omega)]

theorem word_setWord_self {m : Bytes} {a v : ℕ} (hv : v < 4294967296) :
    word (setWord m a v) a = v := by
  have h₀ : setWord m a v a = UInt8.ofNat v := by
    unfold setWord
    rw [update_of_ne (by omega), update_of_ne (by omega), update_of_ne (by omega), update_self]
  have h₁ : setWord m a v (a + 1) = UInt8.ofNat (v / 256) := by
    unfold setWord
    rw [update_of_ne (by omega), update_of_ne (by omega), update_self]
  have h₂ : setWord m a v (a + 2) = UInt8.ofNat (v / 65536) := by
    unfold setWord
    rw [update_of_ne (by omega), update_self]
  have h₃ : setWord m a v (a + 3) = UInt8.ofNat (v / 16777216) := update_self ..
  unfold word
  rw [h₀, h₁, h₂, h₃]
  simp only [UInt8.toNat_ofNat']
  omega

theorem word_setWord_of_ne {m : Bytes} {a v b : ℕ} (h : b + 4 ≤ a ∨ a + 4 ≤ b) :
    word (setWord m a v) b = word m b :=
  word_congr (fun c hc hc' ↦ setWord_of_ne (by omega))

theorem word_update_of_ne {m : Bytes} {a b : ℕ} {v : UInt8} (h : a < b ∨ b + 4 ≤ a) :
    word (update m a v) b = word m b :=
  word_congr (fun c hc hc' ↦ update_of_ne (by omega) _ _)

theorem fill_of_lt {m : Bytes} {a n b : ℕ} {v : UInt8} (h : a ≤ b) (h' : b < a + n) :
    fill m a v n b = v := if_pos ⟨h, h'⟩

theorem fill_of_ne {m : Bytes} {a n b : ℕ} {v : UInt8} (h : b < a ∨ a + n ≤ b) :
    fill m a v n b = m b := if_neg (by omega)

theorem fill_zero (m : Bytes) (a : ℕ) (v : UInt8) : fill m a v 0 = m := by
  funext b
  exact fill_of_ne (by omega)

theorem fill_succ (m : Bytes) (a : ℕ) (v : UInt8) (n : ℕ) :
    fill (update m a v) (a + 1) v n = fill m a v (n + 1) := by
  funext b
  unfold fill
  by_cases hb : b = a
  · subst b
    rw [if_neg (by omega), if_pos (by omega), update_self]
  · simp only [update_of_ne hb, show (a + 1 ≤ b ∧ b < a + 1 + n ↔ a ≤ b ∧ b < a + (n + 1)) by omega]

theorem update_fill (m : Bytes) (a : ℕ) (v : UInt8) (n : ℕ) :
    update (fill m a v n) (a + n) v = fill m a v (n + 1) := by
  funext b
  unfold fill
  by_cases hb : b = a + n
  · rw [hb, update_self, if_pos (by omega)]
  · simp only [update_of_ne hb, show (a ≤ b ∧ b < a + n ↔ a ≤ b ∧ b < a + (n + 1)) by omega]

theorem word_fill_zero {m : Bytes} {a n b : ℕ} (h : a ≤ b) (h' : b + 4 ≤ a + n) :
    word (fill m a 0 n) b = 0 := by
  unfold word
  rw [fill_of_lt (by omega) (by omega), fill_of_lt (by omega) (by omega),
    fill_of_lt (by omega) (by omega), fill_of_lt (by omega) (by omega)]
  rfl

theorem word_fill_of_ne {m : Bytes} {a n b : ℕ} {v : UInt8} (h : b + 4 ≤ a ∨ a + n ≤ b) :
    word (fill m a v n) b = word m b :=
  word_congr (fun c hc hc' ↦ fill_of_ne (by omega))

/-- A range of addresses through which a state behaves like plain bytes, while
`inv` holds of it. What lies behind an address is the state's own business. -/
structure Window (σ : Type) [ByteMem σ] where
  inv : σ → Prop
  acc : σ → ℕ → Prop
  view : σ → Bytes
  load8_eq {s : σ} {a : ℕ} : inv s → acc s a → (load8 a).run s = .ok (view s a) s
  store8_ok {s : σ} {a : ℕ} (v : UInt8) : inv s → acc s a →
    ∃ s', (store8 a v).run s = .ok () s' ∧ inv s' ∧ acc s' = acc s ∧
      view s' = update (view s) a v

namespace Window

section Triples

variable {σ : Type} [ByteMem σ] (W : Window σ) {A : ℕ → Prop} {m : Bytes} {a : ℕ}

/-- The state shows exactly the bytes `m` at the addresses `A`. -/
def Sees (A : ℕ → Prop) (m : Bytes) (s : σ) : Prop :=
  W.inv s ∧ W.acc s = A ∧ W.view s = m

theorem load32_eq {s : σ} (hi : W.inv s) (h : ∀ i < 4, W.acc s (a + i)) :
    (load32 a).run s = .ok (word (W.view s) a) s := by
  have h₀ : W.acc s a := h 0 (by omega)
  unfold load32
  rw [run_bind_ok (W.load8_eq hi h₀), run_bind_ok (W.load8_eq hi (h 1 (by omega))),
    run_bind_ok (W.load8_eq hi (h 2 (by omega))), run_bind_ok (W.load8_eq hi (h 3 (by omega)))]
  rfl

theorem load8_returns (h : A a) : Returns (W.Sees A m) (load8 a) (m a) (W.Sees A m) := by
  rintro s ⟨hi, hA, hm⟩
  exact ⟨s, by rw [W.load8_eq hi (hA ▸ h), hm], hi, hA, hm⟩

theorem store8_returns (h : A a) (v : UInt8) :
    Returns (W.Sees A m) (store8 a v) () (W.Sees A (update m a v)) := by
  rintro s ⟨hi, hA, hm⟩
  obtain ⟨s', hr, hi', hA', hm'⟩ := W.store8_ok v hi (hA ▸ h)
  exact ⟨s', hr, hi', hA'.trans hA, by rw [hm', hm]⟩

theorem load32_returns (h : ∀ i < 4, A (a + i)) :
    Returns (W.Sees A m) (load32 a) (word m a) (W.Sees A m) :=
  (W.load8_returns (h 0 (by omega))).bind <|
    (W.load8_returns (h 1 (by omega))).bind <|
      (W.load8_returns (h 2 (by omega))).bind <|
        (W.load8_returns (h 3 (by omega))).bind (.pure _)

theorem store32_returns (h : ∀ i < 4, A (a + i)) (v : ℕ) :
    Returns (W.Sees A m) (store32 a v) () (W.Sees A (setWord m a v)) :=
  (W.store8_returns (h 0 (by omega)) _).bind <|
    (W.store8_returns (h 1 (by omega)) _).bind <|
      (W.store8_returns (h 2 (by omega)) _).bind (W.store8_returns (h 3 (by omega)) _)

theorem memset_returns (v : UInt8) (n : ℕ) (h : ∀ b, a ≤ b → b < a + n → A b) :
    Returns (W.Sees A m) (memset a v n) () (W.Sees A (fill m a v n)) := by
  induction n generalizing a m with
  | zero =>
    rw [fill_zero]
    exact .pure ()
  | succ n ih =>
    refine (W.store8_returns (h a (by omega) (by omega)) v).bind ?_
    have hr := ih (a := a + 1) (m := update m a v) (fun b hb hb' ↦ h b (by omega) (by omega))
    rwa [fill_succ] at hr

end Triples

end Window

/-- Memory that is one component of a larger state. -/
@[reducible] def ByteMem.zoom {σ τ : Type} [ByteMem σ] (get : τ → σ) (put : τ → σ → τ) :
    ByteMem τ where
  load8 a := Program.zoom get put (load8 a)
  store8 a v := Program.zoom get put (store8 a v)

/-- A window onto a component, in a larger state whose other parts keep `F`. -/
def Window.zoom {σ τ : Type} [ByteMem σ] (W : Window σ) (get : τ → σ) (put : τ → σ → τ)
    (hget : ∀ t s, get (put t s) = s) (hput : ∀ t, put t (get t) = t)
    (F : τ → Prop) (hF : ∀ t s, F t → F (put t s)) : @Window τ (ByteMem.zoom get put) :=
  letI : ByteMem τ := ByteMem.zoom get put
  { inv := fun t ↦ W.inv (get t) ∧ F t
    acc := fun t ↦ W.acc (get t)
    view := fun t ↦ W.view (get t)
    load8_eq := fun {t a} h ha ↦ by
      have hr : (Program.zoom get put (load8 a)).run t = .ok (W.view (get t) a) (put t (get t)) :=
        zoom_ok (W.load8_eq h.1 ha)
      rwa [hput] at hr
    store8_ok := fun v h ha ↦ by
      obtain ⟨s', hr, hi, hA, hm⟩ := W.store8_ok v h.1 ha
      exact ⟨put _ s', zoom_ok hr, ⟨by rwa [hget], hF _ _ h.2⟩, by rw [hget, hA], by rw [hget, hm]⟩ }

end KevOS.Lib.ByteMemory
