import Mathlib.Data.List.Basic

namespace KevOS.Lib.Linked

variable {α : Type*}

def first (l : List α) (n : α) : α := l.headD n

def last (p : α) (l : List α) : α := l.getLastD p

@[simp] theorem first_nil (n : α) : first [] n = n := rfl

@[simp] theorem first_cons (a : α) (l : List α) (n : α) : first (a :: l) n = a := rfl

@[simp] theorem last_nil (p : α) : last p [] = p := rfl

@[simp] theorem last_concat (p a : α) (l : List α) : last p (l ++ [a]) = a := by
  simp [last]

theorem first_append (l r : List α) (n : α) : first (l ++ r) n = first l (first r n) := by
  cases l <;> rfl

theorem last_cons (p a : α) (l : List α) : last p (a :: l) = last a l := List.getLastD_cons ..

/-- The nodes `l`, doubly linked in this order, between `p` and `n`. -/
def Seg (next prev : α → α) : α → List α → α → Prop
  | _, [], _ => True
  | p, a :: l, n => prev a = p ∧ next a = first l n ∧ Seg next prev a l n

section Segments

variable {next prev next' prev' : α → α} {p n c x : α} {l r : List α}

theorem seg_append : Seg next prev p (l ++ r) n ↔
    Seg next prev p l (first r n) ∧ Seg next prev (last p l) r n := by
  induction l generalizing p with
  | nil => simp [Seg]
  | cons a l ih =>
    rw [List.cons_append, Seg, Seg, ih, first_append, last_cons, and_assoc, and_assoc]

theorem seg_congr (hn : ∀ a ∈ l, next' a = next a) (hp : ∀ a ∈ l, prev' a = prev a)
    (h : Seg next prev p l n) : Seg next' prev' p l n := by
  induction l generalizing p with
  | nil => trivial
  | cons a l ih =>
    obtain ⟨h₁, h₂, h₃⟩ := h
    rw [List.forall_mem_cons] at hn hp
    exact ⟨hp.1.trans h₁, hn.1.trans h₂, ih hn.2 hp.2 h₃⟩

/-- Only the first node of a segment knows where it is entered from. -/
theorem seg_enter {q : α} (hn : ∀ a ∈ l, next' a = next a) (hp : ∀ a ∈ l.tail, prev' a = prev a)
    (hq : ∀ a ∈ l.head?, prev' a = q) (h : Seg next prev p l n) : Seg next' prev' q l n := by
  cases l with
  | nil => trivial
  | cons a l =>
    rw [List.forall_mem_cons] at hn
    exact ⟨hq a rfl, hn.1.trans h.2.1, seg_congr hn.2 hp h.2.2⟩

theorem seg_next (h : Seg next prev p (l ++ c :: r) n) : next c = first r n :=
  (seg_append.mp h).2.2.1

theorem seg_prev (h : Seg next prev p (l ++ c :: r) n) : prev c = last p l :=
  (seg_append.mp h).2.1

/-- Link `x` in behind `c`. -/
theorem Seg.insert (h : Seg next prev p (l ++ c :: r) n)
    (hc : next' c = x) (hxn : next' x = first r n) (hxp : prev' x = c)
    (hr : ∀ a ∈ r.head?, prev' a = x)
    (hn : ∀ a ∈ l ++ r, next' a = next a) (hp : ∀ a ∈ l ++ c :: r.tail, prev' a = prev a) :
    Seg next' prev' p (l ++ c :: x :: r) n := by
  obtain ⟨hl, hcp, -, hrest⟩ := seg_append.mp h
  rw [List.forall_mem_append] at hn hp
  rw [List.forall_mem_cons] at hp
  exact seg_append.mpr ⟨seg_congr hn.1 hp.1 hl, hp.2.1.trans hcp, hc, hxp, hxn,
    seg_enter hn.2 hp.2.2 hr hrest⟩

/-- Unlink the node behind `c`. -/
theorem Seg.remove (h : Seg next prev p (l ++ c :: x :: r) n)
    (hc : next' c = first r n) (hr : ∀ a ∈ r.head?, prev' a = c)
    (hn : ∀ a ∈ l ++ r, next' a = next a) (hp : ∀ a ∈ l ++ c :: r.tail, prev' a = prev a) :
    Seg next' prev' p (l ++ c :: r) n := by
  obtain ⟨hl, hcp, -, -, -, hrest⟩ := seg_append.mp h
  rw [List.forall_mem_append] at hn hp
  rw [List.forall_mem_cons] at hp
  exact seg_append.mpr ⟨seg_congr hn.1 hp.1 hl, hp.2.1.trans hcp, hc,
    seg_enter hn.2 hp.2.2 hr hrest⟩

end Segments

end KevOS.Lib.Linked
