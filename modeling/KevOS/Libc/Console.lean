import KevOS.Lib.Noninterference
import KevOS.Libc.Printf
import Mathlib.Data.Set.Basic

namespace KevOS.Libc

open Lib.Program Lib.Noninterference Machine

/-- How the state of a console is looked at: the characters that are in memory, those written
to the terminal, and the addresses that have been read. It can be used while it is `ready`. -/
structure View (σ : Type) [Console σ] where
  char : σ → ℕ → Option UInt8
  written : σ → List UInt8
  reads : σ → List ℕ
  ready : σ → Prop
  load_ok {s : σ} {a : ℕ} {c : UInt8} : ready s → char s a = some c →
    ∃ s', (loadChar a).run s = .ok c s' ∧ char s' = char s ∧ written s' = written s ∧
      (∀ b ∈ reads s', b ∈ reads s ∨ b = a) ∧ ready s'
  put_ok {s : σ} (c : UInt8) : ready s → ∃ s', (putchar c).run s = .ok () s' ∧
    char s' = char s ∧ written s' = written s ++ [c] ∧ reads s' ⊆ reads s ∧ ready s'

/-- Memory `f`, with `w` on the terminal, and nothing read outside of `R`. -/
structure View.Sees {σ : Type} [Console σ] (V : View σ) (f : ℕ → Option UInt8) (R : Set ℕ)
    (w : List UInt8) (s : σ) : Prop where
  char : V.char s = f
  written : V.written s = w
  reads : ∀ a ∈ V.reads s, a ∈ R
  ready : V.ready s

namespace CharPtr

variable {f : ℕ → Option UInt8} {R R' : Set ℕ} {p : CharPtr} {s : List UInt8} {i k n : ℕ}

def charAt (f : ℕ → Option UInt8) : CharPtr → ℕ → Option UInt8
  | .literal s, i => some (s.getD i 0)
  | .addr a, i => f (w32 (a + i))

/-- Where a character lies, unless it is one of the kernel's own literals. -/
def addressOf : CharPtr → ℕ → Option ℕ
  | .literal _, _ => none
  | .addr a, i => some (w32 (a + i))

/-- The first `n` characters may be read. -/
def Inside (R : Set ℕ) (p : CharPtr) (n : ℕ) : Prop := ∀ i < n, ∀ a ∈ p.addressOf i, a ∈ R

/-- `p` points to the string `s`. It is not as long as the address space. -/
structure IsString (f : ℕ → Option UInt8) (p : CharPtr) (s : List UInt8) : Prop where
  chars : ∀ i (h : i < s.length), p.charAt f i = some s[i]
  stop : p.charAt f s.length = some 0
  noNul : 0 ∉ s
  short : s.length < loopBound

/-- The bytes of a string, its terminator among them. -/
def bytesOf (p : CharPtr) (s : List UInt8) : Set ℕ := {a | ∃ i ≤ s.length, a ∈ p.addressOf i}

theorem add_add (p : CharPtr) (j k : ℕ) : (p.add j).add k = p.add (j + k) := by
  cases p with
  | literal s => simp [add]
  | addr a => simp only [add, w32_w32_add]

@[simp] theorem charAt_add (p : CharPtr) (k i : ℕ) : (p.add k).charAt f i = p.charAt f (k + i) := by
  cases p with
  | literal s => simp [add, charAt]
  | addr a => simp only [add, charAt, w32_w32_add]

@[simp] theorem addressOf_add (p : CharPtr) (k i : ℕ) : (p.add k).addressOf i = p.addressOf (k + i) := by
  cases p with
  | literal s => rfl
  | addr a => simp only [add, addressOf, w32_w32_add]

theorem inside_bytesOf (p : CharPtr) (s : List UInt8) : Inside (p.bytesOf s) p (s.length + 1) :=
  fun i hi _ ha ↦ ⟨i, Nat.le_of_lt_succ hi, ha⟩

theorem Inside.mono (h : Inside R p n) (hk : k ≤ n) : Inside R p k :=
  fun i hi ↦ h i (hi.trans_le hk)

theorem Inside.subset (h : Inside R p n) (hR : R ⊆ R') : Inside R' p n :=
  fun i hi a ha ↦ hR (h i hi a ha)

theorem Inside.add (h : Inside R p (k + n)) : Inside R (p.add k) n := by
  intro i hi a ha
  rw [addressOf_add] at ha
  exact h (k + i) (by omega) a ha

theorem inside_literal (s : List UInt8) (n : ℕ) : Inside R (.literal s) n := by
  intro i _ a ha
  cases ha

theorem isString_literal (hs : 0 ∉ s) (hshort : s.length < loopBound) : IsString f (.literal s) s where
  chars i h := congrArg some (List.getD_eq_getElem s 0 h)
  stop := by simp [charAt]
  noNul := hs
  short := hshort

theorem IsString.add_zero (h : IsString f p s) : IsString f (p.add 0) s where
  chars i hi := by rw [charAt_add, Nat.zero_add, h.chars i hi]
  stop := by rw [charAt_add, Nat.zero_add, h.stop]
  noNul := h.noNul
  short := h.short

theorem IsString.tail {c : UInt8} (h : IsString f p (c :: s)) : IsString f (p.add 1) s where
  chars i hi := by
    rw [charAt_add, Nat.add_comm, h.chars (i + 1) (Nat.succ_lt_succ hi), List.getElem_cons_succ]
  stop := by
    rw [charAt_add, Nat.add_comm]
    exact h.stop
  noNul hs := h.noNul (List.mem_cons_of_mem c hs)
  short := Nat.lt_of_succ_lt h.short

theorem IsString.head {c : UInt8} (h : IsString f p (c :: s)) : p.charAt f 0 = some c :=
  h.chars 0 (Nat.succ_pos _)

/-- The character at any place of a string, the terminator behind the others. -/
theorem IsString.getD (h : IsString f p s) (hi : i ≤ s.length) : p.charAt f i = some (s.getD i 0) := by
  rcases Nat.lt_or_eq_of_le hi with hlt | rfl
  · rw [h.chars i hlt, List.getD_eq_getElem s 0 hlt]
  · rw [h.stop]
    simp

end CharPtr

section Triples

open CharPtr

variable {σ : Type} [Console σ] (V : View σ) {f : ℕ → Option UInt8} {R : Set ℕ} {p : CharPtr}
  {c : UInt8} {i n : ℕ} {s w : List UInt8}

theorem putchar_returns (c : UInt8) :
    Returns (V.Sees f R w) (putchar c) () (V.Sees f R (w ++ [c])) := by
  intro t ht
  obtain ⟨t', hrun, hchar, hwritten, hreads, hready⟩ := V.put_ok c ht.ready
  refine ⟨t', hrun, hchar.trans ht.char, by rw [hwritten, ht.written], ?_, hready⟩
  intro a ha
  exact ht.reads a (hreads ha)

theorem readChar_returns (hc : p.charAt f i = some c) (ha : ∀ a ∈ p.addressOf i, a ∈ R) :
    Returns (V.Sees f R w) (readChar p i) c (V.Sees f R w) := by
  cases p with
  | literal s =>
    cases hc
    exact .pure _
  | addr a =>
    intro t ht
    have hload : V.char t (w32 (a + i)) = some c := by
      rw [ht.char]
      exact hc
    obtain ⟨t', hrun, hchar, hwritten, hreads, hready⟩ := V.load_ok ht.ready hload
    refine ⟨t', hrun, hchar.trans ht.char, hwritten.trans ht.written, ?_, hready⟩
    intro b hb
    rcases hreads b hb with hb | rfl
    · exact ht.reads b hb
    · exact ha _ rfl

theorem strlen_returns (hs : IsString f p s) (hin : Inside R p (s.length + 1)) :
    Returns (V.Sees f R w) (strlen p) s.length (V.Sees f R w) := by
  -- the loop is at the character `len`, none of those before it is the terminator
  have hloop (fuel len : ℕ) (hlen : len ≤ s.length) (hfuel : s.length < len + fuel) :
      Returns (V.Sees f R w) (strlenLoop p len fuel) s.length (V.Sees f R w) := by
    induction fuel generalizing len with
    | zero => omega
    | succ fuel ih =>
      refine (readChar_returns V (hs.getD hlen) (hin len (Nat.lt_succ_of_le hlen))).bind ?_
      rcases Nat.lt_or_eq_of_le hlen with hlt | rfl
      · refine .ite_neg ?_ (ih (len + 1) hlt (by omega))
        rw [List.getD_eq_getElem s 0 hlt]
        intro hzero
        exact hs.noNul (hzero ▸ List.getElem_mem hlt)
      · exact .ite_pos (by simp) (.pure _)
  exact hloop loopBound 0 (Nat.zero_le _) (by rw [Nat.zero_add]; exact hs.short)

/-- `terminal_write` of characters that are there. -/
theorem terminalWrite_returns (hs : ∀ i (h : i < s.length), p.charAt f i = some s[i])
    (hin : Inside R p s.length) :
    Returns (V.Sees f R w) (terminalWrite p s.length) () (V.Sees f R (w ++ s)) := by
  have hloop (n i : ℕ) (hi : i + n = s.length) : Returns (V.Sees f R (w ++ s.take i))
      (terminalWriteLoop p i n) () (V.Sees f R (w ++ s)) := by
    induction n generalizing i with
    | zero =>
      rw [List.take_of_length_le (by omega)]
      exact .pure _
    | succ n ih =>
      have hlt : i < s.length := by omega
      refine (readChar_returns V (hs i hlt) (hin i hlt)).bind ((putchar_returns V s[i]).seq ?_)
      have hnext := ih (i + 1) (by omega)
      rwa [List.take_succ_eq_append_getElem hlt, ← List.append_assoc] at hnext
  have hstart := hloop s.length 0 (Nat.zero_add _)
  rwa [List.take_zero, List.append_nil] at hstart

theorem terminalWritestring_returns (hs : IsString f p s) (hin : Inside R p (s.length + 1)) :
    Returns (V.Sees f R w) (terminalWritestring p) () (V.Sees f R (w ++ s)) :=
  (strlen_returns V hs hin).bind (terminalWrite_returns V hs.chars (hin.mono (Nat.le_succ _)))

theorem terminalWrite_literal (s : List UInt8) :
    Returns (V.Sees f R w) (terminalWrite (.literal s) s.length) () (V.Sees f R (w ++ s)) :=
  terminalWrite_returns V (fun _ h ↦ congrArg some (List.getD_eq_getElem s 0 h)) (inside_literal s _)

end Triples

/-- A console that looks characters up with `f`. -/
def tracedView {ε : Type} (f : ε → ℕ → Option UInt8) :
    @View (Traced ε UInt8) ⟨look f, put⟩ :=
  letI : Console (Traced ε UInt8) := ⟨look f, put⟩
  { char := fun s ↦ f s.env
    written := fun s ↦ s.output
    reads := fun s ↦ s.reads
    ready := fun _ ↦ True
    load_ok := fun {s a c} _ hc ↦ by
      refine ⟨{ s with reads := s.reads ++ [a] }, run_look_ok hc, rfl, rfl, ?_, trivial⟩
      intro b hb
      rwa [List.mem_append, List.mem_singleton] at hb
    put_ok := fun {s} c _ ↦
      ⟨{ s with output := s.output ++ [c] }, rfl, rfl, rfl, List.Subset.refl _, trivial⟩ }

/-- Memory as a program finds it, where there may be nothing at an address. -/
abbrev Watched := Traced (ℕ → Option UInt8) UInt8

instance : Console Watched := ⟨look id, put⟩

def watchedView : View Watched := tracedView id

/-- Started on the memory `m`, the program returns `r`, has written `out` to the terminal, and
has read no address outside of `R`. -/
def Runs {α : Type} (m : ℕ → Option UInt8) (x : Prog Watched α) (r : α) (out : List UInt8)
    (R : Set ℕ) : Prop :=
  ∃ s, x.run ⟨m, [], []⟩ = .ok r s ∧ s.output = out ∧ ∀ a ∈ s.reads, a ∈ R

/-- A program returns one result only. -/
theorem Runs.eq {α : Type} {m : ℕ → Option UInt8} {x : Prog Watched α} {r r' : α}
    {out out' : List UInt8} {R R' : Set ℕ} (h : Runs m x r out R) (h' : Runs m x r' out' R') : r = r' := by
  obtain ⟨s, hrun, -⟩ := h
  obtain ⟨s', hrun', -⟩ := h'
  rw [hrun] at hrun'
  cases hrun'
  rfl

theorem runs_of_returns {α : Type} {m : ℕ → Option UInt8} {x : Prog Watched α} {r : α}
    {out : List UInt8} {R : Set ℕ}
    (h : Returns (watchedView.Sees m R []) x r (watchedView.Sees m R out)) : Runs m x r out R := by
  obtain ⟨s, hrun, hs⟩ := h ⟨m, [], []⟩ ⟨rfl, rfl, fun _ ha ↦ absurd ha List.not_mem_nil, trivial⟩
  exact ⟨s, hrun, hs.written, hs.reads⟩

end KevOS.Libc
