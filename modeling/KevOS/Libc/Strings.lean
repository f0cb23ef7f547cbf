import KevOS.Initrd.RoundTrip
import KevOS.Libc.Console
import Mathlib.Data.List.Lex

namespace KevOS.Libc.Strings

open Lib.Program Machine CharPtr

section Functions

variable {σ : Type} [Console σ]

/-- The difference of the characters at which the loop of `strcmp` has stopped. -/
def difference (s1 s2 : CharPtr) : Prog σ ℤ := do
  let c ← readChar s1 0
  let d ← readChar s2 0
  pure (c.toNat - d.toNat)

def strcmpLoop (s1 s2 : CharPtr) : ℕ → Prog σ ℤ
  | 0 => throw .fuel
  | fuel + 1 => do
    let c ← readChar s1 0
    if c ≠ 0 then
      let d ← readChar s2 0
      if c = d then strcmpLoop (s1.add 1) (s2.add 1) fuel else difference s1 s2
    else difference s1 s2

def strcmp (s1 s2 : CharPtr) : Prog σ ℤ := strcmpLoop s1 s2 loopBound

/-- The loop of `memcmp`, with `n` bytes from `i` on left to compare. -/
def memcmpLoop (a b : CharPtr) (i : ℕ) : ℕ → Prog σ ℤ
  | 0 => pure 0
  | n + 1 => do
    let x ← readChar a i
    let y ← readChar b i
    if x < y then pure (-1)
    else if y < x then pure 1
    else memcmpLoop a b (i + 1) n

def memcmp (a b : CharPtr) (size : ℕ) : Prog σ ℤ := memcmpLoop a b 0 size

end Functions

section Triples

variable {σ : Type} [Console σ] (V : View σ) {f : ℕ → Option UInt8} {R : Set ℕ} {p q : CharPtr}
  {s t w : List UInt8}

theorem difference_returns (hp : IsString f p s) (hq : IsString f q t) (hinp : Inside R p 1)
    (hinq : Inside R q 1) : Returns (V.Sees f R w) (difference p q)
      ((s.getD 0 0).toNat - (t.getD 0 0).toNat) (V.Sees f R w) := by
  refine (readChar_returns V (hp.getD (Nat.zero_le _)) (hinp 0 Nat.one_pos)).bind ?_
  exact (readChar_returns V (hq.getD (Nat.zero_le _)) (hinq 0 Nat.one_pos)).bind (.pure _)

theorem strcmpLoop_returns {fuel : ℕ} (hp : IsString f p s) (hq : IsString f q t)
    (hinp : Inside R p (s.length + 1)) (hinq : Inside R q (t.length + 1)) (hfuel : s.length < fuel) :
    Returns (V.Sees f R w) (strcmpLoop p q fuel) (Initrd.strcmp s t) (V.Sees f R w) := by
  have hone {p : CharPtr} {s : List UInt8} (h : Inside R p (s.length + 1)) : Inside R p 1 :=
    h.mono (by omega)
  induction s generalizing t p q fuel with
  | nil =>
    obtain ⟨fuel, rfl⟩ := Nat.exists_eq_add_of_lt hfuel
    have hdiff := difference_returns V (w := w) hp hq (hone hinp) (hone hinq)
    refine (readChar_returns V hp.stop (hinp 0 Nat.one_pos)).bind (.ite_neg (not_not.mpr rfl) ?_)
    cases t with
    | nil => exact hdiff
    | cons b t =>
      rw [Initrd.strcmp]
      simpa using hdiff
  | cons a s ih =>
    cases fuel with
    | zero => cases hfuel
    | succ fuel =>
      have ha : a ≠ 0 := by
        rintro rfl
        exact hp.noNul List.mem_cons_self
      have hdiff := difference_returns V (w := w) hp hq (hone hinp) (hone hinq)
      refine (readChar_returns V hp.head (hinp 0 (Nat.succ_pos _))).bind (.ite_pos ha ?_)
      cases t with
      | nil =>
        refine (readChar_returns V hq.stop (hinq 0 Nat.one_pos)).bind (.ite_neg ha ?_)
        rw [Initrd.strcmp]
        simpa using hdiff
      | cons b t =>
        refine (readChar_returns V hq.head (hinq 0 (Nat.succ_pos _))).bind ?_
        by_cases hab : a = b
        · have hcmp : Initrd.strcmp (a :: s) (b :: t) = Initrd.strcmp s t := if_pos hab
          rw [hcmp]
          refine .ite_pos hab (ih hp.tail hq.tail ?_ ?_ (Nat.lt_of_succ_lt_succ hfuel))
          · exact Inside.add (hinp.mono (by simp only [List.length_cons]; omega))
          · exact Inside.add (hinq.mono (by simp only [List.length_cons]; omega))
        · have hcmp : Initrd.strcmp (a :: s) (b :: t) = a.toNat - b.toNat := if_neg hab
          rw [hcmp]
          exact .ite_neg hab hdiff

theorem strcmp_returns (hp : IsString f p s) (hq : IsString f q t) (hinp : Inside R p (s.length + 1))
    (hinq : Inside R q (t.length + 1)) :
    Returns (V.Sees f R w) (strcmp p q) (Initrd.strcmp s t) (V.Sees f R w) :=
  strcmpLoop_returns V hp hq hinp hinq hp.short

/-- Up to the end of the shorter string, `memcmp` finds the sign of what `strcmp` finds. -/
theorem memcmpLoop_returns {i : ℕ} (hp : IsString f (p.add i) s) (hq : IsString f (q.add i) t)
    (hinp : Inside R p (i + (s.length + 1))) (hinq : Inside R q (i + (t.length + 1))) :
    Returns (V.Sees f R w) (memcmpLoop p q i (min s.length t.length + 1))
      (Initrd.strcmp s t).sign (V.Sees f R w) := by
  have hread {p : CharPtr} {s : List UInt8} {i : ℕ} (h : IsString f (p.add i) s)
      (hin : Inside R p (i + (s.length + 1))) :
      Returns (V.Sees f R w) (readChar p i) (s.getD 0 0) (V.Sees f R w) := by
    refine readChar_returns V ?_ (hin i (by omega))
    have hc := h.getD (Nat.zero_le _)
    rwa [charAt_add, Nat.add_zero] at hc
  have hpos {c : UInt8} {s : List UInt8} (h : 0 ∉ c :: s) : 0 < c.toNat := by
    rw [Nat.pos_iff_ne_zero]
    intro hzero
    have hc : c = 0 := UInt8.toNat_inj.mp hzero
    exact h (hc ▸ List.mem_cons_self)
  induction s generalizing t i with
  | nil =>
    refine (hread hp hinp).bind ((hread hq hinq).bind ?_)
    cases t with
    | nil => exact .ite_neg (UInt8.lt_irrefl _) (.ite_neg (UInt8.lt_irrefl _) (.pure _))
    | cons b t =>
      have hb := hpos hq.noNul
      rw [Initrd.strcmp, Int.sign_eq_neg_one_of_neg (by omega)]
      exact .ite_pos (UInt8.lt_iff_toNat_lt.mpr hb) (.pure _)
  | cons a s ih =>
    have ha := hpos hp.noNul
    refine (hread hp hinp).bind ((hread hq hinq).bind ?_)
    cases t with
    | nil =>
      rw [Initrd.strcmp, Int.sign_eq_one_of_pos (by omega)]
      refine .ite_neg (fun hlt ↦ ?_) (.ite_pos (UInt8.lt_iff_toNat_lt.mpr ha) (.pure _))
      exact absurd (UInt8.lt_iff_toNat_lt.mp hlt) (Nat.not_lt_zero _)
    | cons b t =>
      rw [Initrd.strcmp]
      rcases lt_trichotomy a.toNat b.toNat with hlt | heq | hgt
      · have hne : a ≠ b := by
          rintro rfl
          exact lt_irrefl _ hlt
        rw [if_neg hne, Int.sign_eq_neg_one_of_neg (by omega)]
        exact .ite_pos (UInt8.lt_iff_toNat_lt.mpr hlt) (.pure _)
      · obtain rfl := UInt8.toNat_inj.mp heq
        rw [if_pos rfl]
        refine .ite_neg (UInt8.lt_irrefl _) (.ite_neg (UInt8.lt_irrefl _) ?_)
        have hptail := hp.tail
        have hqtail := hq.tail
        rw [add_add] at hptail hqtail
        rw [List.length_cons, List.length_cons, Nat.succ_min_succ]
        exact ih hptail hqtail (hinp.mono (by simp only [List.length_cons]; omega))
          (hinq.mono (by simp only [List.length_cons]; omega))
      · have hne : a ≠ b := by
          rintro rfl
          exact lt_irrefl _ hgt
        rw [if_neg hne, Int.sign_eq_one_of_pos (by omega)]
        refine .ite_neg (fun h ↦ ?_) (.ite_pos (UInt8.lt_iff_toNat_lt.mpr hgt) (.pure _))
        exact lt_asymm hgt (UInt8.lt_iff_toNat_lt.mp h)

theorem memcmp_returns (hp : IsString f p s) (hq : IsString f q t) (hinp : Inside R p (s.length + 1))
    (hinq : Inside R q (t.length + 1)) :
    Returns (V.Sees f R w) (memcmp p q (min s.length t.length + 1)) (Initrd.strcmp s t).sign
      (V.Sees f R w) := by
  refine memcmpLoop_returns V hp.add_zero hq.add_zero ?_ ?_
  · rwa [Nat.zero_add]
  · rwa [Nat.zero_add]

end Triples

section Order

variable {s t : List UInt8}

theorem cons_le_cons_iff {a b : ℕ} {l r : List ℕ} : a :: l ≤ b :: r ↔ a < b ∨ a = b ∧ l ≤ r := by
  have hlt : a :: l < b :: r ↔ a < b ∨ a = b ∧ l < r := List.cons_lt_cons_iff
  rw [le_iff_lt_or_eq, hlt, List.cons.injEq, or_assoc, ← and_or_left, ← le_iff_lt_or_eq]

/-- The order of the strings is that of a dictionary, whose letters are the bytes without sign. -/
theorem strcmp_nonpos_iff (hs : 0 ∉ s) :
    Initrd.strcmp s t ≤ 0 ↔ s.map UInt8.toNat ≤ t.map UInt8.toNat := by
  induction s generalizing t with
  | nil =>
    cases t with
    | nil => simp [Initrd.strcmp]
    | cons b t =>
      have hnil : ([] : List ℕ) ≤ (b :: t).map UInt8.toNat := .inr .nil
      rw [Initrd.strcmp]
      simpa using hnil
  | cons a s ih =>
    rw [List.mem_cons, not_or] at hs
    cases t with
    | nil =>
      have ha : a.toNat ≠ 0 := by
        intro hzero
        exact hs.1 (UInt8.toNat_inj.mp (show (0 : UInt8).toNat = a.toNat from hzero.symm))
      rw [Initrd.strcmp]
      simp [ha]
    | cons b t =>
      rw [List.map_cons, List.map_cons, cons_le_cons_iff, ← ih hs.2, UInt8.toNat_inj, Initrd.strcmp]
      split_ifs with hab
      · simp [hab]
      · have hne : a.toNat ≠ b.toNat := fun heq ↦ hab (UInt8.toNat_inj.mp heq)
        simp only [hab, false_and, or_false]
        omega

theorem eq_iff_strcmp (hs : 0 ∉ s) (ht : 0 ∉ t) : Initrd.strcmp s t = 0 ↔ s = t := by
  refine ⟨Initrd.RoundTrip.eq_of_strcmp hs ht, ?_⟩
  rintro rfl
  exact Initrd.RoundTrip.strcmp_self s

theorem map_toNat_injective : Function.Injective (List.map UInt8.toNat) :=
  List.map_injective_iff.mpr fun _ _ ↦ UInt8.toNat_inj.mp

end Order

section Pointers

variable {m : ℕ → Option UInt8} {p q : CharPtr} {s t : List UInt8}

theorem strcmp_runs (hp : IsString m p s) (hq : IsString m q t) :
    Runs m (strcmp p q) (Initrd.strcmp s t) [] (p.bytesOf s ∪ q.bytesOf t) :=
  runs_of_returns (strcmp_returns watchedView hp hq
    ((inside_bytesOf p s).subset Set.subset_union_left)
    ((inside_bytesOf q t).subset Set.subset_union_right))

theorem memcmp_runs (hp : IsString m p s) (hq : IsString m q t) :
    Runs m (memcmp p q (min s.length t.length + 1)) (Initrd.strcmp s t).sign []
      (p.bytesOf s ∪ q.bytesOf t) :=
  runs_of_returns (memcmp_returns watchedView hp hq
    ((inside_bytesOf p s).subset Set.subset_union_left)
    ((inside_bytesOf q t).subset Set.subset_union_right))

/-- `strcmp(p, q) <= 0`. -/
def AtMost (m : ℕ → Option UInt8) (p q : CharPtr) : Prop :=
  ∃ r ≤ 0, ∃ R, Runs m (strcmp p q) r [] R

theorem atMost_iff (hp : IsString m p s) (hq : IsString m q t) :
    AtMost m p q ↔ s.map UInt8.toNat ≤ t.map UInt8.toNat := by
  rw [← strcmp_nonpos_iff hp.noNul]
  have hrun := strcmp_runs hp hq
  constructor
  · rintro ⟨r, hr, R, hrun'⟩
    rwa [hrun.eq hrun']
  · intro h
    exact ⟨_, h, _, hrun⟩

/-- `strcmp` and `memcmp` put strings into the same total order. -/
theorem strcmp_memcmp (m : ℕ → Option UInt8) :
    (∀ p q s t, IsString m p s → IsString m q t → ∃ r c,
      Runs m (strcmp p q) r [] (p.bytesOf s ∪ q.bytesOf t) ∧
      Runs m (memcmp p q (min s.length t.length + 1)) c [] (p.bytesOf s ∪ q.bytesOf t) ∧
      r.sign = c.sign ∧ (r = 0 ↔ s = t) ∧ (r ≤ 0 ↔ s.map UInt8.toNat ≤ t.map UInt8.toNat)) ∧
    (∀ p q u s t v, IsString m p s → IsString m q t → IsString m u v →
      (AtMost m p q ∨ AtMost m q p) ∧ (AtMost m p q → AtMost m q p → s = t) ∧
      (AtMost m p q → AtMost m q u → AtMost m p u)) := by
  constructor
  · intro p q s t hp hq
    refine ⟨_, _, strcmp_runs hp hq, memcmp_runs hp hq, ?_, eq_iff_strcmp hp.noNul hq.noNul,
      strcmp_nonpos_iff hp.noNul⟩
    rw [Int.sign_sign]
  · intro p q u s t v hp hq hu
    rw [atMost_iff hp hq, atMost_iff hq hp, atMost_iff hq hu, atMost_iff hp hu]
    refine ⟨le_total _ _, ?_, le_trans⟩
    intro hst hts
    exact map_toNat_injective (le_antisymm hst hts)

/-- The letter `a`, and a byte above 127. -/
def highBytes : ℕ → Option UInt8
  | 0x1000 => some 97
  | 0x2000 => some 200
  | _ => some 0

theorem strcmp_memcmp_highBytes : ∃ r c R, Runs highBytes (strcmp (.addr 0x1000) (.addr 0x2000)) r [] R ∧
    Runs highBytes (memcmp (.addr 0x1000) (.addr 0x2000) 2) c [] R ∧ r.sign = c.sign ∧ r ≤ 0 := by
  have hp : IsString highBytes (.addr 0x1000) [97] := ⟨by decide, rfl, by decide, by decide⟩
  have hq : IsString highBytes (.addr 0x2000) [200] := ⟨by decide, rfl, by decide, by decide⟩
  obtain ⟨r, c, hr, hc, hsign, -, hle⟩ := (strcmp_memcmp highBytes).1 _ _ _ _ hp hq
  have hlt : (97 : ℕ) < 200 := by decide
  exact ⟨r, c, _, hr, hc, hsign, hle.mpr (cons_le_cons_iff.mpr (.inl hlt))⟩

end Pointers

end KevOS.Libc.Strings
