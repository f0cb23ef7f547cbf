import KevOS.Libc.Console
import Mathlib.Data.Nat.Digits.Lemmas

namespace KevOS.Libc.Format

open Lib.Program Machine CharPtr

/-- What `printf` is given for a directive. A null pointer is a string without characters. -/
inductive Value
  | string (s : Option (List UInt8))
  | char (c : UInt8)
  | int (n : ℤ)
  | unsigned (n : ℕ)
  deriving DecidableEq, Repr

def numeral (base n : ℕ) : List UInt8 :=
  if n = 0 then [digit 0] else ((Nat.digits base n).map digit).reverse

def signedNumeral (n : ℤ) : List UInt8 :=
  if n < 0 then 45 :: numeral 10 n.natAbs else numeral 10 n.natAbs

/-- The characters behind `%` that ask for a value. -/
def conversions : List UInt8 := [115, 99, 100, 105, 117, 120]

/-- The text of a value, if it has the type that the directive asks for. -/
def convert (c : UInt8) : Value → Option (List UInt8)
  | .string s => if c = 115 then some (s.getD nullText) else none
  | .char d => if c = 99 then some [d] else none
  | .int n => if c = 100 ∨ c = 105 then some (signedNumeral n) else none
  | .unsigned n =>
    if c = 117 then some (numeral 10 n) else if c = 120 then some (numeral 16 n) else none

/-- The text of a format with its values, as long as these fit. -/
def reference : List UInt8 → List Value → Option (List UInt8)
  | [], _ => some []
  | c :: format, values =>
    if c ≠ 37 then (reference format values).map (c :: ·)
    else
      match format with
      | [] => some [37]
      | d :: format =>
        if d = 37 then (reference format values).map (37 :: ·)
        else if d ∉ conversions then (reference (d :: format) values).map (37 :: ·)
        else
          match values with
          | [] => none
          | v :: values => do
            let text ← convert d v
            let rest ← reference format values
            pure (text ++ rest)

/-- The word on the stack that stands for a value. -/
def Passes (m : ℕ → Option UInt8) : Value → ℕ → Prop
  | .string none, n => n = 0
  | .string (some s), n => n ≠ 0 ∧ IsString m (.addr n) s
  | .char c, n => UInt8.ofNat n = c
  | .int k, n => n < 4294967296 ∧ -2147483648 ≤ k ∧ k < 2147483648 ∧ n = k % 4294967296
  | .unsigned k, n => n = k ∧ k < 4294967296

section Reference

variable {c d : UInt8} {format : List UInt8} {values : List Value} {v : Value}

theorem reference_literal (hc : c ≠ 37) :
    reference (c :: format) values = (reference format values).map (c :: ·) := by
  rw [reference.eq_def]
  exact if_pos hc

theorem reference_unknown (hd : d ≠ 37) (hunknown : d ∉ conversions) :
    reference (37 :: d :: format) values = (reference (d :: format) values).map (37 :: ·) := by
  rw [reference.eq_def]
  simp [hd, hunknown]

theorem reference_directive (hd : d ∈ conversions) : reference (37 :: d :: format) (v :: values) =
    (convert d v).bind fun text ↦ (reference format values).bind fun rest ↦ some (text ++ rest) := by
  have hne : d ≠ 37 := by
    rintro rfl
    exact absurd hd (by decide)
  rw [reference.eq_def]
  simp [hd, hne]

end Reference

section Numerals

variable {base n room d : ℕ}

/-- The number that is written with these characters. -/
def valueOf (base : ℕ) (s : List UInt8) : ℕ :=
  s.foldl (fun v c ↦ v * base + if c < 97 then c.toNat - 48 else c.toNat - 87) 0

theorem valueOf_digits {ds : List ℕ} (hb : base ≤ 16) (hds : ∀ d ∈ ds, d < base) :
    valueOf base (ds.map digit).reverse = Nat.ofDigits base ds := by
  induction ds with
  | nil => rfl
  | cons d ds ih =>
    rw [List.forall_mem_cons] at hds
    have hvalue : ∀ d < 16, (if digit d < 97 then (digit d).toNat - 48 else (digit d).toNat - 87) = d := by
      decide
    rw [List.map_cons, List.reverse_cons, valueOf, List.foldl_append, List.foldl_cons, List.foldl_nil,
      ← valueOf, ih hds.2, hvalue d (by omega), Nat.ofDigits_cons, Nat.mul_comm, Nat.add_comm]

theorem digit_ne_zero : ∀ d < 16, d ≠ 0 → digit d ≠ digit 0 := by decide

/-- A numeral has the value of its number, and only zero has a leading zero. -/
theorem numeral_canonical (hb : 1 < base) (hb' : base ≤ 16) (n : ℕ) :
    valueOf base (numeral base n) = n ∧ ((numeral base n).head? = some (digit 0) → n = 0) := by
  unfold numeral
  split_ifs with hn
  · refine ⟨?_, fun _ ↦ hn⟩
    rw [hn]
    simp [valueOf, digit]
  · have hlt : ∀ d ∈ Nat.digits base n, d < base := fun d hd ↦ Nat.digits_lt_base hb hd
    rw [valueOf_digits hb' hlt, Nat.ofDigits_digits]
    refine ⟨rfl, ?_⟩
    have hne : Nat.digits base n ≠ [] := Nat.digits_ne_nil_iff_ne_zero.mpr hn
    rw [List.head?_reverse, List.getLast?_map, List.getLast?_eq_some_getLast hne, Option.map_some,
      Option.some.injEq]
    intro hzero
    exact absurd hzero (digit_ne_zero _ (by have := hlt _ (List.getLast_mem hne); omega)
      (Nat.getLast_digit_ne_zero base hn))

theorem decompose_eq (hb : 1 < base) (hn : n < base ^ room) :
    decompose base room n = some ((Nat.digits base n).map digit) := by
  induction room generalizing n with
  | zero =>
    obtain rfl : n = 0 := by simpa using hn
    simp [decompose]
  | succ room ih =>
    rw [decompose]
    split_ifs with hzero
    · simp [hzero]
    · rw [Nat.digits_def' hb (Nat.pos_of_ne_zero hzero), ih (Nat.div_lt_of_lt_mul ?_)]
      · rfl
      · rwa [Nat.pow_succ'] at hn

end Numerals

section Triples

variable {σ : Type} [Console σ] (V : View σ) {f : ℕ → Option UInt8} {R : Set ℕ} {w : List UInt8}
  {base n : ℕ} {c : UInt8}

theorem terminalWrite_char (c : UInt8) :
    Returns (V.Sees f R w) (terminalWrite (.literal [c]) 1) () (V.Sees f R (w ++ [c])) :=
  terminalWrite_literal V [c]

theorem writeChars_returns (cs : List UInt8) :
    Returns (V.Sees f R w) (writeChars cs) () (V.Sees f R (w ++ cs)) := by
  induction cs generalizing w with
  | nil =>
    rw [List.append_nil]
    exact .pure _
  | cons c cs ih =>
    rw [List.append_cons]
    exact (terminalWrite_char V c).seq ih

/-- The 32 characters of the buffer are enough for every number. -/
theorem printUnsigned_returns (hb : 1 < base) (hn : n < 4294967296) :
    Returns (V.Sees f R w) (printUnsigned n base) (numeral base n).length
      (V.Sees f R (w ++ numeral base n)) := by
  have hroom : n < base ^ 32 := hn.trans_le (Nat.pow_le_pow_left (show 2 ≤ base from hb) 32)
  unfold printUnsigned numeral
  split_ifs with hzero
  · exact (terminalWrite_char V 48).seq (.pure _)
  · rw [decompose_eq hb hroom, List.length_reverse]
    exact (writeChars_returns V _).seq (.pure _)

variable {m : ℕ → Option UInt8} {v : Value} {word : ℕ} {rest : List ℕ} {text : List UInt8}

theorem directive_percent (parameters : List ℕ) :
    Returns (V.Sees f R w) (directive 37 parameters) (1, 1, parameters) (V.Sees f R (w ++ [37])) :=
  (terminalWrite_char V 37).seq (.pure _)

/-- The `%` is written, and the character behind it is left to the next turn. -/
theorem directive_unknown (hc : c ≠ 37) (hunknown : c ∉ conversions) (parameters : List ℕ) :
    Returns (V.Sees f R w) (directive c parameters) (0, 1, parameters) (V.Sees f R (w ++ [37])) := by
  simp only [conversions, List.mem_cons, List.not_mem_nil, or_false, not_or] at hunknown
  obtain ⟨hs, hchar, hd, hi, hu, hx⟩ := hunknown
  unfold directive
  rw [if_neg hc, if_neg hs, if_neg hchar, if_neg (not_or.mpr ⟨hd, hi⟩), if_neg hu, if_neg hx]
  exact (terminalWrite_char V 37).seq (.pure _)

theorem directive_string {str : CharPtr} (hword : (if word = 0 then .literal nullText else .addr word) = str)
    (hs : IsString f str text) (hin : Inside R str (text.length + 1)) :
    Returns (V.Sees f R w) (directive 115 (word :: rest)) (1, text.length, rest)
      (V.Sees f R (w ++ text)) := by
  have hvaArg : Returns (V.Sees f R w) (vaArg (word :: rest)) (word, rest) (V.Sees f R w) := .pure _
  refine hvaArg.bind ?_
  dsimp only
  rw [hword]
  exact (strlen_returns V hs hin).bind
    ((terminalWrite_returns V hs.chars (hin.mono (Nat.le_succ _))).seq (.pure _))

theorem directive_int {k : ℤ} (hc : c = 100 ∨ c = 105) (hpass : Passes f (.int k) word) :
    Returns (V.Sees f R w) (directive c (word :: rest)) (1, (signedNumeral k).length, rest)
      (V.Sees f R (w ++ signedNumeral k)) := by
  obtain ⟨hlt, hlo, hhi, hmod⟩ := hpass
  have hvaArg : Returns (V.Sees f R w) (vaArg (word :: rest)) (word, rest) (V.Sees f R w) := .pure _
  have hne : c ≠ 37 ∧ c ≠ 115 ∧ c ≠ 99 := by rcases hc with rfl | rfl <;> decide
  unfold directive
  rw [if_neg hne.1, if_neg hne.2.1, if_neg hne.2.2, if_pos hc]
  refine hvaArg.bind ?_
  dsimp only
  unfold signedNumeral
  by_cases hneg : k < 0
  · have habs : sub32 0 word = k.natAbs := by
      unfold sub32
      omega
    rw [if_pos (show 2147483648 ≤ word by omega), if_pos hneg, habs, List.append_cons, List.length_cons,
      Nat.add_comm]
    exact (terminalWrite_char V 45).seq
      ((printUnsigned_returns V (by decide) (by omega)).bind (.pure _))
  · have habs : word = k.natAbs := by omega
    rw [if_neg (show ¬ 2147483648 ≤ word by omega), if_neg hneg, habs]
    exact (printUnsigned_returns V (by decide) (by omega)).bind (.pure _)

theorem directive_unsigned (hc : c = 117 ∨ c = 120) (hlt : word < 4294967296)
    (hbase : base = if c = 117 then 10 else 16) :
    Returns (V.Sees f R w) (directive c (word :: rest)) (1, (numeral base word).length, rest)
      (V.Sees f R (w ++ numeral base word)) := by
  have hvaArg : Returns (V.Sees f R w) (vaArg (word :: rest)) (word, rest) (V.Sees f R w) := .pure _
  rcases hc with rfl | rfl
  · rw [hbase]
    exact hvaArg.bind ((printUnsigned_returns V (by decide) hlt).bind (.pure _))
  · rw [hbase]
    exact hvaArg.bind ((printUnsigned_returns V (by decide) hlt).bind (.pure _))

/-- A directive with the value it asks for. -/
theorem directive_returns (hconv : convert c v = some text) (hpass : Passes f v word)
    (hin : ∀ s, v = .string (some s) → Inside R (.addr word) (s.length + 1)) :
    Returns (V.Sees f R w) (directive c (word :: rest)) (1, text.length, rest)
      (V.Sees f R (w ++ text)) := by
  cases v with
  | string s =>
    rw [convert, Option.ite_none_right_eq_some, Option.some.injEq] at hconv
    obtain ⟨rfl, rfl⟩ := hconv
    cases s with
    | none => exact directive_string V (if_pos hpass) (isString_literal (by decide) (by decide)) (inside_literal _ _)
    | some s => exact directive_string V (if_neg hpass.1) hpass.2 (hin s rfl)
  | char d =>
    rw [convert, Option.ite_none_right_eq_some, Option.some.injEq] at hconv
    obtain ⟨rfl, rfl⟩ := hconv
    have hvaArg : Returns (V.Sees f R w) (vaArg (word :: rest)) (word, rest) (V.Sees f R w) := .pure _
    have hchar : UInt8.ofNat word = d := hpass
    refine hvaArg.bind ?_
    dsimp only
    rw [hchar]
    exact (terminalWrite_char V d).seq (.pure _)
  | int k =>
    rw [convert, Option.ite_none_right_eq_some, Option.some.injEq] at hconv
    obtain ⟨hc, rfl⟩ := hconv
    exact directive_int V hc hpass
  | unsigned k =>
    obtain ⟨rfl, hlt⟩ := hpass
    rw [convert] at hconv
    split_ifs at hconv with hu hx
    · cases hconv
      exact directive_unsigned V (.inl hu) hlt (if_pos hu).symm
    · cases hconv
      exact directive_unsigned V (.inr hx) hlt (if_neg hu).symm

variable {p : CharPtr} {d : UInt8} {fuel written k r : ℕ} {parameters parameters' : List ℕ}
  {w' out : List UInt8} {Q : σ → Prop} {values : List Value} {words : List ℕ} {format : List UInt8}

theorem printfLoop_end (hc : p.charAt f 0 = some 0) (hin : Inside R p 1) :
    Returns (V.Sees f R w) (printfLoop (fuel + 1) p written parameters) written (V.Sees f R w) :=
  (readChar_returns V hc (hin 0 Nat.one_pos)).bind (.ite_pos rfl (.pure _))

theorem printfLoop_literal (hc : p.charAt f 0 = some c) (hin : Inside R p 1) (hne : c ≠ 0) (hlit : c ≠ 37)
    (hrest : Returns (V.Sees f R (w ++ [c]))
      (printfLoop fuel (p.add 1) (w32 (written + 1)) parameters) r Q) :
    Returns (V.Sees f R w) (printfLoop (fuel + 1) p written parameters) r Q := by
  have hwrite : Returns (V.Sees f R w) (terminalWrite p 1) () (V.Sees f R (w ++ [c])) := by
    refine @terminalWrite_returns _ _ V _ _ _ [c] _ ?_ hin
    intro i hi
    obtain rfl : i = 0 := Nat.lt_one_iff.mp hi
    exact hc
  exact (readChar_returns V hc (hin 0 Nat.one_pos)).bind
    (.ite_neg hne (.ite_pos hlit (hwrite.seq hrest)))

theorem printfLoop_directive (hc : p.charAt f 0 = some 37) (hd : p.charAt f 1 = some d)
    (hin : Inside R p 2) (hdir : Returns (V.Sees f R w) (directive d parameters) (k, n, parameters')
      (V.Sees f R w'))
    (hrest : Returns (V.Sees f R w')
      (printfLoop fuel (p.add (1 + k)) (w32 (written + n)) parameters') r Q) :
    Returns (V.Sees f R w) (printfLoop (fuel + 1) p written parameters) r Q := by
  refine (readChar_returns V hc (hin 0 Nat.two_pos)).bind ?_
  refine .ite_neg (by decide) (.ite_neg (by decide) ?_)
  exact (readChar_returns V hd (hin 1 Nat.one_lt_two)).bind (hdir.bind hrest)

/-- The text `text` has been written and counted, `out` is going to be. -/
theorem returns_append {P : σ → Prop} {x : Prog σ ℕ}
    (h : Returns P x (w32 (w32 (written + text.length) + out.length)) (V.Sees f R (w ++ text ++ out))) :
    Returns P x (w32 (written + (text ++ out).length)) (V.Sees f R (w ++ (text ++ out))) := by
  rwa [w32_w32_add, ← List.length_append, List.append_assoc] at h

/-- Every turn of the loop takes care of one character of the format at least. -/
theorem printfLoop_returns (href : reference format values = some out) (hfuel : format.length < fuel)
    (hp : IsString f p format) (hin : Inside R p (format.length + 1))
    (hwords : List.Forall₂ (Passes f) values words)
    (hargs : ∀ s n, (Value.string (some s), n) ∈ values.zip words → Inside R (.addr n) (s.length + 1))
    (hwritten : written < 4294967296) :
    Returns (V.Sees f R w) (printfLoop fuel p written (words ++ rest)) (w32 (written + out.length))
      (V.Sees f R (w ++ out)) := by
  induction format, values using reference.induct generalizing p words written w out fuel with
  | case1 values =>
    cases href
    obtain ⟨fuel, rfl⟩ := Nat.exists_eq_succ_of_ne_zero (Nat.ne_zero_of_lt hfuel)
    have hzero : w32 (written + ([] : List UInt8).length) = written := w32_of_lt hwritten
    rw [hzero, List.append_nil]
    exact printfLoop_end V hp.stop hin
  | case2 c format values hc ih =>
    rw [reference_literal hc, Option.map_eq_some_iff] at href
    obtain ⟨out, href, rfl⟩ := href
    obtain ⟨fuel, rfl⟩ := Nat.exists_eq_succ_of_ne_zero (Nat.ne_zero_of_lt hfuel)
    rw [List.length_cons] at hfuel hin
    have hne : c ≠ 0 := by
      rintro rfl
      exact hp.noNul List.mem_cons_self
    refine printfLoop_literal V hp.head (hin.mono (by omega)) hne hc (@returns_append _ _ V _ _ _ [c] _ _ _ _ ?_)
    exact ih href (by omega) hp.tail (Inside.add (hin.mono (by omega))) hwords hargs (w32_lt _)
  | case3 c values hc =>
    obtain rfl : c = 37 := not_not.mp hc
    cases href
    obtain ⟨fuel, rfl⟩ := Nat.exists_eq_succ_of_ne_zero (Nat.ne_zero_of_lt (Nat.lt_of_succ_lt hfuel))
    obtain ⟨fuel, rfl⟩ := Nat.exists_eq_succ_of_ne_zero (Nat.ne_zero_of_lt (Nat.lt_of_succ_lt_succ hfuel))
    refine printfLoop_directive V hp.head hp.stop hin (directive_unknown V (by decide) (by decide) _) ?_
    refine printfLoop_end V ?_ (Inside.add hin)
    rw [charAt_add]
    exact hp.stop
  | case4 c values hc format ih =>
    obtain rfl : c = 37 := not_not.mp hc
    obtain ⟨out, hrest, rfl⟩ := Option.map_eq_some_iff.mp href
    obtain ⟨fuel, rfl⟩ := Nat.exists_eq_succ_of_ne_zero (Nat.ne_zero_of_lt hfuel)
    rw [List.length_cons, List.length_cons] at hfuel hin
    have htail := hp.tail.tail
    rw [add_add] at htail
    refine printfLoop_directive V hp.head (hp.chars 1 (by simp)) (hin.mono (by omega))
      (directive_percent V _) (@returns_append _ _ V _ _ _ [37] _ _ _ _ ?_)
    exact ih hrest (by omega) htail (Inside.add (hin.mono (by omega))) hwords hargs (w32_lt _)
  | case5 c values hc d format hd hunknown ih =>
    obtain rfl : c = 37 := not_not.mp hc
    rw [reference_unknown hd hunknown, Option.map_eq_some_iff] at href
    obtain ⟨out, href, rfl⟩ := href
    obtain ⟨fuel, rfl⟩ := Nat.exists_eq_succ_of_ne_zero (Nat.ne_zero_of_lt hfuel)
    rw [List.length_cons] at hfuel hin
    refine printfLoop_directive V hp.head (hp.chars 1 (by simp)) (hin.mono (by simp))
      (directive_unknown V hd hunknown _) (@returns_append _ _ V _ _ _ [37] _ _ _ _ ?_)
    exact ih href (by omega) hp.tail (Inside.add (hin.mono (by omega))) hwords hargs (w32_lt _)
  | case6 c hc d format hd hconv =>
    obtain rfl : c = 37 := not_not.mp hc
    rw [reference.eq_def] at href
    simp [hd, not_not.mp hconv] at href
  | case7 c hc d format hd hconv v values ih =>
    obtain rfl : c = 37 := not_not.mp hc
    rw [reference_directive (not_not.mp hconv), Option.bind_eq_some_iff] at href
    obtain ⟨text, htext, href⟩ := href
    obtain ⟨out, hrest, heq⟩ := Option.bind_eq_some_iff.mp href
    cases heq
    obtain ⟨fuel, rfl⟩ := Nat.exists_eq_succ_of_ne_zero (Nat.ne_zero_of_lt hfuel)
    rw [List.length_cons, List.length_cons] at hfuel hin
    cases hwords with
    | cons hpass hwords =>
      rw [List.zip_cons_cons] at hargs
      have htail := hp.tail.tail
      rw [add_add] at htail
      refine printfLoop_directive V hp.head (hp.chars 1 (by simp)) (hin.mono (by omega))
        (directive_returns V htext hpass ?_) (returns_append V ?_)
      · rintro s rfl
        exact hargs s _ List.mem_cons_self
      · exact ih hrest (by omega) htail (Inside.add (hin.mono (by omega))) hwords
          (fun s n h ↦ hargs s n (List.mem_cons_of_mem _ h)) (w32_lt _)

theorem printf_returns (href : reference format values = some out) (hp : IsString f p format)
    (hin : Inside R p (format.length + 1)) (hwords : List.Forall₂ (Passes f) values words)
    (hargs : ∀ s n, (Value.string (some s), n) ∈ values.zip words → Inside R (.addr n) (s.length + 1)) :
    Returns (V.Sees f R w) (printf p (words ++ rest)) (w32 out.length) (V.Sees f R (w ++ out)) := by
  have hloop : Returns (V.Sees f R w) (printfLoop loopBound p 0 (words ++ rest)) (w32 (0 + out.length))
      (V.Sees f R (w ++ out)) := printfLoop_returns V href hp.short hp hin hwords hargs (by decide)
  rwa [Nat.zero_add] at hloop

end Triples

section Formats

variable {m : ℕ → Option UInt8} {p : CharPtr} {format out : List UInt8} {values : List Value}
  {words : List ℕ}

/-- The bytes of the strings among the values. -/
def argumentBytes (values : List Value) (words : List ℕ) : Set ℕ :=
  {a | ∃ s n, (Value.string (some s), n) ∈ values.zip words ∧ a ∈ (CharPtr.addr n).bytesOf s}

/-- `printf` writes what the reference formatter says, and returns how much that is. -/
theorem printf_formats (hp : IsString m p format) (hwords : List.Forall₂ (Passes m) values words)
    (href : reference format values = some out) (hout : out.length < 2147483648) (rest : List ℕ) :
    Runs m (printf p (words ++ rest)) out.length out
      (p.bytesOf format ∪ argumentBytes values words) := by
  have hlen : w32 out.length = out.length := w32_of_lt (by omega)
  rw [← hlen]
  refine runs_of_returns (printf_returns watchedView href hp ?_ hwords ?_)
  · exact (inside_bytesOf p format).subset Set.subset_union_left
  · intro s n h i hi a ha
    exact .inr ⟨s, n, h, i, Nat.le_of_lt_succ hi, ha⟩

/-- `%d%%%s%` -/
def shortFormat : List UInt8 := [37, 100, 37, 37, 37, 115, 37]

/-- Memory with this format, and nothing besides. -/
def formatMemory (a : ℕ) : Option UInt8 :=
  if a < 0x1000 then none else (shortFormat ++ [0])[a - 0x1000]?

theorem printf_formats_shortFormat :
    ∃ R, Runs formatMemory (printf (.addr 0x1000) [2147483648, 0]) 19
      ([45, 50, 49, 52, 55, 52, 56, 51, 54, 52, 56] ++ [37] ++ nullText ++ [37]) R := by
  have hp : IsString formatMemory (.addr 0x1000) shortFormat :=
    ⟨by decide, by decide, by decide, by decide⟩
  have hwords : List.Forall₂ (Passes formatMemory) [.int (-2147483648), .string none]
      [2147483648, 0] := .cons ⟨by decide, by decide, by decide, by decide⟩ (.cons rfl .nil)
  have href : reference shortFormat [.int (-2147483648), .string none] =
      some ([45, 50, 49, 52, 55, 52, 56, 51, 54, 52, 56] ++ [37] ++ nullText ++ [37]) := by
    decide
  exact ⟨_, printf_formats hp hwords href (by decide) []⟩

end Formats

end KevOS.Libc.Format
