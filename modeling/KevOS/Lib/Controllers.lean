import Mathlib.Data.Finset.Max
import Mathlib.Data.Finset.Card
import Mathlib.Logic.Function.Basic

namespace KevOS.Lib.Controllers

open Function

variable {ι κ : Type} [DecidableEq ι] [LinearOrder κ]

/-- Without the request of the highest priority, that of the smallest number. -/
def clearHighest (s : Finset κ) : Finset κ := if h : s.Nonempty then s.erase (s.min' h) else s

/-- A controller takes the highest of its requests out of service. -/
def endOfInterrupt (c : ι) (p : ι → Finset κ) : ι → Finset κ := update p c (clearHighest (p c))

/-- The controllers with a request in service have but one, and are still to be sent an end of
interrupt. -/
def Owed (p : ι → Finset κ) (cs : List ι) : Prop := ∀ i, p i = ∅ ∨ i ∈ cs ∧ (p i).card ≤ 1

variable {p : ι → Finset κ} {c : ι} {cs : List ι} {s : Finset κ}

theorem clearHighest_of_card_le_one (h : s.card ≤ 1) : clearHighest s = ∅ := by
  unfold clearHighest
  split
  case isTrue hs =>
    rw [← Finset.card_eq_zero, Finset.card_erase_of_mem (s.min'_mem hs)]
    omega
  case isFalse hs => exact Finset.not_nonempty_iff_eq_empty.mp hs

theorem endOfInterrupt_self (h : Owed p cs) : endOfInterrupt c p c = ∅ := by
  rw [endOfInterrupt, update_self]
  apply clearHighest_of_card_le_one
  rcases h c with hc | hc
  · rw [hc]
    exact Nat.zero_le 1
  · exact hc.2

theorem endOfInterrupt_of_ne {i : ι} (h : i ≠ c) : endOfInterrupt c p i = p i := update_of_ne h _ _

omit [DecidableEq ι] [LinearOrder κ] in
theorem owed_nil : Owed p [] ↔ ∀ i, p i = ∅ := by simp [Owed]

/-- One of the ends of interrupt has been sent. -/
theorem Owed.endOfInterrupt (h : Owed p (c :: cs)) : Owed (endOfInterrupt c p) cs := by
  intro i
  by_cases hi : i = c
  · left
    rw [hi]
    exact endOfInterrupt_self h
  · rw [endOfInterrupt_of_ne hi]
    rcases h i with hempty | ⟨hmem, hcard⟩
    · exact .inl hempty
    · exact .inr ⟨(List.mem_cons.mp hmem).resolve_left hi, hcard⟩

/-- An end of interrupt too many does no harm. -/
theorem Owed.extra (h : Owed p cs) (c : ι) : Owed (Controllers.endOfInterrupt c p) cs := by
  have hcons : Owed p (c :: cs) := fun i ↦ (h i).imp_right fun hi ↦ ⟨.tail _ hi.1, hi.2⟩
  exact hcons.endOfInterrupt

theorem Owed.extras (h : Owed p cs) (ds : List ι) :
    Owed (ds.foldl (fun p c ↦ Controllers.endOfInterrupt c p) p) cs := by
  induction ds generalizing p with
  | nil => exact h
  | cons d ds ih => exact ih (h.extra d)

end KevOS.Lib.Controllers
