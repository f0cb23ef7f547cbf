import KevOS.Vmm.Model

namespace KevOS.Vmm.Windows

open Lib.Program Lib.ByteMemory Lib.Paging Machine

/-- The addresses `A` lead to a byte each, by way of the bytes `T` only, and to none of those. -/
structure Steady (m₀ : Bytes) (dir : ℕ) (A T : ℕ → Prop) : Prop where
  lt : ∀ a, A a → a < 4294967296
  congr : ∀ m, (∀ q, T q → m q = m₀ q) → ∀ a, A a → translate m dir a = translate m₀ dir a
  apart : ∀ a, A a → ∃ p, translate m₀ dir a = some p ∧ ¬ T p
  inj : ∀ a b p, A a → A b → translate m₀ dir a = some p → translate m₀ dir b = some p → a = b

section Windows

variable {m₀ m : Bytes} {dir a b p : ℕ} {A T : ℕ → Prop} [DecidablePred A] {v : Vm} {x : UInt8}

/-- The byte at an address of `A`. -/
def byteAt (m₀ : Bytes) (dir : ℕ) (A : ℕ → Prop) [DecidablePred A] (m : Bytes) (a : ℕ) : UInt8 :=
  if A a then ((translate m₀ dir a).map m).getD 0 else 0

theorem byteAt_of_translate (ha : A a) (hp : translate m₀ dir a = some p) :
    byteAt m₀ dir A m a = m p := by
  rw [byteAt, if_pos ha, hp]
  rfl

theorem byteAt_congr {m₁ : Bytes} (h : ∀ a, A a → translate m₁ dir a = translate m₀ dir a) :
    byteAt m₁ dir A m = byteAt m₀ dir A m := by
  funext a
  by_cases ha : A a
  · rw [byteAt, byteAt, h a ha]
  · rw [byteAt, byteAt, if_neg ha, if_neg ha]

theorem byteAt_update (h : Steady m₀ dir A T) (ha : A a) (hp : translate m₀ dir a = some p) :
    byteAt m₀ dir A (Function.update m p x) = Function.update (byteAt m₀ dir A m) a x := by
  funext b
  by_cases hb : A b
  · obtain ⟨q, hq, -⟩ := h.apart b hb
    rw [byteAt_of_translate hb hq]
    by_cases hba : b = a
    · subst hba
      cases hp.symm.trans hq
      rw [Function.update_self, Function.update_self]
    · have hne : q ≠ p := by
        rintro rfl
        exact hba (h.inj b a q hb ha hq hp)
      rw [Function.update_of_ne hne, Function.update_of_ne hba, byteAt_of_translate hb hq]
  · have hba : b ≠ a := fun heq ↦ hb (heq ▸ ha)
    rw [Function.update_of_ne hba, byteAt, byteAt, if_neg hb, if_neg hb]

/-- Through such addresses memory is plain bytes. -/
def steadyWindow (h : Steady m₀ dir A T) : Window Vm where
  inv v := v.cr3 = dir ∧ ∀ q, T q → v.mem q = m₀ q
  acc _ := A
  view v := byteAt m₀ dir A v.mem
  load8_eq {v a} hv ha := by
    obtain ⟨rfl, hsame⟩ := hv
    obtain ⟨p, hp, -⟩ := h.apart a ha
    rw [byteAt_of_translate ha hp]
    exact Vm.load8_ok (h.lt a ha) ((h.congr v.mem hsame a ha).trans hp)
  store8_ok {v a} x hv ha := by
    obtain ⟨rfl, hsame⟩ := hv
    obtain ⟨p, hp, hout⟩ := h.apart a ha
    refine ⟨_, Vm.store8_ok (h.lt a ha) ((h.congr v.mem hsame a ha).trans hp), ⟨rfl, fun q hq ↦ ?_⟩, rfl,
      byteAt_update h ha hp⟩
    have hne : q ≠ p := by
      rintro rfl
      exact hout hq
    exact (Function.update_of_ne hne _ _).trans (hsame q hq)

end Windows

end KevOS.Vmm.Windows
