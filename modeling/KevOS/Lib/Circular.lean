import Mathlib.Data.List.Chain
import Mathlib.Data.List.Iterate
import Mathlib.Data.List.Nodup

namespace KevOS.Lib.Circular

variable {α : Type*}

/-- From `a` the links go through `t` and back to `a`, and meet nothing twice. -/
structure Loop (next : α → α) (a : α) (t : List α) : Prop where
  chain : List.IsChain (fun x y ↦ next x = y) (a :: t ++ [a])
  nodup : (a :: t).Nodup

variable {next next' : α → α} {a b c e x : α} {t l : List α}

theorem isChain_congr (h : ∀ x ∈ l, next' x = next x)
    (hc : List.IsChain (fun x y ↦ next x = y) (l ++ [e])) :
    List.IsChain (fun x y ↦ next' x = y) (l ++ [e]) := by
  induction l with
  | nil => simp
  | cons b l ih =>
    rw [List.forall_mem_cons] at h
    cases l with
    | nil => simpa [h.1] using hc
    | cons d l =>
      simp only [List.cons_append, List.isChain_cons_cons] at hc ih ⊢
      exact ⟨h.1.trans hc.1, ih h.2 hc.2⟩

theorem iterate_of_isChain (h : List.IsChain (fun x y ↦ next x = y) (a :: l)) :
    List.iterate next a (l.length + 1) = a :: l := by
  induction l generalizing a with
  | nil => rfl
  | cons b l ih =>
    rw [List.isChain_cons_cons] at h
    obtain ⟨hab, hl⟩ := h
    rw [List.length_cons, List.iterate, hab, ih hl]

theorem Loop.self (h : next a = a) : Loop next a [] where
  chain := by simpa using h
  nodup := List.nodup_singleton a

theorem Loop.congr (h : Loop next a t) (ht : ∀ x ∈ a :: t, next' x = next x) :
    Loop next' a t := ⟨isChain_congr ht h.chain, h.nodup⟩

/-- A new node right after the one the loop starts from. -/
theorem Loop.insert (h : Loop next a t) (hb : b ∉ a :: t) (hab : next' a = b)
    (hba : next' b = next a) (ht : ∀ x ∈ t, next' x = next x) : Loop next' a (b :: t) where
  chain := by
    have hchain := h.chain
    rw [List.cons_append, List.cons_append, List.isChain_cons_cons]
    refine ⟨hab, ?_⟩
    cases t with
    | nil => simpa [hba] using hchain
    | cons c t =>
      simp only [List.cons_append, List.isChain_cons_cons] at hchain ⊢
      exact ⟨hba.trans hchain.1, isChain_congr ht hchain.2⟩
  nodup := by
    have hnodup := h.nodup
    simp only [List.nodup_cons, List.mem_cons, not_or] at hnodup hb ⊢
    exact ⟨⟨Ne.symm hb.1, hnodup.1⟩, hb.2, hnodup.2⟩

theorem Loop.iterate_append (h : Loop next a t) :
    List.iterate next a (t.length + 1) ++ [next^[t.length + 1] a] = a :: t ++ [a] := by
  have hiter := iterate_of_isChain (l := t ++ [a]) h.chain
  rw [List.length_append, List.length_singleton, List.iterate_add] at hiter
  exact hiter

theorem Loop.iterate (h : Loop next a t) : List.iterate next a (t.length + 1) = a :: t :=
  (List.append_inj' h.iterate_append rfl).1

theorem Loop.period (h : Loop next a t) : next^[t.length + 1] a = a := by
  simpa using (List.append_inj' h.iterate_append rfl).2

theorem Loop.rotate (h : Loop next a t) (hc : c ∈ a :: t) :
    ∃ r, Loop next c r ∧ (c :: r).Perm (a :: t) := by
  obtain ⟨u, v, huv⟩ := List.append_of_mem hc
  have hchain := h.chain
  have hnodup := h.nodup
  cases u with
  | nil =>
    cases huv
    exact ⟨t, h, .refl _⟩
  | cons d u =>
    rw [List.cons_append, List.cons.injEq] at huv
    obtain ⟨rfl, rfl⟩ := huv
    have hperm : (c :: v ++ a :: u).Perm (a :: u ++ c :: v) := List.perm_append_comm
    refine ⟨v ++ a :: u, ⟨?_, hperm.nodup_iff.mpr hnodup⟩, hperm⟩
    have hsplit : a :: (u ++ c :: v) ++ [a] = a :: u ++ c :: (v ++ [a]) := by simp
    rw [hsplit, List.isChain_split] at hchain
    have hjoin : c :: (v ++ a :: u) ++ [c] = c :: v ++ a :: (u ++ [c]) := by simp
    rw [hjoin, List.isChain_split]
    exact ⟨hchain.2, hchain.1⟩

theorem Loop.next_mem (h : Loop next a t) (hc : c ∈ a :: t) : next c ∈ a :: t := by
  obtain ⟨r, hr, hperm⟩ := h.rotate hc
  rw [← hperm.mem_iff]
  cases r with
  | nil =>
    have hper : next c = c := hr.period
    rw [hper]
    exact List.mem_cons_self
  | cons d r =>
    have hchain := hr.chain
    simp only [List.cons_append, List.isChain_cons_cons] at hchain
    rw [hchain.1]
    simp

/-- One turn, from any node, comes by every node once. -/
theorem Loop.turn (h : Loop next a t) (hc : c ∈ a :: t) :
    (List.iterate next c (t.length + 1)).Perm (a :: t) := by
  obtain ⟨r, hr, hperm⟩ := h.rotate hc
  have hlen := hperm.length_eq
  rw [List.length_cons, List.length_cons] at hlen
  rw [← hlen, hr.iterate]
  exact hperm

theorem Loop.existsUnique_iterate (h : Loop next a t) (hc : c ∈ a :: t) (hx : x ∈ a :: t) :
    ∃! k, k < t.length + 1 ∧ next^[k] c = x := by
  have hperm := h.turn hc
  have hnodup := hperm.nodup_iff.mpr h.nodup
  rw [← hperm.mem_iff, List.mem_iterate] at hx
  obtain ⟨k, hk, rfl⟩ := hx
  refine ⟨k, ⟨hk, rfl⟩, fun m hm ↦ ?_⟩
  rw [← List.range_map_iterate] at hnodup
  exact List.inj_on_of_nodup_map hnodup (List.mem_range.mpr hm.1) (List.mem_range.mpr hk) hm.2

end KevOS.Lib.Circular
