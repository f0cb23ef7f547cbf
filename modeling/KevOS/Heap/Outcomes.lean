import KevOS.Heap.Growth

namespace KevOS.Heap.Outcomes

open Lib.Program Lib.ByteMemory Lib.Tiling Machine Blocks HeapList Allocate Growth

variable {τ : Type} [ByteMem τ] [PageSource τ] [PageMapper τ] {G : GrowWindow τ}
  {s s' : HeapState τ} {bs bs' : List Block} {hi n r p fuel : ℕ} {e : Stop}

/-- A search that would find a block, with too little fuel for it. -/
theorem search_error_of_place (h : Represented G s bs hi) (hr : r + 24 < 4294967296)
    (hp : place r bs = some (p, bs')) (hrun : (search r fuel (firstAddr bs)).run s = .error e s') :
    s' = s := by
  obtain ⟨a, b, t, rfl, ha, hb, -, -⟩ := exists_of_place hp
  by_cases hf : fuel ≤ a.length
  · rw [search_short (l := []) G.toWindow h.sees h.laid h.blocks ha hf] at hrun
    cases hrun
    rfl
  · obtain ⟨fuel, rfl⟩ := Nat.exists_eq_add_of_le' (show a.length + 1 ≤ fuel by omega)
    obtain ⟨m', ht, -, -⟩ := takeBlock_returns G.toWindow (e := ⟨kheapStart, hi⟩) h.laid h.blocks hb hr
    obtain ⟨t', htake, -⟩ := ht s h.sees
    rw [Nat.add_comm a.length, ← Nat.add_assoc,
      search_skips (l := []) G.toWindow h.sees h.laid h.blocks ha,
      search_fits G.toWindow h.sees h.laid h.blocks hb, htake] at hrun
    cases hrun

/-- One round of a search that finds nothing: it runs out of fuel, the heap cannot grow, or it
goes on in the heap that has grown. -/
theorem search_round (h : Represented G s bs hi) (hr : 0 < pagesNeeded r)
    (hp : place r bs = none) (fuel : ℕ) :
    (search r fuel (firstAddr bs)).run s = .error .fuel s ∨
    (∃ e s', (kheapExpand (pagesNeeded r)).run s = .error e s' ∧
      (search r fuel (firstAddr bs)).run s = .error e s') ∨
    ∃ s₁ fuel', (∃ s₀, (kheapExpand (pagesNeeded r)).run s = .ok () s₀) ∧ fuel' < fuel ∧
      Represented G s₁ (grown r hi bs) (hi + pagesNeeded r * pageSize) ∧
      (search r fuel (firstAddr bs)).run s =
        (search r fuel' (firstAddr (grown r hi bs))).run s₁ := by
  obtain ⟨l, c, hlast⟩ := h.exists_last
  have hlen : bs.length = l.length + 1 := by rw [hlast, List.length_append, List.length_singleton]
  by_cases hf : fuel ≤ l.length
  · left
    subst hlast
    refine search_short (l := []) G.toWindow h.sees h.laid h.blocks (fun d hd ↦ ?_) hf
    exact place_eq_none.mp hp d (List.mem_append_left _ hd)
  · right
    obtain ⟨fuel, rfl⟩ := Nat.exists_eq_add_of_le' (show bs.length ≤ fuel by omega)
    cases hexp : (kheapExpand (pagesNeeded r)).run s with
    | error e s' =>
      left
      refine ⟨e, s', rfl, ?_⟩
      subst hlast
      rw [hlen, search_grows G.toWindow h.sees h.laid h.blocks hp]
      refine run_bind_error ?_
      rw [extend, run_get_bind]
      exact run_bind_error hexp
    | ok u s₁ =>
      right
      obtain ⟨s₂, hb, hgo⟩ := search_grown hr h hp hexp
      exact ⟨s₂, fuel, ⟨s₁, rfl⟩, by omega, hb.represented, hgo fuel⟩

/-- Whenever `kmalloc` stops short, its list is intact, or it stopped while the heap grew. -/
theorem kmalloc_error (hn : ValidSize n) (h : Represented G s bs hi)
    (hrun : (kmalloc fuel n).run s = .error e s') :
    (∃ bs' hi', Represented G s' bs' hi') ∨
      (kheapExpand (pagesNeeded (roundUp n))).run s = .error e s' := by
  rw [kmalloc_eq_search hn.pos h] at hrun
  cases hp : place (roundUp n) bs with
  | some q =>
    rw [search_error_of_place h hn.add_lt hp hrun]
    exact .inl ⟨bs, hi, h⟩
  | none =>
    obtain hshort | ⟨e', t, hexp, hstop⟩ | ⟨s₁, fuel', -, -, h₁, heq⟩ :=
      search_round h hn.pagesNeeded_pos hp fuel
    · rw [hshort] at hrun
      cases hrun
      exact .inl ⟨bs, hi, h⟩
    · rw [hstop] at hrun
      cases hrun
      exact .inr hexp
    · rw [heq] at hrun
      obtain ⟨b, hb, hfit⟩ : ∃ b ∈ grown (roundUp n) hi bs, Fits (roundUp n) b :=
        exists_fits_grown hn.lt
      cases hp' : place (roundUp n) (grown (roundUp n) hi bs) with
      | none => exact absurd hfit (place_eq_none.mp hp' b hb)
      | some q =>
        rw [search_error_of_place h₁ hn.add_lt hp' hrun]
        exact .inl ⟨_, _, h₁⟩

/-- A request that no block can hold, however large the heap gets, is never served. -/
theorem search_never (hr : 0 < pagesNeeded r)
    (hbig : ∀ bs hi, Shape bs hi → ∀ b ∈ bs, ¬ Fits r b) (h : Represented G s bs hi) :
    (∀ p s', (search r fuel (firstAddr bs)).run s ≠ .ok p s') ∧
    ∀ e s', (search r fuel (firstAddr bs)).run s = .error e s' →
      ∃ t bs' hi', Represented G t bs' hi' ∧
        (s' = t ∨ (kheapExpand (pagesNeeded r)).run t = .error e s') := by
  induction fuel using Nat.strong_induction_on generalizing s bs hi with
  | _ fuel ih =>
    have hp : place r bs = none := place_eq_none.mpr (hbig bs hi h.shape)
    obtain hshort | ⟨e', t, hexp, hstop⟩ | ⟨s₁, fuel', -, hlt, h₁, heq⟩ := search_round h hr hp fuel
    · rw [hshort]
      refine ⟨fun p s' hrun ↦ (by cases hrun), fun e s' hrun ↦ ?_⟩
      cases hrun
      exact ⟨s, bs, hi, h, .inl rfl⟩
    · rw [hstop]
      refine ⟨fun p s' hrun ↦ (by cases hrun), fun e s' hrun ↦ ?_⟩
      cases hrun
      exact ⟨s, bs, hi, h, .inr hexp⟩
    · rw [heq]
      exact ih fuel' hlt h₁

end KevOS.Heap.Outcomes
