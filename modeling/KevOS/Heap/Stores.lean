import KevOS.Heap.Outcomes

namespace KevOS.Heap.Stores

open Lib.Program Lib.ByteMemory Lib.Tiling Machine Blocks Growth

/-- A machine with the addresses of the stores that the heap makes, also of those that fault. -/
structure Logged (τ : Type) where
  mem : τ
  stores : List ℕ

variable {τ α : Type}

/-- Run a program of the machine without a log. -/
def unlogged (x : Prog τ α) : Prog (Logged τ) α := zoom Logged.mem (fun t m ↦ { t with mem := m }) x

def logStore [ByteMem τ] (a : ℕ) (v : UInt8) : Prog (Logged τ) Unit := do
  modify fun t ↦ { t with stores := w32 a :: t.stores }
  unlogged (store8 a v)

instance [ByteMem τ] : ByteMem (Logged τ) := ⟨fun a ↦ unlogged (load8 a), logStore⟩

instance [PageSource τ] : PageSource (Logged τ) := ⟨unlogged allocPage⟩

instance [PageMapper τ] : PageMapper (Logged τ) :=
  ⟨fun phys virt flags ↦ unlogged (mapPage phys virt flags)⟩

/-- The same state of the heap, with nothing in the log. -/
def logFrom (s : HeapState τ) : HeapState (Logged τ) := ⟨⟨s.mem, []⟩, s.vars⟩

/-- Every store so far went to the heap. -/
def StoresInHeap (s : HeapState (Logged τ)) : Prop :=
  ∀ a ∈ s.mem.stores, InHeap s.vars.heapCurrentEnd a

section Window

variable [ByteMem τ] [PageSource τ] [PageMapper τ] {G : GrowWindow τ} {s s' : HeapState (Logged τ)}
  {bs : List Block} {hi pages : ℕ} {e : Stop}

omit [ByteMem τ] in
/-- Adding a page stores nothing on the heap's behalf. -/
theorem backPage_unlogged (virt : ℕ) :
    (backPage virt : Prog (Logged τ) Unit) = unlogged (backPage virt) := by
  have hbind := @zoom_bind _ (Logged τ) _ _ Logged.mem (fun t m ↦ { t with mem := m })
    (fun _ _ ↦ rfl) (fun _ _ _ ↦ rfl) allocPage fun phys ↦
      if phys = 0 then throw .halt else mapPage phys virt 7
  refine Eq.trans ?_ hbind.symm
  rw [backPage]
  refine congrArg (allocPage >>= ·) ?_
  funext phys
  split <;> rfl

variable (G) in
/-- The window of the machine, as long as every store went to mapped memory. -/
def loggedWindow : GrowWindow (Logged τ) where
  inv t := G.inv t.mem ∧ ∀ a, a ∈ t.stores ∨ G.acc t.mem a → G.acc t.mem a ∧ a < 4294967296
  acc t := G.acc t.mem
  view t := G.view t.mem
  load8_eq h ha := zoom_ok (G.load8_eq h.1 ha)
  store8_ok {t a} v h ha := by
    obtain ⟨m, hr, hinv, hacc, hview⟩ := G.store8_ok v h.1 ha
    have hw : w32 a = a := w32_of_lt (h.2 a (.inr ha)).2
    refine ⟨⟨m, w32 a :: t.stores⟩, ?_, ⟨hinv, ?_⟩, hacc, hview⟩
    · change (logStore a v).run t = _
      rw [logStore, run_modify_bind]
      exact zoom_ok hr
    · rw [hacc, hw]
      rintro b (hb | hb)
      · rcases List.mem_cons.mp hb with rfl | hb
        · exact h.2 b (.inr ha)
        · exact h.2 b (.inl hb)
      · exact h.2 b (.inr hb)
  grow_ok {t t' hi} h hacc hlo hal hr := by
    rw [backPage_unlogged] at hr
    obtain ⟨m, hm, rfl⟩ := zoom_eq_ok hr
    obtain ⟨hlim, hinv, hacc', hview⟩ := G.grow_ok h.1 hacc hlo hal hm
    refine ⟨hlim, ⟨hinv, fun a ha ↦ ?_⟩, hacc', hview⟩
    have hlimit := vmmPageTables_lt
    have hin : InHeap (hi + 4096) a := by
      rcases ha with ha | ha
      · have hold := (h.2 a (.inl ha)).1
        rw [hacc] at hold
        exact ⟨hold.1, hold.2.trans (Nat.lt_add_of_pos_right (by decide))⟩
      · rwa [hacc'] at ha
    rw [hacc']
    exact ⟨hin, hin.2.trans (by omega)⟩

theorem loggedWindow_inv {m : τ} (hinv : G.inv m) (hacc : G.acc m = InHeap kheapStart) :
    (loggedWindow G).inv ⟨m, []⟩ := by
  refine ⟨hinv, fun a ha ↦ ?_⟩
  rcases ha with ha | ha
  · cases ha
  · rw [hacc] at ha
    exact absurd ha.1 (not_le.mpr ha.2)

theorem storesInHeap_of_represented (h : Represented (loggedWindow G) s bs hi) : StoresInHeap s := by
  intro a ha
  have hin := (h.inv.2 a (.inl ha)).1
  rw [h.vars]
  rwa [show G.acc s.mem.mem = InHeap hi from h.acc] at hin

/-- A heap that stops growing has written nothing while it grew. -/
theorem storesInHeap_of_kheapExpand (h : Represented (loggedWindow G) s bs hi)
    (hr : (kheapExpand pages).run s = .error e s') : StoresInHeap s' := by
  obtain ⟨j, s₁, t, -, ⟨⟨hinv, hvars⟩, hacc, -⟩, hback, rfl⟩ := h.expand_stop hr
  rw [backPage_unlogged] at hback
  obtain ⟨m, -, rfl⟩ := zoom_eq_error hback
  intro a ha
  have hin := (hinv.2 a (.inl ha)).1
  dsimp only
  rw [hvars]
  rwa [show G.acc s₁.mem.mem = InHeap (hi + j * pageSize) from hacc] at hin

omit [ByteMem τ] in
/-- The heap grows in the same way, whatever is in the log. -/
theorem kheapExpand_logged {s s' : HeapState τ} (h : (kheapExpand pages).run s = .ok () s') (l : List ℕ) :
    (kheapExpand pages).run (⟨⟨s.mem, l⟩, s.vars⟩ : HeapState (Logged τ)) = .ok () ⟨⟨s'.mem, l⟩, s'.vars⟩ := by
  induction pages generalizing s with
  | zero =>
    cases h
    rfl
  | succ pages ih =>
    obtain ⟨m, hback, hrest⟩ := kheapExpand_succ.mp h
    refine kheapExpand_succ.mpr ⟨⟨m, l⟩, ?_, ih hrest⟩
    rw [backPage_unlogged]
    exact zoom_ok hback

end Window

section Log

variable [ByteMem τ] {s s' : HeapState (Logged τ)} {p a v node : ℕ}

/-- The heap's variables are the same, and nothing is taken out of the log. -/
def Logs (s s' : HeapState (Logged τ)) : Prop := s'.vars = s.vars ∧ s.mem.stores ⊆ s'.mem.stores

omit [ByteMem τ] in
theorem Logs.refl (s : HeapState (Logged τ)) : Logs s s := ⟨rfl, List.Subset.refl _⟩

omit [ByteMem τ] in
theorem Logs.trans (s s' s'' : HeapState (Logged τ)) (h : Logs s s') (h' : Logs s' s'') : Logs s s'' :=
  ⟨h'.1.trans h.1, List.Subset.trans h.2 h'.2⟩

/-- The store of a byte, with its address in the log. -/
def Stored (a : ℕ) (s s' : HeapState (Logged τ)) : Prop := Logs s s' ∧ w32 a ∈ s'.mem.stores

omit [ByteMem τ] in
theorem Stored.trans (s s' s'' : HeapState (Logged τ)) (h : Stored a s s') (h' : Logs s' s'') :
    Stored a s s'' := ⟨h.1.trans _ _ _ h', h'.2 h.2⟩

theorem load8_logs (a : ℕ) : Always Logs (load8 a : Prog (HeapState (Logged τ)) UInt8) := by
  refine ⟨fun s r s' h ↦ ?_, fun s e s' h ↦ ?_⟩
  · obtain ⟨t, ht, rfl⟩ := zoom_eq_ok h
    obtain ⟨m, -, rfl⟩ := zoom_eq_ok ht
    exact .refl s
  · obtain ⟨t, ht, rfl⟩ := zoom_eq_error h
    obtain ⟨m, -, rfl⟩ := zoom_eq_error ht
    exact .refl s

theorem store8_stored (a : ℕ) (v : UInt8) :
    Always (Stored a) (store8 a v : Prog (HeapState (Logged τ)) Unit) := by
  refine ⟨fun s r s' h ↦ ?_, fun s e s' h ↦ ?_⟩
  · obtain ⟨t, ht, rfl⟩ := zoom_eq_ok h
    obtain ⟨m, -, rfl⟩ := zoom_eq_ok (show (unlogged (store8 a v)).run _ = _ from ht)
    exact ⟨⟨rfl, List.subset_cons_self ..⟩, List.mem_cons_self⟩
  · obtain ⟨t, ht, rfl⟩ := zoom_eq_error h
    obtain ⟨m, -, rfl⟩ := zoom_eq_error (show (unlogged (store8 a v)).run _ = _ from ht)
    exact ⟨⟨rfl, List.subset_cons_self ..⟩, List.mem_cons_self⟩

variable {β : Type} {x : Prog (HeapState (Logged τ)) α} {f : α → Prog (HeapState (Logged τ)) β}

omit [ByteMem τ] in
theorem Logs.pure (r : α) : Always Logs (pure r : Prog (HeapState (Logged τ)) α) := .pure Logs.refl r

omit [ByteMem τ] in
theorem Logs.bind (hx : Always Logs x) (hf : ∀ r, Always Logs (f r)) : Always Logs (x >>= f) :=
  Always.bind hx hf Logs.trans

theorem store8_logs (a : ℕ) (v : UInt8) :
    Always Logs (store8 a v : Prog (HeapState (Logged τ)) Unit) :=
  (store8_stored a v).mono fun _ _ h ↦ h.1

theorem load32_logs (a : ℕ) : Always Logs (load32 a : Prog (HeapState (Logged τ)) ℕ) :=
  Logs.bind (load8_logs _) fun _ ↦ Logs.bind (load8_logs _) fun _ ↦ Logs.bind (load8_logs _) fun _ ↦
    Logs.bind (load8_logs _) fun _ ↦ Logs.pure _

theorem store32_stored (a v : ℕ) :
    Always (Stored a) (store32 a v : Prog (HeapState (Logged τ)) Unit) :=
  .bind (store8_stored _ _) (fun _ ↦ Logs.bind (store8_logs _ _) fun _ ↦
    Logs.bind (store8_logs _ _) fun _ ↦ store8_logs _ _) Stored.trans

theorem store32_logs (a v : ℕ) : Always Logs (store32 a v : Prog (HeapState (Logged τ)) Unit) :=
  (store32_stored a v).mono fun _ _ h ↦ h.1

theorem readFree_logs (node : ℕ) : Always Logs (readFree node : Prog (HeapState (Logged τ)) Bool) :=
  Logs.bind (load8_logs _) fun _ ↦ Logs.pure _

theorem writePrevOf_logs (node v : ℕ) :
    Always Logs (writePrevOf node v : Prog (HeapState (Logged τ)) Unit) :=
  .ite (store32_logs _ _) (Logs.pure _)

theorem mergeNext_logs (node : ℕ) : Always Logs (mergeNext node : Prog (HeapState (Logged τ)) Unit) :=
  Logs.bind (load32_logs _) fun _ ↦ .ite (Logs.bind (readFree_logs _) fun _ ↦ .ite
    (Logs.bind (load32_logs _) fun _ ↦ Logs.bind (load32_logs _) fun _ ↦ Logs.bind (store32_logs _ _) fun _ ↦
      Logs.bind (load32_logs _) fun _ ↦ Logs.bind (store32_logs _ _) fun _ ↦ writePrevOf_logs _ _)
    (Logs.pure _)) (Logs.pure _)

theorem mergePrev_logs (node : ℕ) : Always Logs (mergePrev node : Prog (HeapState (Logged τ)) Unit) :=
  Logs.bind (load32_logs _) fun _ ↦ .ite (Logs.bind (readFree_logs _) fun _ ↦ .ite
    (Logs.bind (load32_logs _) fun _ ↦ Logs.bind (load32_logs _) fun _ ↦ Logs.bind (store32_logs _ _) fun _ ↦
      Logs.bind (load32_logs _) fun _ ↦ Logs.bind (store32_logs _ _) fun _ ↦ writePrevOf_logs _ _)
    (Logs.pure _)) (Logs.pure _)

/-- `kfree` stores, whatever it finds, and does nothing else to the state. -/
theorem kfree_logs (p : ℕ) : Always Logs (kfree p : Prog (HeapState (Logged τ)) Unit) :=
  .ite (Logs.bind (store8_logs _ _) fun _ ↦ Logs.bind (mergeNext_logs _) fun _ ↦ mergePrev_logs _)
    (Logs.pure _)

end Log

end KevOS.Heap.Stores
