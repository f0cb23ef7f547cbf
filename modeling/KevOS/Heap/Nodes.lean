import KevOS.Heap.Model

namespace KevOS.Heap.Nodes

open Function Lib.Program Lib.ByteMemory Machine

/-- `struct heap_node`. -/
structure HeapNode where
  size : ℕ
  free : Bool
  next : ℕ
  prev : ℕ
  deriving DecidableEq, Repr

/-- The header that lies at an address. -/
def nodeAt (m : Bytes) (a : ℕ) : HeapNode :=
  ⟨word m a, m (a + 4) != 0, word m (a + 8), word m (a + 12)⟩

def setSize (m : Bytes) (a v : ℕ) : Bytes := setWord m a v

def setFree (m : Bytes) (a : ℕ) (v : Bool) : Bytes := update m (a + 4) (if v then 1 else 0)

def setNext (m : Bytes) (a v : ℕ) : Bytes := setWord m (a + 8) v

def setPrev (m : Bytes) (a v : ℕ) : Bytes := setWord m (a + 12) v

def setPrevOf (m : Bytes) (a v : ℕ) : Bytes := if a ≠ 0 then setPrev m a v else m

/-- Headers that have no byte in common. -/
def Apart (a c : ℕ) : Prop := a + 16 ≤ c ∨ c + 16 ≤ a

/-- Bytes that differ only inside the header at `a`. -/
def SameOff (a : ℕ) (m m' : Bytes) : Prop := ∀ b, b < a ∨ a + 16 ≤ b → m' b = m b

section Headers

variable {m m' : Bytes} {a c v : ℕ}

theorem Apart.symm (h : Apart a c) : Apart c a := Or.symm h

theorem nodeAt_congr (hb : ∀ i < 16, m' (c + i) = m (c + i)) : nodeAt m' c = nodeAt m c := by
  have hw (i : ℕ) (hi : i + 4 ≤ 16) : word m' (c + i) = word m (c + i) :=
    word_congr fun b hb' hb'' ↦ by
      have hbi := hb (b - c) (by omega)
      rwa [Nat.add_sub_of_le (by omega)] at hbi
  have hw₀ := hw 0 (by omega)
  rw [Nat.add_zero] at hw₀
  rw [nodeAt, nodeAt, hb 4 (by omega), hw₀, hw 8 (by omega), hw 12 (by omega)]

theorem nodeAt_of_sameOff (h : SameOff a m m') (hac : Apart a c) : nodeAt m' c = nodeAt m c :=
  nodeAt_congr fun i hi ↦ h _ (by unfold Apart at hac; omega)

theorem sameOff_setSize : SameOff a m (setSize m a v) := fun _ _ ↦ setWord_of_ne (by omega)

theorem sameOff_setFree {f : Bool} : SameOff a m (setFree m a f) := fun _ _ ↦
  update_of_ne (by omega) _ _

theorem sameOff_setNext : SameOff a m (setNext m a v) := fun _ _ ↦ setWord_of_ne (by omega)

theorem sameOff_setPrev : SameOff a m (setPrev m a v) := fun _ _ ↦ setWord_of_ne (by omega)

theorem sameOff_setPrevOf : SameOff a m (setPrevOf m a v) := by
  unfold setPrevOf
  split
  · exact sameOff_setPrev
  · exact fun _ _ ↦ rfl

theorem SameOff.trans {m'' : Bytes} (h : SameOff a m m') (h' : SameOff a m' m'') :
    SameOff a m m'' := fun b hb ↦ (h' b hb).trans (h b hb)

theorem nodeAt_setSize (hv : v < 4294967296) :
    nodeAt (setSize m a v) a = { nodeAt m a with size := v } := by
  unfold nodeAt setSize
  rw [word_setWord_self hv, setWord_of_ne (by omega), word_setWord_of_ne (by omega),
    word_setWord_of_ne (by omega)]

theorem nodeAt_setFree (f : Bool) : nodeAt (setFree m a f) a = { nodeAt m a with free := f } := by
  have hf : ((if f then 1 else 0 : UInt8) != 0) = f := by cases f <;> rfl
  unfold nodeAt setFree
  rw [word_update_of_ne (by omega), update_self, hf, word_update_of_ne (by omega),
    word_update_of_ne (by omega)]

theorem nodeAt_setNext (hv : v < 4294967296) :
    nodeAt (setNext m a v) a = { nodeAt m a with next := v } := by
  unfold nodeAt setNext
  rw [word_setWord_of_ne (by omega), setWord_of_ne (by omega), word_setWord_self hv,
    word_setWord_of_ne (by omega)]

theorem nodeAt_setPrev (hv : v < 4294967296) :
    nodeAt (setPrev m a v) a = { nodeAt m a with prev := v } := by
  unfold nodeAt setPrev
  rw [word_setWord_of_ne (by omega), setWord_of_ne (by omega), word_setWord_of_ne (by omega),
    word_setWord_self hv]

theorem nodeAt_setPrevOf (ha : a ≠ 0) (hv : v < 4294967296) :
    nodeAt (setPrevOf m a v) a = { nodeAt m a with prev := v } := by
  rw [setPrevOf, if_pos ha, nodeAt_setPrev hv]

theorem nodeAt_next_lt (m : Bytes) (a : ℕ) : (nodeAt m a).next < 4294967296 := word_lt _ _

end Headers

section Triples

variable {τ : Type} [ByteMem τ] (W : Window τ) {A : ℕ → Prop} {m : Bytes} {e : HeapVars}
  {a v : ℕ}

/-- The whole header at `a` can be reached. -/
def Reaches (A : ℕ → Prop) (a : ℕ) : Prop := ∀ i < 16, A (a + i)

theorem readSize_returns (h : Reaches A a) :
    Returns ((Kernel.window W e).Sees A m) (readSize a) (nodeAt m a).size
      ((Kernel.window W e).Sees A m) :=
  (Kernel.window W e).load32_returns fun i hi ↦ h i (by omega)

theorem readFree_returns (h : Reaches A a) :
    Returns ((Kernel.window W e).Sees A m) (readFree a) (nodeAt m a).free
      ((Kernel.window W e).Sees A m) :=
  ((Kernel.window W e).load8_returns (h 4 (by omega))).bind (.pure _)

theorem readNext_returns (h : Reaches A a) :
    Returns ((Kernel.window W e).Sees A m) (readNext a) (nodeAt m a).next
      ((Kernel.window W e).Sees A m) :=
  (Kernel.window W e).load32_returns fun i hi ↦ by
    rw [Nat.add_assoc]
    exact h _ (by omega)

theorem readPrev_returns (h : Reaches A a) :
    Returns ((Kernel.window W e).Sees A m) (readPrev a) (nodeAt m a).prev
      ((Kernel.window W e).Sees A m) :=
  (Kernel.window W e).load32_returns fun i hi ↦ by
    rw [Nat.add_assoc]
    exact h _ (by omega)

theorem writeSize_returns (h : Reaches A a) (v : ℕ) :
    Returns ((Kernel.window W e).Sees A m) (writeSize a v) ()
      ((Kernel.window W e).Sees A (setSize m a v)) :=
  (Kernel.window W e).store32_returns (fun i hi ↦ h i (by omega)) v

theorem writeFree_returns (h : Reaches A a) (v : Bool) :
    Returns ((Kernel.window W e).Sees A m) (writeFree a v) ()
      ((Kernel.window W e).Sees A (setFree m a v)) :=
  (Kernel.window W e).store8_returns (h 4 (by omega)) _

theorem writeNext_returns (h : Reaches A a) (v : ℕ) :
    Returns ((Kernel.window W e).Sees A m) (writeNext a v) ()
      ((Kernel.window W e).Sees A (setNext m a v)) :=
  (Kernel.window W e).store32_returns (fun i hi ↦ by
    rw [Nat.add_assoc]
    exact h _ (by omega)) v

theorem writePrev_returns (h : Reaches A a) (v : ℕ) :
    Returns ((Kernel.window W e).Sees A m) (writePrev a v) ()
      ((Kernel.window W e).Sees A (setPrev m a v)) :=
  (Kernel.window W e).store32_returns (fun i hi ↦ by
    rw [Nat.add_assoc]
    exact h _ (by omega)) v

theorem writePrevOf_returns (h : a ≠ 0 → Reaches A a) (v : ℕ) :
    Returns ((Kernel.window W e).Sees A m) (writePrevOf a v) ()
      ((Kernel.window W e).Sees A (setPrevOf m a v)) := by
  unfold writePrevOf setPrevOf
  by_cases ha : a ≠ 0
  · rw [if_pos ha, if_pos ha]
    exact writePrev_returns W (h ha) v
  · rw [if_neg ha, if_neg ha]
    exact .pure ()

theorem readNext_run {s : HeapState τ} (hs : ((Kernel.window W e).Sees A m) s) (h : Reaches A a) :
    (readNext a).run s = .ok (nodeAt m a).next s := by
  obtain ⟨hi, rfl, rfl⟩ := hs
  exact (Kernel.window W e).load32_eq hi fun i hi ↦ by
    rw [Nat.add_assoc]
    exact h _ (by omega)

theorem readSize_run {s : HeapState τ} (hs : ((Kernel.window W e).Sees A m) s) (h : Reaches A a) :
    (readSize a).run s = .ok (nodeAt m a).size s := by
  obtain ⟨hi, rfl, rfl⟩ := hs
  exact (Kernel.window W e).load32_eq hi fun i hi ↦ h i (by omega)

theorem readFree_run {s : HeapState τ} (hs : ((Kernel.window W e).Sees A m) s) (h : Reaches A a) :
    (readFree a).run s = .ok (nodeAt m a).free s := by
  obtain ⟨hi, rfl, rfl⟩ := hs
  unfold readFree
  rw [run_bind_ok ((Kernel.window W e).load8_eq hi (h 4 (by omega)))]
  rfl

end Triples

end KevOS.Heap.Nodes
