import KevOS.Syscall.Model

namespace KevOS.Syscall.UserMemory

open Lib.Program Lib.Paging Lib.Noninterference Machine Libc Vmm

variable {v v' : Vm} {a i k n len fuel : ℕ} {str p : CharPtr} {parameters : List ℕ}

/-- Every byte of the string at `str`, up to its terminator, is on a page that ring 3 can read. -/
def Readable (v : Vm) (str : ℕ) : Prop :=
  ∀ k < loopBound, (∀ j < k, ∃ c ≠ 0, userByte v (w32 (str + j)) = some c) →
    UserAccessible v (w32 (str + k))

/-- The call shows nothing of memory that ring 3 cannot read, does not read it, and does not
fault. -/
structure Isolated (timerTicks : UInt32) (regs : Registers) (v : Vm) : Prop where
  same : ∀ v', SameUserMemory v v' → shown timerTicks regs v' = shown timerTicks regs v
  reads : ∀ a ∈ touched timerTicks regs v, UserAccessible v a
  noFault : (shown timerTicks regs v).1 ≠ .error .fault

section Blindness

/-- What a program in ring 3 sees, the kernel sees too. -/
theorem kernelByte_of_userByte {c : UInt8} (h : userByte v a = some c) : kernelByte v a = some c := by
  rw [userByte] at h
  split at h
  case h_1 pde pte hwalk =>
    rw [Option.ite_none_right_eq_some] at h
    rw [kernelByte, Lib.Paging.translate, hwalk]
    exact h.2
  case h_2 => contradiction

theorem blind_readChar (p : CharPtr) (i : ℕ) :
    Blind UserAccessible SameUserMemory (readChar p i : Prog Session UInt8) := by
  cases p with
  | literal s => exact .pure _
  | addr a =>
    apply Blind.look
    intro e e' hsame hvisible
    obtain ⟨c, hc⟩ := Option.ne_none_iff_exists'.mp hvisible
    have hc' := (hsame _ (w32_lt _)).symm.trans hc
    rw [kernelByte_of_userByte hc, kernelByte_of_userByte hc']

theorem blind_strlenLoop (str : CharPtr) (len fuel : ℕ) :
    Blind UserAccessible SameUserMemory (strlenLoop str len fuel : Prog Session ℕ) := by
  induction fuel generalizing len with
  | zero => exact .throw _
  | succ fuel ih =>
    refine (blind_readChar str len).bind fun c ↦ ?_
    split
    · exact .pure _
    · exact ih _

theorem blind_terminalWrite (data : CharPtr) (size : ℕ) :
    Blind UserAccessible SameUserMemory (terminalWrite data size : Prog Session Unit) := by
  suffices ∀ n i, Blind UserAccessible SameUserMemory
      (terminalWriteLoop data i n : Prog Session Unit) from this _ _
  intro n
  induction n with
  | zero => exact fun _ ↦ .pure _
  | succ n ih =>
    intro i
    exact (blind_readChar data i).bind fun c ↦ (Blind.put c).bind fun _ ↦ ih _

end Blindness

section Strings

theorem Readable.stays_strlen (h : Readable v a) :
    Stays UserAccessible v (strlen (.addr a) : Prog Session ℕ)
      (fun len ↦ ∀ k < len, UserAccessible v (w32 (a + k))) := by
  -- the characters before the one the loop is at are visible and not zero
  suffices ∀ fuel len, len + fuel = loopBound →
      (∀ j < len, ∃ c ≠ 0, userByte v (w32 (a + j)) = some c) →
      Stays UserAccessible v (strlenLoop (.addr a) len fuel : Prog Session ℕ)
        (fun len ↦ ∀ k < len, UserAccessible v (w32 (a + k))) from
    this _ 0 (Nat.zero_add _) fun j hj ↦ absurd hj (Nat.not_lt_zero j)
  intro fuel
  induction fuel with
  | zero => exact fun _ _ _ ↦ .throw Stop.noConfusion
  | succ fuel ih =>
    intro len hlen hbefore
    have hvisible := h len (by omega) hbefore
    obtain ⟨c, hc⟩ := Option.ne_none_iff_exists'.mp hvisible
    refine Stays.bind (P := fun d ↦ d = c) (.look hvisible (kernelByte_of_userByte hc) rfl) ?_
    rintro d rfl
    split
    · refine .pure fun k hk ↦ ?_
      obtain ⟨c, -, hc⟩ := hbefore k hk
      exact Option.ne_none_iff_exists'.mpr ⟨c, hc⟩
    case isFalse hne =>
      refine ih (len + 1) (by omega) fun j hj ↦ ?_
      rcases Nat.lt_succ_iff_lt_or_eq.mp hj with hj | rfl
      · exact hbefore j hj
      · exact ⟨d, hne, hc⟩

theorem stays_terminalWrite (h : ∀ k < n, UserAccessible v (w32 (a + k))) :
    Stays UserAccessible v (terminalWrite (.addr a) n : Prog Session Unit) (fun _ ↦ True) := by
  suffices ∀ r i, i + r = n → Stays UserAccessible v
      (terminalWriteLoop (.addr a) i r : Prog Session Unit) (fun _ ↦ True) from
    this _ _ (Nat.zero_add _)
  intro r
  induction r with
  | zero => exact fun _ _ ↦ .pure trivial
  | succ r ih =>
    intro i hi
    have hvisible := h i (by omega)
    obtain ⟨c, hc⟩ := Option.ne_none_iff_exists'.mp hvisible
    exact Stays.bind (P := fun _ ↦ True) (.look hvisible (kernelByte_of_userByte hc) trivial)
      fun d _ ↦ (Stays.put d).bind fun _ _ ↦ ih _ (by omega)

/-- A string literal is not in user memory, and is not looked up there. -/
theorem stays_literal (s : List UInt8) : Stays UserAccessible v
    (terminalWritestring (.literal s) : Prog Session Unit) (fun _ ↦ True) := by
  have hread (i : ℕ) : Stays UserAccessible v (readChar (.literal s) i : Prog Session UInt8)
      (fun _ ↦ True) := .pure trivial
  have hlen : ∀ fuel len, Stays UserAccessible v
      (strlenLoop (.literal s) len fuel : Prog Session ℕ) (fun _ ↦ True) := by
    intro fuel
    induction fuel with
    | zero => exact fun _ ↦ .throw Stop.noConfusion
    | succ fuel ih =>
      intro len
      refine (hread len).bind fun c _ ↦ ?_
      split
      · exact .pure trivial
      · exact ih _
  have hwrite : ∀ n i, Stays UserAccessible v
      (terminalWriteLoop (.literal s) i n : Prog Session Unit) (fun _ ↦ True) := by
    intro n
    induction n with
    | zero => exact fun _ ↦ .pure trivial
    | succ n ih => exact fun i ↦ (hread i).bind fun c _ ↦ (Stays.put c).bind fun _ _ ↦ ih _
  exact (hlen _ _).bind fun len _ ↦ hwrite _ _

/-- A character that ring 3 cannot read is read all the same. -/
theorem reads_of_not_readable (h : ¬ Readable v a) :
    ∃ b, ¬ UserAccessible v b ∧ ∀ s : Session, s.env = v →
      b ∈ (final ((strlen (.addr a)).run s)).reads := by
  simp only [Readable, not_forall] at h
  obtain ⟨k, hk, hbefore, hnot⟩ := h
  refine ⟨w32 (a + k), hnot, ?_⟩
  suffices ∀ fuel len, len + fuel = loopBound → len ≤ k → ∀ s : Session, s.env = v →
      w32 (a + k) ∈ (final ((strlenLoop (.addr a) len fuel).run s)).reads from
    this _ 0 (Nat.zero_add _) (Nat.zero_le k)
  intro fuel
  induction fuel with
  | zero => exact fun len hlen hle ↦ by omega
  | succ fuel ih =>
    intro len hlen hle s hs
    rw [strlenLoop]
    rcases Nat.eq_or_lt_of_le hle with rfl | hlt
    · have hrest (c : UInt8) : Blind UserAccessible SameUserMemory
          (if c = 0 then pure len else strlenLoop (.addr a) (len + 1) fuel : Prog Session ℕ) := by
        split
        · exact .pure _
        · exact blind_strlenLoop _ _ _
      have hfirst : w32 (a + len) ∈ (final ((readChar (.addr a) len).run s)).reads := by
        change _ ∈ (final ((look kernelByte (w32 (a + len))).run s)).reads
        rw [final_look]
        exact List.mem_append_right _ (List.mem_singleton_self _)
      exact reads_subset_bind hrest s hfirst
    · obtain ⟨c, hne, hc⟩ := hbefore len hlt
      have hrun : (readChar (.addr a) len).run s =
          .ok c { s with reads := s.reads ++ [w32 (a + len)] } :=
        run_look_ok (hs ▸ kernelByte_of_userByte hc)
      rw [run_bind_ok hrun, if_neg hne]
      exact ih (len + 1) (by omega) hlt _ hs

end Strings

section Handler

variable {timerTicks : UInt32} {regs : Registers}

theorem printfLoop_string (fuel str : ℕ) :
    (printfLoop (fuel + 2) (.literal [37, 115]) 0 [str] : Prog Session ℕ) =
      let p : CharPtr := if str = 0 then .literal nullText else .addr str
      strlen p >>= fun len ↦ terminalWrite p len >>= fun _ ↦ pure (w32 len) := by
  rw [printfLoop]
  simp [readChar, directive, vaArg, printfLoop, CharPtr.add]

theorem sysPrintf_eq (str : ℕ) : (sysPrintf str : Prog Session Unit) =
    terminalWritestring (if str = 0 then .literal nullText else .addr str) := by
  have hbound : loopBound = 4294967294 + 2 := rfl
  rw [sysPrintf, printf, hbound, printfLoop_string, terminalWritestring]
  simp only [bind_assoc, pure_bind, bind_pure_unit]

theorem syscallHandler_printf (h : regs.eax = 0) :
    (syscallHandler timerTicks regs : Prog Session Registers) =
      sysPrintf regs.ebx.toNat >>= fun _ ↦ pure { regs with eax := 0 } := by
  simp [syscallHandler, syscalls, h]

theorem blind_terminalWritestring (data : CharPtr) :
    Blind UserAccessible SameUserMemory (terminalWritestring data : Prog Session Unit) :=
  (blind_strlenLoop data 0 loopBound).bind fun _ ↦ blind_terminalWrite data _

theorem blind_syscallHandler (h : regs.eax = 0) : Blind UserAccessible SameUserMemory
    (syscallHandler timerTicks regs : Prog Session Registers) := by
  rw [syscallHandler_printf h, sysPrintf_eq]
  exact (blind_terminalWritestring _).bind fun _ ↦ .pure _

theorem stays_syscallHandler (h : regs.eax = 0) (hr : regs.ebx = 0 ∨ Readable v regs.ebx.toNat) :
    Stays UserAccessible v (syscallHandler timerTicks regs : Prog Session Registers)
      (fun _ ↦ True) := by
  rw [syscallHandler_printf h, sysPrintf_eq]
  refine Stays.bind (P := fun _ ↦ True) ?_ fun _ _ ↦ .pure trivial
  split
  · exact stays_literal _
  case isFalse hnull =>
    have hr' := hr.resolve_left fun h0 ↦ hnull (congrArg UInt32.toNat h0)
    exact hr'.stays_strlen.bind fun n hn ↦ stays_terminalWrite hn

theorem syscallHandler_reads (h : regs.eax = 0) (hnull : regs.ebx ≠ 0)
    (hr : ¬ Readable v regs.ebx.toNat) : ∃ a ∈ touched timerTicks regs v, ¬ UserAccessible v a := by
  obtain ⟨b, hnot, hread⟩ := reads_of_not_readable hr
  refine ⟨b, ?_, hnot⟩
  have hne : regs.ebx.toNat ≠ 0 := fun h0 ↦ hnull (UInt32.toNat_inj.mp h0)
  have hstr := hread (session v) rfl
  have hrest (len : ℕ) : Blind UserAccessible SameUserMemory
      (terminalWrite (.addr regs.ebx.toNat) len >>= fun _ ↦ pure { regs with eax := 0 } :
        Prog Session Registers) := (blind_terminalWrite _ _).bind fun _ ↦ .pure _
  rw [touched, syscallHandler_printf h, sysPrintf_eq, if_neg hne, terminalWritestring, bind_assoc]
  exact reads_subset_bind hrest _ hstr

/-- The call is isolated if and only if its string lies where ring 3 can read it. -/
theorem isolated_iff_readable (timerTicks : UInt32) (regs : Registers) (v : Vm) (h : regs.eax = 0) :
    Isolated timerTicks regs v ↔ regs.ebx = 0 ∨ Readable v regs.ebx.toNat := by
  constructor
  · intro hi
    by_contra hr
    rw [not_or] at hr
    obtain ⟨a, ha, hnot⟩ := syscallHandler_reads h hr.1 hr.2
    exact hnot (hi.reads a ha)
  · intro hr
    have hstays : Stays UserAccessible v (syscallHandler timerTicks regs : Prog Session Registers)
        (fun _ ↦ True) := stays_syscallHandler h hr
    have hreads := hstays.reads (s := session v) rfl nofun
    refine ⟨fun v' hv' ↦ ?_, hreads, fun hfault ↦ ?_⟩
    · have hrun := (blind_syscallHandler h).same (session v) v' hv' hreads
      rw [shown, shown, show session v' = (session v).over v' from rfl, hrun]
      cases (syscallHandler timerTicks regs).run (session v) <;> rfl
    · rw [shown] at hfault
      split at hfault
      case h_1 => contradiction
      case h_2 stop s' hrun =>
        cases hfault
        exact hstays.ne_fault (s := session v) rfl nofun hrun

end Handler

end KevOS.Syscall.UserMemory
