import Munux.Interrupts.Stubs
import Munux.Syscalls.Runs

/-!
# A system call from outside

`int 0x80` as the program sees it: the processor enters the stub, the stub builds `registers_t` and
calls `syscall_handler`, and what the handler leaves in `registers_t` is what the program goes on
with. Of the handler's machine code only this is assumed: it does what the C function does, on the
stack below its argument, and returns (`Handled`).

Main result: `int80_spec`. The program finds the result of call number `eax` with the arguments
`ebx`, `ecx` and `edx` in `eax`, all other registers and the flags as they were, and its memory as
the call leaves it, apart from what is below its stack pointer.
-/

namespace Munux.Syscalls

open ByteMem X86 Interrupts

/-- `syscall_handler` from its call to its return, with at most `depth` bytes of stack. It may
overwrite its argument. -/
structure Handled (depth : Nat) (k : Kernel) (c : Core) (k' : Kernel) (c' : Core) : Prop where
  esp : c'.reg .esp = c.reg .esp
  cr3 : c'.cr3 = c.cr3
  done : ∃ m, syscallHandler k c.mem (word c.mem (c.reg .esp)) = .ok (k', m) ∧
    m.SameOutside c'.mem ((c.reg .esp).toNat - depth) ((c.reg .esp).toNat + 4)

/-- `int 0x80`, through a gate to `offset` in the segment `selector`. -/
def Int80 (depth : Nat) (offset : UInt32) (selector : UInt16) (k : Kernel) (c : Core) (k' : Kernel)
    (c' : Core) : Prop :=
  ∃ h, Handled depth k (entered c 0x80 0 offset selector) k' h ∧ c' = h.exec commonExit

/-- The buffer that a call reads or writes, by its address and its length. -/
def bufferOf (eax ebx ecx edx : UInt32) : Option (Nat × Nat) :=
  if eax = sysWriteNo ∨ eax = sysReadNo then some (ecx.toNat, edx.toNat)
  else if eax = sysOpenNo then some (ebx.toNat, ecx.toNat)
  else none

/-- The buffer of a call is clear of the addresses from `lo` to `hi`. -/
def Clear (lo hi : Nat) (eax ebx ecx edx : UInt32) : Prop :=
  ∀ b ∈ bufferOf eax ebx ecx edx, b.1 + b.2 ≤ lo ∨ hi ≤ b.1

section Call

variable {k k' : Kernel} {m m' m₁ : ByteMem} {lo hi : Nat} {eax ebx ecx edx ret : UInt32}

/-- A read leaves a buffer of the same size. -/
theorem length_fdRead (v : Fs.Vfs) (fd : Int) (out : List UInt8) :
    (v.fdRead fd out).2.1.length = out.length := by
  fun_cases Fs.Vfs.fdRead v fd out with
  | case1 => rfl
  | case2 => rfl
  | case3 => rfl
  | case4 path offset _ content _ hle n =>
      simp only [List.length_append, List.length_take, List.length_drop]
      omega

/-- **Memory that a call does not look at** makes no difference to it, and it leaves it alone. -/
theorem dispatch_congr (hsame : m.SameOutside m' lo hi) (hclear : Clear lo hi eax ebx ecx edx)
    (h : dispatch k m eax ebx ecx edx = .ok (ret, k', m₁)) :
    m.Agree m₁ lo hi ∧ ∃ m₁', dispatch k m' eax ebx ecx edx = .ok (ret, k', m₁') ∧
      m₁.SameOutside m₁' lo hi := by
  have hslice : ∀ b ∈ bufferOf eax ebx ecx edx, slice m' b.1 b.2 = slice m b.1 b.2 :=
    fun b hb => slice_congr (hsame.agree (hclear b hb))
  by_cases hwrite : eax = sysWriteNo
  · subst hwrite
    have hbuf := hslice (ecx.toNat, edx.toNat) rfl
    have heq : sysWrite k m' ebx ecx edx = sysWrite k m ebx ecx edx := by
      simp only [sysWrite, hbuf]
    obtain ⟨rfl, rfl, rfl⟩ : _ ∧ _ ∧ _ := by simpa using h
    exact ⟨Agree.refl m lo hi, m', by rw [dispatch_write, heq], hsame⟩
  by_cases hticks : eax = sysGetTicksNo
  · subst hticks
    obtain ⟨rfl, rfl, rfl⟩ : _ ∧ _ ∧ _ := by simpa using h
    exact ⟨Agree.refl m lo hi, m', rfl, hsame⟩
  by_cases hopen : eax = sysOpenNo
  · subst hopen
    have hbuf := hslice (ebx.toNat, ecx.toNat) rfl
    have heq : munuxRsVfsOpen k.vfs m' ebx ecx = munuxRsVfsOpen k.vfs m ebx ecx := by
      simp only [munuxRsVfsOpen, hbuf]
    rw [dispatch_open] at h ⊢
    obtain ⟨⟨fd, v⟩, hcall, hret⟩ := Outcome.bind_eq_ok.1 h
    obtain ⟨rfl, rfl, rfl⟩ : _ ∧ _ ∧ _ := by simpa using hret
    refine ⟨Agree.refl m lo hi, m', ?_, hsame⟩
    rw [heq, hcall, Outcome.ok_bind]
  by_cases hread : eax = sysReadNo
  · subst hread
    have hbuf := hslice (ecx.toNat, edx.toNat) rfl
    have hcall : munuxRsVfsRead k.vfs m' (signed ebx) ecx edx =
        ((munuxRsVfsRead k.vfs m (signed ebx) ecx edx).1,
          blit m' ecx.toNat (k.vfs.fdRead (signed ebx) (slice m ecx.toNat edx.toNat)).2.1,
          (munuxRsVfsRead k.vfs m (signed ebx) ecx edx).2.2) := by
      simp only [munuxRsVfsRead, hbuf]
    obtain ⟨rfl, rfl, rfl⟩ : _ ∧ _ ∧ _ := by simpa using h
    refine ⟨fun i hlo hhi => ?_, _, by rw [dispatch_read, hcall], fun i hi => ?_⟩
    · apply blit_of_outside
      change _ ∨ _ + (k.vfs.fdRead (signed ebx) (slice m ecx.toNat edx.toNat)).2.1.length ≤ _
      rw [length_fdRead, length_slice]
      rcases hclear _ rfl with hbelow | habove
      · exact .inr (Nat.le_trans hbelow hlo)
      · exact .inl (Nat.lt_of_lt_of_le hhi habove)
    · exact blit_congr (hsame i hi)
  by_cases hclose : eax = sysCloseNo
  · subst hclose
    obtain ⟨rfl, rfl, rfl⟩ : _ ∧ _ ∧ _ := by simpa using h
    exact ⟨Agree.refl m lo hi, m', rfl, hsame⟩
  · simp only [dispatch, if_neg hwrite, if_neg hticks, if_neg hopen, if_neg hread, if_neg hclose,
      Outcome.pure_eq, Outcome.ok.injEq, Prod.mk.injEq] at h ⊢
    obtain ⟨rfl, rfl, rfl⟩ := h
    exact ⟨Agree.refl m lo hi, m', ⟨rfl, rfl, rfl⟩, hsame⟩

end Call

/-! ## There and back -/

section Int80

variable {depth : Nat} {offset ret : UInt32} {selector : UInt16} {k k' : Kernel} {c c' e : Core}
  {ws : List UInt32} {m m' : ByteMem}

/-- The handler finds the program's registers in `registers_t`, at the address it is given. -/
theorem entered_args (offset : UInt32) (selector : UInt16) (hstack : Holds c.mem (c.reg .esp) ws)
    (hroom : 60 ≤ (c.reg .esp).toNat) :
    let e := entered c 0x80 0 offset selector
    word e.mem (e.reg .esp) = e.reg .esp + 4 ∧
      word e.mem (e.reg .esp + 4 + 32) = c.reg .eax ∧
      word e.mem (e.reg .esp + 4 + 20) = c.reg .ebx ∧
      word e.mem (e.reg .esp + 4 + 28) = c.reg .ecx ∧
      word e.mem (e.reg .esp + 4 + 24) = c.reg .edx := by
  intro e
  have hentry : Core.Pushed c e ((c.reg .esp - 56) :: (registersOf c 0x80 0).words) ws :=
    (entry_spec (.inr rfl) hstack hroom).pushed
  have hesp : e.reg .esp = c.reg .esp - 60 := hentry.esp_eq
  have hword : ∀ i, (hi : i < 15) → ∀ off : UInt32, UInt32.ofNat (4 * i) = off →
      word e.mem (e.reg .esp + off) =
        ((c.reg .esp - 56) :: (registersOf c 0x80 0).words).get ⟨i, hi⟩ := by
    rintro i hi off rfl
    rw [hentry.stack.word i (by simp [Registers.words]; omega)]
    exact List.getElem_append_left hi
  have hptr : word e.mem (e.reg .esp) = c.reg .esp - 56 := by
    have hzero := hword 0 (by decide) 0 rfl
    rw [UInt32.add_zero] at hzero
    exact hzero
  refine ⟨?_, ?_, ?_, ?_, ?_⟩
  · rw [hptr, hesp]
    grind
  · rw [UInt32.add_assoc]
    exact hword 9 (by decide) 36 rfl
  · rw [UInt32.add_assoc]
    exact hword 6 (by decide) 24 rfl
  · rw [UInt32.add_assoc]
    exact hword 8 (by decide) 32 rfl
  · rw [UInt32.add_assoc]
    exact hword 7 (by decide) 28 rfl

/-- The stub puts 15 words below the program's stack pointer. -/
theorem pushed_esp
    (h : Core.Pushed c e ((c.reg .esp - 56) :: (registersOf c 0x80 0).words) ws) :
    (e.reg .esp).toNat = (c.reg .esp).toNat - 60 := by
  have hesp := h.esp
  simp only [List.length_cons, Registers.words, List.length_nil] at hesp
  omega

/-- **What the handler leaves in `registers_t`**: the program's registers, with the result of the
call for `eax`. -/
theorem registers_left (hroom : 60 + depth ≤ (c.reg .esp).toNat)
    (hentry : Core.Pushed c e ((c.reg .esp - 56) :: (registersOf c 0x80 0).words) ws)
    (hkept : e.mem.Agree m ((c.reg .esp).toNat - 60 - depth) (c.reg .esp).toNat)
    (hframe : (setWord m (e.reg .esp + 4 + 32) ret).SameOutside m'
      ((e.reg .esp).toNat - depth) ((e.reg .esp).toNat + 4)) :
    Holds m' (e.reg .esp + 4) ({ registersOf c 0x80 0 with eax := ret } : Registers).words := by
  have hsub := pushed_esp hentry
  have hlt := (c.reg .esp).toNat_lt
  have hbefore : Holds m (e.reg .esp) ((c.reg .esp - 56) :: (registersOf c 0x80 0).words) := by
    have htop : Holds e.mem (e.reg .esp) ((c.reg .esp - 56) :: (registersOf c 0x80 0).words) :=
      Holds.top hentry.stack
    refine htop.congr (hkept.mono ?_ ?_)
    · omega
    · simp only [List.length_cons, Registers.words, List.length_nil]
      omega
  have hafter := (hbefore.set 9 (by simp [Registers.words]) ret).pop.2
  have hadd : e.reg .esp + UInt32.ofNat (4 * 9) = e.reg .esp + 4 + 32 := by
    rw [UInt32.add_assoc]
    rfl
  rw [hadd] at hafter
  refine Holds.congr hafter (hframe.agree (.inr ?_))
  rw [UInt32.toNat_add, hsub]
  simp only [UInt32.reduceToNat]
  omega

/-- **A system call.** With room on its stack and its buffer clear of the free part of it, the
program goes on with the result in `eax`, its other registers as they were, and its memory as the
call left it, but for what is below its stack pointer. -/
theorem int80_spec (hstack : Holds c.mem (c.reg .esp) ws)
    (hroom : 60 + depth ≤ (c.reg .esp).toNat)
    (hclear : Clear ((c.reg .esp).toNat - 60 - depth) (c.reg .esp).toNat (c.reg .eax) (c.reg .ebx)
      (c.reg .ecx) (c.reg .edx))
    (h : Int80 depth offset selector k c k' c') :
    ∃ ret m, dispatch k c.mem (c.reg .eax) (c.reg .ebx) (c.reg .ecx) (c.reg .edx) =
        .ok (ret, k', m) ∧
      c' = { c.setReg .eax ret with seg := resumedSeg c, mem := c'.mem } ∧
      m.SameOutside c'.mem ((c.reg .esp).toNat - 60 - depth) (c.reg .esp).toNat := by
  obtain ⟨g, ⟨hesp, hcr3, m₂, hcall, hframe⟩, rfl⟩ := h
  set e := entered c 0x80 0 offset selector with he
  have hentry : Core.Pushed c e ((c.reg .esp - 56) :: (registersOf c 0x80 0).words) ws :=
    (entry_spec (.inr rfl) hstack (by omega)).pushed
  have hsub := pushed_esp hentry
  obtain ⟨hptr, heax, hebx, hecx, hedx⟩ := entered_args offset selector hstack (by omega)
  rw [← he] at hptr heax hebx hecx hedx
  -- The call works on the memory of the program, and leaves `registers_t` alone.
  rw [hptr] at hcall
  simp only [syscallHandler, heax, hebx, hecx, hedx] at hcall
  obtain ⟨⟨ret, k₁, m₁⟩, hdispatch, heq⟩ := Outcome.bind_eq_ok.1 hcall
  obtain ⟨rfl, rfl⟩ := Prod.mk.inj (Outcome.ok.inj heq)
  have hsame : e.mem.SameOutside c.mem ((c.reg .esp).toNat - 60 - depth) (c.reg .esp).toNat :=
    fun i hi => (hentry.mem i (by omega)).symm
  obtain ⟨hkept, m, hm, hsame'⟩ := dispatch_congr hsame hclear hdispatch
  have hslot : (e.reg .esp + 4 + 32).toNat = (c.reg .esp).toNat - 60 + 36 := by
    have hlt := (c.reg .esp).toNat_lt
    rw [UInt32.toNat_add, UInt32.toNat_add, hsub]
    simp only [UInt32.reduceToNat]
    omega
  set r := { registersOf c 0x80 0 with eax := ret } with hr
  -- Its result goes to `registers_t`, from where the stub takes it.
  have hregs : Holds g.mem (e.reg .esp + 4) r.words := registers_left hroom hentry hkept hframe
  have hret : Returns e g r [] := by
    refine ⟨hesp, word g.mem (g.reg .esp), ?_⟩
    rw [List.append_nil]
    rw [← hesp] at hregs hsub
    exact hregs.below (by have hlt := (c.reg .esp).toNat_lt; omega)
  have hexit : g.exec commonExit = _ :=
    (syscall_returns (fun _ => g) hstack (by omega) rfl hret).1
  rw [hexit]
  refine ⟨ret, m, hm, ?_, fun i hi => ?_⟩
  · rw [hcr3, hentry.cr3]
    rfl
  · rw [show g.mem i = _ from hframe i (by omega), setWord_of_outside _ _ (by omega), hsame' i hi]

/-- A handler that does its work in place. -/
theorem handled_getTicks (offset : UInt32) (selector : UInt16) (k : Kernel)
    (hstack : Holds c.mem (c.reg .esp) ws)
    (hroom : 60 ≤ (c.reg .esp).toNat) (heax : c.reg .eax = sysGetTicksNo) :
    ∃ g, Handled 0 k (entered c 0x80 0 offset selector) k g := by
  obtain ⟨hptr, heax', -⟩ := entered_args offset selector hstack hroom
  generalize entered c 0x80 0 offset selector = e at hptr heax'
  have hcall : syscallHandler k e.mem (word e.mem (e.reg .esp)) =
      .ok (k, setWord e.mem (e.reg .esp + 4 + 32) k.ticks) := by
    rw [hptr]
    simp only [syscallHandler, heax', heax, dispatch_getTicks, Outcome.ok_bind, Outcome.pure_eq]
  exact ⟨{ e with mem := setWord e.mem (e.reg .esp + 4 + 32) k.ticks }, rfl, rfl, _, hcall,
    fun i _ => rfl⟩

/-- A program that asks for the ticks. -/
def askTicks : Core := sampleCore.setReg .eax sysGetTicksNo

theorem int80_spec_ticks :
    ∃ k' c', Int80 0 0x101000 8 { bootKernel with ticks := 7 } askTicks k' c' ∧
      c' = { askTicks.setReg .eax 7 with seg := resumedSeg askTicks, mem := c'.mem } := by
  have hstack : Holds askTicks.mem (askTicks.reg .esp) [0] := sampleCore_stack
  have hroom : 60 + 0 ≤ (askTicks.reg .esp).toNat := by decide
  have heax : askTicks.reg .eax = sysGetTicksNo := Core.setReg_reg_self
  have hclear : Clear ((askTicks.reg .esp).toNat - 60 - 0) (askTicks.reg .esp).toNat
      (askTicks.reg .eax) (askTicks.reg .ebx) (askTicks.reg .ecx) (askTicks.reg .edx) := by
    intro b hb
    rw [heax] at hb
    cases hb
  obtain ⟨g, hg⟩ := handled_getTicks 0x101000 8
    { bootKernel with ticks := 7 } hstack hroom heax
  have hint : Int80 0 0x101000 8 { bootKernel with ticks := 7 } askTicks _ _ := ⟨g, hg, rfl⟩
  obtain ⟨ret, m, hcall, hres, -⟩ := int80_spec hstack hroom hclear hint
  rw [heax, dispatch_getTicks] at hcall
  obtain ⟨rfl, -⟩ := Prod.mk.inj (Outcome.ok.inj hcall)
  exact ⟨_, _, hint, hres⟩

end Int80

end Munux.Syscalls
