import Munux.Drivers.Disk
import Munux.Lib.Traces
import Mathlib.Algebra.Order.Ring.Nat

/-!
# A disk drive behind its ports

What an ATA drive does with the accesses of the driver, one after another (`AtaDrive.Next`). The
drive is nondeterministic: it takes any time it likes, up to the patience of the driver, before it
asks for data, and again to store a sector; until then its status byte may show anything but DRQ and
ERR, and while it stores BSY is set. Every access that the protocol does not allow leaves it in an
arbitrary state.

The driver's calls never make such an access: on every drive that rests, `disk_read_sector` returns
0 and the sector, `disk_write_sector` stores it, and the drive rests again. Sector numbers have 28
bits, so that the numbers are taken modulo `2 ^ 28` (`diskReadSector_served`,
`diskWriteSector_served`).
-/

namespace Munux.Drivers

/-! ## Sectors as words -/

/-- Word `i` of a sector, as it goes through the data port. -/
def wordAt (b : Vector UInt8 512) (i : Nat) : UInt16 :=
  (b[i * 2]?.getD 0).toUInt16 ||| (b[i * 2 + 1]?.getD 0).toUInt16 <<< 8

def wordsOf (b : Vector UInt8 512) : List UInt16 := (List.range 256).map (wordAt b)

/-- The sector whose words are `ws`. -/
def blockOf (ws : List UInt16) : Vector UInt8 512 :=
  Vector.ofFn fun i =>
    if i.val % 2 = 0 then (ws.getD (i / 2) 0).toUInt8 else (ws.getD (i / 2) 0 >>> 8).toUInt8

/-! ## The drive -/

/-- A transfer through the data port: the words that are left, or those that have arrived. -/
inductive Transfer where
  | send (rest : List UInt16)
  | receive (sector : UInt32) (got : List UInt16)

/-- What the drive does. It sees at most `left` more status bytes before it is done. -/
inductive DrivePhase where
  | idle
  | preparing (left : Nat) (t : Transfer)
  | transferring (t : Transfer)
  | storing (left : Nat)

/-- The sectors of a drive, the registers that select one of them, and the phase. -/
structure AtaDrive where
  sectors : UInt32 → Vector UInt8 512
  device : UInt8
  count : UInt8
  low : UInt8
  mid : UInt8
  high : UInt8
  phase : DrivePhase

namespace AtaDrive

/-- The sector that the registers select, by its 28-bit number. -/
def address (d : AtaDrive) : UInt32 :=
  UInt32.ofNat (d.device.toNat % 2 ^ 4 * 2 ^ 24 + d.high.toNat * 2 ^ 16 + d.mid.toNat * 2 ^ 8 +
    d.low.toNat)

/-- The registers select one sector of the first drive, by its number. -/
def Selected (d : AtaDrive) : Prop := d.device &&& 0x50 = 0x40 ∧ d.count = 1

/-- A status byte: neither busy nor ready, then with data to transfer. -/
def Waiting (v : UInt8) : Prop := v &&& ataSrDrq = 0 ∧ v &&& ataSrErr = 0

def Ready (v : UInt8) : Prop := v &&& ataSrBsy = 0 ∧ v &&& ataSrDrq ≠ 0 ∧ v &&& ataSrErr = 0

/-- The drive shows `v` in its status port. -/
def StatusNext (d : AtaDrive) (v : UInt8) (d' : AtaDrive) : Prop :=
  match d.phase with
  | .idle => v &&& ataSrBsy = 0 ∧ d' = d
  | .preparing left t =>
      Ready v ∧ d' = { d with phase := .transferring t } ∨
        Waiting v ∧ ∃ k < left, d' = { d with phase := .preparing k t }
  | .transferring _ => Ready v ∧ d' = d
  | .storing left =>
      v &&& ataSrBsy = 0 ∧ d' = { d with phase := .idle } ∨
        v &&& ataSrBsy ≠ 0 ∧ ∃ k < left, d' = { d with phase := .storing k }

/-- The drive takes a command. -/
def CommandNext (d : AtaDrive) (command : UInt8) (d' : AtaDrive) : Prop :=
  if command = ataCmdReadSectors then
    ∃ k < ataTimeout, d' = { d with phase := .preparing k (.send (wordsOf (d.sectors d.address))) }
  else if command = ataCmdWriteSectors then
    ∃ k < ataTimeout, d' = { d with phase := .preparing k (.receive d.address []) }
  else True

/-- The phase when `rest` is left to send. -/
def sendPhase (rest : List UInt16) : DrivePhase :=
  if rest = [] then .idle else .transferring (.send rest)

/-- The drive has received `got` of a sector. With the last word it starts to store it. -/
def ReceiveNext (d : AtaDrive) (sector : UInt32) (got : List UInt16) (d' : AtaDrive) : Prop :=
  if got.length = 256 then
    ∃ k < ataTimeout, d' = { d with
      sectors := Function.update d.sectors sector (blockOf got)
      phase := .storing k }
  else d' = { d with phase := .transferring (.receive sector got) }

/-- One access. What is not allowed may do anything. -/
def Next (d : AtaDrive) (a : Access) (d' : AtaDrive) : Prop :=
  match d.phase, a with
  | _, .inb port v => port = ataPrimaryStatus → d.StatusNext v d'
  | .idle, .outb port v =>
      if port = ataPrimaryDrive then d' = { d with device := v }
      else if port = ataPrimarySeccount then d' = { d with count := v }
      else if port = ataPrimaryLbaLow then d' = { d with low := v }
      else if port = ataPrimaryLbaMid then d' = { d with mid := v }
      else if port = ataPrimaryLbaHigh then d' = { d with high := v }
      else if port = ataPrimaryCommand then d.Selected → d.CommandNext v d'
      else True
  | .transferring (.send (x :: rest)), .inw port w =>
      port = ataPrimaryData → w = x ∧ d' = { d with phase := sendPhase rest }
  | .transferring (.receive sector got), .outw port w =>
      port = ataPrimaryData → d.ReceiveNext sector (got ++ [w]) d'
  | _, _ => True

/-- Several accesses, one after another. -/
abbrev Run : AtaDrive → List Access → AtaDrive → Prop := Trace Next

/-- Between two calls the drive is idle, or it still stores a sector. -/
def Rested (d : AtaDrive) : Prop :=
  d.phase = .idle ∨ ∃ k < ataTimeout, d.phase = .storing k

end AtaDrive

/-- The accesses between `a` and `a'` took the drive from `d` to `d'`. -/
abbrev Served : AtaDrive → Ata → AtaDrive → Ata → Prop := ServedBy AtaDrive.Next Ata.log

/-- `a'` is later than `a`. -/
abbrev Later : Ata → Ata → Prop := LaterBy Ata.log

theorem Quiet.later {a a' : Ata} (h : Quiet a a') : Later a a' := by
  obtain ⟨trace, hlog, -⟩ := h
  exact ⟨trace, hlog⟩

/-! ## The waits -/

section Waits

variable {d d' : AtaDrive} {a : Ata} {stop : UInt8 → Option Int} {n N : Nat} {t : Transfer}

theorem poll_some {r : Int} (h : stop (a.status 0) = some r) :
    poll stop (n + 1) a = (r, a.inStatus.2) := by
  rw [poll, show stop a.inStatus.1 = some r from h]

theorem poll_none (h : stop (a.status 0) = none) :
    poll stop (n + 1) a = poll stop n a.inStatus.2 := by
  rw [poll, show stop a.inStatus.1 = none from h]

theorem later_inStatus (a : Ata) : Later a a.inStatus.2 := ⟨_, rfl⟩

theorem poll_later (stop : UInt8 → Option Int) (n : Nat) (a : Ata) :
    Later a (poll stop n a).2 := by
  induction n generalizing a with
  | zero => exact LaterBy.refl _ a
  | succ n ih =>
      cases hstop : stop (a.status 0) with
      | some r => rw [poll_some hstop]; exact later_inStatus a
      | none => rw [poll_none hstop]; exact (later_inStatus a).trans (ih _)

/-- **A wait ends** when each status byte either ends it as it should, or brings the drive nearer to
the end (`R`). -/
theorem poll_served {R : Nat → AtaDrive → Prop} {Q : AtaDrive → Prop}
    (hstep : ∀ {n d v d'}, R n d → d.Next (.inb ataPrimaryStatus v) d' →
      stop v = some 0 ∧ Q d' ∨ stop v = none ∧ ∃ k < n, R k d')
    (hR : R n d) (hn : n < N) (hs : Served d a d' (poll stop N a).2) :
    (poll stop N a).1 = 0 ∧ Q d' := by
  induction N generalizing n d a with
  | zero => exact absurd hn (Nat.not_lt_zero n)
  | succ N ih =>
      have hlater : Later a.inStatus.2 (poll stop (N + 1) a).2 := by
        cases hstop : stop (a.status 0) with
        | some r => rw [poll_some hstop]; exact LaterBy.refl _ _
        | none => rw [poll_none hstop]; exact poll_later stop N _
      obtain ⟨d₁, hfirst, hrest⟩ := hs.split (later_inStatus a) hlater
      rcases hstep hR (hfirst.next rfl) with ⟨hstop, hQ⟩ | ⟨hstop, k, hk, hRk⟩
      · rw [poll_some hstop] at hrest ⊢
        exact ⟨rfl, hrest.same ▸ hQ⟩
      · rw [poll_none hstop] at hrest ⊢
        exact ih hRk (by omega) hrest

/-- The first wait of a call: the drive finishes what it still stores. -/
theorem ataWaitBsy_rested (h : d.Rested) (hs : Served d a d' (ataWaitBsy a).2) :
    (ataWaitBsy a).1 = 0 ∧ d' = { d with phase := .idle } := by
  obtain ⟨n, hn, hR⟩ : ∃ n < ataTimeout,
      d = { d with phase := .idle } ∨ d = { d with phase := .storing n } := by
    obtain ⟨sectors, device, count, low, mid, high, phase⟩ := d
    rcases h with rfl | ⟨k, hk, rfl⟩
    · exact ⟨0, by decide, .inl rfl⟩
    · exact ⟨k, hk, .inr rfl⟩
  refine poll_served (R := fun n e => e = { d with phase := .idle } ∨
    e = { d with phase := .storing n }) (Q := fun e => e = { d with phase := .idle }) ?_ hR hn hs
  rintro n e v e' (rfl | rfl) hnext
  · obtain ⟨hclear, rfl⟩ := hnext rfl
    exact .inl ⟨if_pos hclear, rfl⟩
  · rcases hnext rfl with ⟨hclear, rfl⟩ | ⟨hbusy, k, hk, rfl⟩
    · exact .inl ⟨if_pos hclear, rfl⟩
    · exact .inr ⟨if_neg hbusy, k, hk, .inr rfl⟩

/-- On the way to the transfer `t`: the drive prepares it, or is ready for it. -/
def Ahead (d : AtaDrive) (t : Transfer) (n : Nat) (e : AtaDrive) : Prop :=
  e = { d with phase := .preparing n t } ∨ e = { d with phase := .transferring t }

/-- The second wait may end too early, -/
theorem ataWaitBsy_ahead {e : AtaDrive} (hn : n < ataTimeout) (h : Ahead d t n e)
    (hs : Served e a d' (ataWaitBsy a).2) :
    (ataWaitBsy a).1 = 0 ∧ ∃ k < ataTimeout, Ahead d t k d' := by
  refine poll_served (R := fun n e => n < ataTimeout ∧ Ahead d t n e)
    (Q := fun e => ∃ k < ataTimeout, Ahead d t k e) ?_ ⟨hn, h⟩ hn hs
  rintro n e v e' ⟨hn, rfl | rfl⟩ hnext
  · rcases hnext rfl with ⟨⟨hclear, -, -⟩, rfl⟩ | ⟨-, k, hk, rfl⟩
    · exact .inl ⟨if_pos hclear, 0, by decide, .inr rfl⟩
    · by_cases hclear : v &&& ataSrBsy = 0
      · exact .inl ⟨if_pos hclear, k, Nat.lt_trans hk hn, .inl rfl⟩
      · exact .inr ⟨if_neg hclear, k, hk, Nat.lt_trans hk hn, .inl rfl⟩
  · obtain ⟨⟨hclear, -, -⟩, rfl⟩ := hnext rfl
    exact .inl ⟨if_pos hclear, 0, by decide, .inr rfl⟩

/-- but the third one does not. -/
theorem ataWaitDrq_ahead {e : AtaDrive} (hn : n < ataTimeout) (h : Ahead d t n e)
    (hs : Served e a d' (ataWaitDrq a).2) :
    (ataWaitDrq a).1 = 0 ∧ d' = { d with phase := .transferring t } := by
  refine poll_served (R := Ahead d t) (Q := fun e => e = { d with phase := .transferring t }) ?_ h hn
    hs
  have hready : ∀ {v : UInt8}, AtaDrive.Ready v →
      (if v &&& ataSrErr ≠ 0 then some (-1 : Int) else if v &&& ataSrDrq ≠ 0 then some 0 else none) =
        some 0 := fun ⟨_, hdrq, herr⟩ => by
    rw [if_neg (not_not.2 herr), if_pos hdrq]
  rintro n e v e' (rfl | rfl) hnext
  · rcases hnext rfl with ⟨hv, rfl⟩ | ⟨⟨hdrq, herr⟩, k, hk, rfl⟩
    · exact .inl ⟨hready hv, rfl⟩
    · refine .inr ⟨?_, k, hk, .inl rfl⟩
      simp only [if_neg (not_not.2 herr), if_neg (not_not.2 hdrq)]
  · obtain ⟨hv, rfl⟩ := hnext rfl
    exact .inl ⟨hready hv, rfl⟩

end Waits

/-! ## The command -/

/-- The sector that a call addresses: its number is cut to 28 bits. -/
def sector28 (lba : UInt32) : UInt32 := lba &&& 0x0FFFFFFF

/-- The drive with its registers set by `ataSelect`. -/
def AtaDrive.select (d : AtaDrive) (lba : UInt32) : AtaDrive :=
  { d with
    device := (0xE0 : UInt8) ||| (lba >>> 24).toUInt8 &&& 0x0F
    count := 1
    low := lba.toUInt8
    mid := (lba >>> 8).toUInt8
    high := (lba >>> 16).toUInt8 }

section Command

variable {d d' : AtaDrive} {a : Ata} {lba : UInt32} {command : UInt8}

theorem selected_select (d : AtaDrive) (lba : UInt32) : (d.select lba).Selected := by
  refine ⟨?_, rfl⟩
  have hall : ∀ x : BitVec 8, (0xE0 ||| x &&& 0x0F) &&& 0x50 = (0x40 : BitVec 8) := by decide
  rw [← UInt8.toBitVec_inj]
  exact hall (lba >>> 24).toUInt8.toBitVec

/-- The four registers hold the number, 28 bits of it. -/
theorem address_select (d : AtaDrive) (lba : UInt32) : (d.select lba).address = sector28 lba := by
  have hall : ∀ x : BitVec 8, (0xE0 ||| x &&& 0x0F : BitVec 8).toNat % 2 ^ 4 = x.toNat % 2 ^ 4 := by
    decide
  have hdevice : (d.select lba).device.toNat % 2 ^ 4 = (lba >>> 24).toUInt8.toNat % 2 ^ 4 :=
    hall (lba >>> 24).toUInt8.toBitVec
  have hbyte : ∀ k : UInt32, (lba >>> k).toUInt8.toNat = lba.toNat / 2 ^ (k.toNat % 32) % 2 ^ 8 :=
    fun k => by rw [UInt32.toNat_toUInt8, UInt32.toNat_shiftRight, Nat.shiftRight_eq_div_pow]
  have hsector : (sector28 lba).toNat = lba.toNat % 2 ^ 28 := by
    rw [sector28, UInt32.toNat_and]
    exact Nat.and_two_pow_sub_one_eq_mod _ 28
  rw [← UInt32.toNat_inj, hsector, AtaDrive.address, hdevice, hbyte, UInt32.toNat_ofNat']
  simp only [AtaDrive.select, hbyte, UInt32.toNat_toUInt8, UInt32.reduceToNat, Nat.reduceMod]
  omega

/-- Selecting a sector, and the command. -/
theorem ataCommand_served (h : d.phase = .idle) (hs : Served d a d' (ataCommand a lba command)) :
    (d.select lba).CommandNext command d' := by
  obtain ⟨trace, hlog, hrun⟩ := hs
  have htrace : (ataCommand a lba command).log = a.log ++
      [ .outb ataPrimaryDrive ((0xE0 : UInt8) ||| (lba >>> 24).toUInt8 &&& 0x0F),
        .outb ataPrimarySeccount 1,
        .outb ataPrimaryLbaLow lba.toUInt8,
        .outb ataPrimaryLbaMid (lba >>> 8).toUInt8,
        .outb ataPrimaryLbaHigh (lba >>> 16).toUInt8,
        .outb ataPrimaryCommand command ] := by
    simp [ataCommand, ataSelect, Ata.outb]
  obtain rfl := List.append_cancel_left (htrace.symm.trans hlog)
  simp only [Trace.cons_iff, Trace.nil_iff] at hrun
  obtain ⟨d₁, h₁, d₂, h₂, d₃, h₃, d₄, h₄, d₅, h₅, d₆, h₆, rfl⟩ := hrun
  obtain ⟨sectors, device, count, low, mid, high, phase⟩ := d
  obtain rfl : phase = .idle := h
  obtain rfl : d₁ = ⟨sectors, _, count, low, mid, high, .idle⟩ := h₁
  obtain rfl : d₂ = ⟨sectors, _, 1, low, mid, high, .idle⟩ := h₂
  obtain rfl : d₃ = ⟨sectors, _, 1, lba.toUInt8, mid, high, .idle⟩ := h₃
  obtain rfl : d₄ = ⟨sectors, _, 1, lba.toUInt8, _, high, .idle⟩ := h₄
  obtain rfl : d₅ = ⟨sectors, _, 1, lba.toUInt8, _, _, .idle⟩ := h₅
  exact h₆ (selected_select ⟨sectors, device, count, low, mid, high, .idle⟩ lba)

end Command

/-! ## The data -/

section Data

variable {d d' : AtaDrive} {a : Ata} {buffer : Vector UInt8 512} {ws : List UInt16}

/-- The bytes of a word. -/
theorem bytes_of_word (lo hi : UInt8) :
    (lo.toUInt16 ||| hi.toUInt16 <<< 8).toUInt8 = lo ∧
      ((lo.toUInt16 ||| hi.toUInt16 <<< 8) >>> 8).toUInt8 = hi := by
  simp only [← UInt8.toBitVec_inj]
  constructor
  · ext i hi
    simp
  · ext i hi
    have hlt : 8 + i < 16 := by omega
    have hlt' : i < 16 := by omega
    simp [hlt, hlt', BitVec.getLsbD_eq_getElem hi]

/-- The words of a sector determine it. -/
theorem blockOf_wordsOf (b : Vector UInt8 512) : blockOf (wordsOf b) = b := by
  ext i hi
  have hw : (wordsOf b).getD (i / 2) 0 = wordAt b (i / 2) := by
    have hlt : i / 2 < 256 := by omega
    simp [wordsOf, hlt]
  obtain ⟨hlo, hhi⟩ := bytes_of_word (b[i / 2 * 2]?.getD 0) (b[i / 2 * 2 + 1]?.getD 0)
  simp only [blockOf, Vector.getElem_ofFn, hw, wordAt, hlo, hhi]
  split_ifs with heven
  · have hi2 : i / 2 * 2 = i := by omega
    simp [hi2, hi]
  · have hi2 : i / 2 * 2 + 1 = i := by omega
    simp [hi2, hi]

/-- The first `n` turns of the loop that reads the data. -/
theorem readWord_run (buffer : Vector UInt8 512) (a : Ata) (n : Nat) :
    ((List.range n).foldl readWord (buffer, a)).2 =
        { a with
          data := fun i => a.data (n + i)
          log := a.log ++ (List.range n).map fun i => .inw ataPrimaryData (a.data i) } ∧
      ∀ j, (hj : j < 512) → j < 2 * n →
        ((List.range n).foldl readWord (buffer, a)).1[j] =
          if j % 2 = 0 then (a.data (j / 2)).toUInt8 else (a.data (j / 2) >>> 8).toUInt8 := by
  induction n with
  | zero =>
      refine ⟨?_, fun j _ hj => absurd hj (by omega)⟩
      simp
  | succ n ih =>
      obtain ⟨hata, hbytes⟩ := ih
      rw [List.range_succ, List.foldl_append, List.foldl_cons, List.foldl_nil]
      set st := (List.range n).foldl readWord (buffer, a) with hst
      have hdata : st.2.data 0 = a.data n := by rw [hata]; rfl
      constructor
      · simp only [readWord, Ata.inData, hata, Nat.add_zero, List.map_append, List.map_cons,
          List.map_nil, List.append_assoc]
        congr 1
        funext i
        rw [Nat.add_assoc, Nat.add_comm 1 i]
      · intro j hj hlt
        simp only [readWord, Ata.inData, hdata, Vector.getElem_setIfInBounds]
        split_ifs with hhi hlo heven heven heven
        · omega
        · have hj2 : j / 2 = n := by omega
          rw [hj2]
        · have hj2 : j / 2 = n := by omega
          rw [hj2]
        · omega
        · rw [hbytes j hj (by omega), if_pos heven]
        · rw [hbytes j hj (by omega), if_neg heven]

/-- The loop that reads the data. -/
theorem readWords_eq (buffer : Vector UInt8 512) (a : Ata) :
    (readWords buffer a).1 = blockOf ((List.range 256).map a.data) ∧
      (readWords buffer a).2.log =
        a.log ++ ((List.range 256).map a.data).map (.inw ataPrimaryData) := by
  obtain ⟨hata, hbytes⟩ := readWord_run buffer a 256
  unfold readWords
  constructor
  · ext j hj
    have hlt : j / 2 < 256 := by omega
    rw [hbytes j hj hj]
    simp [blockOf, hlt]
  · rw [hata, List.map_map]
    rfl

theorem writeWord_run (buffer : Vector UInt8 512) (a : Ata) (n : Nat) :
    (List.range n).foldl (writeWord buffer) a =
      { a with
        log := a.log ++ ((List.range n).map (wordAt buffer)).map (.outw ataPrimaryData) } := by
  induction n with
  | zero => simp
  | succ n ih =>
      rw [List.range_succ, List.foldl_append, List.foldl_cons, List.foldl_nil, ih]
      simp only [writeWord, Ata.outw, List.map_append, List.map_cons, List.map_nil,
        List.append_assoc]
      rfl

/-- The loop that writes it. -/
theorem writeWords_log_eq (buffer : Vector UInt8 512) (a : Ata) :
    (writeWords buffer a).log = a.log ++ (wordsOf buffer).map (.outw ataPrimaryData) := by
  unfold writeWords
  rw [writeWord_run]
  rfl

/-- **Sending.** As many words are read as the drive has to send: it sent these. -/
theorem run_send {vs : List UInt16} (hlen : vs.length = ws.length)
    (hrun : AtaDrive.Run { d with phase := AtaDrive.sendPhase ws }
      (vs.map (.inw ataPrimaryData)) d') : vs = ws ∧ d' = { d with phase := .idle } := by
  induction ws generalizing vs with
  | nil =>
      obtain rfl := List.length_eq_zero_iff.1 hlen
      exact ⟨rfl, Trace.nil_iff.1 hrun⟩
  | cons w ws ih =>
      cases vs with
      | nil => cases hlen
      | cons v vs =>
          obtain ⟨d₁, hnext, hrest⟩ := Trace.cons_iff.1 hrun
          obtain ⟨rfl, rfl⟩ := hnext rfl
          obtain ⟨rfl, hd'⟩ := ih (Nat.succ.inj hlen) hrest
          exact ⟨rfl, hd'⟩

/-- **Receiving.** With the last word of a sector, the drive stores it. -/
theorem run_receive {sector : UInt32} {got : List UInt16} (hws : ws ≠ [])
    (hlen : got.length + ws.length = 256)
    (hrun : AtaDrive.Run { d with phase := .transferring (.receive sector got) }
      (ws.map (.outw ataPrimaryData)) d') :
    ∃ k < ataTimeout, d' = { d with
      sectors := Function.update d.sectors sector (blockOf (got ++ ws))
      phase := .storing k } := by
  induction ws generalizing got with
  | nil => exact absurd rfl hws
  | cons w ws ih =>
      obtain ⟨d₁, hnext, hrest⟩ := Trace.cons_iff.1 hrun
      have hone : AtaDrive.ReceiveNext _ sector (got ++ [w]) d₁ := hnext rfl
      rw [List.length_cons] at hlen
      unfold AtaDrive.ReceiveNext at hone
      cases ws with
      | nil =>
          rw [if_pos (by simpa using hlen)] at hone
          obtain rfl := Trace.nil_iff.1 hrest
          exact hone
      | cons w' ws =>
          rw [List.length_cons] at hlen
          rw [if_neg (by rw [List.length_append, List.length_singleton]; omega)] at hone
          rw [hone] at hrest
          rw [List.append_cons]
          refine ih (List.cons_ne_nil _ _) ?_ hrest
          rw [List.length_append, List.length_singleton, List.length_cons]
          omega

end Data

/-! ## The calls -/

section Calls

variable {d d' : AtaDrive} {a : Ata} {buffer : Vector UInt8 512} {lba : UInt32}

theorem later_ataCommand (a : Ata) (lba : UInt32) (command : UInt8) :
    Later a (ataCommand a lba command) := (quiet_ataCommand a lba command).later

theorem later_ataWaitBsy (a : Ata) : Later a (ataWaitBsy a).2 := poll_later _ _ a

theorem later_ataWaitDrq (a : Ata) : Later a (ataWaitDrq a).2 := poll_later _ _ a

theorem later_readWords (buffer : Vector UInt8 512) (a : Ata) : Later a (readWords buffer a).2 :=
  ⟨_, (readWords_eq buffer a).2⟩

theorem later_writeWords (buffer : Vector UInt8 512) (a : Ata) : Later a (writeWords buffer a) :=
  ⟨_, writeWords_log_eq buffer a⟩

/-- The last part of a read, after the second wait. -/
def readTail (buffer : Vector UInt8 512) (a : Ata) : Int × Vector UInt8 512 × Ata :=
  if (ataWaitDrq a).1 ≠ 0 then (-1, buffer, (ataWaitDrq a).2)
  else (0, readWords buffer (ataWaitDrq a).2)

/-- A read after the first wait. -/
def readRest (lba : UInt32) (buffer : Vector UInt8 512) (a : Ata) : Int × Vector UInt8 512 × Ata :=
  if (ataWaitBsy (ataCommand a lba ataCmdReadSectors)).1 ≠ 0 then
    (-1, buffer, (ataWaitBsy (ataCommand a lba ataCmdReadSectors)).2)
  else readTail buffer (ataWaitBsy (ataCommand a lba ataCmdReadSectors)).2

theorem diskReadSector_eq (lba : UInt32) (buffer : Vector UInt8 512) (a : Ata) :
    diskReadSector lba buffer a =
      if (ataWaitBsy a).1 ≠ 0 then (-1, buffer, (ataWaitBsy a).2)
      else readRest lba buffer (ataWaitBsy a).2 := rfl

theorem later_readTail (buffer : Vector UInt8 512) (a : Ata) :
    Later (ataWaitDrq a).2 (readTail buffer a).2.2 := by
  unfold readTail
  split_ifs
  · exact LaterBy.refl _ _
  · exact later_readWords buffer _

theorem later_readRest (lba : UInt32) (buffer : Vector UInt8 512) (a : Ata) :
    Later (ataWaitBsy (ataCommand a lba ataCmdReadSectors)).2 (readRest lba buffer a).2.2 := by
  unfold readRest
  split_ifs
  · exact LaterBy.refl _ _
  · exact (later_ataWaitDrq _).trans (later_readTail buffer _)

theorem later_diskReadSector (lba : UInt32) (buffer : Vector UInt8 512) (a : Ata) :
    Later (ataWaitBsy a).2 (diskReadSector lba buffer a).2.2 := by
  rw [diskReadSector_eq]
  split_ifs
  · exact LaterBy.refl _ _
  · exact ((later_ataCommand _ lba _).trans (later_ataWaitBsy _)).trans (later_readRest lba buffer _)

theorem later_diskWriteSector (lba : UInt32) (buffer : Vector UInt8 512) (a : Ata) :
    Later a (diskWriteSector lba buffer a).2 :=
  (((((later_ataWaitBsy a).trans (later_ataCommand _ lba _)).trans (later_ataWaitBsy _)).trans
    (later_ataWaitDrq _)).trans (later_writeWords buffer _)).trans (later_ataWaitBsy _)

theorem readTail_served {n : Nat} {t : List UInt16} (hn : n < ataTimeout) (ht : t.length = 256)
    {e : AtaDrive} (h : Ahead d (.send t) n e) (hs : Served e a d' (readTail buffer a).2.2) :
    (readTail buffer a).1 = 0 ∧ (readTail buffer a).2.1 = blockOf t ∧
      d' = { d with phase := .idle } := by
  obtain ⟨d₁, hwait, hrest⟩ := hs.split (later_ataWaitDrq a) (later_readTail buffer a)
  obtain ⟨hzero, rfl⟩ := ataWaitDrq_ahead hn h hwait
  have htail : readTail buffer a = (0, readWords buffer (ataWaitDrq a).2) :=
    if_neg (not_not.2 hzero)
  obtain ⟨hblock, hlog⟩ := readWords_eq buffer (ataWaitDrq a).2
  rw [htail] at hrest ⊢
  obtain ⟨trace, htrace, hrun⟩ := hrest
  obtain rfl := List.append_cancel_left (hlog.symm.trans htrace)
  have hphase : AtaDrive.sendPhase t = .transferring (.send t) :=
    if_neg (List.ne_nil_of_length_eq_add_one ht)
  obtain ⟨hwords, rfl⟩ := run_send (d := d) (by simpa using ht.symm) (hphase ▸ hrun)
  exact ⟨rfl, by rw [hblock, hwords], rfl⟩

/-- After the command the drive is on its way to a transfer of 256 words. -/
theorem command_read (h : AtaDrive.CommandNext (d.select lba) ataCmdReadSectors d') :
    ∃ k < ataTimeout,
      Ahead (d.select lba) (.send (wordsOf (d.sectors (sector28 lba)))) k d' := by
  obtain ⟨k, hk, rfl⟩ := h
  rw [address_select]
  exact ⟨k, hk, .inl rfl⟩

theorem command_write (h : AtaDrive.CommandNext (d.select lba) ataCmdWriteSectors d') :
    ∃ k < ataTimeout, Ahead (d.select lba) (.receive (sector28 lba) []) k d' := by
  obtain ⟨k, hk, rfl⟩ := h
  rw [address_select]
  exact ⟨k, hk, .inl rfl⟩

/-- **Reading a sector.** On a drive that rests, the call succeeds with the sector that the low 28
bits of `lba` number; the drive keeps its sectors and is idle. -/
theorem diskReadSector_served (h : d.Rested)
    (hs : Served d a d' (diskReadSector lba buffer a).2.2) :
    (diskReadSector lba buffer a).1 = 0 ∧
      (diskReadSector lba buffer a).2.1 = d.sectors (sector28 lba) ∧
        d'.sectors = d.sectors ∧ d'.phase = .idle := by
  obtain ⟨d₁, hwait, hs⟩ := hs.split (later_ataWaitBsy a) (later_diskReadSector lba buffer a)
  obtain ⟨hzero, rfl⟩ := ataWaitBsy_rested h hwait
  have hrest : diskReadSector lba buffer a = readRest lba buffer (ataWaitBsy a).2 := by
    rw [diskReadSector_eq, if_neg (not_not.2 hzero)]
  rw [hrest] at hs ⊢
  obtain ⟨d₂, hcommand, hs⟩ := hs.split (later_ataCommand _ lba ataCmdReadSectors)
    ((later_ataWaitBsy _).trans (later_readRest lba buffer _))
  obtain ⟨k, hk, hahead⟩ := command_read (ataCommand_served rfl hcommand)
  obtain ⟨d₃, hwait₂, hs⟩ := hs.split (later_ataWaitBsy _) (later_readRest lba buffer _)
  obtain ⟨hzero₂, l, hl, hahead₂⟩ := ataWaitBsy_ahead hk hahead hwait₂
  have htail : readRest lba buffer (ataWaitBsy a).2 =
      readTail buffer (ataWaitBsy (ataCommand (ataWaitBsy a).2 lba ataCmdReadSectors)).2 :=
    if_neg (not_not.2 hzero₂)
  rw [htail] at hs ⊢
  obtain ⟨hr, hbuffer, rfl⟩ := readTail_served hl (by simp [wordsOf]) hahead₂ hs
  exact ⟨hr, by rw [hbuffer, blockOf_wordsOf], rfl, rfl⟩

/-- **Writing a sector.** On a drive that rests, the call succeeds, and the drive holds the data in
the sector that the low 28 bits of `lba` number. -/
theorem diskWriteSector_served (h : d.Rested)
    (hs : Served d a d' (diskWriteSector lba buffer a).2) :
    (diskWriteSector lba buffer a).1 = 0 ∧
      d'.sectors = Function.update d.sectors (sector28 lba) buffer ∧ d'.phase = .idle := by
  refine ⟨rfl, ?_⟩
  rw [diskWriteSector] at hs
  set a₁ := (ataWaitBsy a).2 with ha₁
  set a₂ := ataCommand a₁ lba ataCmdWriteSectors with ha₂
  set a₃ := (ataWaitBsy a₂).2 with ha₃
  set a₄ := (ataWaitDrq a₃).2 with ha₄
  have h₁ : Later a a₁ := later_ataWaitBsy a
  have h₂ : Later a₁ a₂ := later_ataCommand _ lba _
  have h₃ : Later a₂ a₃ := later_ataWaitBsy a₂
  have h₄ : Later a₃ a₄ := later_ataWaitDrq a₃
  have h₅ : Later a₄ (writeWords buffer a₄) := later_writeWords buffer a₄
  have h₆ : Later (writeWords buffer a₄) (ataWaitBsy (writeWords buffer a₄)).2 := later_ataWaitBsy _
  obtain ⟨d₁, hs₁, hs⟩ := hs.split h₁ (h₂.trans (h₃.trans (h₄.trans (h₅.trans h₆))))
  obtain ⟨-, rfl⟩ := ataWaitBsy_rested h hs₁
  obtain ⟨d₂, hs₂, hs⟩ := hs.split h₂ (h₃.trans (h₄.trans (h₅.trans h₆)))
  obtain ⟨k, hk, hahead⟩ := command_write (ataCommand_served rfl hs₂)
  obtain ⟨d₃, hs₃, hs⟩ := hs.split h₃ (h₄.trans (h₅.trans h₆))
  obtain ⟨-, l, hl, hahead₂⟩ := ataWaitBsy_ahead hk hahead hs₃
  obtain ⟨d₄, hs₄, hs⟩ := hs.split h₄ (h₅.trans h₆)
  obtain ⟨-, rfl⟩ := ataWaitDrq_ahead hl hahead₂ hs₄
  obtain ⟨d₅, ⟨trace, htrace, hrun⟩, hs₆⟩ := hs.split h₅ h₆
  obtain rfl := List.append_cancel_left ((writeWords_log_eq buffer a₄).symm.trans htrace)
  have hlen : (wordsOf buffer).length = 256 := by simp [wordsOf]
  obtain ⟨j, hj, rfl⟩ := run_receive (List.ne_nil_of_length_eq_add_one hlen)
    (by rw [hlen]; rfl) hrun
  obtain ⟨-, rfl⟩ := ataWaitBsy_rested (.inr ⟨j, hj, rfl⟩) hs₆
  rw [List.nil_append, blockOf_wordsOf]
  exact ⟨rfl, rfl⟩

end Calls

/-! ## A prompt drive -/

/-- `xs`, then `f`. -/
def startWith {α : Type} (xs : List α) (f : Nat → α) (i : Nat) : α :=
  if h : i < xs.length then xs[i] else f (i - xs.length)

/-- The ports of an idle drive that is ready at once when it is told to read `lba`; `a` is what
comes after the call. -/
def promptRead (d : AtaDrive) (lba : UInt32) (a : Ata) : Ata :=
  { a with
    status := startWith [0, ataSrDrq, ataSrDrq] a.status
    data := startWith (wordsOf (d.sectors (sector28 lba))) a.data }

/-- And when it is told to write; it has stored the sector before it is asked. -/
def promptWrite (a : Ata) : Ata :=
  { a with status := startWith [0, ataSrDrq, ataSrDrq, 0] a.status }

section Prompt

variable {α : Type} {d d' : AtaDrive} {a : Ata} {lba : UInt32} {command : UInt8} {t : Transfer}

theorem next_status {v : UInt8} (h : d.StatusNext v d') : d.Next (.inb ataPrimaryStatus v) d' := by
  obtain ⟨sectors, device, count, low, mid, high, phase⟩ := d
  cases phase with
  | transferring t =>
      cases t with
      | send ws => cases ws <;> exact fun _ => h
      | receive sector got => exact fun _ => h
  | idle => exact fun _ => h
  | preparing left t => exact fun _ => h
  | storing left => exact fun _ => h

theorem Served.status (h : d.StatusNext (a.status 0) d') : Served d a d' (a.polled 1) :=
  ⟨[.inb ataPrimaryStatus (a.status 0)], rfl, .cons (next_status h) (.nil d')⟩

theorem ataCommand_prompt (h : d.phase = .idle)
    (hcommand : (d.select lba).CommandNext command d') :
    Served d a d' (ataCommand a lba command) := by
  obtain ⟨sectors, device, count, low, mid, high, phase⟩ := d
  obtain rfl : phase = .idle := h
  refine ⟨[ .outb ataPrimaryDrive ((0xE0 : UInt8) ||| (lba >>> 24).toUInt8 &&& 0x0F),
    .outb ataPrimarySeccount 1, .outb ataPrimaryLbaLow lba.toUInt8,
    .outb ataPrimaryLbaMid (lba >>> 8).toUInt8, .outb ataPrimaryLbaHigh (lba >>> 16).toUInt8,
    .outb ataPrimaryCommand command ], by simp [ataCommand, ataSelect, Ata.outb], ?_⟩
  simp only [Trace.cons_iff, Trace.nil_iff]
  exact ⟨_, rfl, _, rfl, _, rfl, _, rfl, _, rfl, d', fun _ => hcommand, rfl⟩

/-- A drive that is ready at once sends all its words, -/
theorem run_send_prompt (d : AtaDrive) (ws : List UInt16) :
    AtaDrive.Run { d with phase := AtaDrive.sendPhase ws } (ws.map (.inw ataPrimaryData))
      { d with phase := .idle } := by
  induction ws with
  | nil => exact .nil _
  | cons w ws ih => exact .cons (fun _ => ⟨rfl, rfl⟩) ih

/-- or receives them. -/
theorem run_receive_prompt (d : AtaDrive) (sector : UInt32) (got : List UInt16) {ws : List UInt16}
    (hws : ws ≠ []) (hlen : got.length + ws.length = 256) :
    AtaDrive.Run { d with phase := .transferring (.receive sector got) }
      (ws.map (.outw ataPrimaryData))
      { d with
        sectors := Function.update d.sectors sector (blockOf (got ++ ws))
        phase := .storing 0 } := by
  induction ws generalizing got with
  | nil => exact absurd rfl hws
  | cons w ws ih =>
      rw [List.length_cons] at hlen
      cases ws with
      | nil =>
          refine .cons (fun _ => ?_) (.nil _)
          rw [AtaDrive.ReceiveNext, if_pos (by simpa using hlen)]
          exact ⟨0, by decide, rfl⟩
      | cons w' ws =>
          rw [List.length_cons] at hlen
          rw [List.append_cons]
          refine .cons (fun _ => ?_) (ih _ (List.cons_ne_nil _ _) ?_)
          · rw [AtaDrive.ReceiveNext,
              if_neg (by rw [List.length_append, List.length_singleton]; omega)]
          · rw [List.length_append, List.length_singleton, List.length_cons]
            omega

theorem ready_drq : AtaDrive.Ready ataSrDrq := by
  refine ⟨by decide, by decide, by decide⟩

/-- A wait that sees the byte it waits for at once. -/
theorem clearAt_zero {status : Nat → UInt8} {v : UInt8} (h : status 0 = v)
    (hv : v &&& ataSrBsy = 0) : ClearAt status 0 :=
  ⟨by decide, fun k hk => absurd hk (Nat.not_lt_zero k), h ▸ hv⟩

theorem readyAt_zero {status : Nat → UInt8} (h : status 0 = ataSrDrq) : ReadyAt status 0 := by
  refine ⟨by decide, fun k hk => absurd hk (Nat.not_lt_zero k), ?_, ?_⟩
  · rw [h]
    exact ready_drq.2.2
  · rw [h]
    exact ready_drq.2.1

/-- From an idle drive to a transfer: the three waits and the command. -/
theorem waits_prompt (command : UInt8) (h : d.phase = .idle) (h₀ : a.status 0 = 0)
    (h₁ : a.status 1 = ataSrDrq) (h₂ : a.status 2 = ataSrDrq)
    (hcommand : (d.select lba).CommandNext command { d.select lba with phase := .preparing 0 t }) :
    ∃ a', a' = ((ataCommand (a.polled 1) lba command).polled 1).polled 1 ∧
      ataWaitBsy a = (0, a.polled 1) ∧
      ataWaitBsy (ataCommand (a.polled 1) lba command) =
        (0, (ataCommand (a.polled 1) lba command).polled 1) ∧
      ataWaitDrq ((ataCommand (a.polled 1) lba command).polled 1) = (0, a') ∧
      Served d a { d.select lba with phase := .transferring t } a' := by
  have hidle : d.StatusNext (a.status 0) d := by
    rw [AtaDrive.StatusNext, h, h₀]
    exact ⟨UInt8.zero_and, rfl⟩
  have hready : AtaDrive.StatusNext { d.select lba with phase := .preparing 0 t } (a.status 1)
      { d.select lba with phase := .transferring t } := .inl ⟨h₁ ▸ ready_drq, rfl⟩
  have hstill : AtaDrive.StatusNext { d.select lba with phase := .transferring t } (a.status 2)
      { d.select lba with phase := .transferring t } := ⟨h₂ ▸ ready_drq, rfl⟩
  refine ⟨_, rfl, (clearAt_zero h₀ UInt8.zero_and).ataWaitBsy,
    ClearAt.ataWaitBsy (clearAt_zero h₁ ready_drq.1), ReadyAt.ataWaitDrq (readyAt_zero h₂), ?_⟩
  exact (((Served.status hidle).trans (ataCommand_prompt h hcommand)).trans
    (Served.status hready)).trans (Served.status hstill)

/-- **A prompt read** is served. -/
theorem diskReadSector_prompt (h : d.phase = .idle) (buffer : Vector UInt8 512) (a : Ata)
    (lba : UInt32) :
    Served d (promptRead d lba a) { d.select lba with phase := .idle }
      (diskReadSector lba buffer (promptRead d lba a)).2.2 := by
  set ws := wordsOf (d.sectors (sector28 lba)) with hws
  have hlen : ws.length = 256 := by simp [hws, wordsOf]
  obtain ⟨a', ha', hwait₁, hwait₂, hwait₃, hserved⟩ := waits_prompt (a := promptRead d lba a)
    (t := .send ws) ataCmdReadSectors h rfl rfl rfl
    ⟨0, by decide, by rw [address_select]; rfl⟩
  have hread : (diskReadSector lba buffer (promptRead d lba a)).2.2 = (readWords buffer a').2 := by
    simp [diskReadSector, hwait₁, hwait₂, hwait₃]
  have hdata : (List.range 256).map a'.data = ws := by
    refine List.ext_getElem (by simp [hlen]) fun i hi hi' => ?_
    have hlt : i < 256 := by simpa using hi
    rw [List.getElem_map, List.getElem_range, ha']
    exact dif_pos hi'
  have hrun := run_send_prompt (d.select lba) ws
  rw [AtaDrive.sendPhase, if_neg (List.ne_nil_of_length_eq_add_one hlen)] at hrun
  rw [hread]
  refine hserved.trans ⟨_, (readWords_eq buffer a').2, ?_⟩
  rw [hdata]
  exact hrun

/-- The accesses of a prompt read. -/
def readTrace (d : AtaDrive) (lba : UInt32) : List Access :=
  [ .inb ataPrimaryStatus 0,
    .outb ataPrimaryDrive ((0xE0 : UInt8) ||| (lba >>> 24).toUInt8 &&& 0x0F),
    .outb ataPrimarySeccount 1, .outb ataPrimaryLbaLow lba.toUInt8,
    .outb ataPrimaryLbaMid (lba >>> 8).toUInt8, .outb ataPrimaryLbaHigh (lba >>> 16).toUInt8,
    .outb ataPrimaryCommand ataCmdReadSectors, .inb ataPrimaryStatus ataSrDrq,
    .inb ataPrimaryStatus ataSrDrq ] ++
    (wordsOf (d.sectors (sector28 lba))).map (.inw ataPrimaryData)

theorem startWith_add {α : Type} (xs : List α) (f : Nat → α) (i : Nat) :
    startWith xs f (xs.length + i) = f i := by
  rw [startWith, dif_neg (by omega), Nat.add_sub_cancel_left]

theorem map_startWith {α : Type} (xs : List α) (f : Nat → α) :
    (List.range xs.length).map (startWith xs f) = xs := by
  refine List.ext_getElem (by simp) fun i hi hi' => ?_
  simp [startWith, hi']

/-- After a prompt read, the ports go on with what comes after it. -/
theorem diskReadSector_prompt_rest (buffer : Vector UInt8 512) (d : AtaDrive) (a : Ata)
    (lba : UInt32) :
    (diskReadSector lba buffer (promptRead d lba a)).2.2 =
      { a with log := a.log ++ readTrace d lba } := by
  set ws := wordsOf (d.sectors (sector28 lba)) with hws
  have hlen : ws.length = 256 := by simp [hws, wordsOf]
  have hready := ready_drq
  have hidle : ClearAt (promptRead d lba a).status 0 := clearAt_zero rfl UInt8.zero_and
  have hwait₁ := hidle.ataWaitBsy
  have hwait₂ := ClearAt.ataWaitBsy (d := ataCommand ((promptRead d lba a).polled 1) lba
    ataCmdReadSectors) (clearAt_zero rfl hready.1)
  have hwait₃ := ReadyAt.ataWaitDrq (d := (ataCommand ((promptRead d lba a).polled 1) lba
    ataCmdReadSectors).polled 1) (readyAt_zero rfl)
  have hread : (diskReadSector lba buffer (promptRead d lba a)).2.2 =
      (readWords buffer (((ataCommand ((promptRead d lba a).polled 1) lba
        ataCmdReadSectors).polled 1).polled 1)).2 := by
    simp [diskReadSector, hwait₁, hwait₂, hwait₃]
  have hstatus : ∀ i, startWith [0, ataSrDrq, ataSrDrq] a.status (1 + (1 + (1 + i))) = a.status i :=
    fun i => by
      rw [← Nat.add_assoc, ← Nat.add_assoc]
      exact startWith_add [0, ataSrDrq, ataSrDrq] a.status i
  have hdata : ∀ i, startWith ws a.data (256 + i) = a.data i :=
    fun i => hlen ▸ startWith_add ws a.data i
  have hwords : (List.range 256).map (startWith ws a.data) = ws := hlen ▸ map_startWith ws a.data
  rw [hread]
  unfold readWords
  rw [(readWord_run _ _ 256).1]
  have hmap : ∀ g : Nat → UInt16,
      (List.range 256).map (fun i => Access.inw ataPrimaryData (g i)) =
        ((List.range 256).map g).map (.inw ataPrimaryData) := fun g => by rw [List.map_map]; rfl
  simp only [Ata.polled, ataCommand, ataSelect, Ata.outb, promptRead, ← hws, hmap, hdata, hwords,
    hstatus, readTrace]
  simp [startWith]

/-- **A prompt write** is served. -/
theorem diskWriteSector_prompt (h : d.phase = .idle) (buffer : Vector UInt8 512) (a : Ata)
    (lba : UInt32) :
    Served d (promptWrite a)
      { d.select lba with
        sectors := Function.update d.sectors (sector28 lba) buffer
        phase := .idle }
      (diskWriteSector lba buffer (promptWrite a)).2 := by
  have hlen : (wordsOf buffer).length = 256 := by simp [wordsOf]
  obtain ⟨a', ha', hwait₁, hwait₂, hwait₃, hserved⟩ := waits_prompt (a := promptWrite a)
    (t := .receive (sector28 lba) []) ataCmdWriteSectors h rfl rfl rfl
    ⟨0, by decide, by rw [address_select]⟩
  have hlast : (writeWords buffer a').status 0 = 0 := by
    unfold writeWords
    rw [writeWord_run, ha']
    rfl
  have hwrite : (diskWriteSector lba buffer (promptWrite a)).2 = (writeWords buffer a').polled 1 := by
    simp only [diskWriteSector, hwait₁, hwait₂, hwait₃]
    rw [(clearAt_zero hlast UInt8.zero_and).ataWaitBsy]
  have hrun := run_receive_prompt (d.select lba) (sector28 lba) []
    (List.ne_nil_of_length_eq_add_one hlen) (by rw [hlen]; rfl)
  rw [List.nil_append, blockOf_wordsOf] at hrun
  rw [hwrite]
  refine (hserved.trans ⟨_, writeWords_log_eq buffer a', hrun⟩).trans (Served.status ?_)
  rw [hlast]
  exact .inl ⟨UInt8.zero_and, rfl⟩

end Prompt

end Munux.Drivers
