import Mathlib.Data.List.Basic

/-!
# The disk driver

`disk_read_sector` and `disk_write_sector` of `kernel/drivers/disk.c`, over the ports of the
controller. What the status port returns is an arbitrary stream of bytes; every access is recorded.

Both routines wait three times: for BSY to clear, before the command and after it, and then for DRQ.
A wait ends after a million bytes. The one that reads looks at the outcome of each wait; the one
that writes looks at none.

* `Reports`: what the caller may conclude from the result.
* `disk_reports_iff`: reads always report, writes exactly when all three waits succeed.
-/

namespace Munux.Drivers

/-- An access to a port. -/
inductive Access where
  | inb (port : UInt16) (value : UInt8)
  | outb (port : UInt16) (value : UInt8)
  | inw (port : UInt16) (value : UInt16)
  | outw (port : UInt16) (value : UInt16)
  deriving DecidableEq, Repr

/-- `ATA_PRIMARY_DATA`, and the other ports. -/
def ataPrimaryData : UInt16 := 0x1F0
def ataPrimarySeccount : UInt16 := 0x1F2
def ataPrimaryLbaLow : UInt16 := 0x1F3
def ataPrimaryLbaMid : UInt16 := 0x1F4
def ataPrimaryLbaHigh : UInt16 := 0x1F5
def ataPrimaryDrive : UInt16 := 0x1F6
def ataPrimaryStatus : UInt16 := 0x1F7
def ataPrimaryCommand : UInt16 := 0x1F7

/-- `ATA_SR_BSY`, and the other bits of the status byte that are looked at. -/
def ataSrBsy : UInt8 := 0x80
def ataSrDrq : UInt8 := 0x08
def ataSrErr : UInt8 := 0x01

def ataCmdReadSectors : UInt8 := 0x20
def ataCmdWriteSectors : UInt8 := 0x30

/-- `ATA_TIMEOUT` -/
def ataTimeout : Nat := 1000000

/-- The controller: what its status port and its data port will return from now on, and the accesses
so far. -/
structure Ata where
  status : Nat → UInt8
  data : Nat → UInt16
  log : List Access

namespace Ata

/-- `inb(ATA_PRIMARY_STATUS)` -/
def inStatus (d : Ata) : UInt8 × Ata :=
  (d.status 0, { d with
    status := fun i => d.status (i + 1)
    log := d.log ++ [.inb ataPrimaryStatus (d.status 0)] })

/-- `inw(ATA_PRIMARY_DATA)` -/
def inData (d : Ata) : UInt16 × Ata :=
  (d.data 0, { d with
    data := fun i => d.data (i + 1)
    log := d.log ++ [.inw ataPrimaryData (d.data 0)] })

def outb (d : Ata) (port : UInt16) (value : UInt8) : Ata :=
  { d with log := d.log ++ [.outb port value] }

def outw (d : Ata) (port : UInt16) (value : UInt16) : Ata :=
  { d with log := d.log ++ [.outw port value] }

/-- The controller after `n` reads of the status port. -/
def polled (d : Ata) (n : Nat) : Ata :=
  { d with
    status := fun i => d.status (n + i)
    log := d.log ++ (List.range n).map fun i => .inb ataPrimaryStatus (d.status i) }

end Ata

/-- The loop of `ata_wait_bsy` and `ata_wait_drq`: read the status until `stop` has a result for it,
at most `n` times. -/
def poll (stop : UInt8 → Option Int) : Nat → Ata → Int × Ata
  | 0, d => (-1, d)
  | n + 1, d =>
      match stop d.inStatus.1 with
      | some r => (r, d.inStatus.2)
      | none => poll stop n d.inStatus.2

/-- `ata_wait_bsy` -/
def ataWaitBsy (d : Ata) : Int × Ata :=
  poll (fun status => if status &&& ataSrBsy = 0 then some 0 else none) ataTimeout d

/-- `ata_wait_drq` -/
def ataWaitDrq (d : Ata) : Int × Ata :=
  poll (fun status =>
    if status &&& ataSrErr ≠ 0 then some (-1)
    else if status &&& ataSrDrq ≠ 0 then some 0
    else none) ataTimeout d

/-- Select the drive and the sector. -/
def ataSelect (d : Ata) (lba : UInt32) : Ata :=
  let d := d.outb ataPrimaryDrive ((0xE0 : UInt8) ||| (lba >>> 24).toUInt8 &&& 0x0F)
  let d := d.outb ataPrimarySeccount 1
  let d := d.outb ataPrimaryLbaLow lba.toUInt8
  let d := d.outb ataPrimaryLbaMid (lba >>> 8).toUInt8
  d.outb ataPrimaryLbaHigh (lba >>> 16).toUInt8

/-- And give the command. -/
def ataCommand (d : Ata) (lba : UInt32) (command : UInt8) : Ata :=
  (ataSelect d lba).outb ataPrimaryCommand command

/-- One turn of the loop that reads the data. -/
def readWord (s : Vector UInt8 512 × Ata) (i : Nat) : Vector UInt8 512 × Ata :=
  let (data, d) := s.2.inData
  ((s.1.setIfInBounds (i * 2) data.toUInt8).setIfInBounds (i * 2 + 1) (data >>> 8).toUInt8, d)

/-- One turn of the loop that writes it. -/
def writeWord (buffer : Vector UInt8 512) (d : Ata) (i : Nat) : Ata :=
  d.outw ataPrimaryData
    ((buffer[i * 2]?.getD 0).toUInt16 ||| (buffer[i * 2 + 1]?.getD 0).toUInt16 <<< 8)

/-- The two loops. -/
@[irreducible] def readWords (buffer : Vector UInt8 512) (d : Ata) : Vector UInt8 512 × Ata :=
  (List.range 256).foldl readWord (buffer, d)

@[irreducible] def writeWords (buffer : Vector UInt8 512) (d : Ata) : Ata :=
  (List.range 256).foldl (writeWord buffer) d

/-- `disk_read_sector` -/
def diskReadSector (lba : UInt32) (buffer : Vector UInt8 512) (d : Ata) :
    Int × Vector UInt8 512 × Ata :=
  let w := ataWaitBsy d
  if w.1 ≠ 0 then (-1, buffer, w.2)
  else
    let w := ataWaitBsy (ataCommand w.2 lba ataCmdReadSectors)
    if w.1 ≠ 0 then (-1, buffer, w.2)
    else
      let w := ataWaitDrq w.2
      if w.1 ≠ 0 then (-1, buffer, w.2)
      else (0, readWords buffer w.2)

/-- `disk_write_sector` -/
def diskWriteSector (lba : UInt32) (buffer : Vector UInt8 512) (d : Ata) : Int × Ata :=
  let d := (ataWaitBsy d).2
  let d := (ataWaitBsy (ataCommand d lba ataCmdWriteSectors)).2
  let d := (ataWaitDrq d).2
  let d := writeWords buffer d
  (0, (ataWaitBsy d).2)

/-! ## What a result must mean -/

/-- Byte `i` is the first one with BSY clear, and a wait gets that far. -/
structure ClearAt (status : Nat → UInt8) (i : Nat) : Prop where
  inTime : i < ataTimeout
  busy : ∀ k < i, status k &&& ataSrBsy ≠ 0
  clear : status i &&& ataSrBsy = 0

/-- Byte `i` is the first one with DRQ, there was no ERR up to it, and a wait gets that far. -/
structure ReadyAt (status : Nat → UInt8) (i : Nat) : Prop where
  inTime : i < ataTimeout
  waiting : ∀ k < i, status k &&& ataSrErr = 0 ∧ status k &&& ataSrDrq = 0
  noError : status i &&& ataSrErr = 0
  ready : status i &&& ataSrDrq ≠ 0

/-- The bytes let all three waits succeed: none times out, and the last one sees no error. -/
def Answers (status : Nat → UInt8) : Prop :=
  ∃ i j l, ClearAt status i ∧ ClearAt (fun k => status (i + 1 + k)) j ∧
    ReadyAt (fun k => status (i + 1 + (j + 1 + k))) l

/-- A word goes through the data port. -/
def Access.isData : Access → Bool
  | inw port _ => port == ataPrimaryData
  | outw port _ => port == ataPrimaryData
  | _ => false

/-- The parts of a successful call: before the command, the two waits after it, the data words, and
what comes after these. -/
structure Phases (before clear ready words rest : List Access) : Prop where
  idle : ∃ v, .inb ataPrimaryStatus v ∈ before ∧ v &&& ataSrBsy = 0
  accepted : ∃ v, .inb ataPrimaryStatus v ∈ clear ∧ v &&& ataSrBsy = 0
  requested : ∃ v, .inb ataPrimaryStatus v ∈ ready ∧ v &&& ataSrDrq ≠ 0 ∧ v &&& ataSrErr = 0
  length : words.length = 256
  data : ∀ a ∈ words, a.isData = true
  elsewhere : ∀ a ∈ before ++ clear ++ ready ++ rest, a.isData = false

/-- The accesses of a successful call. -/
def Transferred (command : UInt8) (trace : List Access) : Prop :=
  ∃ before clear ready words rest, Phases before clear ready words rest ∧
    trace = before ++ [.outb ataPrimaryCommand command] ++ clear ++ ready ++ words ++ rest

/-- A call on `d` with the result `r` leaves `d'`. If the controller answers, the result is 0 and
the data has been transferred; in every other case it is -1 and no word has been. -/
def Reports (command : UInt8) (d : Ata) (r : Int) (d' : Ata) : Prop :=
  ∃ trace, d'.log = d.log ++ trace ∧
    (Answers d.status ∧ r = 0 ∧ Transferred command trace ∨
      ¬Answers d.status ∧ r = -1 ∧ ∀ a ∈ trace, a.isData = false)

/-! ## The waits -/

section Waits

variable {status : Nat → UInt8} {stop : UInt8 → Option Int} {d : Ata} {i j l n : Nat}

theorem Ata.polled_zero (d : Ata) : d.polled 0 = d := by
  simp [polled]

theorem Ata.inStatus_polled (d : Ata) (n : Nat) : d.inStatus.2.polled n = d.polled (n + 1) := by
  simp only [inStatus, polled, List.range_succ_eq_map, List.map_cons, List.map_map,
    List.append_assoc, List.singleton_append]
  congr 1
  funext i
  rw [Nat.add_right_comm]

/-- A wait stops at the first byte with a result, or times out. -/
theorem poll_cases (stop : UInt8 → Option Int) (n : Nat) (d : Ata) :
    (∃ i r, i < n ∧ (∀ k < i, stop (d.status k) = none) ∧ stop (d.status i) = some r ∧
      poll stop n d = (r, d.polled (i + 1))) ∨
    (∀ k < n, stop (d.status k) = none) ∧ poll stop n d = (-1, d.polled n) := by
  induction n generalizing d with
  | zero =>
      right
      refine ⟨fun k hk => absurd hk (Nat.not_lt_zero k), ?_⟩
      rw [poll, d.polled_zero]
  | succ n ih =>
      rw [poll]
      cases hstop : stop d.inStatus.1 with
      | some r =>
          refine .inl ⟨0, r, n.succ_pos, fun k hk => absurd hk (Nat.not_lt_zero k), hstop, ?_⟩
          rw [← d.inStatus_polled, Ata.polled_zero]
      | none =>
          have hfirst : ∀ {m : Nat}, (∀ k < m, stop (d.inStatus.2.status k) = none) →
              ∀ k < m + 1, stop (d.status k) = none := by
            intro m hall k hk
            cases k with
            | zero => exact hstop
            | succ k => exact hall k (Nat.lt_of_succ_lt_succ hk)
          rcases ih d.inStatus.2 with ⟨i, r, hi, hnone, hsome, hpoll⟩ | ⟨hnone, hpoll⟩
          · refine .inl ⟨i + 1, r, Nat.succ_lt_succ hi, hfirst hnone, hsome, ?_⟩
            simp only [hpoll, d.inStatus_polled]
          · refine .inr ⟨hfirst hnone, ?_⟩
            simp only [hpoll, d.inStatus_polled]

theorem ataWaitBsy_cases (d : Ata) :
    (∃ i, ClearAt d.status i ∧ ataWaitBsy d = (0, d.polled (i + 1))) ∨
    (∀ i, ¬ClearAt d.status i) ∧ ∃ n, ataWaitBsy d = (-1, d.polled n) := by
  have hnone : ∀ {v : UInt8}, (if v &&& ataSrBsy = 0 then some (0 : Int) else none) = none →
      v &&& ataSrBsy ≠ 0 := by
    intro v hv hclear
    rw [if_pos hclear] at hv
    cases hv
  rcases poll_cases (fun v => if v &&& ataSrBsy = 0 then some 0 else none) ataTimeout d with
    ⟨i, r, hi, hbefore, hat, hpoll⟩ | ⟨hall, hpoll⟩
  · split_ifs at hat with hclear
    obtain rfl := Option.some.inj hat
    exact .inl ⟨i, ⟨hi, fun k hk => hnone (hbefore k hk), hclear⟩, hpoll⟩
  · exact .inr ⟨fun i h => hnone (hall i h.inTime) h.clear, _, hpoll⟩

theorem ataWaitDrq_cases (d : Ata) :
    (∃ i, ReadyAt d.status i ∧ ataWaitDrq d = (0, d.polled (i + 1))) ∨
    (∀ i, ¬ReadyAt d.status i) ∧ ∃ n, ataWaitDrq d = (-1, d.polled n) := by
  let stop : UInt8 → Option Int := fun v =>
    if v &&& ataSrErr ≠ 0 then some (-1) else if v &&& ataSrDrq ≠ 0 then some 0 else none
  have hnone : ∀ {v : UInt8}, stop v = none → v &&& ataSrErr = 0 ∧ v &&& ataSrDrq = 0 := by
    intro v hv
    simp only [stop] at hv
    split_ifs at hv with herr hdrq
    exact ⟨not_not.1 herr, not_not.1 hdrq⟩
  rcases poll_cases stop ataTimeout d with ⟨i, r, hi, hbefore, hat, hpoll⟩ | ⟨hall, hpoll⟩
  · have hstop := hat
    simp only [stop] at hat
    split_ifs at hat with herr hdrq
    · -- The wait ends at an error, so no later byte counts.
      obtain rfl := Option.some.inj hat
      refine .inr ⟨?_, _, hpoll⟩
      intro l h
      rcases Nat.lt_trichotomy l i with hlt | rfl | hlt
      · exact h.ready (hnone (hbefore l hlt)).2
      · exact herr h.noError
      · exact herr (h.waiting i hlt).1
    · obtain rfl := Option.some.inj hat
      exact .inl ⟨i, ⟨hi, fun k hk => hnone (hbefore k hk), not_not.1 herr, hdrq⟩, hpoll⟩
  · exact .inr ⟨fun i h => h.ready (hnone (hall i h.inTime)).2, _, hpoll⟩

theorem ClearAt.unique (hi : ClearAt status i) (hj : ClearAt status j) : i = j := by
  rcases Nat.lt_trichotomy i j with hlt | heq | hlt
  · exact absurd hi.clear (hj.busy i hlt)
  · exact heq
  · exact absurd hj.clear (hi.busy j hlt)

theorem ReadyAt.unique (hi : ReadyAt status i) (hj : ReadyAt status j) : i = j := by
  rcases Nat.lt_trichotomy i j with hlt | heq | hlt
  · exact absurd (hj.waiting i hlt).2 hi.ready
  · exact heq
  · exact absurd (hi.waiting j hlt).2 hj.ready

theorem ClearAt.ataWaitBsy (h : ClearAt d.status i) :
    Drivers.ataWaitBsy d = (0, d.polled (i + 1)) := by
  rcases ataWaitBsy_cases d with ⟨j, hj, hwait⟩ | ⟨hno, -⟩
  · rw [hwait, h.unique hj]
  · exact absurd h (hno i)

theorem ReadyAt.ataWaitDrq (h : ReadyAt d.status i) :
    Drivers.ataWaitDrq d = (0, d.polled (i + 1)) := by
  rcases ataWaitDrq_cases d with ⟨j, hj, hwait⟩ | ⟨hno, -⟩
  · rw [hwait, h.unique hj]
  · exact absurd h (hno i)

/-- The rest of the condition, once the first wait has succeeded, -/
theorem ClearAt.answers_iff (h : ClearAt status i) :
    Answers status ↔ ∃ j l, ClearAt (fun k => status (i + 1 + k)) j ∧
      ReadyAt (fun k => status (i + 1 + (j + 1 + k))) l := by
  constructor
  · rintro ⟨i', j, l, hi, hj, hl⟩
    obtain rfl := h.unique hi
    exact ⟨j, l, hj, hl⟩
  · rintro ⟨j, l, hj, hl⟩
    exact ⟨i, j, l, h, hj, hl⟩

/-- and the second. -/
theorem ClearAt.answers_iff_ready (h : ClearAt status i)
    (h' : ClearAt (fun k => status (i + 1 + k)) j) :
    Answers status ↔ ∃ l, ReadyAt (fun k => status (i + 1 + (j + 1 + k))) l := by
  rw [h.answers_iff]
  constructor
  · rintro ⟨j', l, hj, hl⟩
    obtain rfl := h'.unique hj
    exact ⟨l, hl⟩
  · rintro ⟨l, hl⟩
    exact ⟨j, l, h', hl⟩

end Waits

/-! ## The accesses -/

/-- Between `d` and `d'` no word goes through the data port. -/
def Quiet (d d' : Ata) : Prop :=
  ∃ trace, d'.log = d.log ++ trace ∧ ∀ a ∈ trace, a.isData = false

section Traces

variable {d d' d'' : Ata} {i j l : Nat} {lba : UInt32} {command : UInt8}
  {buffer : Vector UInt8 512}

theorem Quiet.trans (h : Quiet d d') (h' : Quiet d' d'') : Quiet d d'' := by
  obtain ⟨xs, hxs, hx⟩ := h
  obtain ⟨ys, hys, hy⟩ := h'
  refine ⟨xs ++ ys, ?_, ?_⟩
  · rw [hys, hxs, List.append_assoc]
  · intro a ha
    exact (List.mem_append.1 ha).elim (hx a) (hy a)

/-- The bytes that a wait reads. -/
def statuses (d : Ata) (n : Nat) : List Access :=
  (List.range n).map fun i => .inb ataPrimaryStatus (d.status i)

theorem polled_log (d : Ata) (n : Nat) : (d.polled n).log = d.log ++ statuses d n := rfl

theorem quiet_statuses (d : Ata) (n : Nat) : ∀ a ∈ statuses d n, a.isData = false := by
  intro a ha
  obtain ⟨i, -, rfl⟩ := List.mem_map.1 ha
  rfl

theorem mem_statuses (d : Ata) (i : Nat) :
    .inb ataPrimaryStatus (d.status i) ∈ statuses d (i + 1) :=
  List.mem_map.2 ⟨i, List.mem_range.2 i.lt_succ_self, rfl⟩

theorem quiet_polled (d : Ata) (n : Nat) : Quiet d (d.polled n) :=
  ⟨statuses d n, rfl, quiet_statuses d n⟩

theorem quiet_ataWaitBsy (d : Ata) : Quiet d (ataWaitBsy d).2 := by
  rcases ataWaitBsy_cases d with ⟨i, -, hwait⟩ | ⟨-, n, hwait⟩
  · rw [hwait]
    exact quiet_polled d _
  · rw [hwait]
    exact quiet_polled d n

theorem quiet_outb (d : Ata) (port : UInt16) (value : UInt8) : Quiet d (d.outb port value) := by
  refine ⟨_, rfl, ?_⟩
  intro a ha
  rw [List.mem_singleton.1 ha]
  rfl

theorem quiet_ataSelect (d : Ata) (lba : UInt32) : Quiet d (ataSelect d lba) :=
  ((((quiet_outb d _ _).trans (quiet_outb _ _ _)).trans (quiet_outb _ _ _)).trans
    (quiet_outb _ _ _)).trans (quiet_outb _ _ _)

theorem quiet_ataCommand (d : Ata) (lba : UInt32) (command : UInt8) :
    Quiet d (ataCommand d lba command) :=
  (quiet_ataSelect d lba).trans (quiet_outb _ _ _)

theorem ataCommand_log (d : Ata) (lba : UInt32) (command : UInt8) :
    (ataCommand d lba command).log =
      (ataSelect d lba).log ++ [.outb ataPrimaryCommand command] := rfl

/-- A loop that moves one word in each turn. -/
theorem foldl_words {β : Type} (f : β → Nat → β) (log : β → List Access)
    (hstep : ∀ b i, ∃ a : Access, a.isData = true ∧ log (f b i) = log b ++ [a]) (b : β) (n : Nat) :
    ∃ words, log ((List.range n).foldl f b) = log b ++ words ∧ words.length = n ∧
      ∀ a ∈ words, a.isData = true := by
  induction n with
  | zero => exact ⟨[], (List.append_nil _).symm, rfl, fun a ha => absurd ha List.not_mem_nil⟩
  | succ n ih =>
      obtain ⟨words, hwords, hlen, hdata⟩ := ih
      obtain ⟨a, ha, hlog⟩ := hstep ((List.range n).foldl f b) n
      refine ⟨words ++ [a], ?_, ?_, ?_⟩
      · rw [List.range_succ, List.foldl_append, List.foldl_cons, List.foldl_nil, hlog, hwords,
          List.append_assoc]
      · rw [List.length_append, hlen, List.length_singleton]
      · intro a' ha'
        rcases List.mem_append.1 ha' with ha' | ha'
        · exact hdata a' ha'
        · rwa [List.mem_singleton.1 ha']

/-- **Success.** Three waits that succeed, 256 words, and nothing on the data port after them. -/
theorem reports_of_waits (hi : ClearAt d.status i)
    (hj : ClearAt (fun k => d.status (i + 1 + k)) j)
    (hl : ReadyAt (fun k => d.status (i + 1 + (j + 1 + k))) l) {words rest : List Access}
    (hlen : words.length = 256) (hdata : ∀ a ∈ words, a.isData = true)
    (hrest : ∀ a ∈ rest, a.isData = false) (lba : UInt32)
    (hlog : d'.log = (((ataCommand (d.polled (i + 1)) lba command).polled (j + 1)).polled
      (l + 1)).log ++ words ++ rest) : Reports command d 0 d' := by
  obtain ⟨select, hlogged, hselect⟩ := quiet_ataSelect (d.polled (i + 1)) lba
  set d₂ := ataCommand (d.polled (i + 1)) lba command with hd₂
  have hphases : Phases (statuses d (i + 1) ++ select) (statuses d₂ (j + 1))
      (statuses (d₂.polled (j + 1)) (l + 1)) words rest := by
    refine ⟨⟨_, List.mem_append_left _ (mem_statuses d i), hi.clear⟩,
      ⟨_, mem_statuses d₂ j, hj.clear⟩, ⟨_, mem_statuses (d₂.polled (j + 1)) l, hl.ready,
      hl.noError⟩, hlen, hdata, ?_⟩
    intro a ha
    simp only [List.mem_append] at ha
    rcases ha with (((ha | ha) | ha) | ha) | ha
    · exact quiet_statuses d _ a ha
    · exact hselect a ha
    · exact quiet_statuses d₂ _ a ha
    · exact quiet_statuses (d₂.polled (j + 1)) _ a ha
    · exact hrest a ha
  refine ⟨_, ?_, .inl ⟨⟨i, j, l, hi, hj, hl⟩, rfl, _, _, _, _, _, hphases, rfl⟩⟩
  rw [hlog]
  have hlast : ((d₂.polled (j + 1)).polled (l + 1)).log =
      d.log ++ statuses d (i + 1) ++ (select ++ [.outb ataPrimaryCommand command]) ++
        statuses d₂ (j + 1) ++ statuses (d₂.polled (j + 1)) (l + 1) := by
    rw [polled_log, polled_log, hd₂, ataCommand_log, hlogged, polled_log]
    simp only [List.append_assoc]
  rw [hlast]
  simp only [List.append_assoc]

/-- **Failure.** Nothing goes through the data port. -/
theorem Quiet.reports (h : Quiet d d') (hno : ¬Answers d.status) : Reports command d (-1) d' := by
  obtain ⟨trace, hlog, hquiet⟩ := h
  exact ⟨trace, hlog, .inr ⟨hno, rfl, hquiet⟩⟩

theorem readWords_log (buffer : Vector UInt8 512) (d : Ata) :
    ∃ words, (readWords buffer d).2.log = d.log ++ words ∧ words.length = 256 ∧
      ∀ a ∈ words, a.isData = true := by
  unfold readWords
  exact foldl_words readWord (fun s => s.2.log)
    (fun s i => ⟨.inw ataPrimaryData (s.2.data 0), rfl, rfl⟩) (buffer, d) 256

theorem writeWords_log (buffer : Vector UInt8 512) (d : Ata) :
    ∃ words, (writeWords buffer d).log = d.log ++ words ∧ words.length = 256 ∧
      ∀ a ∈ words, a.isData = true := by
  unfold writeWords
  exact foldl_words (writeWord buffer) Ata.log (fun d i => ⟨_, rfl, rfl⟩) d 256

/-- **Reading reports,** and a call that fails leaves the buffer alone. -/
theorem diskReadSector_spec (lba : UInt32) (buffer : Vector UInt8 512) (d : Ata) :
    ∃ r buffer' d', diskReadSector lba buffer d = (r, buffer', d') ∧
      (r ≠ 0 → buffer' = buffer) ∧ Reports ataCmdReadSectors d r d' := by
  rcases ataWaitBsy_cases d with ⟨i, hi, hwait⟩ | ⟨hno, n, hwait⟩
  rotate_left
  · refine ⟨-1, buffer, d.polled n, by simp [diskReadSector, hwait], fun _ => rfl, ?_⟩
    exact (quiet_polled d n).reports fun ⟨i, _, _, hi, _⟩ => hno i hi
  obtain ⟨d₂, hd₂⟩ : ∃ d₂, ataCommand (d.polled (i + 1)) lba ataCmdReadSectors = d₂ := ⟨_, rfl⟩
  have hstatus : d₂.status = fun k => d.status (i + 1 + k) := by rw [← hd₂]; rfl
  have hquiet : Quiet d d₂ :=
    (quiet_polled d (i + 1)).trans (hd₂ ▸ quiet_ataCommand (d.polled (i + 1)) lba _)
  rcases ataWaitBsy_cases d₂ with ⟨j, hj, hwait₂⟩ | ⟨hno, n, hwait₂⟩
  rotate_left
  · refine ⟨-1, buffer, d₂.polled n, by simp [diskReadSector, hwait, hd₂, hwait₂],
      fun _ => rfl, ?_⟩
    refine (hquiet.trans (quiet_polled d₂ n)).reports ?_
    rw [hi.answers_iff, ← hstatus]
    exact fun ⟨j, _, hj, _⟩ => hno j hj
  obtain ⟨d₃, hd₃⟩ : ∃ d₃, d₂.polled (j + 1) = d₃ := ⟨_, rfl⟩
  have hstatus₃ : d₃.status = fun k => d.status (i + 1 + (j + 1 + k)) := by
    rw [← hd₃, Ata.polled, hstatus]
  rw [hstatus] at hj
  rw [hd₃] at hwait₂
  rcases ataWaitDrq_cases d₃ with ⟨l, hl, hwait₃⟩ | ⟨hno, n, hwait₃⟩
  rotate_left
  · refine ⟨-1, buffer, d₃.polled n, by simp [diskReadSector, hwait, hd₂, hwait₂, hwait₃],
      fun _ => rfl, ?_⟩
    refine ((hquiet.trans (hd₃ ▸ quiet_polled d₂ _)).trans (quiet_polled d₃ n)).reports ?_
    rw [hi.answers_iff_ready hj, ← hstatus₃]
    exact fun ⟨l, hl⟩ => hno l hl
  obtain ⟨words, hlog, hlen, hdata⟩ := readWords_log buffer (d₃.polled (l + 1))
  refine ⟨0, (readWords buffer (d₃.polled (l + 1))).1, (readWords buffer (d₃.polled (l + 1))).2,
    by simp [diskReadSector, hwait, hd₂, hwait₂, hwait₃], fun hne => absurd rfl hne, ?_⟩
  have hnone : ∀ a ∈ ([] : List Access), a.isData = false := nofun
  refine reports_of_waits hi hj (hstatus₃ ▸ hl) hlen hdata hnone lba ?_
  rw [List.append_nil, hd₂, hd₃, hlog]

/-- **Writing reports** when the controller answers. -/
theorem diskWriteSector_reports (lba : UInt32) (buffer : Vector UInt8 512) (d : Ata)
    (h : Answers d.status) : Reports ataCmdWriteSectors d (diskWriteSector lba buffer d).1
      (diskWriteSector lba buffer d).2 := by
  obtain ⟨i, j, l, hi, hj, hl⟩ := h
  have hwait := hi.ataWaitBsy
  have hwait₂ := ClearAt.ataWaitBsy (d := ataCommand (d.polled (i + 1)) lba ataCmdWriteSectors) hj
  have hwait₃ := ReadyAt.ataWaitDrq
    (d := (ataCommand (d.polled (i + 1)) lba ataCmdWriteSectors).polled (j + 1)) hl
  obtain ⟨words, hlog, hlen, hdata⟩ := writeWords_log buffer
    (((ataCommand (d.polled (i + 1)) lba ataCmdWriteSectors).polled (j + 1)).polled (l + 1))
  obtain ⟨rest, hrest, hquiet⟩ := quiet_ataWaitBsy (writeWords buffer
    (((ataCommand (d.polled (i + 1)) lba ataCmdWriteSectors).polled (j + 1)).polled (l + 1)))
  refine reports_of_waits hi hj hl hlen hdata hquiet lba ?_
  simp only [diskWriteSector, hwait, hwait₂, hwait₃]
  rw [hrest, hlog]

/-- **The driver reports failure** when it reads, always; when it writes, exactly if the controller
answers in time and without an error. -/
theorem disk_reports_iff (lba : UInt32) (buffer : Vector UInt8 512) (d : Ata) :
    (∃ r buffer' d', diskReadSector lba buffer d = (r, buffer', d') ∧
      Reports ataCmdReadSectors d r d') ∧
    (Reports ataCmdWriteSectors d (diskWriteSector lba buffer d).1
      (diskWriteSector lba buffer d).2 ↔ Answers d.status) := by
  refine ⟨?_, ?_, diskWriteSector_reports lba buffer d⟩
  · obtain ⟨r, buffer', d', hcall, -, hreports⟩ := diskReadSector_spec lba buffer d
    exact ⟨r, buffer', d', hcall, hreports⟩
  · rintro ⟨trace, -, ⟨hyes, -⟩ | ⟨-, hr, -⟩⟩
    · exact hyes
    · cases hr

/-- **A write to a drive that is never ready.** BSY stays set, all waits time out; the words are
written all the same, and the result is 0. -/
theorem write_ignores_timeouts :
    ∃ d, (∀ k, d.status k = ataSrBsy) ∧ (diskWriteSector 2 (Vector.replicate 512 0) d).1 = 0 ∧
      ¬Reports ataCmdWriteSectors d (diskWriteSector 2 (Vector.replicate 512 0) d).1
        (diskWriteSector 2 (Vector.replicate 512 0) d).2 := by
  refine ⟨⟨fun _ => ataSrBsy, fun _ => 0, []⟩, fun _ => rfl, rfl, ?_⟩
  rintro ⟨trace, -, ⟨⟨i, _, _, hi, -⟩, -⟩ | ⟨-, hr, -⟩⟩
  · have hclear : ataSrBsy &&& ataSrBsy = 0 := hi.clear
    exact absurd hclear (by decide)
  · cases hr

end Traces

end Munux.Drivers
