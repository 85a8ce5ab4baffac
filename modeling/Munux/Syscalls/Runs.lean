import Munux.Fs.Ext2Dirs
import Munux.Syscalls.Handler

/-!
# Programs and their system calls

A run of system calls from boot. Between two calls a program may do anything to its registers and
its memory, and the timer ticks. The history of a run is the history of the descriptor layer
(`Fs.Event`), so what is proved of that layer holds of every program.

**Main results.**

* `calls_mirror`: the screen and the serial port show the same text, which is what the program
  wrote.
* `calls_read_motd`: every descriptor reads `/etc/motd` from front to back, in whatever order and
  with whatever buffers it is read, and no call writes outside the buffer it was given.
-/

namespace Munux.Syscalls

open Drivers Fs ByteMem X86

/-- What a call adds to the history of the descriptors. -/
def callEvents (k : Kernel) (m : ByteMem) (eax ebx ecx edx : UInt32) : List Fs.Event :=
  if eax = sysOpenNo then
    match fromUtf8 (slice m ebx.toNat ecx.toNat) with
    | none => []
    | some s =>
        match k.vfs.fdOpen s.toList with
        | .ok (fd, _) => [.opened s.toList fd]
        | _ => []
  else if eax = sysReadNo then
    let (n, out, _) := k.vfs.fdRead (signed ebx) (slice m ecx.toNat edx.toNat)
    [.read (signed ebx) n (out.take n.toNat)]
  else if eax = sysCloseNo then [.closed (signed ebx) (k.vfs.fdClose (signed ebx)).1]
  else []

/-- The characters that a call writes. -/
def callText (m : ByteMem) (eax ebx ecx edx : UInt32) : List UInt8 :=
  if eax = sysWriteNo ∧ ebx = 1 ∧ ecx ≠ 0 then slice m ecx.toNat edx.toNat else []

/-- The kernel after some calls since boot, with the history of the descriptors and the text that
was written. -/
inductive Calls (k₀ : Kernel) : List Fs.Event → List UInt8 → Kernel → Prop
  | boot : k₀.vfs = Vfs.initDefault → Calls k₀ bootEvents [] k₀
  | call {es : List Fs.Event} {text : List UInt8} {k k' : Kernel} {m m' : ByteMem}
      {eax ebx ecx edx ret : UInt32} :
      Calls k₀ es text k → dispatch k m eax ebx ecx edx = .ok (ret, k', m') →
        Calls k₀ (callEvents k m eax ebx ecx edx ++ es) (text ++ callText m eax ebx ecx edx) k'
  | tick {es : List Fs.Event} {text : List UInt8} {k : Kernel} :
      Calls k₀ es text k → Calls k₀ es text { k with ticks := k.ticks + 1 }

/-! ## One call -/

section Call

variable {k k' : Kernel} {m m' : ByteMem} {eax ebx ecx edx ret : UInt32} {es : List Fs.Event}

/-- What a call can be. -/
inductive CallCase (k : Kernel) (m : ByteMem) (eax ebx ecx edx ret : UInt32) (k' : Kernel)
    (m' : ByteMem) : Prop
  | quiet (hk : k'.vfs = k.vfs) (hm : m' = m) (hevents : callEvents k m eax ebx ecx edx = [])
      (hsent : k'.sent = k.sent ++ callText m eax ebx ecx edx)
      (hscreen : k'.screen = terminalWrite k.screen (callText m eax ebx ecx edx))
  | opened (s : String) (fd : Int) (v : Vfs) (hcall : k.vfs.fdOpen s.toList = .ok (fd, v))
      (hk : k' = { k with vfs := v }) (hm : m' = m)
      (hevents : callEvents k m eax ebx ecx edx = [.opened s.toList fd])
      (htext : callText m eax ebx ecx edx = [])
  | read (n : Int) (out : List UInt8) (v : Vfs)
      (hcall : k.vfs.fdRead (signed ebx) (slice m ecx.toNat edx.toNat) = (n, out, v))
      (hk : k' = { k with vfs := v }) (hm : m' = blit m ecx.toNat out)
      (hevents : callEvents k m eax ebx ecx edx = [.read (signed ebx) n (out.take n.toNat)])
      (htext : callText m eax ebx ecx edx = [])
  | closed (r : Int) (v : Vfs) (hcall : k.vfs.fdClose (signed ebx) = (r, v))
      (hk : k' = { k with vfs := v }) (hm : m' = m)
      (hevents : callEvents k m eax ebx ecx edx = [.closed (signed ebx) r])
      (htext : callText m eax ebx ecx edx = [])

theorem call_cases (h : dispatch k m eax ebx ecx edx = .ok (ret, k', m')) :
    CallCase k m eax ebx ecx edx ret k' m' := by
  by_cases hwrite : eax = sysWriteNo
  · subst hwrite
    obtain ⟨-, rfl, rfl⟩ : _ ∧ _ ∧ _ := by simpa using h
    by_cases hbad : ebx ≠ 1 ∨ ecx = 0
    · have htext : callText m sysWriteNo ebx ecx edx = [] := if_neg (by tauto)
      refine .quiet ?_ rfl rfl ?_ ?_
      all_goals simp [sysWrite, hbad, htext, terminalWrite]
    · have htext : callText m sysWriteNo ebx ecx edx = slice m ecx.toNat edx.toNat :=
        if_pos (by tauto)
      refine .quiet ?_ rfl rfl ?_ ?_
      all_goals simp [sysWrite, hbad, htext, foldl_putchar]
  have htext : callText m eax ebx ecx edx = [] := if_neg fun hand => hwrite hand.1
  have hquiet : ∀ {k'' : Kernel}, k''.vfs = k.vfs → k''.sent = k.sent → k''.screen = k.screen →
      callEvents k m eax ebx ecx edx = [] → CallCase k m eax ebx ecx edx ret k'' m :=
    fun hvfs hsent hscreen hevents => .quiet hvfs rfl hevents (by simp [htext, hsent])
      (by simp [htext, hscreen, terminalWrite])
  by_cases hticks : eax = sysGetTicksNo
  · subst hticks
    obtain ⟨-, rfl, rfl⟩ : _ ∧ _ ∧ _ := by simpa using h
    exact hquiet rfl rfl rfl rfl
  by_cases hopen : eax = sysOpenNo
  · subst hopen
    rw [dispatch_open, munuxRsVfsOpen] at h
    cases hs : fromUtf8 (slice m ebx.toNat ecx.toNat) with
    | none =>
        rw [hs] at h
        obtain ⟨-, rfl, rfl⟩ : _ ∧ _ ∧ _ := by simpa using h
        refine hquiet rfl rfl rfl ?_
        simp [callEvents, hs]
    | some s =>
        rw [hs] at h
        obtain ⟨⟨fd, v⟩, hcall, heq⟩ := Outcome.bind_eq_ok.1 h
        obtain ⟨-, rfl, rfl⟩ : _ ∧ _ ∧ _ := by simpa using heq
        exact .opened s fd v hcall rfl rfl (by simp [callEvents, hs, hcall]) htext
  by_cases hread : eax = sysReadNo
  · subst hread
    obtain ⟨-, rfl, rfl⟩ : _ ∧ _ ∧ _ := by simpa using h
    exact .read _ _ _ rfl rfl rfl rfl htext
  by_cases hclose : eax = sysCloseNo
  · subst hclose
    obtain ⟨-, rfl, rfl⟩ : _ ∧ _ ∧ _ := by simpa using h
    exact .closed _ _ rfl rfl rfl rfl htext
  · simp only [dispatch, if_neg hwrite, if_neg hticks, if_neg hopen, if_neg hread, if_neg hclose,
      Outcome.pure_eq, Outcome.ok.injEq, Prod.mk.injEq] at h
    obtain ⟨-, rfl, rfl⟩ := h
    refine hquiet rfl rfl rfl ?_
    simp only [callEvents, if_neg hopen, if_neg hread, if_neg hclose]

theorem ofInt_natCast (n : Nat) : UInt32.ofInt (n : Int) = UInt32.ofNat n := by
  rw [← UInt32.toNat_inj, UInt32.ofInt, UInt32.toNat_ofNat', UInt32.toNat_ofNat']
  omega

end Call

/-! ## The files at boot -/

section Boot

theorem create_ok (fs : TmpFs) {path p : Path} (hclean : clean path = .ok p)
    (hfree : fs.nodes[p]? = none) (hparent : fs.nodes[parentOf p]? = some .dir) (kind : NodeKind) :
    (fs.create path kind).1 = .ok () ∧ (fs.create path kind).2.nodes =
      fs.nodes.insert p (match kind with | .file => .file [] | .dir => .dir) := by
  have hcontains : fs.nodes.contains p = false := by
    rw [Std.ExtTreeMap.contains_eq_isSome_getElem?, hfree]
    rfl
  constructor
  all_goals
    simp only [TmpFs.create, hclean, hcontains, hparent]
    rfl

/-- Both calls of `init_default` that make a file succeed, and so does the one that fills it. -/
theorem contentOf_boot (p : Path) :
    contentOf p bootEvents = if p = etcMotd then some motd else none := by
  have hroot : root ≠ etc ∧ root ≠ etcMotd ∧ etc ≠ etcMotd := by decide
  have hnew : ∀ q, TmpFs.new.nodes[q]? = if root = q then some .dir else none := fun q => by
    rw [TmpFs.new, nodes_insert]
    simp
  obtain ⟨h₁, hfs₁⟩ := create_ok TmpFs.new (show clean etc = .ok etc by decide)
    (by rw [hnew, if_neg hroot.1]) (by rw [hnew]; exact if_pos (by decide)) .dir
  obtain ⟨h₂, hfs₂⟩ := create_ok (TmpFs.new.create etc .dir).2
    (show clean etcMotd = .ok etcMotd by decide)
    (by rw [hfs₁, nodes_insert, if_neg hroot.2.2, hnew, if_neg hroot.2.1])
    (by rw [hfs₁, nodes_insert]; exact if_pos (by decide)) .file
  have hclean : clean etcMotd = .ok etcMotd := by decide
  have h₃ : ((((TmpFs.new.create etc .dir).2.create etcMotd .file).2).write etcMotd motd).1 =
      .ok motd.length := by
    simp only [TmpFs.write, hclean, hfs₂, nodes_insert, if_true]
  have hinj : ∀ q : Path, (Except.ok etcMotd : Except VfsError Path) = .ok q ↔ q = etcMotd :=
    fun q => ⟨fun h => (Except.ok.inj h).symm, fun h => by rw [h]⟩
  simp only [bootEvents, contentOf, List.findSome?_cons, List.findSome?_nil, h₁, h₂, h₃,
    Fs.Event.sets,
    hclean, hinj]
  split_ifs <;> rfl

end Boot

/-! ## Whole runs -/

section Runs

variable {k₀ k k' : Kernel} {es : List Fs.Event} {text : List UInt8} {fd : Int} {path p : Path}

/-- A run of calls is a run of the descriptor layer. -/
theorem Calls.run (h : Calls k₀ es text k) : Fs.Run es k.vfs := by
  induction h with
  | boot hboot => exact hboot ▸ .boot
  | tick _ ih => exact ih
  | call _ hcall ih =>
      cases call_cases hcall with
      | quiet hk _ hevents =>
          rw [hevents, hk]
          exact ih
      | opened s fd v hopen hk _ hevents =>
          rw [hevents, hk]
          exact .fdOpen ih hopen
      | read n out v hread hk _ hevents =>
          rw [hevents, hk]
          exact .fdRead ih hread
      | closed r v hclose hk _ hevents =>
          rw [hevents, hk]
          exact .fdClose ih hclose

/-- **The screen and the serial port** show what the program wrote, after what was there before. -/
theorem calls_mirror (h : Calls k₀ es text k) :
    k.sent = k₀.sent ++ text ∧ k.screen = terminalWrite k₀.screen text := by
  induction h with
  | boot _ => exact ⟨(List.append_nil _).symm, rfl⟩
  | tick _ ih => exact ih
  | @call es text k k' m m' eax ebx ecx edx ret _ hcall ih =>
      obtain ⟨hsent, hscreen⟩ := ih
      have hkept : k'.sent = k.sent → k'.screen = k.screen → callText m eax ebx ecx edx = [] →
          k'.sent = k₀.sent ++ (text ++ callText m eax ebx ecx edx) ∧
            k'.screen = terminalWrite k₀.screen (text ++ callText m eax ebx ecx edx) :=
        fun hs hscr htext => by rw [htext, List.append_nil, hs, hscr]; exact ⟨hsent, hscreen⟩
      cases call_cases hcall with
      | quiet _ _ _ hsent' hscreen' =>
          rw [hsent', hscreen', hsent, hscreen, List.append_assoc]
          exact ⟨rfl, (List.foldl_append).symm⟩
      | opened s fd v _ hk _ _ htext => exact hkept (by rw [hk]) (by rw [hk]) htext
      | read n out v _ hk _ _ htext => exact hkept (by rw [hk]) (by rw [hk]) htext
      | closed r v _ hk _ _ htext => exact hkept (by rw [hk]) (by rw [hk]) htext

/-- The kernel at boot. -/
def bootKernel : Kernel where
  vfs := Vfs.initDefault
  screen := ⟨fun _ => 0, 0, 0, 7, vgaHeight_pos, vgaWidth_pos⟩
  sent := []
  ticks := 0

/-- Two characters are written. -/
theorem calls_mirror_ok :
    ∃ k m, m = blit (fun _ => 0) 0x1000 [111, 107] ∧
      dispatch bootKernel m sysWriteNo 1 0x1000 2 = .ok (2, k, m) ∧ k.sent = [111, 107] ∧
        k.screen = terminalWrite bootKernel.screen [111, 107] := by
  set m := blit (fun _ => 0) 0x1000 [111, 107] with hm
  have hcall : dispatch bootKernel m sysWriteNo 1 0x1000 2 =
      .ok (2, (sysWrite bootKernel m 1 0x1000 2).2, m) := rfl
  have htext : callText m sysWriteNo 1 0x1000 2 = [111, 107] := by
    rw [callText, if_pos (by decide), hm]
    exact slice_blit _ _ [111, 107]
  have hboot : Calls bootKernel bootEvents [] bootKernel := .boot rfl
  obtain ⟨hsent, hscreen⟩ := calls_mirror (hboot.call hcall)
  rw [htext, List.nil_append] at hsent hscreen
  exact ⟨_, m, rfl, hcall, hsent, hscreen⟩

/-- A call on a descriptor. -/
def OnFds : Fs.Event → Prop
  | .opened .. => True
  | .read .. => True
  | .closed .. => True
  | _ => False

theorem Calls.onFds (h : Calls k₀ es text k) :
    ∃ calls, es = calls ++ bootEvents ∧ ∀ e ∈ calls, OnFds e := by
  induction h with
  | boot _ => exact ⟨[], rfl, fun _ he => absurd he List.not_mem_nil⟩
  | tick _ ih => exact ih
  | @call es _ k _ m _ eax ebx ecx edx _ _ hcall ih =>
      obtain ⟨calls, rfl, hon⟩ := ih
      refine ⟨callEvents k m eax ebx ecx edx ++ calls, (List.append_assoc ..).symm, ?_⟩
      intro e he
      rcases List.mem_append.1 he with hnew | hold
      · cases call_cases hcall with
        | quiet _ _ hevents => simp [hevents] at hnew
        | opened _ _ _ _ _ _ hevents => simp [hevents] at hnew; exact hnew ▸ trivial
        | read _ _ _ _ _ _ hevents => simp [hevents] at hnew; exact hnew ▸ trivial
        | closed _ _ _ _ _ hevents => simp [hevents] at hnew; exact hnew ▸ trivial
      · exact hon e hold

theorem contentOf_onFds {calls : List Fs.Event} (hon : ∀ e ∈ calls, OnFds e) (es : List Fs.Event) :
    contentOf p (calls ++ es) = contentOf p es := by
  induction calls with
  | nil => rfl
  | cons e calls ih =>
      have hnone : e.sets p = none := by
        have he := hon e List.mem_cons_self
        cases e <;> first | rfl | exact absurd he not_false
      rw [List.cons_append, contentOf_cons_none p hnone, ih fun e he =>
        hon e (List.mem_cons_of_mem _ he)]

/-- A file that is only read is undisturbed. -/
theorem undisturbed_onFds {calls : List Fs.Event} (hon : ∀ e ∈ calls, OnFds e)
    (hopen : openedPath fd (calls ++ bootEvents) = some path) :
    Undisturbed fd p (calls ++ bootEvents) := by
  induction calls with
  | nil => cases hopen
  | cons e calls ih =>
      have hrest := ih fun e he => hon e (List.mem_cons_of_mem _ he)
      have he := hon e List.mem_cons_self
      rw [List.cons_append] at hopen ⊢
      cases e with
      | create => exact absurd he not_false
      | write => exact absurd he not_false
      | opened path' fd' =>
          rw [openedPath] at hopen
          split_ifs at hopen with hsame
          · exact .inl hsame
          · exact .inr (hrest hopen)
      | read fd' count bytes => exact hrest hopen
      | closed fd' result =>
          rw [openedPath] at hopen
          split_ifs at hopen
          exact hrest hopen

/-- Every open descriptor is on the one file, behind what it has delivered. -/
theorem Calls.on_motd (h : Calls k₀ es text k) (hopen : openedPath fd es = some path) :
    fileAt path es = some motd ∧ delivered fd es = motd.take (offsetOf fd es) ∧
      offsetOf fd es ≤ motd.length := by
  obtain ⟨fs, table, -, href⟩ := refines_run h.run
  obtain ⟨calls, rfl, hon⟩ := h.onFds
  obtain ⟨c, hc⟩ := Option.isSome_iff_exists.1 (href.named fd path hopen)
  cases hclean : clean path with
  | error e => simp [fileAt, hclean] at hc
  | ok p =>
      have hcontent : contentOf p (calls ++ bootEvents) = some c := by
        simpa only [fileAt, hclean] using hc
      have hboot := hcontent
      rw [contentOf_onFds hon, contentOf_boot] at hboot
      split_ifs at hboot
      obtain rfl := Option.some.inj hboot
      obtain ⟨hle, hdel⟩ :=
        href.received fd path p _ hopen hclean hcontent (undisturbed_onFds hon hopen)
      exact ⟨hc, hdel, hle⟩

/-- **Reading.** Whatever a program has called before, `SYS_READ` on an open descriptor returns as
much of `/etc/motd` as fits in the buffer, from where the last read on it ended, and writes nothing
else. -/
theorem calls_read_motd (h : Calls k₀ es text k) {fd : UInt32}
    (hopen : openedPath (signed fd) es = some path) (m : ByteMem) (buf len : UInt32) {n : Nat}
    (hn : n = min len.toNat (motd.length - (delivered (signed fd) es).length)) :
    delivered (signed fd) es <+: motd ∧
      ∃ k' m', dispatch k m sysReadNo fd buf len = .ok (UInt32.ofNat n, k', m') ∧
        slice m' buf.toNat n = (motd.drop (delivered (signed fd) es).length).take n ∧
          ∀ i, i < buf.toNat ∨ buf.toNat + n ≤ i → m' i = m i := by
  obtain ⟨hfile, hdel, hle⟩ := h.on_motd hopen
  have hlen : (delivered (signed fd) es).length = offsetOf (signed fd) es := by
    rw [hdel, List.length_take, Nat.min_eq_left hle]
  rw [hlen] at hn ⊢
  refine ⟨hdel ▸ List.take_prefix _ _, ?_⟩
  obtain ⟨fs, table, hvfs, href⟩ := refines_run h.run
  set out := slice m buf.toNat len.toNat with hout
  obtain ⟨table', hread, -⟩ := href.fdRead_open hopen hfile out (n := n) (by rw [hn, length_slice])
  have hcall : k.vfs.fdRead (signed fd) out =
      ((n : Int), (motd.drop (offsetOf (signed fd) es)).take n ++ out.drop n,
        ⟨some fs, some table'⟩) := by rw [hvfs, hread]
  set taken := (motd.drop (offsetOf (signed fd) es)).take n with htaken
  have hsize : taken.length = n := by
    rw [htaken, List.length_take, List.length_drop]
    omega
  have hmem : blit m buf.toNat (taken ++ out.drop n) = blit m buf.toNat taken := by
    rw [hout, ← hsize]
    exact blit_append_drop ..
  refine ⟨{ k with vfs := ⟨some fs, some table'⟩ }, blit m buf.toNat taken, ?_, ?_, fun i hi => ?_⟩
  · simp only [dispatch_read, munuxRsVfsRead, ← hout, hcall, hmem, ofInt_natCast]
  · rw [← hsize]
    exact slice_blit ..
  · exact blit_of_outside (by rwa [hsize])

/-- Memory that holds a path. -/
def pathMem : ByteMem := blit (fun _ => 0) 0x1000 "/etc/motd".toByteArray.data.toList

/-- The path is opened, and four bytes are read. -/
theorem calls_read_motd_four :
    ∃ k₁ k₂ m₂, dispatch bootKernel pathMem sysOpenNo 0x1000 9 0 = .ok (3, k₁, pathMem) ∧
      dispatch k₁ pathMem sysReadNo 3 0x2000 4 = .ok (4, k₂, m₂) ∧
        slice m₂ 0x2000 4 = [77, 117, 110, 117] := by
  have hpath : fromUtf8 (slice pathMem 0x1000 9) = some "/etc/motd" := by
    have hslice := slice_blit (fun _ => 0) 0x1000 "/etc/motd".toByteArray.data.toList
    rw [show "/etc/motd".toByteArray.data.toList.length = 9 by rfl] at hslice
    rw [pathMem, hslice]
    exact fromUtf8_toByteArray _
  obtain ⟨fs, hboot, href⟩ := refines_boot
  have hfile : (fileAt etcMotd bootEvents).isSome := by
    have hclean : clean etcMotd = .ok etcMotd := by decide
    simp only [fileAt, hclean, contentOf_boot, if_true]
    rfl
  rcases href.fdOpen etcMotd with ⟨hnone, -⟩ | ⟨-, fd, hlow, -, hbelow, hopen⟩
  · rw [hnone] at hfile
    cases hfile
  obtain rfl : fd = 3 := by
    by_contra hne
    exact hbelow 3 le_rfl (lt_of_le_of_ne hlow (Ne.symm hne)) rfl
  rw [← hboot] at hopen
  set v : Vfs := ⟨some fs, some ((∅ : FdTable).insert 3 (etcMotd, 0))⟩
  have hcall : dispatch bootKernel pathMem sysOpenNo 0x1000 9 0 =
      .ok (3, { bootKernel with vfs := v }, pathMem) := by
    rw [dispatch_open, munuxRsVfsOpen]
    simp only [UInt32.reduceToNat, hpath]
    exact congrArg (· >>= _) hopen
  have hstart : Calls bootKernel bootEvents [] bootKernel := .boot rfl
  have hrun := hstart.call hcall
  have hevents : callEvents bootKernel pathMem sysOpenNo 0x1000 9 0 = [.opened etcMotd 3] := by
    simp only [callEvents, if_true, UInt32.reduceToNat, hpath]
    simp only [bootKernel, show "/etc/motd".toList = etcMotd from rfl, hopen]
  have hmotd : motd = [77, 117, 110, 117, 120, 32, 118, 48, 46, 52, 10] := by
    rw [motd, toList_data]
    decide
  rw [hevents] at hrun
  obtain ⟨-, k₂, m₂, hread, hslice, -⟩ :=
    calls_read_motd hrun (show openedPath (signed 3) _ = some etcMotd from rfl) pathMem 0x2000 4
      (n := 4) (by rw [hmotd]; rfl)
  refine ⟨_, k₂, m₂, hcall, hread, ?_⟩
  rw [hmotd] at hslice
  exact hslice

end Runs

end Munux.Syscalls
