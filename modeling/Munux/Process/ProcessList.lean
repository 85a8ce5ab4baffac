import Mathlib.Data.List.Flatten
import Munux.Process.Lifecycle

/-!
# The process list

When `process_list` is what it should be: the processes created and not yet terminated, each once,
with a null pointer at the end.

The list and the ready queues share the `next` field, so the two cannot hold the same process.
`scheduler_add_process` closes a ring through the process it is given, and from then on the list
runs into that ring and never ends. `process_list_intact` is about the runs in which this does not
happen; `process_list_cyclic` is the shortest one in which it does.
-/

namespace Munux.Process

open State

/-! ## Lists -/

/-- The process list of `s` is `xs`. -/
structure OnList (s : State) (xs : List Nat) : Prop where
  seg : Seg s.next s.processList xs 0
  nodup : xs.Nodup
  addr : ∀ p ∈ xs, p ≠ 0 ∧ p < wordCount

/-- `s'` differs from `s` only in `process_list` and `next` fields. -/
structure Relinked (s s' : State) : Prop where
  pcb : ∀ x, s'.pcb x = { s.pcb x with next := s'.next x }
  queues : s'.readyQueue = s.readyQueue
  current : s'.currentProcess = s.currentProcess
  idle : s'.idleProcess = s.idleProcess
  nextPid : s'.nextPid = s.nextPid

section Lists

variable {s s' : State} {xs : List Nat} {p : Nat}

theorem relinked_setNext (s : State) (p v : Nat) : Relinked s (s.setNext p v) where
  pcb x := by
    by_cases hx : x = p
    · subst hx
      simp [State.next, setNext]
    · simp [State.next, setNext, modify_pcb_of_ne hx]
  queues := rfl
  current := rfl
  idle := rfl
  nextPid := rfl

theorem relinked_processList (s : State) (v : Nat) : Relinked s { s with processList := v } :=
  ⟨fun _ => rfl, rfl, rfl, rfl, rfl⟩

/-- A list of processes that is not empty has a last one. -/
theorem OnList.eq_snoc (h : OnList s xs) (hlist : s.processList ≠ 0) :
    ∃ pre last, xs = pre ++ [last] := by
  rcases List.eq_nil_or_concat xs with rfl | ⟨pre, last, heq⟩
  · exact absurd h.seg hlist
  · exact ⟨pre, last, by rw [heq, List.concat_eq_append]⟩

theorem OnList.empty_iff (h : OnList s xs) : s.processList = 0 ↔ xs = [] := by
  constructor
  · intro hlist
    cases xs with
    | nil => rfl
    | cons x xs => exact absurd (h.seg.1 ▸ hlist) (h.addr x List.mem_cons_self).1
  · rintro rfl
    exact h.seg

/-- **Appending.** The walk ends, and the new process comes last. -/
theorem appendProcess_spec (h : OnList s xs) (hp : p ≠ 0) (hlt : p < wordCount) (hnew : p ∉ xs)
    (hnext : s.next p = 0) :
    ∃ s', appendProcess s p = .ok s' ∧ Relinked s s' ∧ OnList s' (xs ++ [p]) := by
  have hnodup : (xs ++ [p]).Nodup :=
    (List.perm_append_singleton p xs).nodup_iff.2 (List.nodup_cons.2 ⟨hnew, h.nodup⟩)
  have haddr : ∀ x ∈ xs ++ [p], x ≠ 0 ∧ x < wordCount := by
    intro x hx
    rcases List.mem_append.1 hx with hx | hx
    · exact h.addr x hx
    · rw [List.mem_singleton.1 hx]
      exact ⟨hp, hlt⟩
  unfold appendProcess
  by_cases hempty : s.processList = 0
  · rw [if_pos hempty]
    obtain rfl := h.empty_iff.1 hempty
    exact ⟨_, rfl, relinked_processList s p, ⟨rfl, hnext⟩, hnodup, haddr⟩
  · rw [if_neg hempty]
    obtain ⟨pre, last, rfl⟩ := h.eq_snoc hempty
    rw [h.seg.follow_end h.nodup h.addr]
    refine ⟨_, rfl, relinked_setNext s last p, ?_, hnodup, haddr⟩
    have hlast : p ≠ last := fun hc => hnew (by simp [hc])
    have hend : (s.setNext last p).next p = 0 := (setNext_next_of_ne hlast).trans hnext
    rw [← hend]
    refine h.seg.snoc setNext_next_self fun y hy => setNext_next_of_ne ?_
    rintro rfl
    exact List.disjoint_of_nodup_append h.nodup hy List.mem_cons_self

/-- **Unlinking.** The walk ends, and exactly the given process leaves the list. -/
theorem unlinkProcess_spec (h : OnList s xs) (hp : p ∈ xs) :
    ∃ s', unlinkProcess s p = .ok s' ∧ Relinked s s' ∧ OnList s' (xs.erase p) := by
  have hnodup : (xs.erase p).Nodup := h.nodup.erase p
  have haddr : ∀ x ∈ xs.erase p, x ≠ 0 ∧ x < wordCount := fun x hx =>
    h.addr x (List.mem_of_mem_erase hx)
  unfold unlinkProcess
  obtain ⟨l, t, rfl⟩ := List.append_of_mem hp
  have hpl : p ∉ l := fun hc => List.disjoint_of_nodup_append h.nodup hc List.mem_cons_self
  have herase : (l ++ p :: t).erase p = l ++ t := by
    rw [List.erase_append_right _ hpl, List.erase_cons_head]
  rw [herase] at hnodup haddr ⊢
  rcases List.eq_nil_or_concat l with rfl | ⟨pre, x, hl⟩
  · rw [if_pos h.seg.1]
    exact ⟨_, rfl, relinked_processList s _, h.seg.2, hnodup, haddr⟩
  · rw [List.concat_eq_append] at hl
    subst hl
    have hseg : Seg s.next s.processList (pre ++ x :: p :: t) 0 := by simpa using h.seg
    have hnd : (pre ++ x :: p :: t).Nodup := by simpa using h.nodup
    have hhead : s.processList ≠ p := by
      intro hc
      cases pre with
      | nil => exact hpl (by simp [← hc, hseg.1])
      | cons y pre => exact hpl (by simp [← hc, hseg.1])
    rw [if_neg hhead]
    have hxp : s.next x = p := (seg_split.1 hseg).2.1
    -- The walk stops at `x`: a node before it points at a node before `p`.
    have hfind : (pre ++ x :: p :: t).find? (fun y => s.next y == p) = some x := by
      refine List.find?_eq_some_iff_append.2 ⟨by simpa using hxp, pre, p :: t, rfl, fun y hy => ?_⟩
      have hupto : Seg s.next s.processList (pre ++ [x]) p :=
        seg_append.2 ⟨x, (seg_split.1 hseg).1, rfl, hxp⟩
      have hmem := hupto.next_mem hy
      have hne : s.next y ≠ p := by
        intro hc
        rw [hc] at hmem
        exact hpl (by simpa using hmem)
      simpa using hne
    have hxs : ∀ y ∈ pre ++ x :: p :: t, y ≠ 0 ∧ y < wordCount := fun y hy =>
      h.addr y (by simpa using hy)
    rw [hseg.follow_find hnd hxs, hfind]
    have hx0 : x ≠ 0 := (hxs x (by simp)).1
    simp only [Option.getD_some, Outcome.pure_eq, Outcome.ok_bind, if_neg hx0]
    refine ⟨_, rfl, relinked_setNext s x _, ?_, hnodup, haddr⟩
    have hnx : ∀ y ∈ pre ++ t, y ≠ x := by
      rintro y hy rfl
      rw [List.nodup_append, List.nodup_cons] at hnd
      rcases List.mem_append.1 hy with hy | hy
      · exact hnd.2.2 y hy y List.mem_cons_self rfl
      · exact hnd.2.1.1 (List.mem_cons_of_mem _ hy)
    simpa using hseg.unlink setNext_next_self fun y hy => setNext_next_of_ne (hnx y hy)

/-- **Finding.** The search ends, at the first process of the list with that number. -/
theorem processFindByPid_spec (h : OnList s xs) (pid : Nat) :
    processFindByPid s pid = .ok ((xs.find? fun x => (s.pcb x).pid == pid).getD 0) :=
  h.seg.follow_find h.nodup h.addr _

end Lists

/-! ## Runs -/

/-- The calls a run is made of. -/
inductive ListOp where
  | init (idleTask : Nat)
  | create (name : List UInt8) (entryPoint priority : Nat)
  | add (p : Nat)
  | schedule
  | terminate (p : Nat)
  deriving DecidableEq, Repr

namespace ListOp

variable {M : Type}

/-- One call, with the pointer it returns. -/
def step (A : Allocator M) (dir : Nat) (s : State) (m : M) : ListOp → Outcome (Nat × State × M)
  | init idleTask => processInit A dir s m idleTask
  | create name entryPoint priority => processCreate A dir s m name entryPoint priority
  | add p => schedulerAddProcess s p >>= fun s' => .ok (0, s', m)
  | schedule => Process.schedule s >>= fun r => .ok (0, r.1, m)
  | terminate p => processTerminate A s m p >>= fun r => .ok (0, r.1, r.2.1)

/-- The rule for callers: processes named are null or alive, and every `kmalloc` succeeds. -/
def Allowed (A : Allocator M) (m : M) (live : List Nat) : ListOp → Prop
  | init _ => Succeeds A m
  | create _ _ _ => Succeeds A m
  | add p => p = 0 ∨ p ∈ live
  | schedule => True
  | terminate p => p = 0 ∨ p ∈ live

/-- No process is put in a ready queue. -/
def KeepsApart : ListOp → Prop
  | add p => p = 0
  | _ => True

/-- The processes alive after a call that returned `ptr`, in order of creation. -/
def record (live : List Nat) (ptr : Nat) : ListOp → List Nat
  | init _ => live ++ [ptr]
  | create _ _ _ => live ++ [ptr]
  | terminate p => live.erase p
  | _ => live

/-- The number of processes a call creates. -/
def creates : ListOp → Nat
  | init _ => 1
  | create _ _ _ => 1
  | _ => 0

/-- A run of calls that satisfy `ok`, with the number of processes created and those alive. -/
inductive Run (A : Allocator M) (dir : Nat) (ok : M → List Nat → ListOp → Prop)
    (s₀ : State) (m₀ : M) :
    Nat → List Nat → State → M → Prop
  | start : Run A dir ok s₀ m₀ 0 [] s₀ m₀
  | call {n ptr : Nat} {live : List Nat} {s s' : State} {m m' : M} (op : ListOp) :
      Run A dir ok s₀ m₀ n live s m → ok m live op → op.step A dir s m = .ok (ptr, s', m') →
      Run A dir ok s₀ m₀ (n + op.creates) (op.record live ptr) s' m'

end ListOp

/-- The globals as the kernel finds them: null pointers, and the first process number. -/
structure Zeroed (s : State) : Prop where
  list : s.processList = 0
  queues : ∀ q, s.readyQueue q = 0
  current : s.currentProcess = 0
  idle : s.idleProcess = 0
  nextPid : s.nextPid = 1

/-- `process_list` is right, and the loops over it end: it holds exactly the live processes, a
search returns the process with that number or null, and `process_create` returns when the heap
has room. -/
structure ListIntact {M : Type} (A : Allocator M) (dir : Nat) (s : State) (m : M)
    (live : List Nat) :
    Prop where
  list : OnList s live
  find : ∀ pid, ∃ r, processFindByPid s pid = .ok r ∧
    (r ∈ live ∧ (s.pcb r).pid = pid ∨ r = 0 ∧ ∀ p ∈ live, (s.pcb p).pid ≠ pid)
  create : ∀ name entryPoint priority, Succeeds A m →
    ∃ r, processCreate A dir s m name entryPoint priority = .ok r

/-- The addresses a process owns: its control block and its two stacks. -/
def blocks (s : State) (p : Nat) : List Nat :=
  [p, stackBase (s.pcb p).kernelStack, stackBase (s.pcb p).userStack]

/-- The invariant of a run: the list is right, no queue is in use, and no two live processes share
an allocation. -/
structure ListInv {M : Type} (owned : M → Nat → Prop) (s : State) (m : M) (n : Nat)
    (live : List Nat) : Prop where
  list : OnList s live
  apart : (live.flatMap (blocks s)).Nodup
  owned : ∀ x ∈ live.flatMap (blocks s), owned m x
  queues : ∀ q, s.readyQueue q = 0
  current : s.currentProcess = s.idleProcess
  stopped : s.currentProcess ≠ 0 → (s.pcb s.currentProcess).state ≠ .running
  pids : n + 1 < wordCount → s.nextPid = n + 1 ∧ (∀ p ∈ live, (s.pcb p).pid ≤ n) ∧
    (live.map fun p => (s.pcb p).pid).Nodup

section Steps

variable {M : Type} {A : Allocator M} {owned : M → Nat → Prop} {s s' : State} {m m' : M}
  {live : List Nat} {n p dir : Nat}

theorem Relinked.blocks (h : Relinked s s') : Process.blocks s' = Process.blocks s := by
  funext x
  rw [Process.blocks, h.pcb x]
  rfl

theorem Relinked.pid (h : Relinked s s') (x : Nat) : (s'.pcb x).pid = (s.pcb x).pid := by rw [h.pcb]

theorem Relinked.state (h : Relinked s s') (x : Nat) : (s'.pcb x).state = (s.pcb x).state := by
  rw [h.pcb]

theorem mem_blocks_self : p ∈ blocks s p := List.mem_cons_self

theorem ListInv.owned_live (h : ListInv owned s m n live) (hp : p ∈ live) : owned m p :=
  h.owned p (List.mem_flatMap.2 ⟨p, hp, mem_blocks_self⟩)

/-- The list survives an update of the control blocks that keeps the links of its members. -/
theorem OnList.congr {xs : List Nat} (h : OnList s xs) (hlist : s'.processList = s.processList)
    (hnext : ∀ x ∈ xs, s'.next x = s.next x) : OnList s' xs :=
  ⟨hlist ▸ h.seg.congr hnext, h.nodup, h.addr⟩

/-- Without ready processes `schedule` only refills the quantum of the idle process. -/
theorem schedule_idle (hq : ∀ q, s.readyQueue q = 0) (hcur : s.currentProcess = s.idleProcess)
    (hstop : s.currentProcess ≠ 0 → (s.pcb s.currentProcess).state ≠ .running) :
    schedule s = .ok (if s.currentProcess = 0 then s else
      s.modify s.currentProcess fun b => { b with quantum := defaultQuantum }, none) := by
  unfold schedule
  by_cases hzero : s.currentProcess = 0
  · simp [hzero]
  · have hselect : selectNextProcess s = (s.idleProcess, s) := by
      simp [selectNextProcess, priorities, hq]
    simp [hzero, requeueCurrent, hstop hzero, dispatch, hselect, ← hcur]

theorem inv_schedule_idle (h : ListInv owned s m n live) :
    ∃ s', schedule s = .ok (s', none) ∧ ListInv owned s' m n live := by
  rw [schedule_idle h.queues h.current h.stopped]
  refine ⟨_, rfl, ?_⟩
  split_ifs with hzero
  · exact h
  set s₁ := s.modify s.currentProcess fun b => { b with quantum := defaultQuantum } with hs₁
  have hpcb : ∀ x, s₁.pcb x = { s.pcb x with quantum := (s₁.pcb x).quantum } := by
    intro x
    by_cases hx : x = s.currentProcess
    · rw [hx, hs₁, modify_pcb_self]
    · rw [hs₁, modify_pcb_of_ne hx]
  have hnext : s₁.next = s.next := by
    funext x
    rw [State.next, hpcb x]
    rfl
  have hblocks : blocks s₁ = blocks s := by
    funext x
    rw [blocks, hpcb x]
    rfl
  have hpid : ∀ x, (s₁.pcb x).pid = (s.pcb x).pid := by
    intro x
    rw [hpcb x]
  refine ⟨h.list.congr rfl fun x _ => by rw [hnext], ?_, ?_, h.queues, h.current, ?_, ?_⟩
  · rw [hblocks]
    exact h.apart
  · rw [hblocks]
    exact h.owned
  · intro _
    rw [hpcb]
    exact h.stopped hzero
  · simpa only [hpid] using show _ → s₁.nextPid = n + 1 ∧ _ from h.pids

theorem withNew_self {b : Pcb} : (s.withNew p b).pcb p = b := Function.update_self _ _ _

theorem withNew_of_ne {b : Pcb} {x : Nat} (hx : x ≠ p) : (s.withNew p b).pcb x = s.pcb x :=
  Function.update_of_ne hx _ _

/-- Three successful allocations give three new addresses. -/
theorem Succeeds.fresh (hA : Sound A owned) (h : Succeeds A m) :
    ∃ p m₁ k m₂ u m₃, A.kmalloc pcbSize m = .ok (p, m₁) ∧ A.kmalloc stackSize m₁ = .ok (k, m₂) ∧
      A.kmalloc stackSize m₂ = .ok (u, m₃) ∧ p ≠ 0 ∧ (∀ x ∈ [p, k, u], x < wordCount) ∧
      [p, k, u].Nodup ∧ (∀ x ∈ [p, k, u], ¬ owned m x) ∧
      ∀ x, owned m₃ x ↔ x ∈ [p, k, u] ∨ owned m x := by
  obtain ⟨p, m₁, k, m₂, u, m₃, hp, hp0, hk, hk0, hu, hu0⟩ := h
  obtain ⟨hplt, hpnew, hm₁⟩ := hA.kmalloc hp hp0
  obtain ⟨hklt, hknew, hm₂⟩ := hA.kmalloc hk hk0
  obtain ⟨hult, hunew, hm₃⟩ := hA.kmalloc hu hu0
  rw [hm₁, not_or] at hknew
  rw [hm₂, hm₁, not_or, not_or] at hunew
  refine ⟨p, m₁, k, m₂, u, m₃, hp, hk, hu, hp0, by simp [hplt, hklt, hult], ?_,
    by simp [hpnew, hknew.2, hunew.2.2], ?_⟩
  · simp [Ne.symm hknew.1, Ne.symm hunew.2.1, Ne.symm hunew.1]
  · intro x
    rw [hm₃, hm₂, hm₁]
    simp only [List.mem_cons, List.not_mem_nil, or_false]
    tauto

/-- A process with the next number, behind those that have smaller ones. -/
theorem pids_snoc (hle : ∀ x ∈ live, (s.pcb x).pid ≤ n)
    (hnd : (live.map fun x => (s.pcb x).pid).Nodup)
    (hkeep : ∀ x ∈ live, (s'.pcb x).pid = (s.pcb x).pid) (hself : (s'.pcb p).pid = n + 1) :
    (∀ x ∈ live ++ [p], (s'.pcb x).pid ≤ n + 1) ∧
      ((live ++ [p]).map fun x => (s'.pcb x).pid).Nodup := by
  constructor
  · intro x hx
    rcases List.mem_append.1 hx with hx | hx
    · rw [hkeep x hx]
      exact Nat.le_succ_of_le (hle x hx)
    · rw [List.mem_singleton.1 hx]
      exact Nat.le_of_eq hself
  · rw [List.map_append, List.map_congr_left hkeep, List.map_singleton, hself]
    refine List.nodup_append.2 ⟨hnd, List.nodup_singleton _, ?_⟩
    intro a ha c hc
    obtain ⟨x, hx, rfl⟩ := List.mem_map.1 ha
    rw [List.mem_singleton.1 hc]
    exact Nat.ne_of_lt (Nat.lt_succ_of_le (hle x hx))

/-- **Creating.** With three successful allocations the call returns the control block, filled in
and at the end of the list. -/
theorem processCreate_spec {m₁ m₂ m₃ : M} {k u : Nat} (h : OnList s live)
    (hp : A.kmalloc pcbSize m = .ok (p, m₁)) (hk : A.kmalloc stackSize m₁ = .ok (k, m₂))
    (hu : A.kmalloc stackSize m₂ = .ok (u, m₃)) (hp0 : p ≠ 0) (hlt : p < wordCount)
    (hout : p ∉ live) (dir : Nat) (name : List UInt8) (entryPoint priority : Nat) :
    ∃ s', processCreate A dir s m name entryPoint priority = .ok (p, s', m₃) ∧
      Relinked (s.withNew p (initialPcb s name entryPoint priority dir k u)) s' ∧
      OnList s' (live ++ [p]) := by
  set b := initialPcb s name entryPoint priority dir k u with hb
  have hlist : OnList (s.withNew p b) live := by
    refine h.congr rfl fun x hx => ?_
    have hne : x ≠ p := fun hc => hout (hc ▸ hx)
    rw [State.next, withNew_of_ne hne]
    rfl
  obtain ⟨s', happend, hrel, hlist'⟩ := appendProcess_spec hlist hp0 hlt hout
    (by rw [State.next, withNew_self]; rfl)
  refine ⟨s', ?_, hrel, hlist'⟩
  simp [processCreate, hp, hp0, hk, hu, ← hb, happend]

/-- It keeps the invariant, and the process was not alive before. -/
theorem inv_create (hA : Sound A owned) (h : ListInv owned s m n live) (hroom : Succeeds A m)
    (dir : Nat) (name : List UInt8) (entryPoint priority : Nat) :
    ∃ p s' m', processCreate A dir s m name entryPoint priority = .ok (p, s', m') ∧
      (s'.pcb p).state = .ready ∧ ListInv owned s' m' (n + 1) (live ++ [p]) := by
  obtain ⟨p, m₁, k, m₂, u, m₃, hp, hk, hu, hp0, hlt, hnodup, hnew, hm₃⟩ := hroom.fresh hA
  have hout : p ∉ live := fun hc => hnew p (by simp) (h.owned_live hc)
  obtain ⟨s₂, hcall, hrel, hlist₂⟩ := processCreate_spec h.list hp hk hu hp0 (hlt p (by simp)) hout
    dir name entryPoint priority
  set b := initialPcb s name entryPoint priority dir k u with hb
  set s₁ := s.withNew p b with hs₁
  have hself : s₁.pcb p = b := withNew_self
  have hlive : ∀ x ∈ live, s₁.pcb x = s.pcb x := fun x hx => withNew_of_ne fun hc => hout (hc ▸ hx)
  -- The new process owns the three new addresses, the others what they owned before.
  have hblocks : (live ++ [p]).flatMap (blocks s₂) = live.flatMap (blocks s) ++ [p, k, u] := by
    have hold : live.flatMap (blocks s₂) = live.flatMap (blocks s) := by
      rw [hrel.blocks]
      exact List.flatMap_congr fun x hx => by rw [blocks, blocks, hlive x hx]
    have hown : blocks s₂ p = [p, k, u] := by
      rw [hrel.blocks, blocks, hself]
      simp [hb, initialPcb, stackBase_stackTop (hlt k (by simp)),
        stackBase_stackTop (hlt u (by simp))]
    rw [List.flatMap_append, hold, List.flatMap_singleton, hown]
  refine ⟨p, s₂, m₃, hcall, ?_, hlist₂, ?_, ?_, ?_, ?_, ?_, ?_⟩
  · rw [hrel.state, hself]
    rfl
  · rw [hblocks]
    refine List.nodup_append.2 ⟨h.apart, hnodup, ?_⟩
    rintro x hx y hy rfl
    exact hnew x hy (h.owned x hx)
  · intro x hx
    rw [hblocks] at hx
    rw [hm₃]
    exact (List.mem_append.1 hx).symm.imp_right (h.owned x)
  · rw [hrel.queues]
    exact h.queues
  · rw [hrel.current, hrel.idle]
    exact h.current
  · rw [hrel.current, hrel.state]
    intro hcur
    by_cases hc : s.currentProcess = p
    · have hready : (s₁.pcb s₁.currentProcess).state = .ready := by
        rw [show s₁.currentProcess = p from hc, hself]
        rfl
      simp [hready]
    · rw [show s₁.currentProcess = s.currentProcess from rfl, withNew_of_ne hc]
      exact h.stopped hcur
  · intro hn
    obtain ⟨hnext, hle, hnd⟩ := h.pids (by omega)
    have hpid : ∀ x ∈ live, (s₂.pcb x).pid = (s.pcb x).pid := by
      intro x hx
      rw [hrel.pid, hlive x hx]
    have hpidp : (s₂.pcb p).pid = n + 1 := by
      rw [hrel.pid, hself]
      exact hnext
    have hmod : (s.nextPid + 1) % wordCount = n + 1 + 1 := by
      rw [hnext]
      exact Nat.mod_eq_of_lt hn
    exact ⟨hrel.nextPid.trans hmod, pids_snoc hle hnd hpid hpidp⟩

/-- Freeing what a process owns leaves the allocations of the others. -/
theorem kfree_blocks (hA : Sound A owned) {m₁ m₂ m₃ : M} {k u : Nat} (hnodup : [p, k, u].Nodup)
    (hown : ∀ x ∈ [p, k, u], owned m x) (hk : A.kfree k m = .ok m₁) (hu : A.kfree u m₁ = .ok m₂)
    (hp : A.kfree p m₂ = .ok m₃) (x : Nat) : owned m₃ x ↔ x ∉ [p, k, u] ∧ owned m x := by
  simp only [List.nodup_cons, List.mem_cons, List.not_mem_nil, or_false, not_or] at hnodup
  obtain ⟨⟨hpk, hpu⟩, hku, -⟩ := hnodup
  have hm₁ := hA.kfree hk (hown k (by simp))
  have hm₂ := hA.kfree hu ((hm₁ u).2 ⟨Ne.symm hku, hown u (by simp)⟩)
  have hm₃ := hA.kfree hp ((hm₂ p).2 ⟨hpu, (hm₁ p).2 ⟨hpk, hown p (by simp)⟩⟩)
  rw [hm₃, hm₂, hm₁]
  simp only [List.mem_cons, List.not_mem_nil, or_false]
  tauto

/-- What a live process owns is allocated, and nobody else's. -/
theorem ListInv.blocks_apart (h : ListInv owned s m n live) (hp : p ∈ live) :
    (blocks s p).Nodup ∧ (∀ x ∈ blocks s p, owned m x) ∧
      ∀ x ∈ blocks s p, x ∉ (live.erase p).flatMap (blocks s) := by
  have hperm := (List.perm_cons_erase hp).flatMap_right (blocks s)
  have happart := hperm.nodup_iff.1 h.apart
  rw [List.flatMap_cons] at happart
  obtain ⟨hnodup, -, hdisj⟩ := List.nodup_append.1 happart
  exact ⟨hnodup, fun x hx => h.owned x (List.mem_flatMap.2 ⟨p, hp, hx⟩),
    fun x hx hc => hdisj x hx x hc rfl⟩

/-- Marking a process as terminated and unlinking it leaves the rest of the control blocks alone. -/
theorem pcb_of_terminated (h : Relinked (s.modify p fun b => { b with state := .terminated }) s')
    (x : Nat) : (s'.pcb x).pid = (s.pcb x).pid ∧ blocks s' x = blocks s x := by
  have hkeep : ∀ x, (s.modify p fun b => { b with state := .terminated }).pcb x =
      { s.pcb x with
        state := ((s.modify p fun b => { b with state := .terminated }).pcb x).state } := by
    intro x
    by_cases hx : x = p
    · rw [hx, modify_pcb_self]
    · rw [modify_pcb_of_ne hx]
  rw [h.pid, h.blocks, blocks, hkeep x]
  exact ⟨rfl, rfl⟩

/-- The processes that are left, once `p` is unlinked and its blocks are freed. -/
theorem ListInv.unlinked (h : ListInv owned s m n live) (hp : p ∈ live)
    (hrel : Relinked (s.modify p fun b => { b with state := .terminated }) s')
    (hlist : OnList s' (live.erase p))
    (hfreed : ∀ x, owned m' x ↔ x ∉ blocks s p ∧ owned m x) :
    ListInv owned s' m' n (live.erase p) := by
  have hsub : List.Sublist (live.erase p) live := List.erase_sublist
  have hblocks : blocks s' = blocks s := funext fun x => (pcb_of_terminated hrel x).2
  have hpid : ∀ x, (s'.pcb x).pid = (s.pcb x).pid := fun x => (pcb_of_terminated hrel x).1
  refine ⟨hlist, ?_, ?_, ?_, ?_, ?_, ?_⟩
  · rw [hblocks]
    exact h.apart.sublist (hsub.flatMap _)
  · intro x hx
    rw [hblocks] at hx
    refine (hfreed x).2 ⟨fun hc => (h.blocks_apart hp).2.2 x hc hx, ?_⟩
    exact h.owned x ((hsub.flatMap _).subset hx)
  · rw [hrel.queues]
    exact h.queues
  · rw [hrel.current, hrel.idle]
    exact h.current
  · rw [hrel.current, hrel.state]
    intro hcur
    change ((s.modify p _).pcb s.currentProcess).state ≠ .running
    by_cases hx : s.currentProcess = p
    · simp [hx]
    · rw [modify_pcb_of_ne hx]
      exact h.stopped hcur
  · intro hn
    obtain ⟨hnp, hle, hnd⟩ := h.pids hn
    simp only [hpid]
    exact ⟨hrel.nextPid.trans hnp, fun x hx => hle x (hsub.subset hx), hnd.sublist (hsub.map _)⟩

/-- **Terminating.** A call that returns takes exactly the given process off the list. -/
theorem inv_terminate (hA : Sound A owned) (h : ListInv owned s m n live) (hp : p ∈ live)
    {sw : Switch} (hcall : processTerminate A s m p = .ok (s', m', sw)) :
    ListInv owned s' m' n (live.erase p) := by
  have hp0 := (h.list.addr p hp).1
  have hnext : (s.modify p fun b => { b with state := .terminated }).next = s.next :=
    modify_next fun _ => rfl
  have hlist₁ : OnList (s.modify p fun b => { b with state := .terminated }) live :=
    h.list.congr rfl fun x _ => by rw [hnext]
  obtain ⟨s₂, hunlink, hrel, hlist₂⟩ := unlinkProcess_spec hlist₁ hp
  simp only [processTerminate, if_neg hp0, hunlink, Outcome.ok_bind, Outcome.bind_eq_ok] at hcall
  obtain ⟨m₁, hk, m₂, hu, m₃, hfree, hcall⟩ := hcall
  have hfreed : ∀ x, owned m₃ x ↔ x ∉ blocks s p ∧ owned m x := by
    obtain ⟨hnodup, hown, -⟩ := h.blocks_apart hp
    have heq := (pcb_of_terminated hrel p).2
    simp only [blocks, List.cons.injEq, true_and, and_true] at heq
    rw [heq.1] at hk
    rw [heq.2] at hu
    exact kfree_blocks hA hnodup hown hk hu hfree
  have hinv₂ := h.unlinked hp hrel hlist₂ hfreed
  split_ifs at hcall with hcur
  · obtain ⟨s₃, hsched, hinv₃⟩ := inv_schedule_idle hinv₂
    simp only [hsched, Outcome.ok_bind, Outcome.pure_eq, Outcome.ok.injEq, Prod.mk.injEq] at hcall
    obtain ⟨rfl, rfl, -⟩ := hcall
    exact hinv₃
  · simp only [Outcome.pure_eq, Outcome.ok.injEq, Prod.mk.injEq] at hcall
    obtain ⟨rfl, rfl, -⟩ := hcall
    exact hinv₂

/-- Every allowed call that queues nobody keeps the invariant. -/
theorem inv_listStep (hA : Sound A owned) (h : ListInv owned s m n live) {op : ListOp} {ptr : Nat}
    (hallow : op.Allowed A m live) (hapart : op.KeepsApart)
    (hcall : op.step A dir s m = .ok (ptr, s', m')) :
    ListInv owned s' m' (n + op.creates) (op.record live ptr) := by
  cases op with
  | init idleTask =>
      obtain ⟨p, s₁, m₁, hcreate, hready, hinv⟩ := inv_create hA h hallow dir
        [105, 100, 108, 101] idleTask 0
      simp only [ListOp.step, processInit, hcreate, Outcome.ok_bind, Outcome.pure_eq,
        Outcome.ok.injEq, Prod.mk.injEq] at hcall
      obtain ⟨rfl, rfl, rfl⟩ := hcall
      refine { list := hinv.list.congr rfl fun _ _ => rfl, apart := hinv.apart, owned := hinv.owned,
               queues := hinv.queues,
               current := rfl, stopped := ?_, pids := hinv.pids }
      intro _
      simp [hready]
  | create name entryPoint priority =>
      obtain ⟨p, s₁, m₁, hcreate, -, hinv⟩ := inv_create hA h hallow dir name entryPoint priority
      obtain ⟨rfl, rfl, rfl⟩ : p = ptr ∧ s₁ = s' ∧ m₁ = m' := by
        simpa using hcreate.symm.trans hcall
      exact hinv
  | add p =>
      obtain rfl : p = 0 := hapart
      simp only [ListOp.step, schedulerAddProcess, if_pos, Outcome.pure_eq, Outcome.ok_bind,
        Outcome.ok.injEq, Prod.mk.injEq] at hcall
      obtain ⟨-, rfl, rfl⟩ := hcall
      exact h
  | schedule =>
      obtain ⟨s₁, hsched, hinv⟩ := inv_schedule_idle h
      simp only [ListOp.step, hsched, Outcome.ok_bind, Outcome.ok.injEq, Prod.mk.injEq] at hcall
      obtain ⟨-, rfl, rfl⟩ := hcall
      exact hinv
  | terminate p =>
      simp only [ListOp.step, Outcome.bind_eq_ok, Outcome.ok.injEq, Prod.mk.injEq] at hcall
      obtain ⟨⟨s₁, m₁, sw⟩, hterm, -, rfl, rfl⟩ := hcall
      by_cases hp : p ∈ live
      · exact inv_terminate hA h hp hterm
      · obtain rfl : p = 0 := hallow.resolve_right hp
        simp only [processTerminate, if_pos, Outcome.pure_eq, Outcome.ok.injEq,
          Prod.mk.injEq] at hterm
        obtain ⟨rfl, rfl, -⟩ := hterm
        rw [ListOp.record, List.erase_of_not_mem hp]
        exact h

theorem inv_zeroed (h : Zeroed s) : ListInv owned s m 0 [] where
  list := ⟨h.list, List.nodup_nil, by simp⟩
  apart := List.nodup_nil
  owned := by simp
  queues := h.queues
  current := h.current.trans h.idle.symm
  stopped := fun hc => absurd h.current hc
  pids := fun _ => ⟨h.nextPid, by simp, List.nodup_nil⟩

theorem inv_listRun (hA : Sound A owned) {s₀ : State} {m₀ : M} (hzero : Zeroed s₀)
    (hrun : ListOp.Run A dir (fun m live op => op.Allowed A m live ∧ op.KeepsApart)
      s₀ m₀ n live s m) :
    ListInv owned s m n live := by
  induction hrun with
  | start => exact inv_zeroed hzero
  | call op _ hok hcall ih => exact inv_listStep hA ih hok.1 hok.2 hcall

theorem ListInv.intact (hA : Sound A owned) (h : ListInv owned s m n live) :
    ListIntact A dir s m live where
  list := h.list
  find pid := by
    refine ⟨_, processFindByPid_spec h.list pid, ?_⟩
    cases hfind : live.find? fun x => (s.pcb x).pid == pid with
    | none =>
        refine Or.inr ⟨rfl, ?_⟩
        intro p hp
        simpa using List.find?_eq_none.1 hfind p hp
    | some p =>
        exact Or.inl ⟨List.mem_of_find?_eq_some hfind, by simpa using List.find?_some hfind⟩
  create name entryPoint priority hroom := by
    obtain ⟨p, s', m', hcreate, -⟩ := inv_create hA h hroom dir name entryPoint priority
    exact ⟨_, hcreate⟩

/-- **The process list.** As long as no process is put in a ready queue, `process_list` is the
null-terminated list of the live processes in every state of every run, the loops over it end, and
a search by number finds the one process that has it. -/
theorem process_list_intact (hA : Sound A owned) {s₀ : State} {m₀ : M} (hzero : Zeroed s₀)
    (hrun : ListOp.Run A dir (fun m live op => op.Allowed A m live ∧ op.KeepsApart)
      s₀ m₀ n live s m) :
    ListIntact A dir s m live ∧
      (n + 1 < wordCount → (live.map fun p => (s.pcb p).pid).Nodup) := by
  have hinv := inv_listRun hA hzero hrun
  exact ⟨hinv.intact hA, fun hn => (hinv.pids hn).2.2⟩

end Steps

/-! ## A fresh heap -/

/-- The heap while it is one free block that has only been cut from the front: `brk` is the header
of what is left, `taken` the payloads handed out and not freed. -/
structure Fresh where
  brk : Nat
  taken : List Nat
  below : ∀ x ∈ taken, x < brk

/-- First fit on a fresh heap: a 12-byte header, then the payload rounded up to whole words. -/
def Fresh.kmalloc (size : Nat) (m : Fresh) : Outcome (Nat × Fresh) :=
  if hroom : 0 < size ∧ m.brk + 12 + size ≤ wordCount then
    .ok (m.brk + 12, ⟨m.brk + 12 + (size + 3) / 4 * 4, (m.brk + 12) :: m.taken, by
      intro x hx
      rcases List.mem_cons.1 hx with rfl | hx
      · omega
      · have := m.below x hx
        omega⟩)
  else .ok (0, m)

def Fresh.kfree (p : Nat) (m : Fresh) : Outcome Fresh :=
  .ok ⟨m.brk, m.taken.filter (· ≠ p), fun x hx => m.below x (List.mem_of_mem_filter hx)⟩

def freshHeap : Allocator Fresh := ⟨Fresh.kmalloc, Fresh.kfree⟩

theorem sound_freshHeap : Sound freshHeap fun m x => x ∈ m.taken where
  kmalloc := by
    intro size m p m' hcall hp
    simp only [freshHeap, Fresh.kmalloc] at hcall
    split_ifs at hcall with hroom
    · simp only [Outcome.ok.injEq, Prod.mk.injEq] at hcall
      obtain ⟨rfl, rfl⟩ := hcall
      refine ⟨by omega, ?_, fun x => List.mem_cons⟩
      intro hc
      have := m.below _ hc
      omega
    · simp only [Outcome.ok.injEq, Prod.mk.injEq] at hcall
      exact absurd hcall.1.symm hp
  kfree := by
    intro p m m' hcall _ x
    simp only [freshHeap, Fresh.kfree, Outcome.ok.injEq] at hcall
    subst hcall
    simp [and_comm]

/-- The globals at boot, over cleared control blocks. -/
def zeroState : State where
  pcb _ := {}
  readyQueue _ := 0
  currentProcess := 0
  idleProcess := 0
  processList := 0
  nextPid := 1

theorem zeroed_zeroState : Zeroed zeroState := ⟨rfl, fun _ => rfl, rfl, rfl, rfl⟩

/-- The heap at boot. -/
def bootHeap : Fresh := ⟨0xC0000000, [], by simp⟩

namespace ListOp

/-- The result of a call that returns. -/
@[irreducible] def result (s : State) (m : Fresh) (op : ListOp) : Nat × State × Fresh :=
  (op.step freshHeap 0x1000 s m).getD (0, s, m)

theorem Run.next {ok : Fresh → List Nat → ListOp → Prop} {s₀ s : State} {m₀ m : Fresh} {n : Nat}
    {live : List Nat} (h : Run freshHeap 0x1000 ok s₀ m₀ n live s m) (op : ListOp)
    (hok : ok m live op) (hret : (op.step freshHeap 0x1000 s m).isOk = true) :
    Run freshHeap 0x1000 ok s₀ m₀ (n + op.creates) (op.record live (op.result s m).1)
      (op.result s m).2.1 (op.result s m).2.2 := by
  unfold result
  exact .call op h hok (Outcome.eq_ok_getD hret (0, s, m))

end ListOp

theorem succeeds_freshHeap {m : Fresh} (h : m.brk + 16536 ≤ wordCount) : Succeeds freshHeap m := by
  simp only [Succeeds, freshHeap, Fresh.kmalloc, pcbSize, stackSize]
  refine ⟨_, _, _, _, _, _, dif_pos (by omega), by omega, dif_pos ?_, by omega, dif_pos ?_,
    by omega⟩
  · simp only
    omega
  · simp only
    omega

/-- A list that runs into a set closed under `next`, null not among it, has no end. -/
theorem not_onList_of_closed {s : State} {ys : List Nat} (hhead : s.processList ∈ ys)
    (hclosed : ∀ x ∈ ys, s.next x ∈ ys) (hnull : 0 ∉ ys) : ¬ ∃ xs, OnList s xs := by
  rintro ⟨xs, hlist⟩
  apply hnull
  rw [← hlist.seg.iterate]
  exact Function.Iterate.rec (· ∈ ys) hhead hclosed xs.length

/-- **The list runs into a ring.** The idle process and one more are created, and the second is
made ready: the list no longer ends, and a search for a number nobody has never returns. -/
theorem process_list_cyclic :
    ∃ n live s m, Zeroed zeroState ∧
      ListOp.Run freshHeap 0x1000 (fun m live op => op.Allowed freshHeap m live) zeroState bootHeap
        n live s m ∧
      (¬ ∃ xs, OnList s xs) ∧ processFindByPid s 3 = .diverge := by
  let op₁ : ListOp := .init 0x101000
  let op₂ : ListOp := .create [97] 0x102000 1
  let r₁ := op₁.result zeroState bootHeap
  let r₂ := op₂.result r₁.2.1 r₁.2.2
  let op₃ : ListOp := .add r₂.1
  let s := (op₃.result r₂.2.1 r₂.2.2).2.1
  have h₀ : ListOp.Run freshHeap 0x1000 (fun m live op => op.Allowed freshHeap m live) zeroState
      bootHeap 0 [] zeroState bootHeap := .start
  have h₁ := h₀.next op₁ (succeeds_freshHeap (by decide)) (by decide +kernel)
  have h₂ := h₁.next op₂ (succeeds_freshHeap (by decide +kernel)) (by decide +kernel)
  have h₃ := h₂.next op₃ (Or.inr (by decide +kernel)) (by decide +kernel)
  have hhead : s.processList ∈ [r₁.1, r₂.1] := by decide +kernel
  have hclosed : ∀ x ∈ [r₁.1, r₂.1], s.next x ∈ [r₁.1, r₂.1] := by decide +kernel
  have hsearch : ∀ x ∈ [r₁.1, r₂.1], (x == 0 || (s.pcb x).pid == 3) = false := by decide +kernel
  refine ⟨_, _, s, _, zeroed_zeroState, h₃, ?_, ?_⟩
  · exact not_onList_of_closed hhead hclosed (by decide +kernel)
  · exact follow_closed (P := (· ∈ [r₁.1, r₂.1])) hhead hclosed hsearch

/-- The idle process and one more, of which the second is terminated again. -/
theorem process_list_intact_one_left :
    ∃ live s m, live = [0xC000000C] ∧ ListIntact freshHeap 0x1000 s m live ∧
      (2 + 1 < wordCount → (live.map fun p => (s.pcb p).pid).Nodup) := by
  let op₁ : ListOp := .init 0x101000
  let op₂ : ListOp := .create [97] 0x102000 1
  let r₁ := op₁.result zeroState bootHeap
  let r₂ := op₂.result r₁.2.1 r₁.2.2
  let op₃ : ListOp := .terminate r₂.1
  have h₀ : ListOp.Run freshHeap 0x1000
      (fun m live op => op.Allowed freshHeap m live ∧ op.KeepsApart) zeroState bootHeap 0 []
      zeroState bootHeap := .start
  have h₁ := h₀.next op₁ ⟨succeeds_freshHeap (by decide), trivial⟩ (by decide +kernel)
  have h₂ := h₁.next op₂ ⟨succeeds_freshHeap (by decide +kernel), trivial⟩ (by decide +kernel)
  have h₃ := h₂.next op₃ ⟨Or.inr (by decide +kernel), trivial⟩ (by decide +kernel)
  have hlive : op₃.record (op₂.record (op₁.record [] r₁.1) r₂.1)
      (op₃.result r₂.2.1 r₂.2.2).1 = [0xC000000C] := by decide +kernel
  exact ⟨_, _, _, hlive, process_list_intact sound_freshHeap zeroed_zeroState h₃⟩

end Munux.Process
