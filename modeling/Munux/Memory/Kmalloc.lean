import Munux.Heap.Invariant
import Munux.Memory.FlatMap
import Munux.Memory.HeapBoot

/-!
# `kmalloc` from top to bottom

The allocator of `heap.rs`, with `munux_c_heap_grow` for its callback, over the page tables and the
frame bitmap. The rest of the kernel works beside it: it holds frames, and maps pages above the
heap.

C keeps the end of the heap and its maximum, and so does Rust. `Sound` says that the two agree, that
every page of the heap has a frame of its own (`Ready`), and that nobody else holds any of them.

* `Event`: what a run is made of.
* `Affords`: the PMM has the frames that a call is going to need, below `limit` for the tables.
* `Sound.step`: what one event preserves, and `sound_reached`, what every run does.
-/

namespace Munux.Memory

open ByteMem PageTable

/-- The kernel's memory: the pages, the heap on them, and the frames that others hold. -/
structure Kernel where
  backing : Backing
  heap : Heap.Sys
  held : Finset Nat

/-- `kmalloc` -/
def kmalloc (b : Backing) (s : Heap.State) (size : Nat) : Outcome (Nat × Heap.State × Backing) :=
  Heap.allocate heapGrow b s size

/-- `munux_rs_alloc_aligned`, which `kmalloc_aligned` calls with `PAGE_SIZE`. -/
def allocAligned (b : Backing) (s : Heap.State) (size align : Nat) :
    Outcome (Nat × Heap.State × Backing) :=
  Heap.allocateAligned heapGrow b s size align

/-- The PMM has a frame for each page that `kmalloc` of `size` bytes would add, and for the tables
that these lack, below `limit`. -/
def Affords (limit : Nat) (b : Backing) (s : Heap.State) (size : Nat) : Prop :=
  ∀ n, Heap.Wants s size n → Suffices b.vm limit b.heapEnd (pagesFor n)

/-- What happens in a run. -/
inductive Event where
  | kmalloc (size : Nat)
  | kfree (a : Heap.Alloc)
  | allocAligned (size align : Nat)
  | freeAligned (a : Heap.Alloc)
  | write (a : Heap.Alloc) (m : ByteMem)
  | allocFrame
  | freeFrame (f : Nat)
  | call (op : MapOp)

namespace Event

/-- The event happens, and turns `κ` into `κ'`. -/
def Does (κ κ' : Kernel) : Event → Prop
  | kmalloc size => ∃ p s b, Memory.kmalloc κ.backing κ.heap.state size = .ok (p, s, b) ∧
      κ' = ⟨b, ⟨s, Heap.record κ.heap.live p size .plain⟩, κ.held⟩
  | kfree a => a ∈ κ.heap.live ∧ a.kind = .plain ∧
      ∃ s, Heap.deallocate κ.heap.state a.ptr = .ok s ∧
        κ' = { κ with heap := ⟨s, κ.heap.live.erase a⟩ }
  | allocAligned size align => ∃ p s b,
      Memory.allocAligned κ.backing κ.heap.state size align = .ok (p, s, b) ∧
        κ' = ⟨b, ⟨s, Heap.record κ.heap.live p size .aligned⟩, κ.held⟩
  | freeAligned a => a ∈ κ.heap.live ∧ a.kind = .aligned ∧
      ∃ s, Heap.deallocateAligned κ.heap.state a.ptr = .ok s ∧
        κ' = { κ with heap := ⟨s, κ.heap.live.erase a⟩ }
  | write a m => a ∈ κ.heap.live ∧ SameOutside κ.heap.state.mem m a.ptr (a.ptr + a.size) ∧
      κ' = { κ with heap := ⟨{ κ.heap.state with mem := m }, κ.heap.live⟩ }
  | allocFrame => ∃ pa pmm, κ.backing.vm.pmm.allocFrame = (pa, pmm) ∧
      κ' = { κ with
        backing := { κ.backing with vm := { κ.backing.vm with pmm := pmm } }
        held := if pa = 0 then κ.held else insert (pa / pageSize) κ.held }
  | freeFrame f => f ∈ κ.held ∧
      κ' = { κ with
        backing := { κ.backing with
          vm := { κ.backing.vm with pmm := κ.backing.vm.pmm.freeFrame (f * pageSize) } }
        held := κ.held.erase f }
  | call op => op.WellFormed ∧ heapStart + heapMaxSize ≤ op.va ∧
      ∃ vm, op.run κ.backing.vm = .ok vm ∧ κ' = { κ with backing := { κ.backing with vm := vm } }

/-- Frames do not run out on the event. -/
def Enough (limit : Nat) (κ : Kernel) : Event → Prop
  | kmalloc size => Affords limit κ.backing κ.heap.state size
  | allocAligned size align => size ≠ 0 → Heap.isPowerOfTwo align = true →
      Affords limit κ.backing κ.heap.state (size + Max.max align Heap.defaultAlign + Heap.word)
  | call (.map va _ _) => TableAvailable κ.backing.vm va limit
  | _ => True

end Event

/-- The kernel right after boot. `detect_memory` finds 32 MiB at least. -/
def Booted (κ : Kernel) : Prop :=
  ∃ bitmap memSize phys mem b st, 0x2000000 ≤ memSize ∧ memSize < 2 ^ 32 ∧
    boot bitmap memSize phys mem = .ok (b, st) ∧ κ = ⟨b, ⟨st, []⟩, ∅⟩

/-- The kernels that runs of events with property `P` reach. -/
def Reached (P : Kernel → Event → Prop) (κ : Kernel) : Prop :=
  ∃ κ₀, Booted κ₀ ∧ Relation.ReflTransGen (fun κ κ' => ∃ e : Event, P κ e ∧ e.Does κ κ') κ₀ κ

/-! ## What the others do -/

section Others

variable {s s' : Vm} {b : Backing} {pmm : Pmm} {hi va pa flags f : Nat}

/-- Frames change hands, but not those of the tables and the heap. -/
theorem Ready.frames (h : Ready b) (hscan : pmm.scanned = b.vm.pmm.scanned)
    (hres : ∀ g < 512, pmm.used g = true)
    (hused : ∀ o g, Owns b.vm b.heapEnd o g → pmm.used g = true) :
    Ready { b with vm := { b.vm with pmm := pmm } } := by
  obtain ⟨hspace, hbacked, hbounds⟩ := h
  refine ⟨⟨⟨⟨hspace.tree, hspace.dir_ge, hspace.dir_lt, hspace.table_ge, hspace.table_lt, ?_, hres,
    ?_, ?_⟩, hspace.cr3, hspace.low⟩, hspace.gap⟩, ⟨hbacked.mapped, hused, hbacked.apart⟩,
    ⟨hbounds.lo, hbounds.aligned, hbounds.hi, hbounds.max⟩⟩
  · simp only [hscan]
    exact hspace.scanned
  · exact hused .dir _ (Nat.div_mul_cancel hspace.tree.aligned).symm
  · intro k hk hp
    exact hused (.table k) _ ⟨hk, hp, (Nat.div_mul_cancel (dvd_frame _)).symm⟩

/-- A page above the heap gets another entry. -/
theorem Backed.elsewhere {k : Nat} (h : Backed s hi)
    (hused : ∀ g, s.pmm.used g = true → s'.pmm.used g = true)
    (hpages : ∀ va, heapStart ≤ va → va < hi →
      translate s'.phys s'.currentDirectory va = translate s.phys s.currentDirectory va)
    (howns : ∀ o g, Owns s' hi o g → Owns s hi o g ∨
      (o = .table k ∧ s.pmm.used g = false ∧ s'.pmm.used g = true)) : Backed s' hi := by
  have hold : ∀ {o g}, Owns s hi o g → s.pmm.used g = false → False := by
    intro o g ho hclear
    rw [h.used o g ho] at hclear
    cases hclear
  refine ⟨?_, ?_, ?_⟩
  · intro va hlo hva hdvd
    obtain ⟨g, hg, hrange, htrans⟩ := h.mapped va hlo hva hdvd
    exact ⟨g, hg, hrange, (hpages va hlo hva).trans htrans⟩
  · intro o g ho
    rcases howns o g ho with ho | ⟨-, -, hnew⟩
    · exact hused g (h.used o g ho)
    · exact hnew
  · intro o o' g ho ho'
    rcases howns o g ho with ho | ⟨rfl, hclear, -⟩
    · rcases howns o' g ho' with ho' | ⟨-, hclear, -⟩
      · exact h.apart o o' g ho ho'
      · exact (hold ho hclear).elim
    · rcases howns o' g ho' with ho' | ⟨rfl, -, -⟩
      · exact (hold ho' hclear).elim
      · rfl

theorem page_below {va' : Nat} (hhi : hi ≤ heapStart + heapMaxSize)
    (hva : heapStart + heapMaxSize ≤ va) (hva' : va' < hi) :
    va' < 2 ^ 32 ∧ va' / 4096 ≠ va / 4096 := by
  unfold heapStart heapMaxSize at *
  omega

/-- **A page above the heap is mapped.** The heap stays as it is; its table may be a new one. -/
theorem Ready.mapped (h : Ready b) (hva : heapStart + heapMaxSize ≤ va) (hva' : va < 2 ^ 32)
    (hpa : pa < 2 ^ 32) (hflags : flags < 4096) (havail : TableAvailable b.vm va heapStart)
    (hcall : mapPage b.vm va pa flags = .ok s') :
    Ready { b with vm := s' } ∧ (∀ g, b.vm.pmm.used g = true → s'.pmm.used g = true) ∧
      ∀ o g, Owns s' b.heapEnd o g → Owns b.vm b.heapEnd o g ∨ b.vm.pmm.used g = false := by
  obtain ⟨hspace, hbacked, hbounds⟩ := h
  obtain ⟨hspace', hmap, htook⟩ :=
    hspace.mapPage ((Nat.le_add_right _ _).trans hva) hva' hpa hflags havail hcall
  have hhi : b.heapEnd ≤ heapStart + heapMaxSize := hbounds.max ▸ hbounds.hi
  have hpages : ∀ w < b.heapEnd, translate s'.phys s'.currentDirectory w =
      translate b.vm.phys b.vm.currentDirectory w := by
    intro w hw
    obtain ⟨hlt, hne⟩ := page_below hhi hva hw
    rw [hmap.dir, hmap.translate w hlt, if_neg hne]
  have howns : ∀ o g, Owns s' b.heapEnd o g → Owns b.vm b.heapEnd o g ∨
      (o = .table (dirIndex va) ∧ b.vm.pmm.used g = false ∧ s'.pmm.used g = true) := by
    intro o g ho
    cases o with
    | dir => exact .inl (hmap.dir.symm.trans ho)
    | table k =>
        rcases hmap.owns_table b.heapEnd htook ho with hold | ⟨rfl, hnew⟩
        · exact .inl hold
        · exact .inr ⟨rfl, hnew⟩
    | page w => exact .inl ⟨ho.1, (hpages w ho.1.2.1).symm.trans ho.2⟩
  refine ⟨⟨hspace', hbacked.elsewhere (fun g hg => htook.used hg) (fun w _ hw => hpages w hw) howns,
    ⟨hbounds.lo, hbounds.aligned, hbounds.hi, hbounds.max⟩⟩, fun g hg => htook.used hg,
    ?_⟩
  intro o g ho
  rcases howns o g ho with hold | ⟨-, hclear, -⟩
  · exact .inl hold
  · exact .inr hclear

/-- **A page above the heap is unmapped.** -/
theorem Ready.unmapped (h : Ready b) (hva : heapStart + heapMaxSize ≤ va) (hva' : va < 2 ^ 32)
    (hcall : unmapPage b.vm va = .ok s') :
    Ready { b with vm := s' } ∧ s'.pmm = b.vm.pmm ∧
      ∀ o g, Owns s' b.heapEnd o g → Owns b.vm b.heapEnd o g := by
  obtain ⟨hspace, hbacked, hbounds⟩ := h
  have hi := dirIndex_of_heapStart_le ((Nat.le_add_right heapStart heapMaxSize).trans hva)
  obtain ⟨s'', hcall', hunmap⟩ := unmapPage_returns hspace.tree hva'
    (hspace.reaches (by omega) (low_page hspace.tree.aligned hspace.dir_lt))
    fun hp => hspace.reaches (by omega)
      (low_page (dvd_frame _) (hspace.table_lt _ (dirIndex_lt hva') hp))
  obtain rfl : s'' = s' := Outcome.ok.inj (hcall'.symm.trans hcall)
  have hhi : b.heapEnd ≤ heapStart + heapMaxSize := hbounds.max ▸ hbounds.hi
  have hdir := hunmap.dir
  have hpages : ∀ w < b.heapEnd, translate s''.phys s''.currentDirectory w =
      translate b.vm.phys b.vm.currentDirectory w := by
    intro w hw
    obtain ⟨hlt, hne⟩ := page_below hhi hva hw
    rw [hdir, hunmap.translate w hlt, if_neg hne]
  have howns : ∀ o g, Owns s'' b.heapEnd o g → Owns b.vm b.heapEnd o g := by
    intro o g ho
    cases o with
    | dir => exact hdir.symm.trans ho
    | table k =>
        obtain ⟨hk, hp, hframe⟩ := ho
        rw [hdir, hunmap.entries k hk] at hp hframe
        exact ⟨hk, hp, hframe⟩
    | page w => exact ⟨ho.1, (hpages w ho.1.2.1).symm.trans ho.2⟩
  have hlow : lowLimit ≤ va := (show lowLimit ≤ heapStart + heapMaxSize by decide).trans hva
  have hused : ∀ g, b.vm.pmm.used g = true → s''.pmm.used g = true := by
    intro g hg
    rwa [hunmap.pmm]
  exact ⟨⟨hspace.of_unmapped hlow hunmap, hbacked.elsewhere (k := 0) hused
    (fun w _ hw => hpages w hw) fun o g ho => .inl (howns o g ho),
    ⟨hbounds.lo, hbounds.aligned, hbounds.hi, hbounds.max⟩⟩, hunmap.pmm, howns⟩

end Others

/-! ## The invariant -/

/-- The frames that others hold were handed out, and are in use neither for the heap nor for the
tables. -/
def Apart (held : Finset Nat) (b : Backing) : Prop :=
  ∀ f ∈ held, 512 ≤ f ∧ b.vm.pmm.used f = true ∧ ∀ o, ¬Owns b.vm b.heapEnd o f

/-- C and Rust agree on the bounds of the heap, and every page of it is backed. -/
structure Matched (b : Backing) (s : Heap.State) : Prop where
  ready : Ready b
  heapEnd : s.heap.heapEnd = b.heapEnd
  max : s.heap.max = b.heapMaxAddr

/-- The invariant of every run. -/
structure Sound (κ : Kernel) : Prop where
  matched : Matched κ.backing κ.heap.state
  blocks : ∃ bs, Heap.Holding heapStart κ.heap bs
  held : Apart κ.held κ.backing

section Invariant

variable {κ κ' : Kernel} {b b' : Backing} {s s' : Heap.State} {held : Finset Nat}
variable {limit size align n p r : Nat} {e : Event}

theorem Apart.keep (h : Apart held b)
    (hused : ∀ g, b.vm.pmm.used g = true → b'.vm.pmm.used g = true)
    (howns : ∀ o g, Owns b'.vm b'.heapEnd o g → Owns b.vm b.heapEnd o g ∨ b.vm.pmm.used g = false) :
    Apart held b' := by
  intro f hf
  obtain ⟨hge, hheld, hfree⟩ := h f hf
  refine ⟨hge, hused f hheld, ?_⟩
  intro o ho
  rcases howns o f ho with hold | hclear
  · exact hfree o hold
  · rw [hheld] at hclear
    cases hclear

/-- **A growth that the PMM can afford** goes where `grow_and_attach` wants it. -/
theorem Matched.grown (h : Matched b s) (hwants : Heap.Wants s size n)
    (hsuff : Suffices b.vm heapStart b.heapEnd (pagesFor n)) (hcall : heapGrow n b = .ok (r, b')) :
    (b.heapEnd + n ≤ r ∧ r ≤ b.heapMaxAddr ∧ pageSize ∣ r) ∧ ¬Heap.Rejected s r ∧
      b'.heapEnd = r ∧ b'.heapMaxAddr = b.heapMaxAddr ∧ Ready b' ∧
      ∀ held, Apart held b → Apart held b' := by
  have hroom := hwants.room
  rw [h.heapEnd, h.max] at hroom
  have hbounds := h.ready.bounds.grown hroom
  obtain ⟨hr, hend, hmax, hready, hgrow⟩ := h.ready.grown hroom hsuff hcall
  rw [← hr] at hbounds
  have hlo := h.ready.bounds.lo
  have hbytes := hwants.bytes
  have hpos : 0 < heapStart := by decide
  refine ⟨hbounds, ?_, hend, hmax, hready, fun held hheld => hheld.keep hgrow.used ?_⟩
  · unfold Heap.Rejected
    rw [h.heapEnd, h.max]
    unfold Heap.headerSize at hbytes
    omega
  · intro o g ho
    rw [hend, hr] at ho
    exact hgrow.fresh o g ho

/-- **What `allocate` does to the bounds**, when the PMM can afford the growth it may ask for. -/
theorem Matched.allocate {bs : List Heap.Blk} (h : Matched b s) (hrep : Heap.Rep heapStart s bs)
    (hafford : Affords heapStart b s size)
    (hcall : Heap.allocate heapGrow b s size = .ok (p, s', b')) :
    Matched b' s' ∧ ∀ held, Apart held b → Apart held b' := by
  cases Heap.allocate_spec hrep hcall with
  | zero _ => exact ⟨h, fun _ => id⟩
  | full _ _ => exact ⟨h, fun _ => id⟩
  | taken _ _ _ hheap _ =>
      exact ⟨⟨h.ready, by rw [hheap, h.heapEnd], by rw [hheap, h.max]⟩, fun _ => id⟩
  | denied hwants hgrow hrej =>
      exact absurd hrej (h.grown hwants (hafford _ hwants) hgrow).2.1
  | grown hwants hgrow hacc hheap _ =>
      obtain ⟨-, -, hend, hmax, hready, hkeep⟩ := h.grown hwants (hafford _ hwants) hgrow
      exact ⟨⟨hready, by rw [hheap, hend], by rw [hheap, hmax, h.max]⟩, hkeep⟩

/-- The callback keeps its contract. -/
theorem Matched.answers (h : Matched b s) (hafford : Affords heapStart b s size) :
    Heap.Answers (fun _ _ _ => True) heapGrow b b' s size := by
  intro n r hwants hcall _
  obtain ⟨⟨hroom, -, hdvd⟩, -⟩ := h.grown hwants (hafford n hwants) hcall
  rw [h.heapEnd]
  exact ⟨(show 4 ∣ pageSize by decide).trans hdvd, hroom, trivial⟩

theorem Matched.heap (h : Matched b s) (heq : s'.heap = s.heap) : Matched b s' :=
  ⟨h.ready, by rw [heq, h.heapEnd], by rw [heq, h.max]⟩

/-- A call that does not ask for more. -/
theorem Sound.call {heap : Heap.Sys} {c : Heap.Call} (h : Sound κ)
    (hdoes : c.Does heapStart κ.heap heap) (heq : heap.state.heap = κ.heap.state.heap) :
    Sound { κ with heap := heap } := by
  obtain ⟨bs, hhold⟩ := h.blocks
  obtain ⟨bs', -, hhold', -⟩ := Heap.moves_call (G := fun _ _ _ => True) hhold hdoes
    fun _ _ _ => trivial
  exact ⟨h.matched.heap heq, ⟨bs', hhold'⟩, h.held⟩

theorem Sound.kmalloc {s : Heap.State} (h : Sound κ)
    (hafford : Affords heapStart κ.backing κ.heap.state size)
    (hcall : Memory.kmalloc κ.backing κ.heap.state size = .ok (p, s, b)) :
    Sound ⟨b, ⟨s, Heap.record κ.heap.live p size .plain⟩, κ.held⟩ := by
  obtain ⟨bs, hhold⟩ := h.blocks
  obtain ⟨hmatched, hkeep⟩ := h.matched.allocate hhold.rep hafford hcall
  have hhold₀ : Heap.Holding heapStart ⟨κ.heap.state, κ.heap.live⟩ bs := hhold
  obtain ⟨bs', -, hhold', -⟩ := Heap.moves_allocate hhold₀ (h.matched.answers hafford) hcall
  exact ⟨hmatched, ⟨bs', hhold'⟩, hkeep _ h.held⟩

theorem Sound.allocAligned {s : Heap.State} (h : Sound κ)
    (hafford : (Event.allocAligned size align).Enough heapStart κ)
    (hcall : Memory.allocAligned κ.backing κ.heap.state size align = .ok (p, s, b)) :
    Sound ⟨b, ⟨s, Heap.record κ.heap.live p size .aligned⟩, κ.held⟩ := by
  obtain ⟨bs, hhold⟩ := h.blocks
  have hhold₀ : Heap.Holding heapStart ⟨κ.heap.state, κ.heap.live⟩ bs := hhold
  obtain ⟨bs', -, hhold', -⟩ := Heap.moves_allocateAligned hhold₀
    (fun hsize hpower => h.matched.answers (hafford hsize hpower)) hcall
  have hmatched : Matched b s ∧ ∀ held, Apart held κ.backing → Apart held b := by
    rcases Heap.allocateAligned_cases hcall with
      ⟨-, rfl, rfl⟩ | ⟨hsize, hpower, base, s₁, hplain, hrest⟩
    · exact ⟨h.matched, fun _ => id⟩
    · obtain ⟨hmatched, hkeep⟩ :=
        h.matched.allocate hhold.rep (hafford hsize hpower) hplain
      rcases hrest with ⟨-, -, rfl⟩ | ⟨-, -, -, -, rfl⟩
      · exact ⟨hmatched, hkeep⟩
      · exact ⟨hmatched.heap rfl, hkeep⟩
  exact ⟨hmatched.1, ⟨bs', hhold'⟩, hmatched.2 _ h.held⟩

theorem Sound.allocFrame {pa : Nat} {pmm : Pmm} (h : Sound κ)
    (hcall : κ.backing.vm.pmm.allocFrame = (pa, pmm)) :
    Sound { κ with
      backing := { κ.backing with vm := { κ.backing.vm with pmm := pmm } }
      held := if pa = 0 then κ.held else insert (pa / pageSize) κ.held } := by
  obtain ⟨⟨hready, hend, hmax⟩, hblocks, hheld⟩ := h
  rcases κ.backing.vm.pmm.allocFrame_cases with ⟨-, hnone⟩ | ⟨f, pmm', halloc, htook⟩
  · obtain ⟨rfl, rfl⟩ := Prod.mk.inj (hnone.symm.trans hcall)
    rw [if_pos rfl]
    exact ⟨⟨hready, hend, hmax⟩, hblocks, hheld⟩
  · obtain ⟨rfl, rfl⟩ := Prod.mk.inj (halloc.symm.trans hcall)
    have hge := hready.space.took_ge htook
    have hready' := hready.frames htook.scanned
      (fun g hg => htook.mono (hready.space.reserved g hg))
      fun o g ho => htook.mono (hready.backed.used o g ho)
    refine ⟨⟨hready', hend, hmax⟩, hblocks, ?_⟩
    intro g hg
    rw [if_neg (show f * pageSize ≠ 0 by unfold pageSize; omega),
      show f * pageSize / pageSize = f from Nat.mul_div_cancel f (by decide),
      Finset.mem_insert] at hg
    rcases hg with rfl | hg
    · refine ⟨hge, ?_, ?_⟩
      · exact htook.self
      · intro o ho
        have hclear := htook.clear
        rw [hready.backed.used o g ho] at hclear
        cases hclear
    · obtain ⟨hge', hg', hfree⟩ := hheld g hg
      exact ⟨hge', htook.mono hg', hfree⟩

theorem Sound.freeFrame {f : Nat} (h : Sound κ) (hf : f ∈ κ.held) :
    Sound { κ with
      backing := { κ.backing with
        vm := { κ.backing.vm with pmm := κ.backing.vm.pmm.freeFrame (f * pageSize) } }
      held := κ.held.erase f } := by
  obtain ⟨⟨hready, hend, hmax⟩, hblocks, hheld⟩ := h
  obtain ⟨hge, -, hfree⟩ := hheld f hf
  have hused : ∀ g, g ≠ f → κ.backing.vm.pmm.used g = true →
      (κ.backing.vm.pmm.freeFrame (f * pageSize)).used g = true := by
    intro g hne hg
    rw [Pmm.used_freeFrame, Nat.mul_div_cancel f (by decide), hg, decide_eq_true hne, Bool.and_true]
  have hready' := hready.frames (Pmm.scanned_freeFrame κ.backing.vm.pmm (f * pageSize))
    (fun g hg => hused g (by omega) (hready.space.reserved g hg))
    fun o g ho => hused g (fun heq => hfree o (heq ▸ ho)) (hready.backed.used o g ho)
  refine ⟨⟨hready', hend, hmax⟩, hblocks, ?_⟩
  intro g hg
  obtain ⟨hne, hg⟩ := Finset.mem_erase.1 hg
  obtain ⟨hge', hg', hfree'⟩ := hheld g hg
  exact ⟨hge', hused g hne hg', hfree'⟩

/-- **What one event preserves**, when frames do not run out on it. -/
theorem Sound.step (h : Sound κ) (henough : e.Enough heapStart κ) (hdoes : e.Does κ κ') :
    Sound κ' := by
  cases e with
  | kmalloc size =>
      obtain ⟨p, s, b, hcall, rfl⟩ := hdoes
      exact h.kmalloc henough hcall
  | kfree a =>
      obtain ⟨ha, hkind, s, hcall, rfl⟩ := hdoes
      exact h.call (c := .deallocate a) ⟨ha, hkind, hcall, rfl⟩ (Heap.deallocate_heap hcall)
  | allocAligned size align =>
      obtain ⟨p, s, b, hcall, rfl⟩ := hdoes
      exact h.allocAligned henough hcall
  | freeAligned a =>
      obtain ⟨ha, hkind, s, hcall, rfl⟩ := hdoes
      exact h.call (c := .deallocateAligned a) ⟨ha, hkind, hcall, rfl⟩
        (Heap.deallocateAligned_heap hcall)
  | write a m =>
      obtain ⟨ha, hm, rfl⟩ := hdoes
      exact h.call (c := .write a m) ⟨ha, hm, rfl⟩ rfl
  | allocFrame =>
      obtain ⟨pa, pmm, hcall, rfl⟩ := hdoes
      exact h.allocFrame hcall
  | freeFrame f =>
      obtain ⟨hf, rfl⟩ := hdoes
      exact h.freeFrame hf
  | call op =>
      obtain ⟨hop, hva, vm, hcall, rfl⟩ := hdoes
      obtain ⟨⟨hready, hend, hmax⟩, hblocks, hheld⟩ := h
      cases op with
      | map va pa flags =>
          obtain ⟨hva', hpa, hflags⟩ := hop
          obtain ⟨hready', hused, howns⟩ := hready.mapped hva hva' hpa hflags henough hcall
          exact ⟨⟨hready', hend, hmax⟩, hblocks, hheld.keep hused howns⟩
      | unmap va =>
          obtain ⟨hready', hpmm, howns⟩ := hready.unmapped hva hop hcall
          refine ⟨⟨hready', hend, hmax⟩, hblocks, hheld.keep ?_ fun o g ho =>
            .inl (howns o g ho)⟩
          intro g hg
          exact hpmm ▸ hg

theorem Event.Enough.mono {limit' : Nat} (h : e.Enough limit κ) (hle : limit ≤ limit') :
    e.Enough limit' κ := by
  cases e with
  | kmalloc size => exact fun n hwants => (h n hwants).mono hle
  | allocAligned size align => exact fun hsize hpower n hwants => (h hsize hpower n hwants).mono hle
  | call op =>
      cases op with
      | map va pa flags =>
          exact Or.imp_right (fun hfree => hfree.trans_le
            (κ.backing.vm.pmm.free_mono (Nat.div_le_div_right hle))) h
      | unmap va => trivial
  | _ => trivial

theorem Booted.reached {P : Kernel → Event → Prop} (h : Booted κ) : Reached P κ := ⟨κ, h, .refl⟩

theorem Reached.tail {P : Kernel → Event → Prop} (h : Reached P κ) (hP : P κ e)
    (hdoes : e.Does κ κ') : Reached P κ' := by
  obtain ⟨κ₀, hboot, hrun⟩ := h
  exact ⟨κ₀, hboot, hrun.tail ⟨e, hP, hdoes⟩⟩

theorem Reached.kmalloc {P : Kernel → Event → Prop} {s : Heap.State} (h : Reached P κ)
    (hP : P κ (.kmalloc size))
    (hcall : Memory.kmalloc κ.backing κ.heap.state size = .ok (p, s, b)) :
    Reached P ⟨b, ⟨s, Heap.record κ.heap.live p size .plain⟩, κ.held⟩ :=
  h.tail hP ⟨p, s, b, hcall, rfl⟩

theorem Reached.mono {P Q : Kernel → Event → Prop} (h : Reached P κ)
    (himp : ∀ κ e, P κ e → Q κ e) : Reached Q κ := by
  obtain ⟨κ₀, hboot, hrun⟩ := h
  refine ⟨κ₀, hboot, Relation.ReflTransGen.mono ?_ _ _ hrun⟩
  intro κ κ' hstep
  obtain ⟨e, hP, hdoes⟩ := hstep
  exact ⟨e, himp κ e hP, hdoes⟩

theorem sound_booted (h : Booted κ) : Sound κ := by
  obtain ⟨bitmap, memSize, phys, mem, b, st, hmem, hmem', hboot, rfl⟩ := h
  obtain ⟨b', st', hboot', hnew, hready, hend, -⟩ := boot_returns bitmap hmem hmem' phys mem
  obtain ⟨rfl, rfl⟩ := Prod.mk.inj (Outcome.ok.inj (hboot'.symm.trans hboot))
  obtain ⟨hhold, hmax, hend'⟩ := Heap.holding_new (show 4 ∣ heapStart by decide)
    (show 4 ∣ heapInitialSize by decide) (by decide) hnew
  refine ⟨⟨hready, hend'.trans hend.symm, hmax.trans hready.bounds.max.symm⟩, ⟨_, hhold⟩,
    fun f hf => absurd hf (Finset.notMem_empty f)⟩

/-- **Every run**, as long as frames do not run out. -/
theorem sound_reached (h : Reached (fun κ e => e.Enough heapStart κ) κ) : Sound κ := by
  obtain ⟨κ₀, hboot, hrun⟩ := h
  induction hrun with
  | refl => exact sound_booted hboot
  | tail _ hstep ih =>
      obtain ⟨e, henough, hdoes⟩ := hstep
      exact ih.step henough hdoes

/-- A new heap is one free block. -/
theorem rep_new {mem : ByteMem} (h : Heap.new mem heapStart heapInitialSize heapMaxSize = .ok s) :
    Heap.Rep heapStart s [⟨heapStart, heapInitialSize - Heap.headerSize, none⟩] :=
  (Heap.holding_new (show 4 ∣ heapStart by decide) (show 4 ∣ heapInitialSize by decide) (by decide)
    h).1.rep

/-- A request that no free block can serve, and that the maximum leaves room for. -/
theorem Matched.wants {bs : List Heap.Blk} (h : Matched b s) (hrep : Heap.Rep heapStart s bs)
    (hsize : size ≠ 0) (hn : n = Heap.wordsFor size + Heap.headerSize)
    (hfull : ∀ c ∈ bs, ¬(c.owner = none ∧ Heap.wordsFor size ≤ c.size))
    (hroom : b.heapEnd + n ≤ heapStart + heapMaxSize) : Heap.Wants s size n := by
  refine ⟨hsize, hn, hrep.noFit hfull, ?_⟩
  rw [h.heapEnd, h.max, h.ready.bounds.max]
  exact hroom

/-- **A call that makes the heap grow** appends a block at the old end. -/
theorem Matched.kmalloc_grows {bs : List Heap.Blk} (h : Matched b s)
    (hrep : Heap.Rep heapStart s bs) (hwants : Heap.Wants s size n)
    (hgrow : heapGrow n b = .ok (b'.heapEnd, b'))
    (hend : b'.heapEnd = b.heapEnd + pagesFor n * pageSize) (hready : Ready b') :
    ∃ s', Memory.kmalloc b s size = .ok (b.heapEnd + Heap.headerSize, s', b') ∧ Matched b' s' ∧
      Heap.Rep heapStart s' (bs ++ [⟨b.heapEnd, Heap.wordsFor size,
        some ⟨b.heapEnd + Heap.headerSize, size, .plain⟩⟩]) := by
  have hroom := hwants.room
  rw [h.heapEnd, h.max] at hroom
  have hbounds := h.ready.bounds.grown hroom
  rw [← hend] at hbounds
  obtain ⟨hfar, hle, hdvd⟩ := hbounds
  have hlo := h.ready.bounds.lo
  have hbytes := hwants.bytes
  have hpos : 0 < heapStart := by decide
  have hacc : ¬Heap.Rejected s b'.heapEnd := by
    unfold Heap.Rejected
    rw [h.heapEnd, h.max]
    unfold Heap.headerSize at hbytes
    omega
  have hok : Heap.GrowOk s n b'.heapEnd := by
    rw [Heap.GrowOk, h.heapEnd]
    exact .inr ⟨(show 4 ∣ pageSize by decide).trans hdvd, hfar⟩
  obtain ⟨s', hcall, hheap, hrep'⟩ := (Heap.allocate_of_wants hrep hwants).2 _ _ hgrow hacc hok
  rw [h.heapEnd] at hcall hrep'
  refine ⟨s', hcall, ⟨hready, by rw [hheap], ?_⟩, hrep'⟩
  rw [hheap, hready.bounds.max, ← h.ready.bounds.max]
  exact h.max

/-- One megabyte on a machine with 32 MiB: the heap grows by 257 pages. -/
theorem reached_megabyte :
    ∃ κ, Reached (fun κ e => e.Enough lowLimit κ) κ ∧ κ.backing.heapEnd = 0xC0201000 := by
  obtain ⟨b, st, hboot, hnew, hready, hend, hleft, -⟩ :=
    boot_returns (fun _ => 0#32) (show 0x2000000 ≤ 0x2000000 by decide) (by decide) (fun _ => 0)
      fun _ => 0
  have hbooted : Booted ⟨b, ⟨st, []⟩, ∅⟩ :=
    ⟨_, _, _, _, _, _, by decide, by decide, hboot, rfl⟩
  have hmatched : Matched b st := (sound_booted hbooted).matched
  have hsuff : Suffices b.vm lowLimit b.heapEnd 257 := by
    have hlow := hleft 2048
    have hinit := free_init (fun _ => 0#32) (show 2048 * 4096 ≤ 0x2000000 by decide)
    exact .of_le (show 2 * 257 ≤ b.vm.pmm.free 2048 by omega) (by decide)
  have hafford : Affords lowLimit b st 0x100000 := by
    intro n hwants
    rw [hwants.bytes]
    exact hsuff
  have hwants : Heap.Wants st 0x100000 0x10000C := by
    refine hmatched.wants (rep_new hnew) (by decide) (by decide) ?_ ?_
    · intro c hc
      rw [List.mem_singleton.1 hc]
      decide
    · rw [hend]
      decide
  obtain ⟨b', hcall, hend', hready', -⟩ := hready.heapGrow_returns (n := 0x10000C)
    (by rw [hend, hready.bounds.max]; decide) hsuff
  obtain ⟨s', hk, -⟩ :=
    hmatched.kmalloc_grows (rep_new hnew) hwants (hend' ▸ hcall) hend' hready'
  refine ⟨_, hbooted.reached (P := fun κ e => e.Enough lowLimit κ).kmalloc hafford hk, ?_⟩
  rw [hend', hend]
  decide

end Invariant

end Munux.Memory
