import Munux.Heap.Alloc
import Munux.Memory.AddressSpace

/-!
# The pages behind the heap

`kernel/memory/heap.c`: the part of the heap that maps pages. `munux_c_heap_grow` is the callback
of the allocator; it asks the PMM for one frame per page and hands it to `vmm_map_page`, without
looking at what either of them returns.

`mapHeapPage_spec` is one turn of its loop when there are frames to be had, and
`mapHeapRange_spec` the whole loop: every page has a frame, and no frame has two uses.
-/

namespace Munux.Memory

open ByteMem PageTable

/-- `HEAP_INITIAL_SIZE` -/
def heapInitialSize : Nat := 0x100000

/-- `HEAP_MAX_SIZE` -/
def heapMaxSize : Nat := 0x10000000

/-- The memory managers, with `heap_end` and `heap_max_addr`. -/
structure Backing where
  vm : Vm
  heapEnd : Nat
  heapMaxAddr : Nat

/-- `ALIGN(x, PAGE_SIZE)` -/
def alignPage (x : Nat) : Nat := (x + pageSize - 1) % wordCount &&& 0xFFFFF000

/-- One turn of the loop of `map_heap_range`. -/
def mapHeapPage (s : Vm) (va : Nat) : Outcome Vm :=
  let (frame, pmm) := s.pmm.allocFrame
  mapPage { s with pmm := pmm } va frame (pagePresent ||| pageWrite)

/-- `map_heap_range` -/
def mapHeapRange (s : Vm) (lo hi : Nat) : Outcome Vm :=
  (List.range ((hi - lo + pageSize - 1) / pageSize)).foldlM
    (fun s i => mapHeapPage s (lo + i * pageSize)) s

/-- `munux_c_heap_grow` -/
def heapGrow (minBytes : Nat) (b : Backing) : Outcome (Nat × Backing) := do
  let aligned := alignPage minBytes
  let newEnd := (b.heapEnd + aligned) % wordCount
  if b.heapMaxAddr < newEnd then
    return (0, b)
  let vm ← mapHeapRange b.vm b.heapEnd newEnd
  return (newEnd, { b with vm := vm, heapEnd := newEnd })

/-- `heap_init`. The bytes of the heap are a memory of their own, addressed as the allocator
addresses them. -/
def heapInit (s : Vm) (mem : ByteMem) : Outcome (Backing × Heap.State) := do
  let heapEnd := heapStart + heapInitialSize
  let heapMaxAddr := heapStart + heapMaxSize
  let vm ← mapHeapRange s heapStart heapEnd
  let state ← Heap.new mem heapStart heapInitialSize heapMaxSize
  return (⟨vm, heapEnd, heapMaxAddr⟩, state)

/-! ## How many frames -/

/-- The directory has a table at entry `k`. -/
def tablePresent (s : Vm) (k : Nat) : Bool :=
  decide (k < 1024 ∧ Present (entry s.phys s.currentDirectory k))

/-- The tables that `n` pages from `va` on lack. -/
def missing (present : Nat → Bool) (va : Nat) : Nat → Nat
  | 0 => 0
  | n + 1 =>
      (if present (dirIndex va) then 0 else 1) +
        missing (Function.update present (dirIndex va) true) (va + pageSize) n

/-- Mapping `n` pages from `va` on takes one frame for each page, and one more right after it when
the page lacks a table. With `low` frames to begin with, they last for all of the tables. -/
def TablesFit (low : Nat) (present : Nat → Bool) (va : Nat) : Nat → Prop
  | 0 => True
  | n + 1 =>
      if present (dirIndex va) then TablesFit (low - 1) present (va + pageSize) n
      else 2 ≤ low ∧
        TablesFit (low - 2) (Function.update present (dirIndex va) true) (va + pageSize) n

theorem TablesFit.mono {low low' : Nat} {present : Nat → Bool} {va n : Nat} (hle : low ≤ low')
    (h : TablesFit low present va n) : TablesFit low' present va n := by
  induction n generalizing low low' present va with
  | zero => trivial
  | succ n ih =>
      unfold TablesFit at h ⊢
      split_ifs at h ⊢
      · exact ih (by omega) h
      · exact ⟨by omega, ih (by omega) h.2⟩

/-- One page less to go, with at most one frame less, or two if the page lacked a table. -/
theorem TablesFit.step {low low' : Nat} {present : Nat → Bool} {va n : Nat}
    (h : TablesFit low present va (n + 1))
    (hlow : low ≤ low' + if present (dirIndex va) then 1 else 2) :
    TablesFit low' (Function.update present (dirIndex va) true) (va + pageSize) n := by
  unfold TablesFit at h
  by_cases hp : present (dirIndex va) = true
  · rw [if_pos hp] at h hlow
    rw [← hp, Function.update_eq_self]
    exact h.mono (by omega)
  · rw [if_neg hp] at h hlow
    exact h.2.mono (by omega)

/-- A missing table finds a frame left over from the page. -/
theorem TablesFit.table {low : Nat} {present : Nat → Bool} {va n : Nat}
    (h : TablesFit low present va (n + 1)) (hp : present (dirIndex va) = false) : 2 ≤ low := by
  unfold TablesFit at h
  rw [hp, if_neg (by decide)] at h
  exact h.1

/-! ## Who has which frame -/

/-- What a frame is used for. -/
inductive Owner where
  | dir
  | table (k : Nat)
  | page (va : Nat)

/-- The frame number that each owner has; the heap is `[heapStart, hi)`. -/
def Owns (s : Vm) (hi : Nat) : Owner → Nat → Prop
  | .dir, g => s.currentDirectory = g * pageSize
  | .table k, g => k < 1024 ∧ Present (entry s.phys s.currentDirectory k) ∧
      frame (entry s.phys s.currentDirectory k) = g * pageSize
  | .page va, g => (heapStart ≤ va ∧ va < hi ∧ pageSize ∣ va) ∧
      translate s.phys s.currentDirectory va = some (g * pageSize)

/-- Every page of the heap is mapped to a frame that the PMM handed out, and no frame has two
uses. -/
structure Backed (s : Vm) (hi : Nat) : Prop where
  mapped : ∀ va, heapStart ≤ va → va < hi → pageSize ∣ va → ∃ g, 512 ≤ g ∧ Owns s hi (.page va) g
  used : ∀ o g, Owns s hi o g → s.pmm.used g = true
  apart : ∀ o o' g, Owns s hi o g → Owns s hi o' g → o = o'

section Grow

variable {s s' : Vm} {va hi f g n : Nat} {pmm : Pmm}

theorem tablePresent_eq (hva : va < 2 ^ 32) :
    tablePresent s (dirIndex va) = true ↔
      Present (entry s.phys s.currentDirectory (dirIndex va)) := by
  simp only [tablePresent, decide_eq_true_eq, dirIndex_lt hva, true_and]

theorem Mapped.tablePresent {v : Nat} (h : Mapped s s' va v) (hva : va < 2 ^ 32) :
    Memory.tablePresent s' = Function.update (Memory.tablePresent s) (dirIndex va) true := by
  funext k
  by_cases hk : k = dirIndex va
  · rw [hk, Function.update_self, tablePresent_eq hva, h.dir]
    exact h.present
  · rw [Function.update_of_ne hk, Memory.tablePresent, Memory.tablePresent, h.dir]
    by_cases hk' : k < 1024
    · rw [h.entries k hk' hk]
    · simp [hk']

/-- Taking a frame keeps the address space. -/
theorem Paged.took (h : Paged s) (htook : Pmm.Took s.pmm pmm f) : Paged { s with pmm := pmm } := by
  exact ⟨⟨h.tree, h.dir_ge, h.dir_lt, h.table_ge, h.table_lt, htook.scanned ▸ h.scanned,
    fun g hg => htook.mono (h.reserved g hg), htook.mono h.dir_used,
    fun k hk hp => htook.mono (h.table_used k hk hp)⟩, h.cr3, h.low⟩

theorem Space.took (h : Space s) (htook : Pmm.Took s.pmm pmm f) : Space { s with pmm := pmm } :=
  ⟨h.toPaged.took htook, h.gap⟩

/-- What one page more does. -/
structure Grew (s s' : Vm) (hi : Nat) : Prop where
  space : Space s'
  backed : Backed s' (hi + pageSize)
  used : ∀ g, s.pmm.used g = true → s'.pmm.used g = true
  fresh : ∀ o g, Owns s' (hi + pageSize) o g → Owns s hi o g ∨ s.pmm.used g = false
  tables : tablePresent s' = Function.update (tablePresent s) (dirIndex hi) true
  free : ∀ limit, s.pmm.free limit ≤
    s'.pmm.free limit + if tablePresent s (dirIndex hi) then 1 else 2
  spent : ∀ limit, s'.pmm.free limit ≤ s.pmm.free limit - 1

/-- A table after a page was mapped: it was there, or it is the one for the page, and new. -/
theorem Mapped.owns_table {v k hi' : Nat} (hi : Nat) (hmap : Mapped s s' va v)
    (htook : TookTable s s' va)
    (ho : Owns s' hi' (.table k) g) :
    Owns s hi (.table k) g ∨ (k = dirIndex va ∧ s.pmm.used g = false ∧ s'.pmm.used g = true) := by
  obtain ⟨hk, hp, hframe⟩ := ho
  rw [hmap.dir] at hp hframe
  by_cases hki : k = dirIndex va
  · subst hki
    cases htook with
    | none hp' hpmm hentry =>
        left
        rw [hentry] at hframe
        exact ⟨hk, hp', hframe⟩
    | one t _ _ htook hframe' =>
        have hgt : g = t := Nat.eq_of_mul_eq_mul_right (by decide) (hframe.symm.trans hframe')
        refine .inr ⟨rfl, hgt ▸ htook.clear, ?_⟩
        rw [htook.used, decide_eq_true hgt, Bool.true_or]
  · left
    rw [hmap.entries k hk hki] at hp hframe
    exact ⟨hk, hp, hframe⟩

/-- The owners after a page was mapped: the old ones, the page, and its table if that is new. -/
theorem owns_cases {v : Nat} (hmap : Mapped { s with pmm := pmm } s' hi v)
    (htook : TookTable { s with pmm := pmm } s' hi) (hhi : hi + pageSize ≤ 2 ^ 32)
    (halign : pageSize ∣ hi)
    (hv : leaf v hi = some (f * pageSize)) {o : Owner} (ho : Owns s' (hi + pageSize) o g) :
    Owns s hi o g ∨ (o = .page hi ∧ g = f) ∨
      (o = .table (dirIndex hi) ∧ pmm.used g = false ∧ s'.pmm.used g = true) := by
  have hdir : s'.currentDirectory = s.currentDirectory := hmap.dir
  cases o with
  | dir => exact .inl (hdir.symm.trans ho)
  | table k =>
      rcases hmap.owns_table hi htook ho with hold | ⟨rfl, hnew⟩
      · exact .inl hold
      · exact .inr (.inr ⟨rfl, hnew⟩)
  | page va =>
      obtain ⟨⟨hlo, hlt, hdvd⟩, htrans⟩ := ho
      have hpage : pageSize = 4096 := rfl
      have hdvd' : 4096 ∣ va := hdvd
      have halign' : 4096 ∣ hi := halign
      rw [hdir] at htrans
      have hwhere := hmap.translate va (by omega)
      simp only [htrans] at hwhere
      by_cases hva : va = hi
      · rw [hva, if_pos rfl, hv, Option.some.injEq] at hwhere
        exact .inr (.inl ⟨by rw [hva], Nat.eq_of_mul_eq_mul_right (by decide) hwhere⟩)
      · rw [if_neg (by omega)] at hwhere
        exact .inl ⟨⟨hlo, by omega, hdvd⟩, hwhere.symm⟩

theorem leaf_heapPage (f : Nat) (hdvd : pageSize ∣ hi) :
    leaf (frame (f * pageSize) ||| (pagePresent ||| pageWrite)) hi = some (f * pageSize) := by
  have hframe : frame (frame (f * pageSize) ||| (pagePresent ||| pageWrite)) = f * pageSize := by
    rw [frame_or _ (by decide), frame_of_dvd (dvd_frame _)]
    exact frame_of_dvd (Dvd.intro_left f rfl)
  have hpres : Present (frame (f * pageSize) ||| (pagePresent ||| pageWrite)) :=
    present_or.2 (.inr rfl)
  have hoff : hi % 4096 = 0 := Nat.mod_eq_zero_of_dvd hdvd
  rw [leaf, if_pos hpres, hframe, hoff, Nat.add_zero]

/-- The bitmap before a page was mapped tells who has a frame afterwards: one that was in use has
its old owner, and of the others one has the page and one its table. -/
theorem Backed.owner {v : Nat} (hb : Backed s hi) (htook : Pmm.Took s.pmm pmm f)
    (hmap : Mapped { s with pmm := pmm } s' hi v)
    (htook' : TookTable { s with pmm := pmm } s' hi) (hhi : hi + pageSize ≤ 2 ^ 32)
    (halign : pageSize ∣ hi) (hv : leaf v hi = some (f * pageSize)) {o : Owner}
    (ho : Owns s' (hi + pageSize) o g) :
    if s.pmm.used g then Owns s hi o g
    else o = if g = f then .page hi else .table (dirIndex hi) := by
  rcases owns_cases hmap htook' hhi halign hv ho with hold | ⟨rfl, rfl⟩ | ⟨rfl, hnew, -⟩
  · rwa [if_pos (hb.used o g hold)]
  · rw [htook.clear, if_neg Bool.false_ne_true, if_pos rfl]
  · rw [htook.used, Bool.or_eq_false_iff, decide_eq_false_iff_not] at hnew
    rw [hnew.2, if_neg Bool.false_ne_true, if_neg hnew.1]

/-- A page more is backed when it has a frame that was free. -/
theorem Backed.grow {v : Nat} (hb : Backed s hi) (htook : Pmm.Took s.pmm pmm f) (hf : 512 ≤ f)
    (hmap : Mapped { s with pmm := pmm } s' hi v)
    (htook' : TookTable { s with pmm := pmm } s' hi) (hhi : hi + pageSize ≤ 2 ^ 32)
    (halign : pageSize ∣ hi) (hv : leaf v hi = some (f * pageSize)) :
    Backed s' (hi + pageSize) := by
  have hpos : 0 < pageSize := by decide
  refine ⟨?_, ?_, ?_⟩
  · intro va hva hva' hdvd
    by_cases hlast : va = hi
    · refine ⟨f, hf, ⟨hva, hva', hdvd⟩, ?_⟩
      rw [hmap.dir, hmap.translate va (by omega), hlast, if_pos rfl, hv]
    · have hpageSize : pageSize = 4096 := rfl
      have hdvd' : 4096 ∣ va := hdvd
      have halign' : 4096 ∣ hi := halign
      obtain ⟨g, hg, hrange, htrans⟩ := hb.mapped va hva (by omega) hdvd
      refine ⟨g, hg, ⟨hva, hva', hdvd⟩, ?_⟩
      rw [hmap.dir, hmap.translate va (by omega), if_neg (by omega)]
      exact htrans
  · intro o g ho
    rcases owns_cases hmap htook' hhi halign hv ho with hold | ⟨-, rfl⟩ | ⟨-, -, hnew⟩
    · exact htook'.used (htook.mono (hb.used o g hold))
    · exact htook'.used htook.self
    · exact hnew
  · intro o o' g ho ho'
    have hown := hb.owner htook hmap htook' hhi halign hv ho
    have hown' := hb.owner htook hmap htook' hhi halign hv ho'
    by_cases hg : s.pmm.used g = true
    · rw [if_pos hg] at hown hown'
      exact hb.apart o o' g hown hown'
    · rw [if_neg hg] at hown hown'
      exact hown.trans hown'.symm

/-- The frames that one turn of the loop takes: the lowest for the page, and then one for its table
if it has none. -/
theorem mapHeapPage_took (h : Space s) (hlo : heapStart ≤ hi) (hhi : hi < 2 ^ 32)
    (hpage : 0 < s.pmm.free (2 ^ 20))
    (htable : tablePresent s (dirIndex hi) = false → 2 ≤ s.pmm.free (heapStart / 4096))
    (hcall : mapHeapPage s hi = .ok s') :
    ∃ f pmm, Pmm.Took s.pmm pmm f ∧ Space s' ∧
      Mapped { s with pmm := pmm } s' hi (frame (f * pageSize) ||| (pagePresent ||| pageWrite)) ∧
      TookTable { s with pmm := pmm } s' hi := by
  obtain ⟨f, pmm, halloc, hf, htook⟩ := Pmm.allocFrame_of_free hpage
  simp only [mapHeapPage, halloc] at hcall
  have hpa : f * pageSize < 2 ^ 32 := by
    unfold pageSize
    omega
  have havail : TableAvailable { s with pmm := pmm } hi heapStart := by
    have hfree := htook.free (heapStart / 4096)
    by_cases hp : tablePresent s (dirIndex hi) = true
    · exact .inl ((tablePresent_eq hhi).1 hp)
    · have := htable (Bool.eq_false_of_not_eq_true hp)
      refine .inr (show 0 < pmm.free (heapStart / 4096) from ?_)
      split_ifs at hfree <;> omega
  obtain ⟨hspace', hmap, htook'⟩ := (h.took htook).mapPage hlo hhi hpa (by decide) havail hcall
  exact ⟨f, pmm, htook, hspace', hmap, htook'⟩

/-- **One turn of the loop**, with a frame for the page and one for its table. -/
theorem mapHeapPage_spec (h : Space s) (hb : Backed s hi) (halign : pageSize ∣ hi)
    (hlo : heapStart ≤ hi) (hhi : hi + pageSize ≤ heapStart + heapMaxSize)
    (hpage : 0 < s.pmm.free (2 ^ 20))
    (htable : tablePresent s (dirIndex hi) = false → 2 ≤ s.pmm.free (heapStart / 4096))
    (hcall : mapHeapPage s hi = .ok s') : Grew s s' hi := by
  have hhi' : hi + pageSize ≤ 2 ^ 32 := hhi.trans (by decide)
  have hpos : 0 < pageSize := by decide
  obtain ⟨f, pmm, htook, hspace', hmap, htook'⟩ :=
    mapHeapPage_took h hlo (by omega) hpage htable hcall
  have hv := leaf_heapPage f halign
  have hpresent : tablePresent { s with pmm := pmm } = tablePresent s := rfl
  exact {
    space := hspace'
    backed := hb.grow htook (h.took_ge htook) hmap htook' hhi' halign hv
    used := fun g hg => htook'.used (htook.mono hg)
    fresh := by
      intro o g ho
      have hown := hb.owner htook hmap htook' hhi' halign hv ho
      by_cases hg : s.pmm.used g = true
      · rw [if_pos hg] at hown
        exact .inl hown
      · exact .inr (Bool.eq_false_of_not_eq_true hg)
    tables := hpresent ▸ hmap.tablePresent (by omega)
    free := by
      intro limit
      have hle := htook'.free_le limit
      have hfree' := htook.free limit
      simp only at hle
      by_cases hp : tablePresent s (dirIndex hi) = true
      · rw [if_pos ((tablePresent_eq (by omega)).1 hp)] at hle
        rw [if_pos hp]
        split_ifs at hfree' <;> omega
      · have hp' : ¬Present (entry s.phys s.currentDirectory (dirIndex hi)) :=
          fun h => hp ((tablePresent_eq (by omega)).2 h)
        rw [if_neg hp'] at hle
        rw [if_neg hp]
        split_ifs at hfree' <;> omega
    spent := fun limit => (htook'.le_free limit).trans (htook.spent limit) }

/-- There are frames for `n` pages from `hi` on, and for the tables that they lack, which lie below
`limit`. -/
structure Suffices (s : Vm) (limit hi n : Nat) : Prop where
  pages : n + missing (tablePresent s) hi n ≤ s.pmm.free (2 ^ 20)
  tables : TablesFit (s.pmm.free (limit / 4096)) (tablePresent s) hi n

/-- One page less to go. -/
theorem Suffices.grew {limit : Nat} (h : Suffices s limit hi (n + 1)) (hgrew : Grew s s' hi) :
    Suffices s' limit (hi + pageSize) n := by
  obtain ⟨hpages, htables⟩ := h
  have hfree := hgrew.free (2 ^ 20)
  refine ⟨?_, hgrew.tables ▸ htables.step (hgrew.free (limit / 4096))⟩
  unfold missing at hpages
  rw [hgrew.tables]
  split_ifs at hpages hfree <;> omega

theorem Suffices.page {limit : Nat} (h : Suffices s limit hi (n + 1)) :
    0 < s.pmm.free (2 ^ 20) := by
  have := h.pages
  omega

/-- `map_heap_range` over whole pages goes once through its loop for each of them. -/
theorem mapHeapRange_pages (s : Vm) (lo n : Nat) : mapHeapRange s lo (lo + n * pageSize) =
    (List.range n).foldlM (fun s i => mapHeapPage s (lo + i * pageSize)) s := by
  have hcount : (lo + n * pageSize - lo + pageSize - 1) / pageSize = n := by
    unfold pageSize
    omega
  rw [mapHeapRange, hcount]

theorem Suffices.mono {limit limit' : Nat} (h : Suffices s limit hi n) (hle : limit ≤ limit') :
    Suffices s limit' hi n :=
  ⟨h.pages, h.tables.mono (s.pmm.free_mono (Nat.div_le_div_right hle))⟩

/-- The state after `i` of the `n` pages from `hi` on: the pages so far are backed, and the frames
suffice for the others. -/
structure Growing (s : Vm) (limit hi n i : Nat) (t : Vm) : Prop where
  space : Space t
  backed : Backed t (hi + i * pageSize)
  tables : ∀ k, (∀ j < i, dirIndex (hi + j * pageSize) ≠ k) → tablePresent t k = tablePresent s k
  free : ∀ limit, s.pmm.free limit ≤ t.pmm.free limit + 2 * i
  spent : ∀ limit, t.pmm.free limit ≤ s.pmm.free limit - i
  used : ∀ g, s.pmm.used g = true → t.pmm.used g = true
  fresh : ∀ o g, Owns t (hi + i * pageSize) o g → Owns s hi o g ∨ s.pmm.used g = false
  enough : Suffices t limit (hi + i * pageSize) (n - i)

theorem growing_zero {limit : Nat} (h : Space s) (hb : Backed s hi)
    (hsuff : Suffices s limit hi n) :
    Growing s limit hi n 0 s := by
  refine ⟨h, ?_, fun _ _ => rfl, fun _ => le_rfl, fun _ => le_rfl, fun _ hg => hg,
    ?_, ?_⟩
  · rwa [Nat.zero_mul, Nat.add_zero]
  · intro o g ho
    rw [Nat.zero_mul, Nat.add_zero] at ho
    exact .inl ho
  · rwa [Nat.zero_mul, Nat.add_zero, Nat.sub_zero]

theorem Growing.step {limit i : Nat} {t t' : Vm} (h : Growing s limit hi n i t) (hi' : i < n)
    (halign : pageSize ∣ hi) (hlo : heapStart ≤ hi)
    (hhi : hi + n * pageSize ≤ heapStart + heapMaxSize) (hlimit : limit ≤ heapStart)
    (hstep : mapHeapPage t (hi + i * pageSize) = .ok t') : Growing s limit hi n (i + 1) t' := by
  have hnext : hi + (i + 1) * pageSize = hi + i * pageSize + pageSize := by
    rw [Nat.succ_mul, Nat.add_assoc]
  have hleft : n - i = n - (i + 1) + 1 := by omega
  have hle : (i + 1) * pageSize ≤ n * pageSize := Nat.mul_le_mul_right _ hi'
  have hsuff := h.enough
  rw [hleft] at hsuff
  have hgrew := mapHeapPage_spec h.space h.backed
    ((Nat.dvd_add_right halign).2 ⟨i, Nat.mul_comm ..⟩) (by omega) (by omega) hsuff.page
    (hsuff.mono hlimit).tables.table hstep
  refine ⟨hgrew.space, hnext ▸ hgrew.backed, ?_, ?_, ?_,
    fun g hg => hgrew.used g (h.used g hg), ?_, hnext ▸ hsuff.grew hgrew⟩
  · intro k hk
    rw [hgrew.tables, Function.update_of_ne (hk i (Nat.lt_succ_self i)).symm]
    exact h.tables k fun j hj => hk j (hj.trans (Nat.lt_succ_self i))
  · intro limit
    have hone := hgrew.free limit
    have hall := h.free limit
    split_ifs at hone <;> omega
  · intro limit
    have hone := hgrew.spent limit
    have hall := h.spent limit
    omega
  · intro o g ho
    rw [hnext] at ho
    rcases hgrew.fresh o g ho with hold | hclear
    · exact h.fresh o g hold
    · right
      by_contra hne
      rw [h.used g (Bool.eq_true_of_not_eq_false hne)] at hclear
      cases hclear

/-- **The loop of `map_heap_range`**, with frames for all of the pages: it faults, or every page is
backed. -/
theorem mapHeapRange_spec (h : Space s) (hb : Backed s hi) (halign : pageSize ∣ hi)
    (hlo : heapStart ≤ hi) (hhi : hi + n * pageSize ≤ heapStart + heapMaxSize)
    (hsuff : Suffices s heapStart hi n) (hcall : mapHeapRange s hi (hi + n * pageSize) = .ok s') :
    Growing s heapStart hi n n s' := by
  rw [mapHeapRange_pages] at hcall
  refine Outcome.foldlM_range_invariant (I := Growing s heapStart hi n) hcall
    (growing_zero h hb hsuff) ?_
  intro i t t' hi' hgrow hstep
  exact hgrow.step hi' halign hlo hhi le_rfl hstep

/-- The frame for a page is one that was free, or 0 when there is none. -/
theorem Paged.allocFrame (h : Paged s) :
    ∃ pa pmm, s.pmm.allocFrame = (pa, pmm) ∧ pa < 2 ^ 32 ∧ Paged { s with pmm := pmm } ∧
      ∀ limit, s.pmm.free limit ≤ pmm.free limit + 1 := by
  rcases s.pmm.allocFrame_cases with ⟨-, halloc⟩ | ⟨f, pmm, halloc, htook⟩
  · exact ⟨0, s.pmm, halloc, by decide, h, fun limit => Nat.le_succ _⟩
  · refine ⟨f * pageSize, pmm, halloc, ?_, h.took htook, ?_⟩
    · have hinside := htook.inside
      have hscanned := h.scanned
      unfold pageSize
      omega
    · intro limit
      have hfree := htook.free limit
      split_ifs at hfree <;> omega

/-- A page whose table can be put into the first 8 MiB is mapped without a fault. -/
theorem Paged.mapHeapPage_returns (h : Paged s) (hlo : lowLimit ≤ va) (hva : va < 2 ^ 32)
    (htable : tablePresent s (dirIndex va) = false → 2 ≤ s.pmm.free (lowLimit / 4096)) :
    ∃ s', mapHeapPage s va = .ok s' ∧ Paged s' ∧
      Memory.tablePresent s' = Function.update (Memory.tablePresent s) (dirIndex va) true ∧
      s.pmm.free (lowLimit / 4096) ≤ s'.pmm.free (lowLimit / 4096) +
        if tablePresent s (dirIndex va) then 1 else 2 := by
  obtain ⟨pa, pmm, halloc, hpa, hpaged, hfree⟩ := h.allocFrame
  have hfree := hfree (lowLimit / 4096)
  have havail : TableAvailable { s with pmm := pmm } va lowLimit := by
    by_cases hp : tablePresent s (dirIndex va) = true
    · exact .inl ((tablePresent_eq hva).1 hp)
    · have := htable (Bool.eq_false_of_not_eq_true hp)
      exact .inr (show 0 < pmm.free (lowLimit / 4096) by omega)
  obtain ⟨s', hcall, hpaged', hmap, htook⟩ := hpaged.mapPage_returns hlo hva hpa
    (show pagePresent ||| pageWrite < 4096 by decide) havail
  refine ⟨s', ?_, hpaged', hmap.tablePresent hva, ?_⟩
  · simp only [mapHeapPage, halloc, hcall]
  · have hle := htook.free_le (lowLimit / 4096)
    simp only at hle
    by_cases hp : tablePresent s (dirIndex va) = true
    · rw [if_pos ((tablePresent_eq hva).1 hp)] at hle
      rw [if_pos hp]
      omega
    · rw [if_neg fun hpres => hp ((tablePresent_eq hva).2 hpres)] at hle
      rw [if_neg hp]
      omega

/-- **The loop of `map_heap_range`** returns when the tables fit into the first 8 MiB. -/
theorem mapHeapRange_returns (h : Space s) (hb : Backed s hi) (halign : pageSize ∣ hi)
    (hlo : heapStart ≤ hi) (hhi : hi + n * pageSize ≤ heapStart + heapMaxSize)
    (hsuff : Suffices s lowLimit hi n) :
    ∃ s', mapHeapRange s hi (hi + n * pageSize) = .ok s' ∧ Growing s lowLimit hi n n s' := by
  rw [mapHeapRange_pages]
  refine Outcome.foldlM_range_returns (I := Growing s lowLimit hi n) (growing_zero h hb hsuff)
    ?_
  intro i t hi' hgrow
  have hleft : n - i = n - (i + 1) + 1 := by omega
  have hle : (i + 1) * pageSize ≤ n * pageSize := Nat.mul_le_mul_right _ hi'
  have hlast : heapStart + heapMaxSize < 2 ^ 32 := by decide
  have hsucc : (i + 1) * pageSize = i * pageSize + pageSize := Nat.succ_mul ..
  have henough := hgrow.enough
  rw [hleft] at henough
  have hlow : lowLimit ≤ heapStart := by decide
  obtain ⟨t', hstep, -⟩ := hgrow.space.toPaged.mapHeapPage_returns
    (show lowLimit ≤ hi + i * pageSize by omega) (by omega) henough.tables.table
  exact ⟨t', hstep, hgrow.step hi' halign hlo hhi (by decide) hstep⟩

end Grow

/-! ## The callback -/

/-- Where the end of the heap may be, once `heap_init` has run. -/
structure Bounds (b : Backing) : Prop where
  lo : heapStart ≤ b.heapEnd
  aligned : pageSize ∣ b.heapEnd
  hi : b.heapEnd ≤ b.heapMaxAddr
  max : b.heapMaxAddr = heapStart + heapMaxSize

section Callback

variable {b : Backing} {n : Nat}

theorem alignPage_eq (hn : n + 4095 < wordCount) : alignPage n = pagesFor n * pageSize := by
  have hsum : n + pageSize - 1 = n + 4095 := rfl
  rw [alignPage, hsum, Nat.mod_eq_of_lt hn, and_frame hn]
  rfl

/-- The end that the heap grows to. -/
theorem Bounds.grown (h : Bounds b) (hroom : b.heapEnd + n ≤ b.heapMaxAddr) :
    b.heapEnd + n ≤ b.heapEnd + pagesFor n * pageSize ∧
      b.heapEnd + pagesFor n * pageSize ≤ b.heapMaxAddr ∧
      pageSize ∣ b.heapEnd + pagesFor n * pageSize := by
  obtain ⟨-, haligned, -, hmax⟩ := h
  have hdvd : pageSize ∣ b.heapMaxAddr := by
    rw [hmax]
    decide
  unfold pageSize pagesFor at *
  omega

/-- **`munux_c_heap_grow`**, called with what `grow_and_attach` has checked, does not wrap around
and does not refuse. -/
theorem Bounds.heapGrow (h : Bounds b) (hroom : b.heapEnd + n ≤ b.heapMaxAddr) :
    Memory.heapGrow n b =
      (mapHeapRange b.vm b.heapEnd (b.heapEnd + pagesFor n * pageSize) >>= fun vm =>
        .ok (b.heapEnd + pagesFor n * pageSize,
          { b with vm := vm, heapEnd := b.heapEnd + pagesFor n * pageSize })) := by
  obtain ⟨-, hle, -⟩ := h.grown hroom
  have hlo := h.lo
  have hmax := h.max
  have hlast : heapStart + heapMaxSize + 4095 < wordCount := by decide
  have hend : (b.heapEnd + pagesFor n * pageSize) % wordCount =
      b.heapEnd + pagesFor n * pageSize := Nat.mod_eq_of_lt (by omega)
  simp only [Memory.heapGrow, alignPage_eq (show n + 4095 < wordCount by omega), hend,
    if_neg (Nat.not_lt.2 hle), Outcome.pure_eq]

end Callback

end Munux.Memory
