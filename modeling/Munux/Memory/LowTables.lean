import Munux.Memory.HeapBoot
import Munux.Memory.FlatMap
import Mathlib.Logic.Relation

/-!
# Page tables within reach

With paging on, the code still follows the physical addresses of the directory and the tables. They
reach what they name because the first 8 MiB are mapped to themselves and everything lies in there;
`vmm_map_page` does not see to that, it takes whatever frame the PMM hands out for a new table.

`Anchored` is the part of the address space that this hangs on: the directory and the two tables of
the first 8 MiB, which no call on other addresses edits. It says little about the other tables,
which may even share a frame, as they do when the PMM has none left and hands out frame 0.

* `TableLow`, `TablesLow`: the frames of new tables, as the PMM is going to hand them out, are low.
* `tables_self_mapped`: in runs whose calls all meet that, every table is mapped to itself.
* `table_out_of_reach`: a run with frames to spare in which a growth of the heap faults.
-/

namespace Munux.Memory

open ByteMem PageTable

/-- The pages that the identity map of the first 8 MiB is made of. -/
def Anchor (s : Vm) (page : Nat) : Prop :=
  page = s.currentDirectory ∨ page = frame (entry s.phys s.currentDirectory 0) ∨
    page = frame (entry s.phys s.currentDirectory 1)

/-- Paging is on, the first 8 MiB are mapped to themselves, all tables lie in there, and those for
other addresses are no part of that map. -/
structure Anchored (s : Vm) : Prop where
  cr3 : s.cr3 = some s.currentDirectory
  aligned : 4096 ∣ s.currentDirectory
  dir_lt : s.currentDirectory < lowLimit
  low : ∀ a < lowLimit, translate s.phys s.currentDirectory a = some a
  base : ∀ k < 2, frame (entry s.phys s.currentDirectory k) ≠ s.currentDirectory
  table_lt : ∀ k < 1024, Present (entry s.phys s.currentDirectory k) →
    frame (entry s.phys s.currentDirectory k) < lowLimit
  apart : ∀ k < 1024, 2 ≤ k → Present (entry s.phys s.currentDirectory k) →
    ¬Anchor s (frame (entry s.phys s.currentDirectory k))
  used : ∀ page, Anchor s page → page ≠ 0 ∧ s.pmm.used (page / 4096) = true

/-- The table for `va` is there, or its frame is going to be a low one and the flags leave it
alone. -/
def TableLow (s : Vm) (va flags : Nat) : Prop :=
  Present (entry s.phys s.currentDirectory (dirIndex va)) ∨
    (s.pmm.allocFrame.1 < lowLimit ∧ flags < 4096)

/-- The tables that `n` pages of the heap lack are going to get low frames, each the one after the
frame of its page. -/
def TablesLow (pmm : Pmm) (present : Nat → Bool) (va : Nat) : Nat → Prop
  | 0 => True
  | n + 1 =>
      let taken := pmm.allocFrame.2
      if present (dirIndex va) then TablesLow taken present (va + pageSize) n
      else taken.allocFrame.1 < lowLimit ∧
        TablesLow taken.allocFrame.2 (Function.update present (dirIndex va) true) (va + pageSize) n

section Anchored

variable {s s' : Vm} {pmm : Pmm} {m : ByteMem} {va pa flags t e i n : Nat}

theorem dirIndex_of_lt_lowLimit {a : Nat} (h : a < lowLimit) : dirIndex a < 2 := by
  unfold lowLimit at h
  unfold dirIndex
  omega

/-- The map has its two tables. -/
theorem present_of_low (h : ∀ a < lowLimit, translate s.phys s.currentDirectory a = some a)
    {k : Nat}
    (hk : k < 2) : Present (entry s.phys s.currentDirectory k) := by
  have hlt : k * 2 ^ 22 < lowLimit := by
    unfold lowLimit
    omega
  have hlow := h _ hlt
  rw [PageTable.translate,
    show dirIndex (k * 2 ^ 22) = k from Nat.mul_div_cancel k (by decide)] at hlow
  by_contra habs
  simp only [if_neg habs] at hlow
  cases hlow

/-- The address space after `vmm_init` is anchored. -/
theorem Space.anchored (h : Space s) : Anchored s := by
  have hpres : ∀ k < 2, Present (entry s.phys s.currentDirectory k) :=
    fun k hk => present_of_low h.low hk
  have hreserved : 0 < kernelReserved := by decide
  refine ⟨h.cr3, h.tree.aligned, h.dir_lt, h.low, ?_, h.table_lt,
    ?_, ?_⟩
  · intro k hk
    exact h.tree.table_ne k (by omega) (hpres k hk)
  · intro k hk hk2 hp hanchor
    rcases hanchor with heq | heq | heq
    · exact h.tree.table_ne k hk hp heq
    · have := h.tree.table_inj k hk 0 (by decide) hp (hpres 0 (by decide)) heq
      omega
    · have := h.tree.table_inj k hk 1 (by decide) hp (hpres 1 (by decide)) heq
      omega
  · intro page hanchor
    rcases hanchor with rfl | rfl | rfl
    · exact ⟨by have := h.dir_ge; omega, h.dir_used⟩
    · have hp := hpres 0 (by decide)
      exact ⟨by have := h.table_ge 0 (by decide) hp; omega, h.table_used 0 (by decide) hp⟩
    · have hp := hpres 1 (by decide)
      exact ⟨by have := h.table_ge 1 (by decide) hp; omega, h.table_used 1 (by decide) hp⟩

/-- Pointers into the first 8 MiB work. -/
theorem Anchored.resolve (h : Anchored s) {a : Nat} (ha : a < lowLimit) :
    resolve s.cr3 s.phys a = some a := by
  rw [h.cr3]
  exact h.low a ha

theorem Anchored.slot_lt (h : Anchored s) (hi : i < 1024) :
    s.currentDirectory + i * 4 < lowLimit := by
  have := low_page h.aligned h.dir_lt
  omega

theorem Anchored.word_lt (h : Anchored s) (hi : i < 1024)
    (hp : Present (entry s.phys s.currentDirectory i)) (va : Nat) :
    frame (entry s.phys s.currentDirectory i) + tableIndex va * 4 < lowLimit := by
  have := low_page (dvd_frame _) (h.table_lt i hi hp)
  have := tableIndex_lt va
  omega

theorem Anchored.read (h : Anchored s) (hi : i < 1024) :
    readWord s (s.currentDirectory + i * 4) = .ok (entry s.phys s.currentDirectory i) :=
  readWord_eq (h.resolve (h.slot_lt hi))

/-- What leaves the directory, the two tables and their frames alone keeps the map anchored. -/
theorem Anchored.edit (h : Anchored s) (hdir : s'.currentDirectory = s.currentDirectory)
    (hcr3 : s'.cr3 = s.cr3)
    (hentries : ∀ k < 2, entry s'.phys s.currentDirectory k = entry s.phys s.currentDirectory k)
    (htables : ∀ k < 2, Agree s.phys s'.phys (frame (entry s.phys s.currentDirectory k))
      (frame (entry s.phys s.currentDirectory k) + 4096))
    (hplace : ∀ k < 1024, 2 ≤ k → Present (entry s'.phys s.currentDirectory k) →
      frame (entry s'.phys s.currentDirectory k) < lowLimit ∧
        ¬Anchor s (frame (entry s'.phys s.currentDirectory k)))
    (hused : ∀ page, Anchor s page → s'.pmm.used (page / 4096) = true) : Anchored s' := by
  have h0 := hentries 0 (by decide)
  have h1 := hentries 1 (by decide)
  have hanchor : ∀ page, Anchor s' page ↔ Anchor s page := by
    intro page
    simp only [Anchor, hdir, h0, h1]
  refine ⟨?_, ?_, ?_, ?_, ?_, ?_, ?_,
    ?_⟩
  · rw [hcr3, hdir, h.cr3]
  · rw [hdir]
    exact h.aligned
  · rw [hdir]
    exact h.dir_lt
  · intro a ha
    have hd := dirIndex_of_lt_lowLimit ha
    rw [hdir, ← h.low a ha]
    exact translate_congr (hentries _ hd) fun _ => entry_congr (htables _ hd) (tableIndex_lt a)
  · intro k hk
    rw [hdir, hentries k hk]
    exact h.base k hk
  · intro k hk
    rw [hdir]
    by_cases hk2 : k < 2
    · rw [hentries k hk2]
      exact h.table_lt k hk
    · exact fun hp => (hplace k hk (Nat.le_of_not_lt hk2) hp).1
  · intro k hk hk2 hp
    rw [hdir] at hp ⊢
    rw [hanchor]
    exact (hplace k hk hk2 hp).2
  · intro page hpage
    rw [hanchor] at hpage
    exact ⟨(h.used page hpage).1, hused page hpage⟩

theorem Anchored.page_entry (h : Anchored s) (ht : 4096 ∣ t) (hne : ¬Anchor s t)
    (hm : SameOutside s.phys m t (t + 4096)) {k : Nat} (hk : k < 1024) :
    entry m s.currentDirectory k = entry s.phys s.currentDirectory k :=
  entry_congr (hm.agree (pages_disjoint h.aligned ht fun heq => hne (.inl heq.symm))) hk

/-- Writing within a page that is no part of the map. -/
theorem Anchored.page (h : Anchored s) (ht : 4096 ∣ t) (hne : ¬Anchor s t)
    (hm : SameOutside s.phys m t (t + 4096)) : Anchored { s with phys := m } := by
  have hdir : ∀ k < 1024, _ := fun k hk => h.page_entry ht hne hm hk
  refine h.edit rfl rfl (fun k hk => hdir k (by omega)) ?_ ?_
    fun page hpage => (h.used page hpage).2
  · intro k hk
    refine hm.agree (pages_disjoint (dvd_frame _) ht fun heq => hne ?_)
    rcases Nat.le_one_iff_eq_zero_or_eq_one.1 (Nat.le_of_lt_succ hk) with rfl | rfl
    · exact .inr (.inl heq.symm)
    · exact .inr (.inr heq.symm)
  · intro k hk hk2
    simp only [hdir k hk]
    exact fun hp => ⟨h.table_lt k hk hp, h.apart k hk hk2 hp⟩

/-- Writing a directory entry that is not one of the map's. -/
theorem Anchored.link (h : Anchored s) (hi : i < 1024) (hi2 : 2 ≤ i) (he : e < 2 ^ 32)
    (hlow : frame e < lowLimit) (hne : ¬Anchor s (frame e)) :
    Anchored { s with phys := store32 s.phys (s.currentDirectory + i * 4) e } := by
  refine h.edit rfl rfl ?_ ?_ ?_
    fun page hpage => (h.used page hpage).2
  · intro k hk
    exact entry_store32_ne (by omega)
  · intro k hk
    exact store32_agree_page h.aligned (dvd_frame _) (h.base k hk).symm hi
  · intro k hk hk2
    by_cases hki : k = i
    · rw [hki, entry_store32_self he]
      exact fun _ => ⟨hlow, hne⟩
    · simp only [entry_store32_ne (Ne.symm hki)]
      exact fun hp => ⟨h.table_lt k hk hp, h.apart k hk hk2 hp⟩

/-- Frames change hands, but not those of the map. -/
theorem Anchored.frames (h : Anchored s)
    (hused : ∀ page, Anchor s page → pmm.used (page / 4096) = true) :
    Anchored { s with pmm := pmm } :=
  h.edit rfl rfl (fun _ _ => rfl) (fun _ _ => Agree.refl _ _ _)
    (fun k hk hk2 hp => ⟨h.table_lt k hk hp, h.apart k hk hk2 hp⟩) hused

/-- Taking a frame: it is a page, not one of the map's, and 0 if there is none. -/
theorem Anchored.alloc (h : Anchored s) :
    ∃ t pmm, s.pmm.allocFrame = (t, pmm) ∧ 4096 ∣ t ∧ ¬Anchor s t ∧
      Anchored { s with pmm := pmm } := by
  rcases s.pmm.allocFrame_cases with ⟨-, halloc⟩ | ⟨f, pmm, halloc, htook⟩
  · exact ⟨0, s.pmm, halloc, by decide, fun hzero => (h.used 0 hzero).1 rfl, h⟩
  · refine ⟨f * pageSize, pmm, halloc, Dvd.intro_left f rfl, ?_,
      h.frames ?_⟩
    · intro hanchor
      have hused := (h.used _ hanchor).2
      rw [mul_pageSize_div, htook.clear] at hused
      cases hused
    · intro page hpage
      exact htook.mono (h.used page hpage).2

end Anchored

/-! ## The calls -/

section Calls

variable {s s' : Vm} {va pa flags i hi n : Nat}

/-- What making sure of a table, or mapping a page, does besides: the entry is there, and if it was
not, a frame went. -/
structure Tabled (s s' : Vm) (i : Nat) : Prop where
  anchored : Anchored s'
  dir : s'.currentDirectory = s.currentDirectory
  pmm : s'.pmm = if tablePresent s i then s.pmm else s.pmm.allocFrame.2
  tables : tablePresent s' = Function.update (tablePresent s) i true

theorem tablePresent_iff (hi : i < 1024) :
    tablePresent s i = true ↔ Present (entry s.phys s.currentDirectory i) := by
  simp only [tablePresent, decide_eq_true_eq, hi, true_and]

theorem Tabled.present (h : Tabled s s' i) (hi : i < 1024) :
    Present (entry s'.phys s'.currentDirectory i) := by
  rw [← tablePresent_iff hi, h.tables, Function.update_self]

theorem Anchored.page_tablePresent {t : Nat} {m : ByteMem} (h : Anchored s) (ht : 4096 ∣ t)
    (hne : ¬Anchor s t) (hm : SameOutside s.phys m t (t + 4096)) :
    tablePresent { s with phys := m } = tablePresent s := by
  funext k
  by_cases hk : k < 1024
  · simp only [tablePresent, h.page_entry ht hne hm hk]
  · simp [tablePresent, hk]

theorem tabled_present (h : Anchored s) (hi : i < 1024)
    (hp : Present (entry s.phys s.currentDirectory i)) : Tabled s s i := by
  have hpres := (tablePresent_iff hi).2 hp
  refine ⟨h, rfl, ?_, ?_⟩
  · rw [if_pos hpres]
  · rw [← hpres, Function.update_eq_self]

theorem Anchored.ensureTable_returns (h : Anchored s) (hi : i < 1024) (hi2 : 2 ≤ i)
    (hlow : Present (entry s.phys s.currentDirectory i) ∨
      (s.pmm.allocFrame.1 < lowLimit ∧ flags < 4096)) :
    ∃ s', ensureTable s i flags = .ok s' ∧ Tabled s s' i := by
  by_cases hp : Present (entry s.phys s.currentDirectory i)
  · refine ⟨s, ?_, tabled_present h hi hp⟩
    simp only [ensureTable, h.read hi, Outcome.ok_bind,
      if_neg fun hz => (and_pagePresent _).1 hz hp, Outcome.pure_eq]
  · obtain ⟨t, pmm, halloc, hdvd, hne, h'⟩ := h.alloc
    obtain ⟨hlow, hflags⟩ := hlow.resolve_left hp
    rw [halloc] at hlow
    obtain ⟨hframe, hpres, he⟩ := table_entry hdvd (hlow.trans (by decide)) hflags
    obtain ⟨e, heq⟩ : ∃ e, t ||| pagePresent ||| pageWrite ||| flags = e := ⟨_, rfl⟩
    rw [heq] at hframe hpres he
    -- The entry of the directory, and then the words of the table.
    have hwrite : writeWord { s with pmm := pmm } (s.currentDirectory + i * 4) e =
        .ok { s with pmm := pmm, phys := store32 s.phys (s.currentDirectory + i * 4) e } :=
      writeWord_eq (h'.resolve (h'.slot_lt hi)) e
    have hlink := h'.link hi hi2 he (by rwa [hframe]) (by rwa [hframe])
    have hself := hlink.apart i hi hi2
    rw [entry_store32_self he, hframe] at hself
    have hpage := fun m => hlink.page (m := m) hdvd (hself hpres)
    obtain ⟨m, hclear, hsame, -⟩ := clearTable_returns (t := t) fun m hm a _ ha =>
      (hpage m hm).resolve (ha.trans_le (low_page hdvd hlow))
    refine ⟨_, ?_, hpage m hsame, rfl, ?_, ?_⟩
    · simp only [ensureTable, h.read hi, Outcome.ok_bind, if_pos ((and_pagePresent _).2 hp), halloc,
        heq, hwrite]
      exact hclear
    · rw [if_neg fun hpres => hp ((tablePresent_iff hi).1 hpres), halloc]
    · refine (hlink.page_tablePresent hdvd (hself hpres) hsame).trans ?_
      funext k
      by_cases hki : k = i
      · rw [hki, Function.update_self, tablePresent_iff hi, entry_store32_self he]
        exact hpres
      · rw [Function.update_of_ne hki, tablePresent, tablePresent, entry_store32_ne (Ne.symm hki)]

/-- A store into the table for an address above the first 8 MiB. -/
theorem Anchored.store_returns (h : Anchored s) (hva : lowLimit ≤ va) (hva' : va < 2 ^ 32)
    (hp : Present (entry s.phys s.currentDirectory (dirIndex va))) (v : Nat) :
    ∃ m, writeWord s (frame (entry s.phys s.currentDirectory (dirIndex va)) + tableIndex va * 4) v =
        .ok { s with phys := m } ∧ Anchored { s with phys := m } ∧
      tablePresent { s with phys := m } = tablePresent s := by
  have hi := dirIndex_lt hva'
  have hj := tableIndex_lt va
  have hne := h.apart _ hi (dirIndex_of_lowLimit_le hva) hp
  have hsame : SameOutside s.phys (store32 s.phys
      (frame (entry s.phys s.currentDirectory (dirIndex va)) + tableIndex va * 4) v)
      (frame (entry s.phys s.currentDirectory (dirIndex va)))
      (frame (entry s.phys s.currentDirectory (dirIndex va)) + 4096) :=
    store32_sameOutside _ _ _ (by omega) (by omega)
  exact ⟨_, writeWord_eq (h.resolve (h.word_lt hi hp va)) v, h.page (dvd_frame _) hne hsame,
    h.page_tablePresent (dvd_frame _) hne hsame⟩

/-- **`vmm_map_page`** above the first 8 MiB returns when its table is, or is going to be, a low
one. -/
theorem Anchored.mapPage_returns (h : Anchored s) (hva : lowLimit ≤ va) (hva' : va < 2 ^ 32)
    (hlow : TableLow s va flags) (pa : Nat) :
    ∃ s', mapPage s va pa flags = .ok s' ∧ Tabled s s' (dirIndex va) := by
  have hi := dirIndex_lt hva'
  obtain ⟨s₁, hens, ht⟩ := h.ensureTable_returns hi (dirIndex_of_lowLimit_le hva) hlow
  have hp := ht.present hi
  obtain ⟨m, hstore, hanchored, htables⟩ :=
    ht.anchored.store_returns hva hva' hp ((pa &&& 0xFFFFF000) ||| flags)
  refine ⟨{ s₁ with phys := m }, ?_, hanchored, ht.dir, ht.pmm, htables.trans ht.tables⟩
  simp only [mapPage, shiftRight_pdIndex, shiftRight_ptIndex, hens, Outcome.ok_bind,
    ht.anchored.read hi, and_frame (entry_lt _ _ _), hstore]

/-- **`vmm_unmap_page`** above the first 8 MiB returns. -/
theorem Anchored.unmapPage_returns (h : Anchored s) (hva : lowLimit ≤ va) (hva' : va < 2 ^ 32) :
    ∃ s', unmapPage s va = .ok s' ∧ Anchored s' := by
  have hi := dirIndex_lt hva'
  by_cases hp : Present (entry s.phys s.currentDirectory (dirIndex va))
  · obtain ⟨m, hstore, hanchored, -⟩ := h.store_returns hva hva' hp 0
    refine ⟨_, ?_, hanchored⟩
    simp only [unmapPage, shiftRight_pdIndex, shiftRight_ptIndex, h.read hi, Outcome.ok_bind,
      if_neg fun hz => (and_pagePresent _).1 hz hp, and_frame (entry_lt _ _ _), hstore]
  · refine ⟨s, ?_, h⟩
    simp only [unmapPage, shiftRight_pdIndex, h.read hi, Outcome.ok_bind,
      if_pos ((and_pagePresent _).2 hp), Outcome.pure_eq]

/-- One page of the heap. -/
theorem Anchored.mapHeapPage_returns (h : Anchored s) (hva : lowLimit ≤ va) (hva' : va < 2 ^ 32)
    (hlow : TablesLow s.pmm (tablePresent s) va (n + 1)) :
    ∃ s', mapHeapPage s va = .ok s' ∧ Anchored s' ∧
      TablesLow s'.pmm (tablePresent s') (va + pageSize) n := by
  have hi := dirIndex_lt hva'
  obtain ⟨t, pmm, halloc, -, -, h'⟩ := h.alloc
  simp only [TablesLow, halloc] at hlow
  have htable : TableLow { s with pmm := pmm } va (pagePresent ||| pageWrite) := by
    by_cases hp : tablePresent s (dirIndex va) = true
    · exact .inl ((tablePresent_iff hi).1 hp)
    · rw [if_neg hp] at hlow
      exact .inr ⟨hlow.1, by decide⟩
  obtain ⟨s', hcall, ht⟩ := h'.mapPage_returns hva hva' htable t
  refine ⟨s', ?_, ht.anchored, ?_⟩
  · simp only [mapHeapPage, halloc, hcall]
  · rw [ht.pmm, ht.tables]
    change TablesLow (if tablePresent s (dirIndex va) then pmm else pmm.allocFrame.2)
      (Function.update (tablePresent s) (dirIndex va) true) (va + pageSize) n
    by_cases hp : tablePresent s (dirIndex va) = true
    · rw [if_pos hp] at hlow ⊢
      rwa [← hp, Function.update_eq_self]
    · rw [if_neg hp] at hlow ⊢
      exact hlow.2

/-- **The loop of `map_heap_range`** returns when all of the tables it needs are going to be low
ones. -/
theorem Anchored.mapHeapRange_returns (h : Anchored s) (hlo : lowLimit ≤ hi)
    (hhi : hi + n * pageSize ≤ 2 ^ 32) (hlow : TablesLow s.pmm (tablePresent s) hi n) :
    ∃ s', mapHeapRange s hi (hi + n * pageSize) = .ok s' ∧ Anchored s' := by
  have hstep : ∀ i t, i < n → (Anchored t ∧ TablesLow t.pmm (tablePresent t) (hi + i * pageSize)
      (n - i)) → ∃ t', mapHeapPage t (hi + i * pageSize) = .ok t' ∧ Anchored t' ∧
        TablesLow t'.pmm (tablePresent t') (hi + (i + 1) * pageSize) (n - (i + 1)) := by
    intro i t hi' hinv
    obtain ⟨hanchored, hlow⟩ := hinv
    have hle : (i + 1) * pageSize ≤ n * pageSize := Nat.mul_le_mul_right _ hi'
    have hsucc : (i + 1) * pageSize = i * pageSize + pageSize := Nat.succ_mul ..
    have hpos : 0 < pageSize := by decide
    rw [show n - i = n - (i + 1) + 1 by omega] at hlow
    rw [hsucc, ← Nat.add_assoc]
    exact hanchored.mapHeapPage_returns (by omega) (by omega) hlow
  have hzero : TablesLow s.pmm (tablePresent s) (hi + 0 * pageSize) (n - 0) := by
    rwa [Nat.zero_mul, Nat.add_zero, Nat.sub_zero]
  rw [mapHeapRange_pages]
  obtain ⟨s', hcall, hanchored, -⟩ := Outcome.foldlM_range_returns ⟨h, hzero⟩ hstep
  exact ⟨s', hcall, hanchored⟩

theorem alloc_free (pmm : Pmm) (limit : Nat) :
    pmm.free limit ≤ pmm.allocFrame.2.free limit + 1 := by
  rcases pmm.allocFrame_cases with ⟨-, halloc⟩ | ⟨f, pmm', halloc, htook⟩
  · rw [halloc]
    exact Nat.le_succ _
  · rw [halloc, htook.free]
    split_ifs <;> omega

/-- Enough free frames in the first 8 MiB will do. -/
theorem TablesFit.tablesLow {pmm : Pmm} {present : Nat → Bool}
    (h : TablesFit (pmm.free (lowLimit / 4096)) present va n) : TablesLow pmm present va n := by
  induction n generalizing pmm present va with
  | zero => trivial
  | succ n ih =>
      have hpage := alloc_free pmm (lowLimit / 4096)
      have htable := alloc_free pmm.allocFrame.2 (lowLimit / 4096)
      unfold TablesFit at h
      simp only [TablesLow]
      by_cases hp : present (dirIndex va) = true
      · rw [if_pos hp] at h ⊢
        exact ih (h.mono (by omega))
      · rw [if_neg hp] at h ⊢
        refine ⟨?_, ih (h.2.mono (by omega))⟩
        obtain ⟨f, pmm', halloc, hf, -⟩ := Pmm.allocFrame_of_free
          (show 0 < pmm.allocFrame.2.free (lowLimit / 4096) by omega)
        rw [halloc]
        unfold lowLimit pageSize at *
        omega

/-- A lookup reads the map. -/
theorem Anchored.getPhysicalAddress (h : Anchored s) (hva : va < 2 ^ 32) :
    getPhysicalAddress s va = .ok ((translate s.phys s.currentDirectory va).getD 0) := by
  have hi := dirIndex_lt hva
  exact getPhysicalAddress_returns (h.read hi)
    fun hp => readWord_eq (h.resolve (h.word_lt hi hp va))

end Calls

/-! ## Runs -/

/-- What a run is made of: growths of the heap, calls of `vmm_map_page` and `vmm_unmap_page`, and
frames that others take and give back. -/
inductive PageOp where
  | heapInit (mem : ByteMem)
  | grow (n : Nat)
  | call (op : MapOp)
  | allocFrame
  | freeFrame (addr : Nat)

namespace PageOp

def run (b : Backing) : PageOp → Outcome Backing
  | .heapInit mem => do
      let (b, _) ← Memory.heapInit b.vm mem
      return b
  | .grow n => do
      let (_, b) ← heapGrow n b
      return b
  | .call op => do
      let vm ← op.run b.vm
      return { b with vm := vm }
  | .allocFrame => return { b with vm := { b.vm with pmm := b.vm.pmm.allocFrame.2 } }
  | .freeFrame addr => return { b with vm := { b.vm with pmm := b.vm.pmm.freeFrame addr } }

/-- The calls that the run may make: a growth does not wrap around, a page is not one of the first
8 MiB, and nobody gives back the frame of the directory or of a table. -/
def Allowed (b : Backing) : PageOp → Prop
  | .heapInit _ => True
  | .grow n => b.heapEnd + alignPage n < wordCount
  | .call op => lowLimit ≤ op.va ∧ op.va < wordCount
  | .allocFrame => True
  | .freeFrame addr => addr / pageSize ≠ b.vm.currentDirectory / pageSize ∧
      ∀ k < 1024, Present (entry b.vm.phys b.vm.currentDirectory k) →
        addr / pageSize ≠ frame (entry b.vm.phys b.vm.currentDirectory k) / pageSize

/-- Every page table that the call has to add is going to get a frame in the first 8 MiB. -/
def TablesLow (b : Backing) : PageOp → Prop
  | .heapInit _ => Memory.TablesLow b.vm.pmm (tablePresent b.vm) heapStart 256
  | .grow n => b.heapEnd + alignPage n ≤ b.heapMaxAddr →
      Memory.TablesLow b.vm.pmm (tablePresent b.vm) b.heapEnd (alignPage n / pageSize)
  | .call (.map va _ flags) => TableLow b.vm va flags
  | _ => True

end PageOp

/-- One step of a run, by a call with property `P`. -/
def PageStep (P : Backing → PageOp → Prop) (b b' : Backing) : Prop :=
  ∃ op : PageOp, P b op ∧ op.run b = .ok b'

/-- The directory and every page table are mapped to themselves. -/
structure SelfMapped (s : Vm) : Prop where
  cr3 : s.cr3 = some s.currentDirectory
  dir : ∀ a, s.currentDirectory ≤ a → a < s.currentDirectory + 4096 →
    translate s.phys s.currentDirectory a = some a
  table : ∀ k < 1024, Present (entry s.phys s.currentDirectory k) →
    ∀ a, frame (entry s.phys s.currentDirectory k) ≤ a →
      a < frame (entry s.phys s.currentDirectory k) + 4096 →
        translate s.phys s.currentDirectory a = some a

section Runs

variable {s s₀ : Vm} {b b' : Backing} {op : PageOp} {n : Nat} {bitmap : Nat → BitVec 32}
  {memSize : Nat}

theorem Anchored.selfMapped (h : Anchored s) : SelfMapped s := by
  refine ⟨h.cr3, fun a _ ha => h.low a ?_, fun k hk hp a _ ha => h.low a ?_⟩
  · exact ha.trans_le (low_page h.aligned h.dir_lt)
  · exact ha.trans_le (low_page (dvd_frame _) (h.table_lt k hk hp))

/-- What every run keeps: the map is anchored, and the heap, once there is one, does not end in the
first 8 MiB. -/
structure InReach (b : Backing) : Prop where
  anchored : Anchored b.vm
  heapEnd : b.heapMaxAddr = 0 ∨ lowLimit ≤ b.heapEnd

theorem alignPage_eq_frame (n : Nat) : alignPage n = frame ((n + pageSize - 1) % wordCount) :=
  and_frame (Nat.mod_lt _ (by decide))

/-- A growth that does not wrap around, and whose new tables are low. -/
theorem InReach.heapGrow (h : InReach b) (hwrap : b.heapEnd + alignPage n < wordCount)
    (hlow : b.heapEnd + alignPage n ≤ b.heapMaxAddr →
      TablesLow b.vm.pmm (tablePresent b.vm) b.heapEnd (alignPage n / pageSize)) :
    ∃ r b', heapGrow n b = .ok (r, b') ∧ InReach b' := by
  obtain ⟨hanchored, hend⟩ := h
  have hsum : (b.heapEnd + alignPage n) % wordCount = b.heapEnd + alignPage n :=
    Nat.mod_eq_of_lt hwrap
  by_cases hmax : b.heapMaxAddr < b.heapEnd + alignPage n
  · refine ⟨0, b, ?_, hanchored, hend⟩
    simp only [Memory.heapGrow, hsum, if_pos hmax, Outcome.pure_eq]
  · have hle := Nat.le_of_not_lt hmax
    obtain ⟨vm, hmap, hanchored'⟩ :
        ∃ vm, mapHeapRange b.vm b.heapEnd (b.heapEnd + alignPage n) = .ok vm ∧ Anchored vm := by
      rcases hend with hnone | hend
      · -- Before `heap_init` there is nothing to map.
        obtain ⟨h0, h1⟩ : b.heapEnd = 0 ∧ alignPage n = 0 := by omega
        rw [h0, h1]
        exact ⟨b.vm, rfl, hanchored⟩
      · have hpages : alignPage n / pageSize * pageSize = alignPage n := by
          rw [alignPage_eq_frame]
          exact frame_of_dvd (dvd_frame _)
        have hhi : b.heapEnd + alignPage n ≤ 2 ^ 32 := Nat.le_of_lt hwrap
        rw [← hpages] at hhi ⊢
        exact hanchored.mapHeapRange_returns hend hhi (hlow hle)
    refine ⟨b.heapEnd + alignPage n, ⟨vm, b.heapEnd + alignPage n, b.heapMaxAddr⟩, ?_,
      hanchored', ?_⟩
    · simp only [Memory.heapGrow, hsum, if_neg hmax, hmap, Outcome.pure_eq, Outcome.ok_bind]
    · rcases hend with hnone | hend
      · exact .inl hnone
      · exact .inr (hend.trans (Nat.le_add_right _ _))

/-- Giving back a frame that is neither the directory's nor a table's. -/
theorem Anchored.freeFrame {addr : Nat} (h : Anchored s)
    (hdir : addr / pageSize ≠ s.currentDirectory / pageSize)
    (htable : ∀ k < 1024, Present (entry s.phys s.currentDirectory k) →
      addr / pageSize ≠ frame (entry s.phys s.currentDirectory k) / pageSize) :
    Anchored { s with pmm := s.pmm.freeFrame addr } := by
  apply h.frames
  intro page hpage
  have hne : page / 4096 ≠ addr / pageSize := by
    rcases hpage with rfl | rfl | rfl
    · exact Ne.symm hdir
    · exact (htable 0 (by decide) (present_of_low h.low (by decide))).symm
    · exact (htable 1 (by decide) (present_of_low h.low (by decide))).symm
  rw [Pmm.used_freeFrame, (h.used page hpage).2, decide_eq_true hne, Bool.and_true]

/-- **One call** whose new tables are low returns, and keeps them within reach. -/
theorem InReach.step (h : InReach b) (hallowed : op.Allowed b) (hlow : op.TablesLow b) :
    ∃ b', op.run b = .ok b' ∧ InReach b' := by
  cases op with
  | heapInit mem =>
      obtain ⟨vm, hmap, hanchored'⟩ := h.anchored.mapHeapRange_returns
        (show lowLimit ≤ heapStart by decide)
        (show heapStart + 256 * pageSize ≤ 2 ^ 32 by decide) hlow
      have hrange : heapStart + 256 * pageSize = heapStart + heapInitialSize := rfl
      rw [hrange] at hmap
      refine ⟨⟨vm, heapStart + heapInitialSize, heapStart + heapMaxSize⟩, ?_, hanchored',
        .inr (show lowLimit ≤ heapStart + heapInitialSize by decide)⟩
      simp only [PageOp.run, heapInit, hmap, Outcome.ok_bind]
      rfl
  | grow n =>
      obtain ⟨r, b', hcall, hreach⟩ := h.heapGrow hallowed hlow
      refine ⟨b', ?_, hreach⟩
      simp only [PageOp.run, hcall, Outcome.ok_bind, Outcome.pure_eq]
  | call op =>
      cases op with
      | map va pa flags =>
          obtain ⟨hva, hva'⟩ : lowLimit ≤ va ∧ va < wordCount := hallowed
          obtain ⟨vm, hcall, ht⟩ := h.anchored.mapPage_returns hva hva' hlow pa
          refine ⟨{ b with vm := vm }, ?_, ht.anchored, h.heapEnd⟩
          simp only [PageOp.run, MapOp.run, hcall, Outcome.ok_bind, Outcome.pure_eq]
      | unmap va =>
          obtain ⟨hva, hva'⟩ : lowLimit ≤ va ∧ va < wordCount := hallowed
          obtain ⟨vm, hcall, hanchored'⟩ := h.anchored.unmapPage_returns hva hva'
          refine ⟨{ b with vm := vm }, ?_, hanchored', h.heapEnd⟩
          simp only [PageOp.run, MapOp.run, hcall, Outcome.ok_bind, Outcome.pure_eq]
  | allocFrame =>
      obtain ⟨t, pmm, halloc, -, -, hanchored'⟩ := h.anchored.alloc
      refine ⟨_, rfl, ?_, h.heapEnd⟩
      simp only [halloc]
      exact hanchored'
  | freeFrame addr => exact ⟨_, rfl, h.anchored.freeFrame hallowed.1 hallowed.2, h.heapEnd⟩

/-- **Page tables stay within reach** in every run after `vmm_init` in which each table that a call
adds is going to lie in the first 8 MiB: the directory and all tables are mapped to themselves, no
such call faults, and lookups read the tables. -/
theorem tables_self_mapped (hmem : 0x2000000 ≤ memSize) (hmem' : memSize < 2 ^ 32)
    (hpmm : s₀.pmm = Pmm.init bitmap memSize) (hcr3 : s₀.cr3 = none) (hinit : vmmInit s₀ = .ok s)
    (hrun : Relation.ReflTransGen (PageStep fun b op => op.Allowed b ∧ op.TablesLow b)
      ⟨s, 0, 0⟩ b) :
    SelfMapped b.vm ∧
      (∀ op : PageOp, op.Allowed b → op.TablesLow b → ∃ b', op.run b = .ok b') ∧
      ∀ va < 2 ^ 32, getPhysicalAddress b.vm va =
        .ok ((translate b.vm.phys b.vm.currentDirectory va).getD 0) := by
  obtain ⟨s', hcall, hspace, -, -⟩ := space_vmmInit (by omega) hmem' hpmm hcr3
  obtain rfl : s' = s := Outcome.ok.inj (hcall.symm.trans hinit)
  have hreach : InReach b := by
    induction hrun with
    | refl => exact ⟨hspace.anchored, .inl rfl⟩
    | tail _ hstep ih =>
        obtain ⟨op, ⟨hallowed, hlow⟩, hcall⟩ := hstep
        obtain ⟨b'', hcall', hreach⟩ := ih.step hallowed hlow
        rwa [← Outcome.ok.inj (hcall'.symm.trans hcall)]
  refine ⟨hreach.anchored.selfMapped, ?_,
    fun va hva => hreach.anchored.getPhysicalAddress hva⟩
  intro op hallowed hlow
  obtain ⟨b', hcall', -⟩ := hreach.step hallowed hlow
  exact ⟨b', hcall'⟩

/-- The heap of a machine with 32 MiB, right after `heap_init`. -/
theorem tables_self_mapped_booted :
    ∃ b : Backing, b.heapEnd = 0xC0100000 ∧ SelfMapped b.vm ∧
      getPhysicalAddress b.vm 0xC0000123 =
        .ok ((translate b.vm.phys b.vm.currentDirectory 0xC0000123).getD 0) := by
  have hmem : 0x2000000 ≤ 0x2000000 := le_rfl
  obtain ⟨s, hinit, hspace, hleft, -⟩ := space_vmmInit
    (s := ⟨Pmm.init (fun _ => 0#32) 0x2000000, fun _ => 0, 0, none⟩) (by decide) (by decide) rfl rfl
  have hfree := free_init (fun _ => 0#32) (show 2048 * 4096 ≤ 0x2000000 by decide)
  have hlow := hleft 2048
  have hmiss := missing_le (tablePresent s) heapStart 256
  have hfit : TablesFit (s.pmm.free (lowLimit / 4096)) (tablePresent s) heapStart 256 :=
    .of_missing (show _ ≤ s.pmm.free 2048 by omega)
  obtain ⟨b, st, hheap, -, -, hend, -⟩ :=
    hspace.heapInit_returns (show 512 ≤ s.pmm.free 2048 by omega) (fun _ => 0)
  have hcall : (PageOp.heapInit fun _ => 0).run ⟨s, 0, 0⟩ = .ok b := by
    simp only [PageOp.run, hheap, Outcome.ok_bind, Outcome.pure_eq]
  have hstep : PageStep (fun b op => op.Allowed b ∧ op.TablesLow b) ⟨s, 0, 0⟩ b :=
    ⟨.heapInit fun _ => 0, ⟨trivial, hfit.tablesLow⟩, hcall⟩
  obtain ⟨hself, -, hlookup⟩ := tables_self_mapped hmem (by decide) rfl rfl hinit (.single hstep)
  exact ⟨b, hend, hself, hlookup _ (by decide)⟩

/-- **A table out of reach.** On a machine with 64 MiB, when the heap has grown to 8 MiB, the next
table gets a frame outside the first 8 MiB. Clearing it faults, with thousands of frames free and
the heap far from its maximum. -/
theorem table_out_of_reach :
    ∃ s b, vmmInit ⟨Pmm.init (fun _ => 0#32) 0x4000000, fun _ => 0, 0, none⟩ = .ok s ∧
      Relation.ReflTransGen (PageStep fun b op => op.Allowed b) ⟨s, 0, 0⟩ b ∧
      (PageOp.grow 4096).Allowed b ∧ b.heapEnd + 4096 ≤ b.heapMaxAddr ∧
      10000 ≤ b.vm.pmm.free (2 ^ 20) ∧ (PageOp.grow 4096).run b = .panic := by
  obtain ⟨b, st, b₁, b₂, hboot, -, -, hend, hcall₁, -, hend₁, hcall₂, hstuck⟩ :=
    low_frames_exhausted (fun _ => 0#32) (fun _ => 0) (fun _ => 0)
  obtain ⟨s, hinit, hheap⟩ := Outcome.bind_eq_ok.1 hboot
  have hend₂ := hstuck.heapEnd
  have hroom : b₂.heapEnd + 4096 ≤ b₂.heapMaxAddr := by
    rw [hend₂, hstuck.ready.bounds.max]
    decide
  have hrun₀ : (PageOp.heapInit fun _ => 0).run ⟨s, 0, 0⟩ = .ok b := by
    simp only [PageOp.run, hheap, Outcome.ok_bind, Outcome.pure_eq]
  have hrun₁ : (PageOp.grow 0x301000).run b = .ok b₁ := by
    simp only [PageOp.run, hcall₁, Outcome.ok_bind, Outcome.pure_eq]
  have hrun₂ : (PageOp.grow 0x3FF000).run b₁ = .ok b₂ := by
    simp only [PageOp.run, hcall₂, Outcome.ok_bind, Outcome.pure_eq]
  have hallowed₁ : (PageOp.grow 0x301000).Allowed b := by
    rw [PageOp.Allowed, hend]
    decide
  have hallowed₂ : (PageOp.grow 0x3FF000).Allowed b₁ := by
    rw [PageOp.Allowed, hend₁]
    decide
  refine ⟨s, b₂, hinit, ?_, ?_, hroom, ?_, ?_⟩
  · exact .tail (.tail (.single ⟨.heapInit fun _ => 0, trivial, hrun₀⟩) ⟨_, hallowed₁, hrun₁⟩)
      ⟨_, hallowed₂, hrun₂⟩
  · rw [PageOp.Allowed, hend₂]
    decide
  · exact hstuck.free.trans (b₂.vm.pmm.free_mono (by decide))
  · simp only [PageOp.run, hstuck.heapGrow (show 0 < 4096 by decide) hroom, Outcome.panic_bind]

end Runs

end Munux.Memory
