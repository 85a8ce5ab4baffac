import Munux.Memory.FlatMap

/-!
# Page permissions

The processor lets user code at a page only if the directory entry for its 4 MiB region and the
table entry for the page both have `PAGE_USER`, and likewise for writing. `vmm_map_page` writes the
table entry at every call, and the directory entry at one call only, the one that finds no table.

`Granting` says which call each entry comes from. What follows for the permissions of the pages is
`permissions_iff`.
-/

namespace Munux.Memory

open ByteMem PageTable

/-- `PAGE_USER` -/
def pageUser : Nat := 0x4

/-- The rule of the processor: both entries for the page have the bit. -/
def Granted (m : ByteMem) (dir page bit : Nat) : Prop :=
  entry m dir (page / 1024) &&& bit ≠ 0 ∧
    entry m (frame (entry m dir (page / 1024))) (page % 1024) &&& bit ≠ 0

/-- The page is mapped, for user code and for writing as the flags `f` say. -/
structure AsAsked (s : Vm) (page f : Nat) : Prop where
  mapped : walk s.phys s.currentDirectory page ≠ none
  user : Granted s.phys s.currentDirectory page pageUser ↔ f &&& pageUser ≠ 0
  write : Granted s.phys s.currentDirectory page pageWrite ↔ f &&& pageWrite ≠ 0

namespace MapOp

/-- The flags of a call that maps a page. -/
def flags : MapOp → Option Nat
  | .map _ _ flags => some flags
  | .unmap _ => none

/-- What the call writes into the entry for its page. -/
def written : MapOp → Nat
  | .map _ pa flags => frame pa ||| flags
  | .unmap _ => 0

end MapOp

/-- The flags of the last call on a page, if it mapped the page. -/
def lastFlags (ops : List MapOp) (page : Nat) : Option Nat :=
  (ops.find? fun op => op.va / 4096 = page).bind MapOp.flags

/-- The entry for a page after the calls `ops`, the latest of them first. -/
def flatEntry (ops : List MapOp) (page : Nat) : Option Nat :=
  (ops.find? fun op => op.va / 4096 = page).bind fun op =>
    if Present op.written then some op.written else none

/-- The flags of the earliest call that mapped a page of the region `i`. -/
def firstFlags : List MapOp → Nat → Option Nat
  | [], _ => none
  | op :: ops, i => (firstFlags ops i).or (if dirIndex op.va = i then op.flags else none)

/-! ## Bits -/

section Bits

variable {x f bit : Nat}

/-- The frame bits of an entry do not meet its flags. -/
theorem and_of_dvd (hx : 4096 ∣ x) (hbit : bit < 4096) : x &&& bit = 0 := by
  apply Nat.eq_of_testBit_eq
  intro i
  rw [Nat.testBit_and, Nat.zero_testBit]
  by_cases hi : i < 12
  · obtain ⟨k, rfl⟩ := hx
    rw [show 4096 * k = 2 ^ 12 * k from rfl, Nat.testBit_two_pow_mul]
    simp [hi]
  · have hpow : 2 ^ 12 ≤ 2 ^ i := Nat.pow_le_pow_right Nat.two_pos (Nat.le_of_not_lt hi)
    rw [Nat.testBit_lt_two_pow (hbit.trans_le hpow), Bool.and_false]

theorem or_and (hx : 4096 ∣ x) (f : Nat) (hbit : bit < 4096) : (x ||| f) &&& bit = f &&& bit := by
  rw [Nat.and_or_distrib_right, and_of_dvd hx hbit, Nat.zero_or]

/-- A directory entry lets user code through when its flags do, -/
theorem table_user (hx : 4096 ∣ x) (f : Nat) :
    (x ||| pagePresent ||| pageWrite ||| f) &&& pageUser = f &&& pageUser := by
  rw [Nat.or_assoc, Nat.or_assoc, or_and hx _ (by decide), Nat.and_or_distrib_right,
    Nat.and_or_distrib_right]
  change 0 ||| (0 ||| f &&& pageUser) = _
  rw [Nat.zero_or, Nat.zero_or]

/-- and writes in any case. -/
theorem table_write (x f : Nat) : (x ||| pagePresent ||| pageWrite ||| f) &&& pageWrite ≠ 0 := by
  intro hzero
  rw [Nat.and_or_distrib_right, Nat.and_or_distrib_right, Nat.or_eq_zero_iff,
    Nat.or_eq_zero_iff] at hzero
  exact absurd hzero.1.2 (by decide)

end Bits

/-! ## The calls, read as maps -/

section Flags

variable {ops : List MapOp} {op : MapOp} {page i f : Nat}

theorem lastFlags_cons (op : MapOp) (ops : List MapOp) (page : Nat) :
    lastFlags (op :: ops) page =
      if page = op.va / 4096 then op.flags else lastFlags ops page := by
  unfold lastFlags
  by_cases h : op.va / 4096 = page
  · rw [List.find?_cons_of_pos (by simpa using h), if_pos h.symm, Option.bind_some]
  · rw [List.find?_cons_of_neg (by simpa using h), if_neg (Ne.symm h)]

theorem flatEntry_cons (op : MapOp) (ops : List MapOp) (page : Nat) :
    flatEntry (op :: ops) page =
      if page = op.va / 4096 then (if Present op.written then some op.written else none)
      else flatEntry ops page := by
  unfold flatEntry
  by_cases h : op.va / 4096 = page
  · rw [List.find?_cons_of_pos (by simpa using h), if_pos h.symm, Option.bind_some]
  · rw [List.find?_cons_of_neg (by simpa using h), if_neg (Ne.symm h)]

theorem firstFlags_map (va pa flags : Nat) (ops : List MapOp) (i : Nat) :
    firstFlags (.map va pa flags :: ops) i =
      (firstFlags ops i).or (if dirIndex va = i then some flags else none) := rfl

/-- A call that maps nothing opens no region. -/
theorem firstFlags_unmap (va : Nat) (ops : List MapOp) (i : Nat) :
    firstFlags (.unmap va :: ops) i = firstFlags ops i := by
  have hflags : MapOp.flags (.unmap va) = none := rfl
  rw [firstFlags, hflags, ite_self, Option.or_none]

/-- The entry of a page holds the flags of the last call on it. -/
theorem flatEntry_of_lastFlags (hlast : lastFlags ops page = some f) (hp : Present f) :
    ∃ pa, flatEntry ops page = some (frame pa ||| f) := by
  obtain ⟨op, hfind, hop⟩ := Option.bind_eq_some_iff.1 hlast
  cases op with
  | unmap va => cases hop
  | map va pa flags =>
      obtain rfl : flags = f := Option.some.inj hop
      have hpres : Present (MapOp.map va pa flags).written := present_or.2 (.inr hp)
      refine ⟨pa, ?_⟩
      rw [flatEntry, hfind, Option.bind_some, if_pos hpres]
      rfl

/-- A page that the last call mapped is in a region that some call opened. -/
theorem firstFlags_of_lastFlags (hlast : lastFlags ops page = some f) :
    ∃ g, firstFlags ops (page / 1024) = some g := by
  induction ops with
  | nil => cases hlast
  | cons op ops ih =>
      rw [lastFlags_cons] at hlast
      rw [firstFlags]
      cases hfirst : firstFlags ops (page / 1024) with
      | some g => exact ⟨g, rfl⟩
      | none =>
          by_cases hpage : page = op.va / 4096
          · rw [if_pos hpage] at hlast
            have hdir : dirIndex op.va = page / 1024 := by
              unfold dirIndex
              omega
            exact ⟨f, by rw [if_pos hdir, hlast, Option.none_or]⟩
          · rw [if_neg hpage] at hlast
            obtain ⟨g, hg⟩ := ih hlast
            rw [hfirst] at hg
            cases hg

end Flags

/-! ## Where the entries come from -/

/-- A directory entry that `vmm_map_page` wrote with the flags `g`. -/
def TableEntry (e g : Nat) : Prop := ∃ t, 4096 ∣ t ∧ e = t ||| pagePresent ||| pageWrite ||| g

/-- The entries of the tables are those of the last calls, and the entries of the directory those of
the first. -/
structure Granting (s : Vm) (ops : List MapOp) : Prop where
  tree : Tree s.phys s.currentDirectory
  pages : ∀ page < 2 ^ 20, walk s.phys s.currentDirectory page = flatEntry ops page
  absent : ∀ i < 1024, firstFlags ops i = none → ¬Present (entry s.phys s.currentDirectory i)
  tables : ∀ i < 1024, ∀ g, firstFlags ops i = some g →
    Present (entry s.phys s.currentDirectory i) ∧ TableEntry (entry s.phys s.currentDirectory i) g

/-- What `ensureTable` leaves behind: a table for `va` that maps what was mapped before. -/
structure HasTable (s s₁ : Vm) (va flags : Nat) : Prop where
  dir : s₁.currentDirectory = s.currentDirectory
  cr3 : s₁.cr3 = s.cr3
  tree : Tree s₁.phys s.currentDirectory
  walk : ∀ page, walk s₁.phys s.currentDirectory page = walk s.phys s.currentDirectory page
  intact : Intact s.phys s₁.phys s.currentDirectory (dirIndex va)
  present : Present (entry s₁.phys s.currentDirectory (dirIndex va))
  kept : Present (entry s.phys s.currentDirectory (dirIndex va)) →
    entry s₁.phys s.currentDirectory (dirIndex va) =
      entry s.phys s.currentDirectory (dirIndex va)
  opened : ¬Present (entry s.phys s.currentDirectory (dirIndex va)) →
    TableEntry (entry s₁.phys s.currentDirectory (dirIndex va)) flags
  reached : Reaches s (dirIndex va) (frame (entry s₁.phys s.currentDirectory (dirIndex va)))

section Run

variable {s₀ s s' : Vm} {ops : List MapOp} {op : MapOp} {va pa flags page i f : Nat}

theorem ensureTable_returns (htree : Tree s.phys s.currentDirectory) (hva : va < 2 ^ 32)
    (hflags : flags < 0x1000) (haddr : Addressable s va)
    (hfresh : ¬Present (entry s.phys s.currentDirectory (dirIndex va)) → FreshFrame s va) :
    ∃ s₁, ensureTable s (dirIndex va) flags = .ok s₁ ∧ HasTable s s₁ va flags := by
  have hi := dirIndex_lt hva
  obtain ⟨hdir, htable⟩ := haddr.reaches
  by_cases hp : Present (entry s.phys s.currentDirectory (dirIndex va))
  · exact ⟨s, ensureTable_present hdir hi hp flags, rfl, rfl, htree, fun _ => rfl,
      Intact.refl .., hp, fun _ => rfl, fun habs => absurd hp habs, htable hp⟩
  · have hf := hfresh hp
    have hreach := hf.reaches
    obtain ⟨s₁, hens, -, hlink⟩ := ensureTable_absent htree hdir hreach hi hp rfl hf.aligned hf.word
      hf.ne_dir hf.ne_table hflags
    obtain ⟨hframe, hpres, -⟩ := table_entry hf.aligned hf.word hflags
    have hblank : ∀ j < 1024, ¬Present (entry s₁.phys (s.pmm.allocFrame.1) j) := by
      intro j hj
      rw [hlink.empty j hj]
      decide
    rw [← hlink.link] at hframe hpres
    obtain ⟨htree₁, hwalk⟩ := htree.grow hp (by rw [hframe]; exact hf.ne_dir)
      (by rw [hframe]; exact hf.ne_table) rfl hlink.intact.entries (by rw [hframe]; exact hblank)
      hlink.intact.tables
    exact ⟨s₁, hens, hlink.dir, hlink.cr3, htree₁, hwalk, hlink.intact, hpres,
      fun hold => absurd hold hp, fun _ => ⟨_, hf.aligned, hlink.link⟩, by rwa [hframe]⟩

/-- The regions that are still without a table have had no call. -/
theorem HasTable.absent {s₁ : Vm} (hhas : HasTable s s₁ va flags) (h : Granting s ops)
    (hi : i < 1024) (hnone : firstFlags (.map va pa flags :: ops) i = none) :
    ¬Present (entry s₁.phys s.currentDirectory i) := by
  rw [firstFlags_map, Option.or_eq_none_iff] at hnone
  have hne : i ≠ dirIndex va := by
    intro hva
    rw [if_pos hva.symm] at hnone
    cases hnone.2
  rw [hhas.intact.entries i hi hne]
  exact h.absent i hi hnone.1

theorem HasTable.tables {s₁ : Vm} {g : Nat} (hhas : HasTable s s₁ va flags) (h : Granting s ops)
    (hi : i < 1024) (hg : firstFlags (.map va pa flags :: ops) i = some g) :
    Present (entry s₁.phys s.currentDirectory i) ∧
      TableEntry (entry s₁.phys s.currentDirectory i) g := by
  rw [firstFlags_map] at hg
  cases hfirst : firstFlags ops i with
  | some g' =>
      -- The region has its table, and the call leaves the directory alone.
      rw [hfirst, Option.some_or] at hg
      obtain rfl := Option.some.inj hg
      have hold := h.tables i hi g' hfirst
      by_cases hne : i = dirIndex va
      · rw [hne] at hold ⊢
        rwa [hhas.kept hold.1]
      · rwa [hhas.intact.entries i hi hne]
  | none =>
      rw [hfirst, Option.none_or] at hg
      split_ifs at hg with hdir
      obtain rfl := Option.some.inj hg
      obtain rfl : dirIndex va = i := hdir
      exact ⟨hhas.present, hhas.opened (h.absent _ hi hfirst)⟩

theorem Granting.map (h : Granting s ops) (hop : (MapOp.map va pa flags).WellFormed)
    (haddr : Addressable s va)
    (hfresh : ¬Present (entry s.phys s.currentDirectory (dirIndex va)) → FreshFrame s va) :
    ∃ s', mapPage s va pa flags = .ok s' ∧ s'.cr3 = s.cr3 ∧
      Granting s' (.map va pa flags :: ops) := by
  obtain ⟨hva, hpa, hflags⟩ := hop
  have hi := dirIndex_lt hva
  have hj := tableIndex_lt va
  obtain ⟨s₁, hens, hhas⟩ := ensureTable_returns h.tree hva hflags haddr hfresh
  obtain ⟨pmm₁, phys₁, dir₁, cr3₁⟩ := s₁
  obtain rfl : dir₁ = s.currentDirectory := hhas.dir
  obtain rfl : cr3₁ = s.cr3 := hhas.cr3
  have hslot : resolve s.cr3 phys₁ (s.currentDirectory + dirIndex va * 4) =
      some (s.currentDirectory + dirIndex va * 4) :=
    haddr.reaches.1 _ hhas.intact _ (by omega) (by omega)
  have hreach : Reaches s (dirIndex va) (frame (entry phys₁ s.currentDirectory (dirIndex va))) :=
    hhas.reached
  have hword := hreach _ hhas.intact
    (frame (entry phys₁ s.currentDirectory (dirIndex va)) + tableIndex va * 4) (by omega) (by omega)
  have hcall := mapPage_of_ensure hens hpa hslot hword
  have hv : frame pa ||| flags < 2 ^ 32 := or_lt ((Nat.div_mul_le_self pa 4096).trans_lt hpa) hflags
  have hentry : ∀ k < 1024, _ := fun k hk =>
    hhas.tree.entry_set hi hhas.present hj (frame pa ||| flags) hk
  refine ⟨_, hcall, rfl, ?_⟩
  constructor
  · exact hhas.tree.congr hentry
  · intro page hpage
    rw [flatEntry_cons, ← h.pages page hpage, ← hhas.walk page]
    exact hhas.tree.walk_set_page hi hhas.present hv page
  · intro k hk hnone
    rw [hentry k hk]
    exact hhas.absent h hk hnone
  · intro k hk g hg
    rw [hentry k hk]
    exact hhas.tables h hk hg

theorem Granting.unmap (h : Granting s ops) (hva : va < 2 ^ 32) (haddr : Addressable s va) :
    ∃ s', unmapPage s va = .ok s' ∧ Granting s' (.unmap va :: ops) := by
  have hi := dirIndex_lt hva
  have hj := tableIndex_lt va
  have hgone : ¬Present (MapOp.unmap va).written := Nat.zero_ne_one
  obtain ⟨hdir, htable⟩ := haddr.reaches
  by_cases hp : Present (entry s.phys s.currentDirectory (dirIndex va))
  · have hentry : ∀ k < 1024, _ := fun k hk => h.tree.entry_set hi hp hj 0 hk
    refine ⟨_, unmapPage_present hva hp hdir (htable hp), ?_⟩
    constructor
    · exact h.tree.congr hentry
    · intro page hpage
      rw [flatEntry_cons, ← h.pages page hpage]
      exact h.tree.walk_set_page hi hp (by decide) page
    · intro k hk hnone
      rw [firstFlags_unmap] at hnone
      rw [hentry k hk]
      exact h.absent k hk hnone
    · intro k hk g hg
      rw [firstFlags_unmap] at hg
      rw [hentry k hk]
      exact h.tables k hk g hg
  · refine ⟨s, unmapPage_absent hva hp hdir, h.tree, ?_, ?_, ?_⟩
    · intro page hpage
      rw [flatEntry_cons, if_neg hgone, ← h.pages page hpage]
      split_ifs with hsame
      · -- A page without a table was not mapped.
        apply walk_eq_none
        have hregion : page / 1024 = dirIndex va := by
          change page = va / 4096 at hsame
          unfold dirIndex
          omega
        rwa [hregion]
      · rfl
    · intro k hk hnone
      rw [firstFlags_unmap] at hnone
      exact h.absent k hk hnone
    · intro k hk g hg
      rw [firstFlags_unmap] at hg
      exact h.tables k hk g hg

theorem granting_start (hdvd : 4096 ∣ s.currentDirectory)
    (hempty : ∀ k < 1024, ¬Present (entry s.phys s.currentDirectory k)) : Granting s [] where
  tree := (flat_start hdvd hempty).tree
  pages page hpage := walk_eq_none (hempty _ (by omega))
  absent i hi _ := hempty i hi
  tables i hi g hg := by cases hg

/-- **Each entry has its call**, in every run. -/
theorem granting_run (hdvd : 4096 ∣ s₀.currentDirectory)
    (hempty : ∀ k < 1024, ¬Present (entry s₀.phys s₀.currentDirectory k))
    (hrun : TableRun s₀ ops s) : Granting s ops := by
  induction hrun with
  | start => exact granting_start hdvd hempty
  | @call _ _ _ op _ hop haddr hfresh hcall ih =>
      cases op with
      | map va pa flags =>
          obtain ⟨s', hcall', -, hgrant⟩ := ih.map hop haddr hfresh
          rwa [← Outcome.ok.inj (hcall'.symm.trans hcall)]
      | unmap va =>
          obtain ⟨s', hcall', hgrant⟩ := ih.unmap hop haddr
          rwa [← Outcome.ok.inj (hcall'.symm.trans hcall)]
  | elsewhere _ hdir hentries htables ih =>
      obtain ⟨hsame, hwalk⟩ := walk_elsewhere hentries htables
      constructor
      · rw [hdir]
        exact ih.tree.congr hsame
      · intro page hpage
        rw [hdir, hwalk page hpage]
        exact ih.pages page hpage
      · intro i hi hnone
        rw [hdir, hsame i hi]
        exact ih.absent i hi hnone
      · intro i hi g hg
        rw [hdir, hsame i hi]
        exact ih.tables i hi g hg

/-! ## Permissions -/

/-- The permissions of a mapped page: writing as its own call said, user code only if the call that
opened its region agreed. -/
theorem Granting.granted (h : Granting s ops) (hpage : page < 2 ^ 20)
    (hlast : lastFlags ops page = some f) (hp : Present f) {g : Nat}
    (hfirst : firstFlags ops (page / 1024) = some g) :
    walk s.phys s.currentDirectory page ≠ none ∧
      (Granted s.phys s.currentDirectory page pageUser ↔
        g &&& pageUser ≠ 0 ∧ f &&& pageUser ≠ 0) ∧
      (Granted s.phys s.currentDirectory page pageWrite ↔ f &&& pageWrite ≠ 0) := by
  obtain ⟨pa, hflat⟩ := flatEntry_of_lastFlags hlast hp
  have hwalk := (h.pages page hpage).trans hflat
  obtain ⟨-, -, -, hentry⟩ := walk_eq_some.1 hwalk
  obtain ⟨-, t, ht, htable⟩ := h.tables _ (by omega) g hfirst
  unfold Granted
  rw [hwalk, hentry, htable, table_user ht, or_and (dvd_frame pa) f (by decide),
    or_and (dvd_frame pa) f (by decide)]
  exact ⟨nofun, Iff.rfl, and_iff_right (table_write t g)⟩

theorem Granting.asAsked_iff (h : Granting s ops) (hpage : page < 2 ^ 20)
    (hlast : lastFlags ops page = some f) (hp : Present f) {g : Nat}
    (hfirst : firstFlags ops (page / 1024) = some g) :
    AsAsked s page f ↔ (f &&& pageUser ≠ 0 → g &&& pageUser ≠ 0) := by
  obtain ⟨hmapped, huser, hwrite⟩ := h.granted hpage hlast hp hfirst
  constructor
  · intro hasked hf
    exact (huser.1 (hasked.user.2 hf)).1
  · intro hg
    exact ⟨hmapped, huser.trans (and_iff_right_of_imp hg), hwrite⟩

/-- **Permissions and the order of the calls.** After any run from a directory without tables, every
mapped page has the permissions of its own last call if and only if every page last mapped with
`PAGE_USER` is in a region whose first call had `PAGE_USER` too. -/
theorem permissions_iff (hdvd : 4096 ∣ s₀.currentDirectory)
    (hempty : ∀ k < 1024, ¬Present (entry s₀.phys s₀.currentDirectory k))
    (hrun : TableRun s₀ ops s) (hpresent : ∀ op ∈ ops, ∀ f ∈ op.flags, Present f) :
    (∀ page < 2 ^ 20, ∀ f ∈ lastFlags ops page, AsAsked s page f) ↔
      ∀ page < 2 ^ 20, ∀ f ∈ lastFlags ops page, f &&& pageUser ≠ 0 →
        ∀ g ∈ firstFlags ops (page / 1024), g &&& pageUser ≠ 0 := by
  have hgrant := granting_run hdvd hempty hrun
  have hcalled : ∀ page, ∀ f ∈ lastFlags ops page, Present f := by
    intro page f hlast
    obtain ⟨op, hfind, hop⟩ := Option.bind_eq_some_iff.1 hlast
    exact hpresent op (List.mem_of_find?_eq_some hfind) f hop
  constructor
  · intro hasked page hpage f hlast hf g hfirst
    exact (hgrant.asAsked_iff hpage hlast (hcalled page f hlast) hfirst).1
      (hasked page hpage f hlast) hf
  · intro hopen page hpage f hlast
    obtain ⟨g, hfirst⟩ := firstFlags_of_lastFlags hlast
    exact (hgrant.asAsked_iff hpage hlast (hcalled page f hlast) hfirst).2
      fun hf => hopen page hpage f hlast hf g hfirst

/-- Two pages of one region, mapped one after the other in a directory without tables. -/
theorem tableRun_pair (va pa flags va' pa' flags' : Nat)
    (hop : (MapOp.map va pa flags).WellFormed) (hop' : (MapOp.map va' pa' flags').WellFormed)
    (hregion : dirIndex va' = dirIndex va) :
    ∃ s, TableRun emptyDirectory [.map va' pa' flags', .map va pa flags] s := by
  have hgrant := granting_start emptyDirectory_aligned emptyDirectory_absent
  obtain ⟨s₁, hcall, hoff, hgrant₁⟩ := hgrant.map hop (.inl rfl) fun _ => freshFrame_emptyDirectory va
  have hrun : TableRun emptyDirectory [.map va pa flags] s₁ :=
    .call .start hop (.inl rfl) (fun _ => freshFrame_emptyDirectory va) hcall
  have hfirst : firstFlags [MapOp.map va pa flags] (dirIndex va') = some flags := by
    rw [firstFlags_map, if_pos hregion.symm]
    rfl
  have hpres := (hgrant₁.tables _ (dirIndex_lt hop'.1) flags hfirst).1
  have haddr : Addressable s₁ va' := .inl hoff
  obtain ⟨s₂, hcall', -, -⟩ := hgrant₁.map hop' haddr fun habs => absurd hpres habs
  exact ⟨s₂, .call hrun hop' haddr (fun habs => absurd hpres habs) hcall'⟩

/-- A page of the kernel, and then one for user code in the same 4 MiB: user code does not get at
it. -/
theorem user_page_refused :
    ∃ s, TableRun emptyDirectory [.map 0xC0001000 0x301000 7, .map 0xC0000000 0x300000 3] s ∧
      lastFlags [.map 0xC0001000 0x301000 7, .map 0xC0000000 0x300000 3] 0xC0001 = some 7 ∧
      ¬AsAsked s 0xC0001 7 := by
  obtain ⟨s, hrun⟩ := tableRun_pair 0xC0000000 0x300000 3 0xC0001000 0x301000 7
    ⟨by decide, by decide, by decide⟩ ⟨by decide, by decide, by decide⟩ rfl
  have hgrant := granting_run emptyDirectory_aligned emptyDirectory_absent hrun
  refine ⟨s, hrun, rfl, ?_⟩
  rw [hgrant.asAsked_iff (f := 7) (g := 3) (by decide) rfl rfl rfl]
  decide

/-- In the other order both pages are as their calls asked. -/
theorem permissions_iff_user_first :
    ∃ s, TableRun emptyDirectory [.map 0xC0000000 0x300000 3, .map 0xC0001000 0x301000 7] s ∧
      AsAsked s 0xC0001 7 ∧ AsAsked s 0xC0000 3 := by
  obtain ⟨s, hrun⟩ := tableRun_pair 0xC0001000 0x301000 7 0xC0000000 0x300000 3
    ⟨by decide, by decide, by decide⟩ ⟨by decide, by decide, by decide⟩ rfl
  have hasked := (permissions_iff emptyDirectory_aligned emptyDirectory_absent hrun ?_).2 ?_
  · exact ⟨s, hrun, hasked 0xC0001 (by decide) 7 rfl, hasked 0xC0000 (by decide) 3 rfl⟩
  · intro op hop f hf
    rcases List.mem_pair.1 hop with rfl | rfl
    · obtain rfl := Option.some.inj hf
      decide
    · obtain rfl := Option.some.inj hf
      decide
  · -- The one region was opened with `PAGE_USER`.
    intro page _ f _ _ g hfirst
    rw [firstFlags_map, firstFlags_map] at hfirst
    by_cases hregion : dirIndex 0xC0001000 = page / 1024
    · rw [if_pos hregion] at hfirst
      obtain rfl := Option.some.inj hfirst
      decide
    · have hregion' : ¬dirIndex 0xC0000000 = page / 1024 := hregion
      rw [if_neg hregion, if_neg hregion'] at hfirst
      cases hfirst

end Run

end Munux.Memory
