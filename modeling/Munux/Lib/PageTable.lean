import Munux.Lib.ByteMem

/-!
# Two-level page tables

The 32-bit page tables of the x86, as the processor reads them: a directory of 1024 entries, each
of which may point at a table of 1024 entries, each of which may point at a 4 KiB frame. All of
them are words in physical memory.

The processor finds an entry for a page (`walk`), and with it the physical address (`translate`).
A directory is a `Tree` when no table is used twice and none is the directory itself. Two edits
keep it one, and say what they do to every page and every address: `Tree.set` and `Tree.walk_set`
change one entry of one table, `Tree.link` and `Tree.grow` add a table without present entries.
-/

namespace Munux.PageTable

open ByteMem

/-- Entry `i` of the directory or table at `base`. -/
def entry (m : ByteMem) (base i : Nat) : Nat := load32 m (base + i * 4)

/-- The present bit of an entry. -/
def Present (e : Nat) : Prop := e % 2 = 1

instance (e : Nat) : Decidable (Present e) := inferInstanceAs (Decidable (_ = _))

/-- The page that an entry points at. -/
def frame (e : Nat) : Nat := e / 4096 * 4096

/-- The directory entry for an address. -/
def dirIndex (va : Nat) : Nat := va / 2 ^ 22

/-- The table entry for an address. -/
def tableIndex (va : Nat) : Nat := va / 2 ^ 12 % 1024

/-- The pages that `n` bytes take. -/
def pagesFor (n : Nat) : Nat := (n + 4095) / 4096

/-- Where an entry of a table sends an address of its page. -/
def leaf (pte va : Nat) : Option Nat := if Present pte then some (frame pte + va % 4096) else none

/-- The walk of the processor: the physical address of `va`, unless the access faults. -/
def translate (m : ByteMem) (dir va : Nat) : Option Nat :=
  let pde := entry m dir (dirIndex va)
  if Present pde then leaf (entry m (frame pde) (tableIndex va)) va else none

/-- The entry that the processor finds for a page of the 4 GiB, if the page is mapped. -/
def walk (m : ByteMem) (dir page : Nat) : Option Nat :=
  let pde := entry m dir (page / 1024)
  let pte := entry m (frame pde) (page % 1024)
  if page < 2 ^ 20 ∧ Present pde ∧ Present pte then some pte else none

variable {m m' : ByteMem} {dir base base' e i j k page pte t v va : Nat}

theorem dirIndex_lt (hva : va < 2 ^ 32) : dirIndex va < 1024 := by
  unfold dirIndex
  omega

theorem tableIndex_lt (va : Nat) : tableIndex va < 1024 := Nat.mod_lt _ (by decide)

theorem page_eq (va : Nat) : dirIndex va * 1024 + tableIndex va = va / 4096 := by
  unfold dirIndex tableIndex
  omega

/-- Two addresses use the same entries when they are in the same page. -/
theorem page_eq_iff {va va' : Nat} :
    dirIndex va = dirIndex va' ∧ tableIndex va = tableIndex va' ↔ va / 4096 = va' / 4096 := by
  unfold dirIndex tableIndex
  omega

theorem entry_lt (m : ByteMem) (base i : Nat) : entry m base i < 2 ^ 32 := load32_lt m _

theorem dvd_frame (e : Nat) : 4096 ∣ frame e := Dvd.intro_left _ rfl

/-! ## Entries in memory -/

/-- An entry depends only on its own page. -/
theorem entry_congr (h : Agree m m' base (base + 4096)) (hi : i < 1024) :
    entry m' base i = entry m base i :=
  load32_congr (h.mono (by omega) (by omega))

theorem entry_store32_self (hv : v < 2 ^ 32) : entry (store32 m (base + i * 4) v) base i = v :=
  load32_store32 m _ hv

theorem entry_store32_ne (h : i ≠ j) :
    entry (store32 m (base + i * 4) v) base j = entry m base j :=
  load32_store32_of_disjoint m v (by omega)

theorem pages_disjoint (hb : 4096 ∣ base) (hb' : 4096 ∣ base') (hne : base ≠ base') :
    base + 4096 ≤ base' ∨ base' + 4096 ≤ base := by
  omega

/-- Writing an entry of one page leaves the other pages alone. -/
theorem store32_agree_page (hb : 4096 ∣ base) (hb' : 4096 ∣ base') (hne : base ≠ base')
    (hi : i < 1024) : Agree m (store32 m (base + i * 4) v) base' (base' + 4096) :=
  store32_agree m _ v (by omega)

/-! ## Translation -/

theorem walk_eq_some : walk m dir page = some pte ↔ page < 2 ^ 20 ∧
    Present (entry m dir (page / 1024)) ∧ Present pte ∧
      entry m (frame (entry m dir (page / 1024))) (page % 1024) = pte := by
  simp only [walk]
  split_ifs with h
  · rw [Option.some.injEq]
    exact ⟨fun heq => ⟨h.1, h.2.1, heq ▸ h.2.2, heq⟩, fun h => h.2.2.2⟩
  · exact iff_of_false (fun heq => by cases heq) fun ⟨hpage, hpde, hpte, heq⟩ =>
      h ⟨hpage, hpde, heq ▸ hpte⟩

/-- The walk reads one entry of the directory and one of a table. -/
theorem walk_congr (hpde : entry m' dir (page / 1024) = entry m dir (page / 1024))
    (hpte : Present (entry m dir (page / 1024)) →
      entry m' (frame (entry m dir (page / 1024))) (page % 1024) =
        entry m (frame (entry m dir (page / 1024))) (page % 1024)) :
    walk m' dir page = walk m dir page := by
  simp only [walk, hpde]
  by_cases hp : Present (entry m dir (page / 1024))
  · rw [hpte hp]
  · rw [if_neg fun h => hp h.2.1, if_neg fun h => hp h.2.1]

/-- A page without a table is not mapped. -/
theorem walk_eq_none (h : ¬Present (entry m dir (page / 1024))) : walk m dir page = none :=
  if_neg fun hand => h hand.2.1

/-- An address is where the entry for its page says. -/
theorem translate_eq_walk (hva : va < 2 ^ 32) :
    translate m dir va = (walk m dir (va / 4096)).bind fun pte => leaf pte va := by
  have hpage : va / 4096 < 2 ^ 20 := by omega
  have hdir : va / 4096 / 1024 = dirIndex va := by
    unfold dirIndex
    omega
  have htable : va / 4096 % 1024 = tableIndex va := rfl
  simp only [translate, walk, hdir, htable]
  by_cases hpde : Present (entry m dir (dirIndex va))
  · rw [if_pos hpde]
    by_cases hpte : Present (entry m (frame (entry m dir (dirIndex va))) (tableIndex va))
    · rw [if_pos ⟨hpage, hpde, hpte⟩]
      rfl
    · rw [if_neg fun h => hpte h.2.2]
      exact if_neg hpte
  · rw [if_neg hpde, if_neg fun h => hpde h.2.1]
    rfl

/-- Two directories that map a page alike translate its addresses alike. -/
theorem translate_of_walk (hva : va < 2 ^ 32)
    (h : walk m' dir (va / 4096) = walk m dir (va / 4096)) :
    translate m' dir va = translate m dir va := by
  rw [translate_eq_walk hva, translate_eq_walk hva, h]

/-- The walk reads one entry of the directory and one of a table. -/
theorem translate_congr (hpde : entry m' dir (dirIndex va) = entry m dir (dirIndex va))
    (hpte : Present (entry m dir (dirIndex va)) →
      entry m' (frame (entry m dir (dirIndex va))) (tableIndex va) =
        entry m (frame (entry m dir (dirIndex va))) (tableIndex va)) :
    translate m' dir va = translate m dir va := by
  simp only [translate, hpde]
  by_cases hp : Present (entry m dir (dirIndex va))
  · rw [if_pos hp, if_pos hp, hpte hp]
  · rw [if_neg hp, if_neg hp]

/-- The directory and its tables are different pages. -/
structure Tree (m : ByteMem) (dir : Nat) : Prop where
  aligned : 4096 ∣ dir
  table_ne : ∀ i < 1024, Present (entry m dir i) → frame (entry m dir i) ≠ dir
  table_inj : ∀ i < 1024, ∀ j < 1024, Present (entry m dir i) → Present (entry m dir j) →
    frame (entry m dir i) = frame (entry m dir j) → i = j

/-- The same directory, in a memory that agrees on it. -/
theorem Tree.congr (h : Tree m dir) (hdir : ∀ i < 1024, entry m' dir i = entry m dir i) :
    Tree m' dir := by
  refine ⟨h.aligned, ?_, ?_⟩
  · intro i hi
    rw [hdir i hi]
    exact h.table_ne i hi
  · intro i hi j hj
    rw [hdir i hi, hdir j hj]
    exact h.table_inj i hi j hj

/-- The entries of the directory after an entry of a table was written. -/
theorem Tree.entry_set (h : Tree m dir) (hi : i < 1024) (hp : Present (entry m dir i))
    (hj : j < 1024) (v : Nat) (hk : k < 1024) :
    entry (store32 m (frame (entry m dir i) + j * 4) v) dir k = entry m dir k :=
  entry_congr (store32_agree_page (dvd_frame _) h.aligned (h.table_ne i hi hp) hj) hk

/-- **Writing one entry of a table** changes the entry for one page. -/
theorem Tree.walk_set (h : Tree m dir) (hi : i < 1024) (hp : Present (entry m dir i))
    (hj : j < 1024) (hv : v < 2 ^ 32) (page : Nat) :
    walk (store32 m (frame (entry m dir i) + j * 4) v) dir page =
      if page = i * 1024 + j then (if Present v then some v else none) else walk m dir page := by
  by_cases hpage : page < 2 ^ 20
  · have hd : page / 1024 < 1024 := by omega
    have hdir := h.entry_set hi hp hj v hd
    by_cases hsame : page / 1024 = i
    · rw [hsame] at hdir
      by_cases hidx : page % 1024 = j
      · rw [if_pos (by omega)]
        simp only [walk, hsame, hdir, hidx, entry_store32_self hv]
        exact if_congr ⟨fun hand => hand.2.2, fun hv' => ⟨hpage, hp, hv'⟩⟩ rfl rfl
      · rw [if_neg (by omega)]
        apply walk_congr (by rw [hsame, hdir])
        intro _
        rw [hsame]
        exact entry_store32_ne (Ne.symm hidx)
    · rw [if_neg (by omega)]
      refine walk_congr hdir fun hpva => entry_congr ?_ (Nat.mod_lt _ (by decide))
      refine store32_agree_page (dvd_frame _) (dvd_frame _) (fun heq => hsame ?_) hj
      exact (h.table_inj i hi _ hd hp hpva heq).symm
  · rw [if_neg (by omega), walk, walk, if_neg fun h => hpage h.1, if_neg fun h => hpage h.1]

/-- The entry for an address. -/
theorem Tree.walk_set_page (h : Tree m dir) (hi : dirIndex va < 1024)
    (hp : Present (entry m dir (dirIndex va))) (hv : v < 2 ^ 32) (page : Nat) :
    walk (store32 m (frame (entry m dir (dirIndex va)) + tableIndex va * 4) v) dir page =
      if page = va / 4096 then (if Present v then some v else none) else walk m dir page := by
  rw [← page_eq va]
  exact h.walk_set hi hp (tableIndex_lt va) hv page

/-- **Writing one entry of a table** changes where one page goes. -/
theorem Tree.set (h : Tree m dir) (hi : i < 1024) (hp : Present (entry m dir i)) (hj : j < 1024)
    (hv : v < 2 ^ 32) :
    Tree (store32 m (frame (entry m dir i) + j * 4) v) dir ∧
      ∀ va < 2 ^ 32, translate (store32 m (frame (entry m dir i) + j * 4) v) dir va =
        if dirIndex va = i ∧ tableIndex va = j then leaf v va else translate m dir va := by
  refine ⟨h.congr fun k hk => h.entry_set hi hp hj v hk, ?_⟩
  intro va hva
  have hpage : va / 4096 = i * 1024 + j ↔ dirIndex va = i ∧ tableIndex va = j := by
    unfold dirIndex tableIndex
    omega
  rw [translate_eq_walk hva, h.walk_set hi hp hj hv, translate_eq_walk hva, if_congr hpage rfl rfl]
  split_ifs with hva' hpres
  · rfl
  · exact (if_neg hpres).symm
  · rfl

/-- **Adding a table without present entries** changes the entry for no page. -/
theorem Tree.grow (h : Tree m dir) (habs : ¬Present (entry m dir i)) (hdirNe : frame e ≠ dir)
    (hfresh : ∀ k < 1024, Present (entry m dir k) → frame (entry m dir k) ≠ frame e)
    (hlink : entry m' dir i = e) (hdir : ∀ k < 1024, k ≠ i → entry m' dir k = entry m dir k)
    (hblank : ∀ j < 1024, ¬Present (entry m' (frame e) j))
    (htables : ∀ k < 1024, Present (entry m dir k) →
      Agree m m' (frame (entry m dir k)) (frame (entry m dir k) + 4096)) :
    Tree m' dir ∧ ∀ page, walk m' dir page = walk m dir page := by
  have hcases : ∀ k < 1024, Present (entry m' dir k) →
      (k = i ∧ frame (entry m' dir k) = frame e) ∨
        (k ≠ i ∧ Present (entry m dir k) ∧ frame (entry m' dir k) = frame (entry m dir k)) := by
    intro k hk hp
    by_cases hki : k = i
    · left
      rw [hki, hlink]
      exact ⟨rfl, rfl⟩
    · right
      rw [hdir k hk hki] at hp ⊢
      exact ⟨hki, hp, rfl⟩
  refine ⟨⟨h.aligned, ?_, ?_⟩, ?_⟩
  · intro k hk hp
    rcases hcases k hk hp with ⟨-, hf⟩ | ⟨-, hp, hf⟩
    · rwa [hf]
    · rw [hf]
      exact h.table_ne k hk hp
  · intro k hk l hl hp hp' heq
    rcases hcases k hk hp with ⟨hki, hf⟩ | ⟨hki, hp, hf⟩
    · rcases hcases l hl hp' with ⟨hli, hf'⟩ | ⟨-, hp', hf'⟩
      · rw [hki, hli]
      · exact absurd (hf'.symm.trans (heq.symm.trans hf)) (hfresh l hl hp')
    · rcases hcases l hl hp' with ⟨-, hf'⟩ | ⟨-, hp', hf'⟩
      · exact absurd (hf.symm.trans (heq.trans hf')) (hfresh k hk hp)
      · exact h.table_inj k hk l hl hp hp' (hf.symm.trans (heq.trans hf'))
  · intro page
    have hmod : page % 1024 < 1024 := Nat.mod_lt _ (by decide)
    by_cases hpage : page < 2 ^ 20
    · by_cases hsame : page / 1024 = i
      · -- The new table maps nothing, and there was none before.
        rw [walk_eq_none (m := m) (by rwa [hsame])]
        simp only [walk, hsame, hlink]
        exact if_neg fun hand => hblank _ hmod hand.2.2
      · exact walk_congr (hdir _ (by omega) hsame)
          fun hp => entry_congr (htables _ (by omega) hp) hmod
    · rw [walk, walk, if_neg fun h => hpage h.1, if_neg fun h => hpage h.1]

/-- **Adding an empty table** changes where no page goes. -/
theorem Tree.link (h : Tree m dir) (habs : ¬Present (entry m dir i)) (hdirNe : frame e ≠ dir)
    (hfresh : ∀ k < 1024, Present (entry m dir k) → frame (entry m dir k) ≠ frame e)
    (hlink : entry m' dir i = e) (hdir : ∀ k < 1024, k ≠ i → entry m' dir k = entry m dir k)
    (hempty : ∀ j < 1024, entry m' (frame e) j = 0)
    (htables : ∀ k < 1024, Present (entry m dir k) →
      Agree m m' (frame (entry m dir k)) (frame (entry m dir k) + 4096)) :
    Tree m' dir ∧ ∀ va < 2 ^ 32, translate m' dir va = translate m dir va := by
  have hblank : ∀ j < 1024, ¬Present (entry m' (frame e) j) := by
    intro j hj
    rw [hempty j hj]
    decide
  obtain ⟨htree, hwalk⟩ := h.grow habs hdirNe hfresh hlink hdir hblank htables
  exact ⟨htree, fun va hva => translate_of_walk hva (hwalk _)⟩

end Munux.PageTable
