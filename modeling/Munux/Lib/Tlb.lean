import Mathlib.Data.Set.Basic
import Mathlib.Logic.Function.Basic

/-!
# Translation caches

A processor keeps some of the translations that it found in the page tables. Which ones is up to
it: at any time it may look a page up and keep what it finds. It never looks at the tables again for
an entry that it keeps, so whoever changes the tables has to remove what is no longer true.

The tables are a partial map `walk` from pages to entries.

* `Tlb.Agrees`: every entry that is kept is in the tables. A change of the tables that keeps every
  entry there is does no harm (`Tlb.Agrees.mono`).
* `Tlb.AgreesOff`: the same but for some pages, as between a change of these pages
  (`Tlb.Agrees.off`) and their removal (`Tlb.AgreesOff.flush`).
* `Tlb.AgreesOff.fills`: whatever the processor adds is true, and it leaves what is true alone
  (`Tlb.fills_of_kept`).
-/

namespace Munux

/-- The entries that are kept. -/
abbrev Tlb (Page Entry : Type) := Page → Option Entry

namespace Tlb

variable {Page Entry : Type}

/-- Nothing is kept. -/
def empty : Tlb Page Entry := fun _ => none

/-- Every entry that is kept is in the tables. -/
def Agrees (tlb : Tlb Page Entry) (walk : Page → Option Entry) : Prop :=
  ∀ page pte, tlb page = some pte → walk page = some pte

/-- Every entry that is kept is in the tables, except for the `stale` pages. -/
def AgreesOff (tlb : Tlb Page Entry) (walk : Page → Option Entry) (stale : Set Page) : Prop :=
  ∀ page ∉ stale, ∀ pte, tlb page = some pte → walk page = some pte

variable {tlb : Tlb Page Entry} {walk walk' : Page → Option Entry} {page : Page} {stale : Set Page}

theorem agreesOff_empty : AgreesOff tlb walk ∅ ↔ Agrees tlb walk :=
  forall_congr' fun page => ⟨fun h => h (Set.notMem_empty page), fun h _ => h⟩

theorem agrees_empty (walk : Page → Option Entry) : Agrees empty walk := fun _ _ h => by cases h

/-- **A change that keeps every entry there is.** -/
theorem Agrees.mono (h : Agrees tlb walk)
    (hkeep : ∀ page pte, walk page = some pte → walk' page = some pte) : Agrees tlb walk' :=
  fun page pte hpte => hkeep page pte (h page pte hpte)

/-- A change of some pages. -/
theorem Agrees.off (h : Agrees tlb walk) (hkeep : ∀ page ∉ stale, walk' page = walk page) :
    AgreesOff tlb walk' stale := by
  intro page hpage pte hpte
  rw [hkeep page hpage]
  exact h page pte hpte

variable [DecidableEq Page]

/-- The processor looks `page` up, and keeps what it finds. -/
def fill (tlb : Tlb Page Entry) (walk : Page → Option Entry) (page : Page) : Tlb Page Entry :=
  match walk page with
  | some pte => Function.update tlb page (some pte)
  | none => tlb

/-- It looks up several pages. -/
def fills (tlb : Tlb Page Entry) (walk : Page → Option Entry) (pages : List Page) :
    Tlb Page Entry :=
  pages.foldl (fun tlb page => fill tlb walk page) tlb

/-- The entry of `page` is removed. -/
def flush (tlb : Tlb Page Entry) (page : Page) : Tlb Page Entry := Function.update tlb page none

theorem fill_none (h : walk page = none) : tlb.fill walk page = tlb := by
  simp only [fill, h]

theorem fill_some {pte : Entry} (h : walk page = some pte) :
    tlb.fill walk page = Function.update tlb page (some pte) := by
  simp only [fill, h]

theorem AgreesOff.fill (h : AgreesOff tlb walk stale) (page : Page) :
    AgreesOff (tlb.fill walk page) walk stale := by
  intro page' hpage' pte' hpte
  cases hwalk : walk page with
  | none =>
      rw [fill_none hwalk] at hpte
      exact h page' hpage' pte' hpte
  | some pte =>
      rw [fill_some hwalk] at hpte
      by_cases heq : page' = page
      · rw [heq, Function.update_self] at hpte
        rw [heq, hwalk, hpte]
      · rw [Function.update_of_ne heq] at hpte
        exact h page' hpage' pte' hpte

/-- **What the processor adds is true.** -/
theorem AgreesOff.fills (h : AgreesOff tlb walk stale) (pages : List Page) :
    AgreesOff (tlb.fills walk pages) walk stale := by
  induction pages generalizing tlb with
  | nil => exact h
  | cons page pages ih => exact ih (h.fill page)

theorem Agrees.fills (h : Agrees tlb walk) (pages : List Page) :
    Agrees (tlb.fills walk pages) walk :=
  agreesOff_empty.1 ((agreesOff_empty.2 h).fills pages)

/-- An entry that is kept and true stays as it is. -/
theorem fills_of_kept {pte : Entry} (h : tlb page = some pte) (hwalk : walk page = some pte)
    (pages : List Page) : tlb.fills walk pages page = some pte := by
  induction pages generalizing tlb with
  | nil => exact h
  | cons page' pages ih =>
      have hfill : tlb.fill walk page' page = some pte := by
        cases hwalk' : walk page' with
        | none => rwa [fill_none hwalk']
        | some pte' =>
            rw [fill_some hwalk']
            by_cases heq : page = page'
            · rw [← heq, Function.update_self, ← hwalk', ← heq, hwalk]
            · rw [Function.update_of_ne heq, h]
      exact ih hfill

/-- **Removing the page that changed.** -/
theorem AgreesOff.flush (h : AgreesOff tlb walk {page}) : Agrees (tlb.flush page) walk := by
  intro page' pte hpte
  by_cases heq : page' = page
  · rw [heq, Tlb.flush, Function.update_self] at hpte
    cases hpte
  · rw [Tlb.flush, Function.update_of_ne heq] at hpte
    exact h page' heq pte hpte

end Tlb

end Munux
