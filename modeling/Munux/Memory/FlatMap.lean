import Munux.Memory.AddressSpace

/-!
# Page tables as a flat map

What the page tables are *for*: a map from pages to frames, where the last call on a page decides.
`flat` is that map, read off the calls so far; `TableRun` is a run of `vmm_map_page` and
`vmm_unmap_page` on a directory without tables, and `tables_refine_flat` says that
`vmm_get_physical_address` reads the flat map.

The frames for new tables come from the PMM. All that is asked of them is that they are not in use
as a table already (`FreshFrame`), and that the pointers the code follows reach them, as they do
with paging off.
-/

namespace Munux.Memory

open ByteMem PageTable

/-- A call that edits the tables. -/
inductive MapOp where
  | map (va pa flags : Nat)
  | unmap (va : Nat)
  deriving DecidableEq, Repr

namespace MapOp

def va : MapOp → Nat
  | .map va _ _ => va
  | .unmap va => va

/-- The arguments are words, and the flags stay out of the frame bits. -/
def WellFormed : MapOp → Prop
  | .map va pa flags => va < 2 ^ 32 ∧ pa < 2 ^ 32 ∧ flags < 0x1000
  | .unmap va => va < 2 ^ 32

def run (s : Vm) : MapOp → Outcome Vm
  | .map va pa flags => mapPage s va pa flags
  | .unmap va => unmapPage s va

/-- Where the call sends the address `v` of its page. -/
def target (v : Nat) : MapOp → Option Nat
  | .map _ pa flags =>
      if flags &&& pagePresent = 0 then none else some ((pa &&& 0xFFFFF000) + (v &&& 0xFFF))
  | .unmap _ => none

end MapOp

/-- The flat map after the calls `ops`, the latest of them first. -/
def flat (ops : List MapOp) (v : Nat) : Option Nat :=
  (ops.find? fun op => op.va / 4096 = v / 4096).bind fun op => op.target v

theorem flat_cons (op : MapOp) (ops : List MapOp) (v : Nat) :
    flat (op :: ops) v = if v / 4096 = op.va / 4096 then op.target v else flat ops v := by
  unfold flat
  by_cases h : op.va / 4096 = v / 4096
  · rw [List.find?_cons_of_pos (by simpa using h), if_pos h.symm, Option.bind_some]
  · rw [List.find?_cons_of_neg (by simpa using h), if_neg (Ne.symm h)]

/-- The directory and the table for `va` are reached through their physical addresses. -/
def Addressable (s : Vm) (va : Nat) : Prop :=
  s.cr3 = none ∨ (Reaches s (dirIndex va) s.currentDirectory ∧
    (Present (entry s.phys s.currentDirectory (dirIndex va)) →
      Reaches s (dirIndex va) (frame (entry s.phys s.currentDirectory (dirIndex va)))))

/-- The next frame of the PMM is a page of its own: not null, and in use neither as the directory
nor as a table. -/
structure FreshFrame (s : Vm) (va : Nat) : Prop where
  ne_zero : s.pmm.allocFrame.1 ≠ 0
  aligned : 4096 ∣ s.pmm.allocFrame.1
  word : s.pmm.allocFrame.1 < 2 ^ 32
  ne_dir : s.pmm.allocFrame.1 ≠ s.currentDirectory
  ne_table : ∀ k < 1024, Present (entry s.phys s.currentDirectory k) →
    frame (entry s.phys s.currentDirectory k) ≠ s.pmm.allocFrame.1
  reached : s.cr3 = none ∨ Reaches s (dirIndex va) s.pmm.allocFrame.1

/-- If the call needs a frame for a table, it gets one. -/
def FreshFor (s : Vm) : MapOp → Prop
  | .map va _ _ => ¬Present (entry s.phys s.currentDirectory (dirIndex va)) → FreshFrame s va
  | .unmap _ => True

/-- A run of the two calls, the latest first. In between, frames change hands and memory outside
the tables is written. -/
inductive TableRun (s₀ : Vm) : List MapOp → Vm → Prop
  | start : TableRun s₀ [] s₀
  | call {ops : List MapOp} {s s' : Vm} {op : MapOp} (hrun : TableRun s₀ ops s)
      (hop : op.WellFormed) (haddr : Addressable s op.va) (hfresh : FreshFor s op)
      (hcall : op.run s = .ok s') : TableRun s₀ (op :: ops) s'
  | elsewhere {ops : List MapOp} {s s' : Vm} (hrun : TableRun s₀ ops s)
      (hdir : s'.currentDirectory = s.currentDirectory)
      (hentries : Agree s.phys s'.phys s.currentDirectory (s.currentDirectory + 4096))
      (htables : ∀ k < 1024, Present (entry s.phys s.currentDirectory k) →
        Agree s.phys s'.phys (frame (entry s.phys s.currentDirectory k))
          (frame (entry s.phys s.currentDirectory k) + 4096)) :
      TableRun s₀ ops s'

section Run

variable {s₀ s s' : Vm} {ops : List MapOp} {op : MapOp} {va pa flags v : Nat}

theorem Addressable.reaches (h : Addressable s va) :
    Reaches s (dirIndex va) s.currentDirectory ∧
      (Present (entry s.phys s.currentDirectory (dirIndex va)) →
        Reaches s (dirIndex va) (frame (entry s.phys s.currentDirectory (dirIndex va)))) := by
  rcases h with hoff | h
  · exact ⟨reaches_off hoff _ _, fun _ => reaches_off hoff _ _⟩
  · exact h

theorem leaf_target (hpa : pa < 2 ^ 32) (hflags : flags < 0x1000) :
    leaf (frame pa ||| flags) v = (MapOp.map va pa flags).target v := by
  have hpres : Present (frame pa ||| flags) ↔ Present flags := by
    rw [present_or]
    apply or_iff_right
    intro h
    unfold Present frame at h
    omega
  simp only [leaf, MapOp.target, and_frame hpa, and_offset, frame_or _ hflags,
    frame_of_dvd (dvd_frame pa)]
  by_cases hp : Present flags
  · rw [if_pos (hpres.2 hp), if_neg fun h => (and_pagePresent _).1 h hp]
  · rw [if_neg fun h => hp (hpres.1 h), if_pos ((and_pagePresent _).2 hp)]

theorem FreshFrame.reaches (h : FreshFrame s va) :
    Reaches s (dirIndex va) s.pmm.allocFrame.1 := by
  rcases h.reached with hoff | hreach
  · exact reaches_off hoff _ _
  · exact hreach

/-- **One call** returns, and edits the map at its own page. -/
theorem MapOp.run_returns (htree : Tree s.phys s.currentDirectory) (hop : op.WellFormed)
    (haddr : Addressable s op.va) (hfresh : FreshFor s op) :
    ∃ s', op.run s = .ok s' ∧ s'.currentDirectory = s.currentDirectory ∧ s'.cr3 = s.cr3 ∧
      Tree s'.phys s.currentDirectory ∧ ∀ v < 2 ^ 32, translate s'.phys s.currentDirectory v =
        if v / 4096 = op.va / 4096 then op.target v else translate s.phys s.currentDirectory v := by
  obtain ⟨hdir, htable⟩ := haddr.reaches
  cases op with
  | map va pa flags =>
      obtain ⟨hva, hpa, hflags⟩ := hop
      have hmapped : ∃ s', mapPage s va pa flags = .ok s' ∧
          Mapped s s' va (frame pa ||| flags) := by
        by_cases hp : Present (entry s.phys s.currentDirectory (dirIndex va))
        · obtain ⟨s', hcall, -, hmap, -⟩ := mapPage_present htree hva hpa hflags hp hdir (htable hp)
          exact ⟨s', hcall, hmap⟩
        · have hf := hfresh hp
          obtain ⟨s', hcall, -, hmap, -⟩ := mapPage_absent htree hva hpa hflags hp rfl hf.aligned
            hf.word hf.ne_dir hf.ne_table hdir hf.reaches
          exact ⟨s', hcall, hmap⟩
      obtain ⟨s', hcall, hmap⟩ := hmapped
      refine ⟨s', hcall, hmap.dir, hmap.cr3, hmap.tree, ?_⟩
      intro v hv
      rw [hmap.translate v hv, leaf_target hpa hflags]
      rfl
  | unmap va =>
      obtain ⟨s', hcall, hunmap⟩ := unmapPage_returns htree hop hdir htable
      exact ⟨s', hcall, hunmap.dir, hunmap.cr3, hunmap.tree, hunmap.translate⟩

/-- The tables hold the flat map. -/
structure Flat (s : Vm) (ops : List MapOp) : Prop where
  tree : Tree s.phys s.currentDirectory
  translate : ∀ v < 2 ^ 32, translate s.phys s.currentDirectory v = flat ops v

theorem flat_start (hdvd : 4096 ∣ s.currentDirectory)
    (hempty : ∀ k < 1024, ¬Present (entry s.phys s.currentDirectory k)) : Flat s [] := by
  refine ⟨⟨hdvd, fun k hk hp => absurd hp (hempty k hk),
      fun k hk _ _ hp => absurd hp (hempty k hk)⟩,
    fun v hv => if_neg (hempty _ (dirIndex_lt hv))⟩

theorem Flat.call (h : Flat s ops) (hop : op.WellFormed) (haddr : Addressable s op.va)
    (hfresh : FreshFor s op) : ∃ s', op.run s = .ok s' ∧ Flat s' (op :: ops) := by
  obtain ⟨s', hcall, hdir, -, htree, htrans⟩ := MapOp.run_returns h.tree hop haddr hfresh
  refine ⟨s', hcall, by rwa [hdir], ?_⟩
  intro v hv
  rw [hdir, htrans v hv, flat_cons, h.translate v hv]

/-- Writing outside the tables changes the entry for no page. -/
theorem walk_elsewhere (hentries : Agree s.phys s'.phys s.currentDirectory (s.currentDirectory + 4096))
    (htables : ∀ k < 1024, Present (entry s.phys s.currentDirectory k) →
      Agree s.phys s'.phys (frame (entry s.phys s.currentDirectory k))
        (frame (entry s.phys s.currentDirectory k) + 4096)) :
    (∀ k < 1024, entry s'.phys s.currentDirectory k = entry s.phys s.currentDirectory k) ∧
      ∀ page < 2 ^ 20,
        walk s'.phys s.currentDirectory page = walk s.phys s.currentDirectory page := by
  have hsame : ∀ k < 1024, entry s'.phys s.currentDirectory k =
      entry s.phys s.currentDirectory k := fun k hk => entry_congr hentries hk
  refine ⟨hsame, ?_⟩
  intro page hpage
  have hregion : page / 1024 < 1024 := by omega
  exact walk_congr (hsame _ hregion)
    fun hp => entry_congr (htables _ hregion hp) (Nat.mod_lt _ (by decide))

theorem flat_run (hdvd : 4096 ∣ s₀.currentDirectory)
    (hempty : ∀ k < 1024, ¬Present (entry s₀.phys s₀.currentDirectory k))
    (hrun : TableRun s₀ ops s) : Flat s ops := by
  induction hrun with
  | start => exact flat_start hdvd hempty
  | call _ hop haddr hfresh hcall ih =>
      obtain ⟨s', hcall', hflat⟩ := ih.call hop haddr hfresh
      rwa [← Outcome.ok.inj (hcall'.symm.trans hcall)]
  | elsewhere _ hdir hentries htables ih =>
      obtain ⟨hsame, hwalk⟩ := walk_elsewhere hentries htables
      constructor
      · rw [hdir]
        exact ih.tree.congr hsame
      · intro v hv
        rw [hdir, ← ih.translate v hv, translate_eq_walk hv, translate_eq_walk hv,
          hwalk _ (by omega)]

theorem Flat.lookup (h : Flat s ops) (hv : v < 2 ^ 32) (haddr : Addressable s v) :
    getPhysicalAddress s v = .ok ((flat ops v).getD 0) := by
  obtain ⟨hdir, htable⟩ := haddr.reaches
  rw [getPhysicalAddress_returns (hdir.read (dirIndex_lt hv))
    fun hp => (htable hp).read (tableIndex_lt v), h.translate v hv]

/-- **The tables refine the flat map.** A lookup gives what the last call on the page said, and
every further call returns and leaves the other pages alone. -/
theorem tables_refine_flat (hdvd : 4096 ∣ s₀.currentDirectory)
    (hempty : ∀ k < 1024, ¬Present (entry s₀.phys s₀.currentDirectory k))
    (hrun : TableRun s₀ ops s) :
    (∀ v < 2 ^ 32, Addressable s v → getPhysicalAddress s v = .ok ((flat ops v).getD 0)) ∧
      ∀ op : MapOp, op.WellFormed → Addressable s op.va → FreshFor s op →
        ∃ s', op.run s = .ok s' ∧ ∀ v < 2 ^ 32, v / 4096 ≠ op.va / 4096 →
          Addressable s v → Addressable s' v →
            getPhysicalAddress s' v = getPhysicalAddress s v := by
  have hflat := flat_run hdvd hempty hrun
  refine ⟨fun v hv haddr => hflat.lookup hv haddr, ?_⟩
  intro op hop haddr hfresh
  obtain ⟨s', hcall, hflat'⟩ := hflat.call hop haddr hfresh
  refine ⟨s', hcall, ?_⟩
  intro v hv hne haddrv haddrv'
  rw [hflat'.lookup hv haddrv', hflat.lookup hv haddrv, flat_cons, if_neg hne]

/-- An empty directory in the first free frame of 32 MiB. -/
def emptyDirectory : Vm where
  pmm := (Pmm.init (fun _ => 0#32) 0x2000000).allocFrame.2
  phys := fun _ => 0
  currentDirectory := 0x200000
  cr3 := none

theorem emptyDirectory_aligned : 4096 ∣ emptyDirectory.currentDirectory := by decide

theorem emptyDirectory_absent :
    ∀ k < 1024, ¬Present (entry emptyDirectory.phys emptyDirectory.currentDirectory k) := by
  intro k _
  have hzero : entry emptyDirectory.phys emptyDirectory.currentDirectory k = 0 := rfl
  rw [hzero]
  decide

theorem freshFrame_emptyDirectory (va : Nat) : FreshFrame emptyDirectory va := by
  have hfirst : emptyDirectory.pmm.allocFrame.1 = 0x201000 := by decide +kernel
  refine ⟨?_, ?_, ?_, ?_, fun k hk hp => absurd hp (emptyDirectory_absent k hk), .inl rfl⟩ <;>
    rw [hfirst] <;> decide

/-- One page mapped, and looked up, and its neighbour. -/
theorem tables_refine_flat_one :
    ∃ s, mapPage emptyDirectory 0xC0000000 0x300000 3 = .ok s ∧
      getPhysicalAddress s 0xC0000123 = .ok 0x300123 ∧ getPhysicalAddress s 0xC0001000 = .ok 0 := by
  have hfresh : FreshFor emptyDirectory (.map 0xC0000000 0x300000 3) :=
    fun _ => freshFrame_emptyDirectory _
  have hop : (MapOp.map 0xC0000000 0x300000 3).WellFormed :=
    ⟨by decide, by decide, by decide⟩
  obtain ⟨s, hcall, -, hoff, -⟩ :=
    MapOp.run_returns (flat_start emptyDirectory_aligned emptyDirectory_absent).tree hop (.inl rfl)
      hfresh
  have hrun : TableRun emptyDirectory [.map 0xC0000000 0x300000 3] s :=
    .call .start hop (.inl rfl) hfresh hcall
  obtain ⟨hlookup, -⟩ := tables_refine_flat emptyDirectory_aligned emptyDirectory_absent hrun
  exact ⟨s, hcall, hlookup _ (by decide) (.inl hoff), hlookup _ (by decide) (.inl hoff)⟩

end Run

end Munux.Memory
