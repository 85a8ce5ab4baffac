import Munux.Fs.Ext2Files

/-!
# Which block numbers `block_at` knows

A logical block past the double-indirect tables belongs to no pointer that `block_at` reads, so its
number should be 0, as it is for a null pointer (`physical`). The code divides such a block number
by the pointers per block all the same, and looks up the quotient in the double-indirect table. Past
`12 + ppb + ppb²` the quotient is outside of the table, and the kernel stops (`blockAt_total_iff`).
Without a double-indirect table the answer is 0 for all of them.
-/

namespace Munux.Fs

open ByteMem

variable {disk : Disk} {m : ByteMem} {fs : Params} {inode : Inode} {n k : Nat}

/-- The physical number of block `n`: the leaf of the tree, and 0 if there is none or a pointer on
the way is null. -/
def physical (m : ByteMem) (fs : Params) (inode : Inode) (n : Nat) : Nat :=
  if 0 ∈ pathTo m fs inode n then 0 else (leaves m fs inode).getD n 0

/-- The tables of an inode end below 4 GiB. -/
structure TablesBelow (m : ByteMem) (fs : Params) (inode : Inode) : Prop where
  single : inode.indirect * fs.blockSize + fs.blockSize < wordCount
  double : inode.doubleIndirect * fs.blockSize + fs.blockSize < wordCount
  inner : inode.doubleIndirect ≠ 0 → ∀ o ∈ table m fs inode.doubleIndirect,
    o * fs.blockSize + fs.blockSize < wordCount

/-! ## Physical blocks -/

theorem physical_eq_pointer (hn : n < fs.capacity) :
    physical m fs inode n = pointer m fs inode n := by
  unfold physical
  by_cases habsent : 0 ∈ pathTo m fs inode n
  · rw [if_pos habsent, (pointer_eq_zero_iff hn).2 habsent]
  · rw [if_neg habsent, leaves_getD hn habsent]

theorem length_leaves (m : ByteMem) (fs : Params) (inode : Inode) :
    (leaves m fs inode).length = fs.capacity := by
  simp only [leaves, table, Params.capacity, List.length_append, List.length_ofFn,
    List.length_map, List.length_range, List.length_flatMap, List.map_map, Function.comp_def,
    List.map_const', List.sum_replicate_nat]

/-- The blocks past the last table have none. -/
theorem physical_of_capacity_le (hn : fs.capacity ≤ n) : physical m fs inode n = 0 := by
  have hleaf : (leaves m fs inode).getD n 0 = 0 :=
    List.getD_eq_default _ _ ((length_leaves m fs inode).trans_le hn)
  unfold physical
  rw [hleaf, ite_self]

/-! ## Tables -/

theorem outer_mem_table (hn : 12 + fs.ppb ≤ n) (hn' : n < fs.capacity) :
    outer m fs inode n ∈ table m fs inode.doubleIndirect := by
  have hpos : 0 < fs.ppb := by
    rcases Nat.eq_zero_or_pos fs.ppb with hzero | hpos
    · rw [Params.capacity, hzero] at hn'
      omega
    · exact hpos
  exact List.mem_map.2 ⟨_, List.mem_range.2 ((outer_lt_iff hpos hn).2 hn'), rfl⟩

theorem pointerReadable_of_below (htables : TablesBelow m fs inode)
    (hn : n < fs.capacity ∨ inode.doubleIndirect = 0) : PointerReadable m fs inode n := by
  refine ⟨fun _ _ _ => htables.single, fun hge hdouble => ?_⟩
  have hn' : n < fs.capacity := hn.resolve_right hdouble
  exact ⟨htables.double, hn', fun _ => htables.inner hdouble _ (outer_mem_table hge hn')⟩

theorem capacity_of_pointerReadable (hread : PointerReadable m fs inode n) :
    n < fs.capacity ∨ inode.doubleIndirect = 0 := by
  by_cases hn : n < fs.capacity
  · exact .inl hn
  · right
    by_contra hdouble
    have hge : 12 + fs.ppb ≤ n := by
      unfold Params.capacity at hn
      omega
    exact hn (hread.double hge hdouble).2.1

/-- **`block_at` is total below the capacity.** Past it, the block number is 0 if there is no
double-indirect table, and an index outside of the table if there is one. -/
theorem blockAt_total_iff (hbs : fs.blockSize = 1024 * 2 ^ k) (hk : k ≤ 6)
    (htables : TablesBelow (bytes disk) fs inode) :
    blockAt disk fs inode n = .ok (physical (bytes disk) fs inode n) ↔
      n < fs.capacity ∨ inode.doubleIndirect = 0 := by
  obtain ⟨hfs, -⟩ := tabular_of_pow hbs hk
  rw [blockAt_eq_ok hfs]
  constructor
  · rintro ⟨hread, -⟩
    exact capacity_of_pointerReadable hread
  · intro hn
    refine ⟨pointerReadable_of_below htables hn, ?_⟩
    by_cases hcap : n < fs.capacity
    · rw [physical_eq_pointer hcap]
    · have hdouble : inode.doubleIndirect = 0 := hn.resolve_left hcap
      have hge : ¬ n < 12 ∧ ¬ n < 12 + fs.ppb := by
        unfold Params.capacity at hcap
        omega
      rw [physical_of_capacity_le (Nat.le_of_not_lt hcap), pointer, dif_neg hge.1, if_neg hge.2,
        if_pos (.inl hdouble)]

/-- Past it, an existing double-indirect table is read behind its end. -/
theorem blockAt_past (hfs : fs.Tabular) (hbs : fs.blockSize ≠ 0)
    (hdouble : inode.doubleIndirect ≠ 0)
    (hbelow : inode.doubleIndirect * fs.blockSize + fs.blockSize < wordCount)
    (hn : fs.capacity ≤ n) : blockAt disk fs inode n = .panic := by
  have hppb := hfs.ppb_mul
  have hpos : 0 < fs.ppb := by omega
  unfold Params.capacity at hn
  have hsub : checkedSub n 12 = .ok (n - 12) := checkedSub_eq_ok.2 ⟨rfl, by omega⟩
  have hsub' : checkedSub (n - 12) fs.ppb = .ok (n - 12 - fs.ppb) :=
    checkedSub_eq_ok.2 ⟨rfl, by omega⟩
  have hmul : checkedMul inode.doubleIndirect fs.blockSize =
      .ok (inode.doubleIndirect * fs.blockSize) := checkedMul_eq_ok.2 ⟨rfl, by omega⟩
  have hread : readRange disk (inode.doubleIndirect * fs.blockSize) fs.blockSize =
      .ok (slice (bytes disk) (inode.doubleIndirect * fs.blockSize) fs.blockSize) :=
    (readRange_eq_ok hfs.blockSize_le).2 ⟨hbelow, rfl⟩
  have hdiv : checkedDiv (n - 12 - fs.ppb) fs.ppb = .ok ((n - 12 - fs.ppb) / fs.ppb) :=
    checkedDiv_eq_ok.2 ⟨rfl, hpos.ne'⟩
  -- The quotient is no index of the table.
  have hquot : fs.ppb ≤ (n - 12 - fs.ppb) / fs.ppb :=
    Nat.le_of_not_lt fun hlt => absurd ((outer_lt_iff hpos (by omega)).1 hlt) (by omega)
  have hentry : ∀ {i : Nat} (f : Nat → Outcome Nat), fs.ppb ≤ i → (do
      let outer ← rdU32 (slice (bytes disk) (inode.doubleIndirect * fs.blockSize) fs.blockSize)
        (← checkedMul i 4)
      f outer) = .panic := by
    intro i f hi
    by_cases hfits : i * 4 < wordCount
    · have hoff : checkedMul i 4 = .ok (i * 4) := checkedMul_eq_ok.2 ⟨rfl, hfits⟩
      rw [hoff, Outcome.ok_bind, rdU32_past (by rw [length_slice]; omega), Outcome.panic_bind]
    · rw [checkedMul, checked, if_neg hfits, Outcome.panic_bind]
  have hn12 : ¬ n < 12 := by omega
  have hlt : ¬ n - 12 < fs.ppb := by omega
  simp only [blockAt, hn12, dite_false, hsub, Outcome.ok_bind, hlt, if_false, hsub', hdouble, hmul,
    hread, hdiv]
  exact hentry _ hquot

/-- A file with a double-indirect table in block 20, whose first entry is the table in block 14. -/
def manyBlocks : Inode := ⟨70000000, fun k => k + 1, 21, 20⟩

theorem manyBlocks_below : TablesBelow (bytes tableDisk) tableFs manyBlocks := by
  refine ⟨by decide, by decide, fun _ o ho => ?_⟩
  obtain ⟨i, hi, rfl⟩ := List.mem_map.1 ho
  have hi : i < 256 := List.mem_range.1 hi
  have hload : load32 (bytes tableDisk) (20 * 1024 + i * 4) = if i = 0 then 14 else 0 := by
    refine (load32_ofBytes _ (show 20 * 1024 + i * 4 + 4 ≤ 2 ^ 32 by omega)).trans ?_
    have hzero : ∀ j, 0 < j → ¬ 20 * 1024 + i * 4 + j = 20480 := fun j hj => by omega
    have hfirst : 20 * 1024 + i * 4 = 20480 ↔ i = 0 := by omega
    simp only [load32, hfirst, hzero 1, hzero 2, hzero 3, Nat.zero_lt_succ, if_false]
    split_ifs <;> rfl
  change load32 (bytes tableDisk) (20 * 1024 + i * 4) * 1024 + 1024 < wordCount
  rw [hload]
  split_ifs <;> decide

/-- The first block of the double-indirect table is found. -/
theorem blockAt_total_iff_many :
    blockAt tableDisk tableFs manyBlocks 268 =
      .ok (physical (bytes tableDisk) tableFs manyBlocks 268) :=
  (blockAt_total_iff (k := 0) rfl (by decide) manyBlocks_below).2 (.inl (by decide))

/-- **The first block past the tables stops the kernel.** -/
theorem blockAt_capacity_panics :
    TablesBelow (bytes tableDisk) tableFs manyBlocks ∧
      65804 * tableFs.blockSize < manyBlocks.size ∧
      physical (bytes tableDisk) tableFs manyBlocks 65804 = 0 ∧
      blockAt tableDisk tableFs manyBlocks 65804 = .panic :=
  ⟨manyBlocks_below, by decide, physical_of_capacity_le (by decide),
    blockAt_past (Params.Sized.tabular ⟨by decide, by decide, by decide⟩) (by decide) (by decide)
      (by decide) (by decide)⟩

end Munux.Fs
