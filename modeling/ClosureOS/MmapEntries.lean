import ClosureOS.MultibootTags

/-!
The memory map and the section headers as the boot stage decodes them from their tags.
The memory map is read with a fixed distance of 24 bytes between entries and a count
computed from the size of the tag; entry_size, which the tag declares, is not read.
-/
namespace ClosureOS

open ByteMemory PointerWalk

/-! ### Decoding -/

def mmapEntryAt (m : Memory) (a : Word) : MmapEntry :=
  ⟨load64 m a, load64 m (a + 8#64), load32 m (a + 16#64)⟩

/-- mmap_tag->entries[i]. -/
def TagInfo.mmapEntry (m : Memory) (info : TagInfo) (i : ℕ) : MmapEntry :=
  mmapEntryAt m (info.mmapTag + 16#64 + BitVec.ofNat 64 (24 * i))

def elf64ShdrAt (m : Memory) (a : Word) : Elf64Shdr where
  shType := load32 m (a + 4#64)
  shFlags := load64 m (a + 8#64)
  shAddr := load64 m (a + 16#64)
  shOffset := load64 m (a + 24#64)
  shSize := load64 m (a + 32#64)

/-- The headers from elf_info_tag->sections up to shdr_end. -/
def TagInfo.sections (m : Memory) (info : TagInfo) : List Elf64Shdr :=
  (List.range (load32 m (info.elfInfoTag + 8#64)).toNat).map fun i =>
    elf64ShdrAt m (info.elfInfoTag + 20#64 + BitVec.ofNat 64 (64 * i))

/-- What the boot stage takes from the multiboot information. The loops of
boot_mm_page_alloc_internal, boot_mm_pgtable_init and boot_mm_page_database_init all run over
entries[i] for i < mmap_entry_nr. -/
def TagInfo.bootInfo (m : Memory) (info : TagInfo) (fb : Option FrameBuffer) : BootInfo where
  mmapEntries := (List.range info.mmapEntryNr.toNat).map (info.mmapEntry m)
  sections := info.sections m
  fb := fb
  multibootTagStart := info.multibootTagStart
  multibootTagEnd := info.multibootTagEnd

/-! ### The declared layout -/

/-- A memory-map tag with n entries of the size that it declares. -/
structure WellFormedMmap (m : Memory) (tag : Word) (entrySize n : ℕ) : Prop where
  declared : (load32 m (tag + 8#64)).toNat = entrySize
  size : (tagSize m tag).toNat = 16 + n * entrySize
  aligned : 8 ∣ entrySize
  holds_fields : 24 ≤ entrySize

/-- The i-th entry of a tag with this entry size. -/
def declaredEntry (m : Memory) (tag : Word) (entrySize i : ℕ) : MmapEntry :=
  mmapEntryAt m (tag + 16#64 + BitVec.ofNat 64 (entrySize * i))

def declaredEntries (m : Memory) (tag : Word) (entrySize n : ℕ) : List MmapEntry :=
  (List.range n).map (declaredEntry m tag entrySize)

section Decoding

variable {m : Memory} {mbi tag : Word} {info : TagInfo} {entrySize n fuel : ℕ}

theorem bootMmInitTags_eq_some (h : bootMmInitTags m mbi fuel = some (some info)) :
    info.mmapEntryNr = mmapEntryNr m info.mmapTag ∧ info.multibootTagStart = mbi &&& pageMask ∧
      ∃ l t, Path (isEndTag m) (nextTag m) (mbi + 8#64) l t ∧
        info.multibootTagEnd = pageAlign t := by
  obtain ⟨⟨s, _⟩, _, hrest⟩ := Option.bind_eq_some_iff.mp h
  dsimp only at hrest
  split at hrest
  · exact absurd (Option.some.inj hrest) (Option.some_ne_none _).symm
  · split at hrest
    · exact absurd (Option.some.inj hrest) (Option.some_ne_none _).symm
    · obtain ⟨⟨_, t⟩, hwalk, heq⟩ := Option.map_eq_some_iff.mp hrest
      obtain ⟨l, hpath⟩ := path_of_walk hwalk
      obtain rfl := Option.some.inj heq
      exact ⟨rfl, rfl, l, t, hpath, rfl⟩

/-- The number of entries is that of a tag with 24 bytes for each. -/
theorem WellFormedMmap.toNat_mmapEntryNr (h : WellFormedMmap m tag entrySize n) :
    (mmapEntryNr m tag).toNat = n * entrySize / 24 := by
  have hlt := (tagSize m tag).isLt
  have hsize := h.size
  have hwords : ((tagSize m tag).setWidth 64 - 16#64).toNat = n * entrySize := by
    rw [BitVec.toNat_sub, BitVec.toNat_setWidth]
    simp only [BitVec.toNat_ofNat]
    omega
  have hdiv : n * entrySize / (24#64).toNat = n * entrySize / 24 := rfl
  rw [mmapEntryNr, BitVec.toNat_setWidth, BitVec.toNat_udiv, hwords, hdiv]
  exact Nat.mod_eq_of_lt (by omega)

/-- Where the count is right: the extra bytes of all entries make less than one entry. -/
theorem mul_div_eq_self_iff (haligned : 8 ∣ entrySize) (hmin : 24 ≤ entrySize) :
    n * entrySize / 24 = n ↔
      entrySize = 24 ∨ n = 0 ∨ (n = 1 ∧ entrySize < 48) ∨ (n = 2 ∧ entrySize = 32) := by
  obtain ⟨k, rfl⟩ := Nat.exists_eq_add_of_le hmin
  obtain ⟨j, rfl⟩ : 8 ∣ k := (Nat.dvd_add_right (by decide)).mp haligned
  have hdiv : n * (24 + 8 * j) / 24 = n + n * j / 3 := by
    have heq : n * (24 + 8 * j) = 24 * n + 8 * (n * j) := by ring
    omega
  rw [hdiv]
  constructor
  · intro h
    have hlt : n * j < 3 := by omega
    rcases Nat.eq_zero_or_pos j with rfl | hj
    · exact Or.inl rfl
    · have hn : n < 3 := (Nat.le_mul_of_pos_right n hj).trans_lt hlt
      obtain rfl | rfl | rfl : n = 0 ∨ n = 1 ∨ n = 2 := by omega
      · exact Or.inr (Or.inl rfl)
      · exact Or.inr (Or.inr (Or.inl ⟨rfl, by omega⟩))
      · exact Or.inr (Or.inr (Or.inr ⟨rfl, by omega⟩))
  · rintro (h | rfl | ⟨rfl, h⟩ | ⟨rfl, h⟩)
    · obtain rfl : j = 0 := by omega
      simp
    · simp
    · omega
    · omega

/-! The first entry is at offset 16 for every stride, the second one at the stride. -/

theorem mmapEntry_zero (m : Memory) (info : TagInfo) (entrySize : ℕ) :
    info.mmapEntry m 0 = declaredEntry m info.mmapTag entrySize 0 := by
  rw [TagInfo.mmapEntry, declaredEntry, Nat.mul_zero, Nat.mul_zero]

theorem mmapEntry_one (m : Memory) (info : TagInfo) :
    info.mmapEntry m 1 = mmapEntryAt m (info.mmapTag + 40#64) := by
  rw [TagInfo.mmapEntry, BitVec.add_assoc]
  rfl

theorem declaredEntry_one (m : Memory) (tag : Word) :
    declaredEntry m tag 32 1 = mmapEntryAt m (tag + 48#64) := by
  rw [declaredEntry, BitVec.add_assoc]
  rfl

/-- The entries that the boot stage uses are those that the tag declares exactly when the
entries are of 24 bytes, or there are so few that no other stride shows: none, or one of less
than 48 bytes, or two of 32 bytes where the bytes 8 before the second one read as its copy. -/
theorem bootInfo_mmapEntries_eq_iff (hinit : bootMmInitTags m mbi fuel = some (some info))
    (hwf : WellFormedMmap m info.mmapTag entrySize n) (fb : Option FrameBuffer) :
    (info.bootInfo m fb).mmapEntries = declaredEntries m info.mmapTag entrySize n ↔
      entrySize = 24 ∨ n = 0 ∨ (n = 1 ∧ entrySize < 48) ∨
        (n = 2 ∧ entrySize = 32 ∧
          mmapEntryAt m (info.mmapTag + 40#64) = mmapEntryAt m (info.mmapTag + 48#64)) := by
  have hnr : info.mmapEntryNr.toNat = n * entrySize / 24 := by
    rw [(bootMmInitTags_eq_some hinit).1]
    exact hwf.toNat_mmapEntryNr
  have hcount := mul_div_eq_self_iff (n := n) hwf.aligned hwf.holds_fields
  unfold TagInfo.bootInfo declaredEntries
  dsimp only
  rw [hnr]
  constructor
  · intro h
    have hlen := congrArg List.length h
    rw [List.length_map, List.length_map, List.length_range, List.length_range] at hlen
    rcases hcount.mp hlen with h24 | h0 | h1 | ⟨rfl, rfl⟩
    · exact Or.inl h24
    · exact Or.inr (Or.inl h0)
    · exact Or.inr (Or.inr (Or.inl h1))
    · rw [hlen] at h
      have hentry := List.map_inj_left.mp h 1 (by simp)
      rw [mmapEntry_one, declaredEntry_one] at hentry
      exact Or.inr (Or.inr (Or.inr ⟨rfl, rfl, hentry⟩))
  · intro h
    have hlen : n * entrySize / 24 = n := hcount.mpr (by
      rcases h with h24 | h0 | h1 | ⟨h2, h32, _⟩
      · exact Or.inl h24
      · exact Or.inr (Or.inl h0)
      · exact Or.inr (Or.inr (Or.inl h1))
      · exact Or.inr (Or.inr (Or.inr ⟨h2, h32⟩)))
    rw [hlen]
    apply List.map_congr_left
    intro i hi
    rw [List.mem_range] at hi
    rcases h with rfl | rfl | ⟨rfl, _⟩ | ⟨rfl, rfl, heq⟩
    · rfl
    · exact absurd hi (Nat.not_lt_zero i)
    · obtain rfl : i = 0 := by omega
      exact mmapEntry_zero m info entrySize
    · obtain rfl | rfl : i = 0 ∨ i = 1 := by omega
      · exact mmapEntry_zero m info 32
      · rw [mmapEntry_one, declaredEntry_one, heq]

/-- A memory map with n entries of one size, an ELF tag without sections and the END tag. -/
def mapBytes (entrySize n : ℕ) : Memory :=
  ofBytes (0x10000#64 + 8#64) (le32 multibootTagTypeMmap ++
    le32 (BitVec.ofNat 32 (16 + n * entrySize)) ++ le32 (BitVec.ofNat 32 entrySize) ++
    le32 0#32 ++ List.replicate (n * entrySize) 1#8 ++
    le32 multibootTagTypeElfSections ++ le32 20#32 ++ List.replicate 16 0#8 ++
    le32 multibootTagTypeEnd ++ le32 8#32)

/-- One entry of 40 bytes is decoded as declared. -/
theorem bootInfo_mmapEntries_eq_iff_one :
    ∃ info, bootMmInitTags (mapBytes 40 1) 0x10000#64 3 = some (some info) ∧
      (info.bootInfo (mapBytes 40 1) none).mmapEntries =
        declaredEntries (mapBytes 40 1) info.mmapTag 40 1 := by
  have hinit : bootMmInitTags (mapBytes 40 1) 0x10000#64 3 =
      some (some ⟨0x10008#64, 0x10040#64, 1#32, 0x10000#64, 0x11000#64⟩) := rfl
  have hwf : WellFormedMmap (mapBytes 40 1) 0x10008#64 40 1 := ⟨rfl, rfl, by decide, by decide⟩
  exact ⟨_, hinit, (bootInfo_mmapEntries_eq_iff hinit hwf none).mpr
    (Or.inr (Or.inr (Or.inl ⟨rfl, by decide⟩)))⟩

/-- Three entries of 32 bytes are decoded as four. -/
theorem bootInfo_mmapEntries_ne :
    ∃ info, bootMmInitTags (mapBytes 32 3) 0x10000#64 3 = some (some info) ∧
      WellFormedMmap (mapBytes 32 3) info.mmapTag 32 3 ∧
      (info.bootInfo (mapBytes 32 3) none).mmapEntries ≠
        declaredEntries (mapBytes 32 3) info.mmapTag 32 3 := by
  have hinit : bootMmInitTags (mapBytes 32 3) 0x10000#64 3 =
      some (some ⟨0x10008#64, 0x10078#64, 4#32, 0x10000#64, 0x11000#64⟩) := rfl
  refine ⟨_, hinit, ⟨rfl, rfl, by decide, by decide⟩, fun h => ?_⟩
  exact absurd (congrArg List.length h) (by decide)

end Decoding

end ClosureOS
