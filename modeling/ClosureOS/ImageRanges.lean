import ClosureOS.PageTableInit
import ClosureOS.RangeCover
import Mathlib.Data.List.TakeWhile

/-!
The range of the kernel image that the boot code reserves and the range that it maps.
The mapping starts one page before the reserved range, and tests a bit of the section
type where the reservation tests for equality. So the first page of every section is
reserved only where the range of another section, of the frame buffer or of the multiboot
tags happens to have it, and so are all pages of a section whose type only shares the bit.
-/
namespace ClosureOS

open RangeCover

/-! ### Used ranges -/

/-- The range that the kernel image reserves for a section, half open. -/
def sectionRange (sh : Elf64Shdr) : ℕ × ℕ := ((segStart sh).toNat, (segEnd sh).toNat)

/-- The ranges of the sections of type SHT_PROGBITS that are loaded. -/
def sectionRanges (sections : List Elf64Shdr) : List (ℕ × ℕ) :=
  (sections.filter fun sh => sh.shType = shtProgbits ∧ sh.shFlags &&& shfAlloc ≠ 0#64).map
    sectionRange

/-- The ranges that addr_is_in_used_range looks at, half open. -/
def usedRanges (info : BootInfo) : List (ℕ × ℕ) :=
  sectionRanges info.sections ++
    (info.fb.toList.map fun fb => (fb.base.toNat, fb.stop.toNat + 1)) ++
    [(info.multibootTagStart.toNat, info.multibootTagEnd.toNat + 1)]

/-! ### Sections with contents -/

/-- The section goes to the branch for sections with contents. -/
def HasContents (sh : Elf64Shdr) : Prop :=
  sh.shFlags &&& shfAlloc ≠ 0#64 ∧ sh.shType &&& shtProgbits ≠ 0#32

instance (sh : Elf64Shdr) : Decidable (HasContents sh) := inferInstanceAs (Decidable (_ ∧ _))

/-- The section stops the mapping. -/
def UnknownSection (sh : Elf64Shdr) : Prop :=
  sh.shFlags &&& shfAlloc ≠ 0#64 ∧ sh.shType &&& shtProgbits = 0#32 ∧
    sh.shType &&& shtNobits = 0#32

instance (sh : Elf64Shdr) : Decidable (UnknownSection sh) := inferInstanceAs (Decidable (_ ∧ _))

def knownSection (sh : Elf64Shdr) : Bool := !decide (UnknownSection sh)

/-- The sections with contents in front of the first unknown one. -/
def contentSections (sections : List Elf64Shdr) : List Elf64Shdr :=
  (sections.takeWhile knownSection).filter HasContents

/-- The pages of a section with contents. -/
def contentPages (sh : Elf64Shdr) : List Word :=
  (List.range (pageRounds (physStart sh) (physEnd sh))).map fun k =>
    physStart sh + BitVec.ofNat 64 k * pageSize

/-- All pages mapped as contents are in a used range, and so are the frames that hold them. -/
def ImageReserved (info : BootInfo) (contents : List Word) : Prop :=
  ∀ page ∈ contents, addrIsInUsedRange info page ∧ addrIsInUsedRange info (page &&& pageMask)

/-- The used ranges leave no gap in a section with contents: its first page lies in one, and
so does the page behind the end of every range that ends in the section. Where the section
does not start on a page boundary, the same holds of its frames. -/
def ImageCovered (info : BootInfo) : Prop :=
  ∀ sh ∈ contentSections info.sections,
    NoGap (usedRanges info) (physStart sh).toNat 4096 (pageRounds (physStart sh) (physEnd sh)) ∧
    NoGap (usedRanges info) ((physStart sh).toNat / 4096 * 4096) 4096
      (pageRounds (physStart sh) (physEnd sh))

instance (info : BootInfo) : Decidable (ImageCovered info) :=
  inferInstanceAs (Decidable (∀ sh ∈ _, _ ∧ _))

/-- A section as a linker places it: its type is SHT_PROGBITS, it starts on a page boundary
and its range does not wrap. -/
def WellPlaced (sh : Elf64Shdr) : Prop :=
  sh.shType = shtProgbits ∧ 4096 ∣ sh.shOffset.toNat ∧ physEnd sh ≤ segEnd sh

instance (sh : Elf64Shdr) : Decidable (WellPlaced sh) := inferInstanceAs (Decidable (_ ∧ _))

section Pages

variable {info : BootInfo} {sh : Elf64Shdr} {page x : Word} {k : ℕ}

/-! ### Membership in the used ranges -/

theorem inRanges_sectionRanges {sections : List Elf64Shdr} :
    InRanges (sectionRanges sections) x.toNat ↔ ∃ sh ∈ sections, inSegment x sh := by
  simp only [InRanges, sectionRanges, List.mem_map, List.mem_filter, decide_eq_true_eq]
  constructor
  · rintro ⟨_, ⟨sh, ⟨hmem, htype, halloc⟩, rfl⟩, hlow, hhigh⟩
    refine ⟨sh, hmem, ?_⟩
    rw [inSegment, if_neg (by simp [htype, halloc])]
    exact decide_eq_true ⟨BitVec.le_def.mpr hlow, BitVec.lt_def.mpr hhigh⟩
  · rintro ⟨sh, hmem, hin⟩
    unfold inSegment at hin
    split at hin
    · exact absurd hin (by decide)
    · next hkind =>
      rw [not_or, not_not] at hkind
      obtain ⟨hlow, hhigh⟩ := of_decide_eq_true hin
      exact ⟨_, ⟨sh, ⟨hmem, hkind⟩, rfl⟩, BitVec.le_def.mp hlow, BitVec.lt_def.mp hhigh⟩

theorem inRanges_frameBuffer {fb : Option FrameBuffer} :
    InRanges (fb.toList.map fun fb => (fb.base.toNat, fb.stop.toNat + 1)) x.toNat ↔
      inFrameBuffer x fb := by
  cases fb with
  | none => simp [InRanges, inFrameBuffer]
  | some fb => simp [InRanges, inFrameBuffer, BitVec.le_def, Nat.lt_succ_iff]

/-- addr_is_in_used_range looks at the used ranges. -/
theorem addrIsInUsedRange_iff :
    addrIsInUsedRange info x ↔ InRanges (usedRanges info) x.toNat := by
  have htags : InRanges [(info.multibootTagStart.toNat, info.multibootTagEnd.toNat + 1)] x.toNat ↔
      info.multibootTagStart ≤ x ∧ x ≤ info.multibootTagEnd := by
    simp [InRanges, BitVec.le_def, Nat.lt_succ_iff]
  rw [usedRanges, InRanges.append, InRanges.append, inRanges_sectionRanges, inRanges_frameBuffer,
    htags, addrIsInUsedRange, ← List.any_eq_true]
  split
  · next hseg => simp [hseg]
  · next hseg =>
    split
    · next hfb => simp [hfb]
    · next hfb => simp [hseg, hfb]

/-! ### Pages of a section -/

theorem pageRounds_pos_iff {a stop : Word} : 0 < pageRounds a stop ↔ a < stop := by
  rw [pageRounds, BitVec.lt_def]
  omega

theorem mem_contentPages :
    page ∈ contentPages sh ↔ ∃ k < pageRounds (physStart sh) (physEnd sh),
      physStart sh + BitVec.ofNat 64 k * pageSize = page := by
  simp only [contentPages, List.mem_map, List.mem_range]

theorem toNat_contentPage (hk : k < pageRounds (physStart sh) (physEnd sh)) :
    (physStart sh + BitVec.ofNat 64 k * pageSize).toNat = (physStart sh).toNat + 4096 * k :=
  toNat_page (pageAlign_fits _) hk

/-- The reserved range of a section starts one page behind the mapped one. -/
theorem toNat_segStart (h : physStart sh < physEnd sh) :
    (segStart sh).toNat = (physStart sh).toNat + 4096 := by
  have hfit := pageAlign_fits (physStart sh + sh.shSize)
  have hstart : segStart sh = physStart sh + pageSize := by
    rw [segStart, physStart, BitVec.sub_add_cancel]
  rw [BitVec.lt_def, physEnd] at h
  rw [hstart, BitVec.toNat_add, toNat_pageSize, Nat.mod_eq_of_lt (by omega)]

/-- All pages of a section are reserved, with their frames, if and only if the used ranges
leave no gap in it. -/
theorem section_reserved_iff :
    (∀ page ∈ contentPages sh,
      addrIsInUsedRange info page ∧ addrIsInUsedRange info (page &&& pageMask)) ↔
    NoGap (usedRanges info) (physStart sh).toNat 4096 (pageRounds (physStart sh) (physEnd sh)) ∧
    NoGap (usedRanges info) ((physStart sh).toNat / 4096 * 4096) 4096
      (pageRounds (physStart sh) (physEnd sh)) := by
  have hframe : ∀ k < pageRounds (physStart sh) (physEnd sh),
      ((physStart sh + BitVec.ofNat 64 k * pageSize) &&& pageMask).toNat =
        (physStart sh).toNat / 4096 * 4096 + 4096 * k := by
    intro k hk
    rw [toNat_and_pageMask, toNat_contentPage hk]
    omega
  rw [noGap_iff (by decide), noGap_iff (by decide)]
  constructor
  · intro h
    refine ⟨fun k hk => ?_, fun k hk => ?_⟩
    · have hused := (h _ (mem_contentPages.mpr ⟨k, hk, rfl⟩)).1
      rwa [addrIsInUsedRange_iff, toNat_contentPage hk] at hused
    · have hused := (h _ (mem_contentPages.mpr ⟨k, hk, rfl⟩)).2
      rwa [addrIsInUsedRange_iff, hframe k hk] at hused
  · rintro ⟨hpages, hframes⟩ page hpage
    obtain ⟨k, hk, rfl⟩ := mem_contentPages.mp hpage
    rw [addrIsInUsedRange_iff, addrIsInUsedRange_iff, toNat_contentPage hk, hframe k hk]
    exact ⟨hpages k hk, hframes k hk⟩

theorem imageReserved_flatMap_iff :
    ImageReserved info ((contentSections info.sections).flatMap contentPages) ↔
      ImageCovered info := by
  constructor
  · intro h sh hsh
    exact section_reserved_iff.mp fun page hpage =>
      h page (List.mem_flatMap.mpr ⟨sh, hsh, hpage⟩)
  · intro h page hpage
    obtain ⟨sh, hsh, hin⟩ := List.mem_flatMap.mp hpage
    exact section_reserved_iff.mpr (h sh hsh) page hin

/-! ### Sections as a linker places them -/

theorem contents_of_mem {sections : List Elf64Shdr} (h : sh ∈ contentSections sections) :
    sh ∈ sections ∧ HasContents sh :=
  ⟨(List.takeWhile_prefix _).subset (List.mem_of_mem_filter h),
    of_decide_eq_true (List.mem_filter.mp h).2⟩

theorem sectionRange_mem (hmem : sh ∈ contentSections info.sections)
    (htype : sh.shType = shtProgbits) : sectionRange sh ∈ usedRanges info := by
  obtain ⟨hsh, hcontents⟩ := contents_of_mem hmem
  refine List.mem_append_left _ (List.mem_append_left _ (List.mem_map_of_mem ?_))
  exact List.mem_filter.mpr ⟨hsh, decide_eq_true ⟨htype, hcontents.1⟩⟩

/-- The own range of such a section has all its pages but the first one. -/
theorem WellPlaced.covered_iff (h : WellPlaced sh) (hmem : sh ∈ contentSections info.sections) :
    (NoGap (usedRanges info) (physStart sh).toNat 4096 (pageRounds (physStart sh) (physEnd sh)) ∧
      NoGap (usedRanges info) ((physStart sh).toNat / 4096 * 4096) 4096
        (pageRounds (physStart sh) (physEnd sh))) ↔
    (physStart sh < physEnd sh → ∃ r ∈ usedRanges info, r ≠ sectionRange sh ∧
      r.1 ≤ (physStart sh).toNat ∧ (physStart sh).toNat < r.2) := by
  obtain ⟨htype, ⟨m, hm⟩, hend⟩ := h
  have hvalue : (physStart sh).toNat =
      (2 ^ 64 - 4096 + (0x100000 + 4096 * m) % 2 ^ 64) % 2 ^ 64 := by
    rw [physStart, BitVec.toNat_sub, BitVec.toNat_add, hm]
    rfl
  have haligned : (physStart sh).toNat / 4096 * 4096 = (physStart sh).toNat := by omega
  rw [haligned, and_self_iff]
  constructor
  · intro hgap hlt
    obtain ⟨r, hr, hlow, hhigh⟩ := (hgap (pageRounds_pos_iff.mpr hlt)).1
    refine ⟨r, hr, ?_, hlow, hhigh⟩
    rintro rfl
    have hstart := toNat_segStart hlt
    unfold sectionRange at hlow
    omega
  · intro hfirst
    rw [noGap_iff (by decide)]
    intro k hk
    have hlt : physStart sh < physEnd sh := pageRounds_pos_iff.mp (by omega)
    obtain ⟨r, hr, _, hlow, hhigh⟩ := hfirst hlt
    cases k with
    | zero => exact ⟨r, hr, hlow, hhigh⟩
    | succ k =>
      refine ⟨_, sectionRange_mem hmem htype, ?_, ?_⟩
      · rw [sectionRange, toNat_segStart hlt]
        omega
      · have hbelow := (lt_iff_pageRounds (a := physStart sh) (pageAlign_fits _) hk.le).mpr hk
        rw [BitVec.lt_def, toNat_contentPage hk] at hbelow
        exact hbelow.trans_le (BitVec.le_def.mp hend)

/-- When all sections are placed like this, the image is covered if and only if the first
page of every section lies in another used range. -/
theorem imageCovered_iff_firstPages (h : ∀ sh ∈ contentSections info.sections, WellPlaced sh) :
    ImageCovered info ↔ ∀ sh ∈ contentSections info.sections, physStart sh < physEnd sh →
      ∃ r ∈ usedRanges info, r ≠ sectionRange sh ∧
        r.1 ≤ (physStart sh).toNat ∧ (physStart sh).toNat < r.2 :=
  forall₂_congr fun sh hsh => (h sh hsh).covered_iff hsh

end Pages

end ClosureOS
