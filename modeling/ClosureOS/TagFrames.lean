import ClosureOS.BootEnumerate
import ClosureOS.BootRounds
import ClosureOS.MmapEntries

/-!
The multiboot information is never handed out as a page. The answers of the allocator are
page boundaries outside the used ranges, and one of these runs from the page of the
information to the page boundary after the address of its END tag, inclusive.
-/
namespace ClosureOS

open ByteMemory WordAlign MultibootTag

section Aligned

variable {entries : List MmapEntry} {used : Word → Bool} {s s' : BootCursor} {res : Word}

/-- Every answer over any number of calls, of any number of rounds each, is a page boundary or
an error, and not used. -/
theorem allocCalls_aligned {rounds n : ℕ} {answers : List Word}
    (haligned : 4096 ∣ s.currAvail.toNat)
    (h : allocCalls entries used rounds n s = some (answers, s')) :
    ∀ f ∈ answers, PageOrError f ∧ used f = false := by
  induction n generalizing s answers with
  | zero =>
    obtain ⟨rfl, _⟩ := Prod.mk.inj (Option.some.inj h)
    exact fun f hf => absurd hf List.not_mem_nil
  | succ n ih =>
    obtain ⟨res, u, rest, hcall, hrest, heq⟩ := allocCalls_succ_eq_some.mp h
    obtain ⟨hres, hnext⟩ := bootMmPageAlloc_aligned haligned hcall
    obtain ⟨rfl, rfl⟩ := Prod.mk.inj heq
    intro f hf
    rcases List.mem_cons.mp hf with rfl | hf
    · exact hres
    · exact ih hnext hrest f hf

end Aligned

section Tags

variable {m : Memory} {mbi f : Word} {tags : List MultibootTag} {fuel rounds n : ℕ} {info : TagInfo}
  {fb : Option FrameBuffer} {answers : List Word} {s : BootCursor}

/-- A page boundary outside the tag range has none of the bytes from mbi to the end of an END
tag at t, on whichever page boundaries these fall. -/
theorem apart_of_not_used {boot : BootInfo} {t : Word}
    (hstart : boot.multibootTagStart = mbi &&& pageMask)
    (hend : boot.multibootTagEnd = pageAlign t) (ht : t.toNat + 4096 ≤ 2 ^ 64)
    (hf : PageOrError f) (hused : addrIsInUsedRange boot f = false) :
    f.toNat + 4096 ≤ mbi.toNat ∨ t.toNat + 8 ≤ f.toNat := by
  rcases hf with ⟨k, hk⟩ | rfl
  · have hrange : ¬ (boot.multibootTagStart ≤ f ∧ f ≤ boot.multibootTagEnd) := by
      intro hin
      unfold addrIsInUsedRange at hused
      rw [decide_eq_true hin] at hused
      simp at hused
    rw [hstart, hend, BitVec.le_def, BitVec.le_def, toNat_and_pageMask, toNat_pageAlign,
      Nat.mod_eq_of_lt (by omega)] at hrange
    -- above the range the next boundary is a whole page further on
    omega
  · right
    have herr : (errPtr enomem).toNat = 2 ^ 64 - 12 := rfl
    omega

/-- No page that the boot allocator answers, in any number of calls of any number of rounds
each and for any memory map, has a byte of the multiboot information: from mbi to the end of
the END tag. The information ends below the last page of the address space. -/
theorem allocCalls_avoid_tags (hbytes : Holds m (mbi + 8#64) (serialise tags))
    (hroom : mbi.toNat + 8 + (serialise tags).length + 4096 ≤ 2 ^ 64)
    (hinit : bootMmInitTags m mbi fuel = some (some info))
    (hcalls : allocCalls (info.bootInfo m fb).mmapEntries (addrIsInUsedRange (info.bootInfo m fb))
      rounds n .start = some (answers, s)) :
    ∀ f ∈ answers, ∀ x, mbi.toNat ≤ x → x < (endAddr (mbi + 8#64) tags).toNat + 8 →
      ¬ (f.toNat ≤ x ∧ x < f.toNat + 4096) := by
  obtain ⟨_, hstart, l, t, hpath, hend⟩ := bootMmInitTags_eq_some hinit
  obtain rfl := hpath.end_unique (endPath_of_serialise hbytes)
  have hlen : (serialise tags).length = (tags.flatMap bytes).length + 8 := List.length_append
  have hlt : (endAddr (mbi + 8#64) tags).toNat = mbi.toNat + 8 + (tags.flatMap bytes).length := by
    rw [endAddr, BitVec.toNat_add, toNat_tagStart (by omega), BitVec.toNat_ofNat]
    omega
  intro f hf x hlow hhigh hpage
  obtain ⟨hanswer, hused⟩ := allocCalls_aligned (Nat.dvd_zero _) hcalls f hf
  have hapart := apart_of_not_used (t := endAddr (mbi + 8#64) tags) hstart hend (by omega) hanswer
    hused
  omega

/-- A memory map with the four pages from 0x10000 on, and an ELF tag without sections. -/
def fourPageTags : List MultibootTag :=
  [padded 6#32 (le32 24#32 ++ le32 0#32 ++ le32 0x10000#32 ++ le32 0#32 ++ le32 0x4000#32 ++
      le32 0#32 ++ le32 1#32 ++ le32 0#32) (by decide),
    padded 9#32 (List.replicate 12 0#8) (by decide)]

/-- The information is in the first page, and the last two are answered. -/
theorem allocCalls_avoid_tags_fourPages :
    let m := ofBytes (0x10000#64 + 8#64) (serialise fourPageTags)
    ∃ info answers s, bootMmInitTags m 0x10000#64 3 = some (some info) ∧
      allocCalls (info.bootInfo m none).mmapEntries (addrIsInUsedRange (info.bootInfo m none))
        3 2 .start = some (answers, s) ∧ answers = [0x12000#64, 0x13000#64] ∧
      ∀ f ∈ answers, ∀ x, 0x10000 ≤ x → x < 0x10050 → ¬ (f.toNat ≤ x ∧ x < f.toNat + 4096) := by
  intro m
  have hlen : (serialise fourPageTags).length = 72 := by rfl
  have hbytes : Holds m (0x10000#64 + 8#64) (serialise fourPageTags) :=
    holds_ofBytes (by rw [hlen]; decide)
  have hinit : bootMmInitTags m 0x10000#64 3 =
      some (some ⟨0x10008#64, 0x10030#64, 1#32, 0x10000#64, 0x11000#64⟩) := by decide +kernel
  have hboot : TagInfo.bootInfo m ⟨0x10008#64, 0x10030#64, 1#32, 0x10000#64, 0x11000#64⟩ none =
      ⟨[⟨0x10000#64, 0x4000#64, 1#32⟩], [], none, 0x10000#64, 0x11000#64⟩ := by decide +kernel
  obtain ⟨s, hcalls⟩ : ∃ s, allocCalls
      (TagInfo.bootInfo m ⟨0x10008#64, 0x10030#64, 1#32, 0x10000#64, 0x11000#64⟩ none).mmapEntries
      (addrIsInUsedRange
        (TagInfo.bootInfo m ⟨0x10008#64, 0x10030#64, 1#32, 0x10000#64, 0x11000#64⟩ none))
        3 2 .start = some ([0x12000#64, 0x13000#64], s) := by
    rw [hboot]
    exact ⟨_, rfl⟩
  exact ⟨_, _, s, hinit, hcalls, rfl,
    allocCalls_avoid_tags hbytes (by rw [hlen]; decide) hinit hcalls⟩

end Tags

end ClosureOS
