import ClosureOS.PageTypes
import Mathlib.Data.List.Pairwise

/-!
What the boot stage of boot_mm.cpp reads from the multiboot information: the memory
map, the section headers of the kernel ELF, the frame buffer and the place of the
multiboot tags themselves. Of a section header only the fields that are read are kept.
-/
namespace ClosureOS

/-! ### Memory map -/

def multibootMemoryAvailable : BitVec 32 := 1#32

def multibootMemoryReserved : BitVec 32 := 2#32

def multibootMemoryAcpiReclaimable : BitVec 32 := 3#32

def multibootMemoryNvs : BitVec 32 := 4#32

def multibootMemoryBadram : BitVec 32 := 5#32

/-- struct multiboot_mmap_entry. -/
structure MmapEntry where
  addr : Word
  len : Word
  type : BitVec 32
deriving DecidableEq, Repr

namespace MmapEntry

/-- The end of the entry, without wrapping. -/
def stop (e : MmapEntry) : ℕ := e.addr.toNat + e.len.toNat

/-- The byte at x belongs to the entry. -/
def Has (e : MmapEntry) (x : ℕ) : Prop := e.addr.toNat ≤ x ∧ x < e.stop

instance (e : MmapEntry) (x : ℕ) : Decidable (e.Has x) := inferInstanceAs (Decidable (_ ∧ _))

/-- Two entries have no byte in common. -/
def Apart (e f : MmapEntry) : Prop := ∀ x, e.Has x → ¬ f.Has x

def Available (e : MmapEntry) : Prop := e.type = multibootMemoryAvailable

instance (e : MmapEntry) : Decidable e.Available := inferInstanceAs (Decidable (_ = _))

/-- Both ends of the entry are page boundaries. -/
def OnPageBounds (e : MmapEntry) : Prop := 4096 ∣ e.addr.toNat ∧ 4096 ∣ e.len.toNat

instance (e : MmapEntry) : Decidable e.OnPageBounds := inferInstanceAs (Decidable (_ ∧ _))

instance : Std.Symm Apart := ⟨fun _ _ h x hf he => h x he hf⟩

theorem pairwise_apart_of_bounds {entries : List MmapEntry}
    (h : entries.Pairwise fun e f => e.stop ≤ f.addr.toNat ∨ f.stop ≤ e.addr.toNat) :
    entries.Pairwise Apart := by
  refine h.imp fun hbounds x he hf => ?_
  have helow := he.1
  have hehigh := he.2
  have hflow := hf.1
  have hfhigh := hf.2
  omega

theorem eq_of_has {entries : List MmapEntry} (hdisj : entries.Pairwise Apart) {e f : MmapEntry}
    {x : ℕ} (he : e ∈ entries) (hf : f ∈ entries) (hex : e.Has x) (hfx : f.Has x) : e = f := by
  by_contra hne
  exact hdisj.forall he hf hne x hex hfx

theorem toNat_addr_add_len {e : MmapEntry} (h : e.stop < 2 ^ 64) :
    (e.addr + e.len).toNat = e.stop := by
  unfold stop at h
  rw [BitVec.toNat_add, Nat.mod_eq_of_lt h, stop]

/-- The end that is computed from the page of the first byte. -/
theorem toNat_base_add_len {e : MmapEntry} (h : e.stop < 2 ^ 64) :
    ((e.addr &&& pageMask) + e.len).toNat = e.addr.toNat / 4096 * 4096 + e.len.toNat := by
  unfold stop at h
  rw [BitVec.toNat_add, toNat_and_pageMask]
  omega

theorem toNat_addr_add_len_of_wrap {e : MmapEntry} (h : 2 ^ 64 ≤ e.stop) :
    (e.addr + e.len).toNat < e.addr.toNat := by
  unfold stop at h
  rw [BitVec.toNat_add]
  omega

end MmapEntry

/-! ### ELF sections -/

def shtProgbits : BitVec 32 := 1#32

def shtNobits : BitVec 32 := 8#32

def shfWrite : Word := 0x1#64

def shfAlloc : Word := 0x2#64

/-- struct elf64_shdr. -/
structure Elf64Shdr where
  shType : BitVec 32
  shFlags : Word
  shAddr : Word
  shOffset : Word
  shSize : Word
deriving DecidableEq, Repr

/-! ### Used ranges -/

/-- boot_fb_base and boot_fb_sz. -/
structure FrameBuffer where
  base : Word
  sz : Word
deriving DecidableEq, Repr

/-- boot_fb_end. -/
def FrameBuffer.stop (fb : FrameBuffer) : Word := fb.base + fb.sz

structure BootInfo where
  mmapEntries : List MmapEntry
  sections : List Elf64Shdr
  fb : Option FrameBuffer
  multibootTagStart : Word
  multibootTagEnd : Word
deriving DecidableEq, Repr

/-- seg_start in addr_is_in_used_range. -/
def segStart (sh : Elf64Shdr) : Word := 0x100000#64 + sh.shOffset

/-- seg_end in addr_is_in_used_range. -/
def segEnd (sh : Elf64Shdr) : Word := pageAlign (segStart sh + sh.shSize)

/-- The body of the section loop of addr_is_in_used_range. -/
def inSegment (addr : Word) (sh : Elf64Shdr) : Bool :=
  if sh.shType ≠ shtProgbits ∨ sh.shFlags &&& shfAlloc = 0#64 then false
  else decide (segStart sh ≤ addr ∧ addr < segEnd sh)

def inFrameBuffer (addr : Word) : Option FrameBuffer → Bool
  | some fb => decide (fb.base ≤ addr ∧ addr ≤ fb.stop)
  | none => false

def addrIsInUsedRange (info : BootInfo) (addr : Word) : Bool :=
  if info.sections.any (inSegment addr) then true
  else if inFrameBuffer addr info.fb then true
  else decide (info.multibootTagStart ≤ addr ∧ addr ≤ info.multibootTagEnd)

end ClosureOS
