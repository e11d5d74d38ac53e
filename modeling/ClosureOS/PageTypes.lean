import ClosureOS.WordAlign

/-!
Machine words, page sizes, the virtual memory layout of the kernel and its error numbers:
asm/page_types.h, mm/types.cppm, mm/virt_layout.cppm and errno.h. The kernel is built for
x86_64 only, so size_t and every address is a 64-bit word.
-/
namespace ClosureOS

open WordAlign

abbrev Word := BitVec 64

def pageShift : ℕ := 12

def pageSize : Word := 1#64 <<< pageShift

def pageMask : Word := ~~~(pageSize - 1#64)

/-- PAGE_ALIGN: round up to a page boundary, wrapping at the top of the word. -/
def pageAlign (addr : Word) : Word := (addr + (pageSize - 1#64)) &&& pageMask

@[simp] theorem toNat_pageSize : pageSize.toNat = 4096 := rfl

theorem pageSize_eq : pageSize = 4096#64 := rfl

theorem pageMask_eq : pageMask = highMask 64 12 := rfl

/-- Masking with PAGE_MASK rounds down to a page boundary. -/
theorem toNat_and_pageMask (x : Word) : (x &&& pageMask).toNat = x.toNat / 4096 * 4096 := by
  rw [pageMask_eq, toNat_and_highMask]
  rfl

theorem toNat_pageAlign (x : Word) :
    (pageAlign x).toNat = (x.toNat + 4095) % 2 ^ 64 / 4096 * 4096 := by
  rw [pageAlign, toNat_and_pageMask, BitVec.toNat_add]
  rfl

theorem dvd_and_pageMask (x : Word) : 4096 ∣ (x &&& pageMask).toNat := by
  rw [toNat_and_pageMask]
  exact Nat.dvd_mul_left _ _

theorem dvd_pageAlign (x : Word) : 4096 ∣ (pageAlign x).toNat := by
  rw [toNat_pageAlign]
  exact Nat.dvd_mul_left _ _

/-! ### Virtual memory layout -/

def kernDirectMapRegionBase : Word := 0xFFFF800000000000#64
def kernDirectMapRegionEnd : Word := 0xFFFFBFFFFFFFFFFF#64

def kernPageDatabaseRegionBase : Word := 0xFFFFF00000000000#64

/-! ### errno.h -/

def enomem : ℕ := 12

def efault : ℕ := 14

end ClosureOS
