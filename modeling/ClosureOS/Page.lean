import ClosureOS.PageTypes
import Mathlib.Logic.Function.Basic

/-!
The page database: one Page entry for each physical frame, and the conversions
between entries, frame numbers and addresses (first half of mm/page_mm.cppm).
An entry is named by its index, the page frame number. Its list node is not a
field here: the lists that thread through the entries are sequences of frame
numbers kept by their owners.
-/
namespace ClosureOS

/-- enum page_type; type 0 is a hole in the memory map. -/
inductive PageType
  | nonExisted
  | normalMem
  | reserved
  | acpiReclaimable
  | nvs
  | badram
  | unknown
deriving DecidableEq, Repr

inductive MigrateType
  | unmovable
  | movable
deriving DecidableEq, Repr

/-- struct Page. A KMemCache or a PagePool is named by its number, and none is
the null pointer; freelist is the address of an object, 0 when null. -/
structure Page where
  type : PageType
  migrateType : MigrateType
  isFree : Bool
  isHead : Bool
  order : ℕ
  refCount : BitVec 32
  mapCount : BitVec 32
  lock : BitVec 32
  freelist : Word
  kc : Option ℕ
  pool : Option ℕ
  objNr : Word
deriving DecidableEq, Repr

/-- An entry whose bytes are all zero. -/
def Page.zero : Page :=
  { type := .nonExisted, migrateType := .unmovable, isFree := false, isHead := false, order := 0,
    refCount := 0#32, mapCount := 0#32, lock := 0#32, freelist := 0#64, kc := none, pool := none,
    objNr := 0#64 }

/-- The order bit-field has four bits. -/
def orderField (order : ℕ) : ℕ := order % 2 ^ 4

theorem orderField_of_lt {order : ℕ} (h : order < 11) : orderField order = order :=
  Nat.mod_eq_of_lt (by omega)

abbrev Pgdb := ℕ → Page

def sizeofPage : Word := 64#64

def pgdbBase : Word := kernPageDatabaseRegionBase

def physmemBase : Word := kernDirectMapRegionBase

/-- The address of the entry with index pfn. -/
def pageAddr (pfn : ℕ) : Word := pgdbBase + sizeofPage * BitVec.ofNat 64 pfn

/-- The index of the entry at an address: pointer subtraction from pgdb_base. -/
def pageIndex (addr : Word) : ℕ := (addr - pgdbBase).toNat / 64

def pageToPhys (p : ℕ) : Word := BitVec.ofNat 64 p * pageSize

def pageToVirt (p : ℕ) : Word := physmemBase + pageToPhys p

def virtToPhys (addr : Word) : Word := addr - physmemBase

def physToPage (addr : Word) : ℕ := ((addr &&& pageMask) / pageSize).toNat

def virtToPage (addr : Word) : ℕ := physToPage (virtToPhys addr)

/-- get_head_page: a tail page finds its head by masking its own address. -/
def getHeadPage (g : Pgdb) (p : ℕ) : ℕ :=
  if (g p).isHead then p
  else pageIndex (pageAddr p &&& ~~~(sizeofPage * BitVec.ofNat 64 (1 <<< (g p).order) - 1#64))

/-- The pages that a 64-bit address space has room for above the base of the direct
map. -/
def directMapPages : ℕ := 2 ^ 35

theorem toNat_physmemBase : physmemBase.toNat = 0xFFFF800000000000 := rfl

theorem toNat_pageToPhys {p : ℕ} (h : p < 2 ^ 52) : (pageToPhys p).toNat = 4096 * p := by
  rw [pageToPhys, BitVec.toNat_mul, toNat_pageSize, BitVec.toNat_ofNat]
  omega

theorem toNat_pageToVirt {p : ℕ} (h : p < directMapPages) :
    (pageToVirt p).toNat = 0xFFFF800000000000 + 4096 * p := by
  unfold directMapPages at h
  rw [pageToVirt, BitVec.toNat_add, toNat_pageToPhys (by omega), toNat_physmemBase]
  omega

theorem toNat_pageAddr (q : ℕ) :
    (pageAddr q).toNat = (0xFFFFF00000000000 + 64 * q) % 2 ^ 64 := by
  rw [pageAddr, BitVec.toNat_add, BitVec.toNat_mul, BitVec.toNat_ofNat]
  simp only [pgdbBase, kernPageDatabaseRegionBase, sizeofPage, BitVec.toNat_ofNat]
  omega

end ClosureOS
