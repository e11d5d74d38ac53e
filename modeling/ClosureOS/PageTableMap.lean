import ClosureOS.ByteMemory
import ClosureOS.PageTypes

/-!
boot_mm_pgtable_map in boot_mm.cpp: one page is entered into a four-level page table,
and missing tables are allocated on the way. The allocator is a parameter: a function
on its own state that has no result when it does not return. Memory is addressed
physically. The walk is the one of the processor: an entry counts when its P bit is set.
-/
namespace ClosureOS

open ByteMemory WordAlign

/-! ### err.h -/

def maxErrno : Word := 4095#64

/-- ERR_PTR(-errno). -/
def errPtr (errno : ℕ) : Word := -BitVec.ofNat 64 errno

/-- IS_ERR_PTR, an unsigned comparison. -/
def isErrPtr (p : Word) : Prop := p > -maxErrno

instance (p : Word) : Decidable (isErrPtr p) := inferInstanceAs (Decidable (_ < _))

theorem isErrPtr_enomem : isErrPtr (errPtr enomem) := by decide

/-! ### Entries -/

def ptEntryMask : Word := 0b111111111#64

def pteEntry (va : Word) : ℕ := ((va >>> 12) &&& ptEntryMask).toNat

def pmdEntry (va : Word) : ℕ := ((va >>> 21) &&& ptEntryMask).toNat

def pudEntry (va : Word) : ℕ := ((va >>> 30) &&& ptEntryMask).toNat

def pgdEntry (va : Word) : ℕ := ((va >>> 39) &&& ptEntryMask).toNat

def pdeDefault : Word := 0b11#64

/-- The address of entry i of the table at a physical address. -/
def entryAddr (table : Word) (i : ℕ) : Word := table + 8#64 * BitVec.ofNat 64 i

section Map

variable {σ : Type}

/-- The code that is repeated at each upper level: an empty entry gets a new table,
cleared before use. The flag says whether there was memory. -/
def ensureTable (alloc : σ → Option (Word × σ)) (entry : Word) (s : σ) (m : Memory) :
    Option (Bool × σ × Memory) :=
  if load64 m entry = 0#64 then
    match alloc s with
    | none => none
    | some (page, s) =>
      let m := store64 m entry page
      if isErrPtr (load64 m entry) then some (false, s, store64 m entry 0#64)
      else
        let m := memset m (load64 m entry) 0#8 4096
        some (true, s, store64 m entry (load64 m entry ||| pdeDefault))
  else some (true, s, m)

def bootMmPgtableMap (alloc : σ → Option (Word × σ)) (pgtable va pa attr : Word) (s : σ)
    (m : Memory) : Option (ℤ × σ × Memory) :=
  let pgd := entryAddr pgtable (pgdEntry va)
  match ensureTable alloc pgd s m with
  | none => none
  | some (false, s, m) => some (-enomem, s, m)
  | some (true, s, m) =>
    let pud := entryAddr (load64 m pgd &&& pageMask) (pudEntry va)
    match ensureTable alloc pud s m with
    | none => none
    | some (false, s, m) => some (-enomem, s, m)
    | some (true, s, m) =>
      let pmd := entryAddr (load64 m pud &&& pageMask) (pmdEntry va)
      match ensureTable alloc pmd s m with
      | none => none
      | some (false, s, m) => some (-enomem, s, m)
      | some (true, s, m) =>
        let pte := entryAddr (load64 m pmd &&& pageMask) (pteEntry va)
        some (0, s, store64 m pte (pa ||| attr))

/-- The next n answers are frames. -/
def Supplies (alloc : σ → Option (Word × σ)) : ℕ → σ → Prop
  | 0, _ => True
  | n + 1, s => ∃ x s', alloc s = some (x, s') ∧ ¬ isErrPtr x ∧ Supplies alloc n s'

variable {alloc : σ → Option (Word × σ)} {s : σ} {n k : ℕ}

theorem Supplies.mono (h : Supplies alloc n s) (hk : k ≤ n) : Supplies alloc k s := by
  induction k generalizing n s with
  | zero => trivial
  | succ k ih =>
    cases n with
    | zero => omega
    | succ n =>
      obtain ⟨x, s', halloc, herr, hrest⟩ := h
      exact ⟨x, s', halloc, herr, ih hrest (by omega)⟩

theorem ensureTable_supplied (h : Supplies alloc (n + 1) s) (entry : Word) (m : Memory) :
    ∃ s' m', ensureTable alloc entry s m = some (true, s', m') ∧ Supplies alloc n s' := by
  unfold ensureTable
  by_cases hzero : load64 m entry = 0#64
  · obtain ⟨x, s', halloc, herr, hrest⟩ := h
    simp only [if_pos hzero, halloc, load64_store64_same, if_neg herr]
    exact ⟨s', _, rfl, hrest⟩
  · simp only [if_neg hzero]
    exact ⟨s, m, rfl, h.mono (Nat.le_succ n)⟩

/-- Three frames are enough for a call, whatever the tables are. -/
theorem bootMmPgtableMap_supplied (h : Supplies alloc (n + 3) s) (pgtable va pa attr : Word)
    (m : Memory) : ∃ s' m', bootMmPgtableMap alloc pgtable va pa attr s m = some (0, s', m') ∧
      Supplies alloc n s' := by
  unfold bootMmPgtableMap
  simp only
  obtain ⟨s₁, m₁, heq₁, h₁⟩ := ensureTable_supplied h (entryAddr pgtable (pgdEntry va)) m
  simp only [heq₁]
  obtain ⟨s₂, m₂, heq₂, h₂⟩ := ensureTable_supplied h₁ (entryAddr
    (load64 m₁ (entryAddr pgtable (pgdEntry va)) &&& pageMask) (pudEntry va)) m₁
  simp only [heq₂]
  generalize entryAddr (load64 m₁ (entryAddr pgtable (pgdEntry va)) &&& pageMask) (pudEntry va) =
    pud
  obtain ⟨s₃, m₃, heq₃, h₃⟩ := ensureTable_supplied h₂
    (entryAddr (load64 m₂ pud &&& pageMask) (pmdEntry va)) m₂
  simp only [heq₃]
  exact ⟨s₃, _, rfl, h₃⟩

end Map

/-! ### The walk -/

/-- The P bit of an entry. -/
def present (e : Word) : Bool := e.getLsbD 0

def descend (m : Memory) (table : Word) (i : ℕ) : Option Word :=
  let e := load64 m (entryAddr table i)
  if present e then some (e &&& pageMask) else none

/-- The table reached from the root by a path of indices. -/
def tableAt (m : Memory) (root : Word) (path : List ℕ) : Option Word :=
  path.foldlM (descend m) root

/-- The entry that a four-level walk yields. -/
def walk (m : Memory) (root va : Word) : Option Word :=
  (tableAt m root [pgdEntry va, pudEntry va, pmdEntry va]).bind fun t =>
    let e := load64 m (entryAddr t (pteEntry va))
    if present e then some e else none

/-- Two addresses agree in bits 12 to 47. -/
def SamePage (va va' : Word) : Prop := va.extractLsb 47 12 = va'.extractLsb 47 12

instance (va va' : Word) : Decidable (SamePage va va') := inferInstanceAs (Decidable (_ = _))

/-- The four indices of an address. -/
def pathOf (va : Word) : List ℕ := [pgdEntry va, pudEntry va, pmdEntry va, pteEntry va]

theorem toNat_field (va : Word) (k : ℕ) :
    ((va >>> k) &&& ptEntryMask).toNat = va.toNat / 2 ^ k % 512 := by
  have h := toNat_and_lowMask (k := 9) (va >>> k) (by decide)
  rw [BitVec.toNat_ushiftRight, Nat.shiftRight_eq_div_pow] at h
  exact h

theorem entry_lt (va : Word) :
    pgdEntry va < 512 ∧ pudEntry va < 512 ∧ pmdEntry va < 512 ∧ pteEntry va < 512 := by
  simp only [pgdEntry, pudEntry, pmdEntry, pteEntry, toNat_field]
  omega

theorem samePage_iff_toNat {va va' : Word} :
    SamePage va va' ↔ va.toNat / 4096 % 2 ^ 36 = va'.toNat / 4096 % 2 ^ 36 := by
  have hslice : ∀ x : Word, (x.extractLsb 47 12).toNat = x.toNat / 4096 % 2 ^ 36 := by
    intro x
    rw [BitVec.extractLsb_toNat, Nat.shiftRight_eq_div_pow]
  rw [← hslice, ← hslice]
  exact ⟨fun h => congrArg BitVec.toNat h, fun h => BitVec.eq_of_toNat_eq h⟩

/-- Agreement in bits 12 to 47 is agreement of the four indices. -/
theorem samePage_iff {va va' : Word} : SamePage va va' ↔ pathOf va = pathOf va' := by
  rw [samePage_iff_toNat]
  simp only [pathOf, pgdEntry, pudEntry, pmdEntry, pteEntry, toNat_field, List.cons.injEq,
    and_true]
  omega

/-! ### Where entries lie -/

section Frames

variable {t u x : Word} {i j : ℕ}

/-- A table starts at a page boundary. -/
def PageAligned (t : Word) : Prop := 4096 ∣ t.toNat

theorem PageAligned.inFrame (ht : PageAligned t) :
    InRange t 4096 x ↔ x.toNat / 4096 = t.toNat / 4096 := by
  obtain ⟨k, hk⟩ := ht
  rw [inRange_iff (by omega)]
  omega

theorem PageAligned.toNat_entryAddr (ht : PageAligned t) (hi : i < 512) :
    (entryAddr t i).toNat = t.toNat + 8 * i := by
  obtain ⟨k, hk⟩ := ht
  rw [entryAddr, BitVec.toNat_add, BitVec.toNat_mul]
  simp only [BitVec.toNat_ofNat]
  omega

theorem PageAligned.inRange_entry (ht : PageAligned t) (hi : i < 512) :
    InRange (entryAddr t i) 8 x ↔ t.toNat + 8 * i ≤ x.toNat ∧ x.toNat < t.toNat + 8 * i + 8 := by
  have haddr := ht.toNat_entryAddr hi
  obtain ⟨k, hk⟩ := ht
  rw [inRange_iff (by omega), haddr]

theorem PageAligned.entry_inFrame (ht : PageAligned t) (hi : i < 512)
    (hx : InRange (entryAddr t i) 8 x) : InRange t 4096 x := by
  rw [ht.inRange_entry hi] at hx
  obtain ⟨k, hk⟩ := ht
  rw [inRange_iff (by omega)]
  omega

/-- Different entries, of one table or of two, do not overlap. -/
theorem entries_apart (ht : PageAligned t) (hu : PageAligned u) (hi : i < 512) (hj : j < 512)
    (hne : t ≠ u ∨ i ≠ j) (hx : InRange (entryAddr t i) 8 x) : ¬ InRange (entryAddr u j) 8 x := by
  rw [ht.inRange_entry hi] at hx
  rw [hu.inRange_entry hj]
  have hneq : t.toNat ≠ u.toNat ∨ i ≠ j :=
    hne.imp_left fun h heq => h (BitVec.eq_of_toNat_eq heq)
  obtain ⟨k, hk⟩ := ht
  obtain ⟨l, hl⟩ := hu
  omega

theorem frames_apart (ht : PageAligned t) (hu : PageAligned u) (hne : t ≠ u)
    (hx : InRange t 4096 x) : ¬ InRange u 4096 x := by
  rw [ht.inFrame] at hx
  rw [hu.inFrame]
  intro hxu
  apply hne
  apply BitVec.eq_of_toNat_eq
  obtain ⟨k, hk⟩ := ht
  obtain ⟨l, hl⟩ := hu
  omega

theorem load64_zero {m : Memory} {a : Word} (h : ∀ x, InRange a 8 x → m x = 0#8) :
    load64 m a = 0#64 := by
  have hcongr : load64 m a = load64 (fun _ => 0#8) a := load64_congr h
  rw [hcongr]
  simp [load64, List.range_succ]

/-- The entry of a table frame: it is not zero, it is present and names the frame. -/
theorem tableEntry (ht : PageAligned t) : t ||| pdeDefault ≠ 0#64 ∧ present (t ||| pdeDefault) ∧
    (t ||| pdeDefault) &&& pageMask = t := by
  have hsum : (t ||| pdeDefault).toNat = t.toNat + 3 :=
    toNat_or_of_dvd (k := 12) t pdeDefault ht (by decide)
  refine ⟨?_, by simp [present, pdeDefault], ?_⟩
  · intro hzero
    rw [hzero] at hsum
    simp only [BitVec.toNat_ofNat, Nat.zero_mod] at hsum
    omega
  · apply BitVec.eq_of_toNat_eq
    rw [toNat_and_pageMask, hsum]
    obtain ⟨k, hk⟩ := ht
    omega

/-- A page-aligned answer of the allocator is not taken for an error. -/
theorem not_isErrPtr (ht : PageAligned t) : ¬ isErrPtr t := by
  obtain ⟨k, hk⟩ := ht
  simp only [isErrPtr, maxErrno, gt_iff_lt, BitVec.lt_def, BitVec.toNat_neg, BitVec.toNat_ofNat]
  omega

end Frames

end ClosureOS
