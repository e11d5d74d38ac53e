import ClosureOS.BootAlloc

/-!
The rounds of the do-while loop in boot_mm_page_alloc, for any memory map. A round takes a
page of the map, or it finds none and leaves the cursor where it is. So the loop returns
within frameRounds rounds or never, also where the rounded start of an entry wraps to zero.
And whatever it returns is a page boundary or an error.
-/
namespace ClosureOS

open WordAlign

namespace BootCursor

/-- A current entry has a page left, and its bounds are page boundaries. -/
def InOrder (s : BootCursor) : Prop :=
  s.currEntry.isSome → 4096 ∣ s.currAvail.toNat ∧ 4096 ∣ s.currEnd.toNat ∧
    s.currAvail.toNat < s.currEnd.toNat

/-- The pages left in the entries from index i on. -/
def pagesFrom (entries : List MmapEntry) (i : ℕ) : ℕ := ((entries.drop i).map MmapEntry.pages).sum

/-- The pages that are left to take, of the current entry and of those behind it. -/
def pagesAhead (entries : List MmapEntry) (s : BootCursor) : ℕ :=
  (if s.currEntry.isSome then (s.currEnd.toNat - s.currAvail.toNat) / 4096 else 0) +
    pagesFrom entries (s.currEntryIdx + 1).toNat

/-- What every cursor keeps from the start of the boot on. -/
structure Reached (entries : List MmapEntry) (s : BootCursor) : Prop where
  inOrder : s.InOrder
  ahead : s.pagesAhead entries < frameRounds entries

end BootCursor

section Rounds

variable {entries : List MmapEntry} {used : Word → Bool} {s s' : BootCursor} {res : Word}
  {n m i : ℕ}

theorem BootCursor.Reached.start : BootCursor.start.Reached entries where
  inOrder := fun h => absurd h (by decide)
  ahead := by
    change 0 + ((entries.drop 0).map MmapEntry.pages).sum < frameRounds entries
    rw [List.drop_zero, frameRounds]
    omega

/-- The scan of any map: it keeps the cursor, or it finds an entry with a whole page. -/
inductive Scanned (s : BootCursor) (i : ℕ) (es : List MmapEntry) : BootCursor → Prop
  | nothing : Scanned s i es s
  | entry {before after : List MmapEntry} {e : MmapEntry} (hsplit : es = before ++ e :: after)
      (hpage : (pageAlign e.addr).toNat + 4096 ≤ ((e.addr + e.len) &&& pageMask).toNat) :
      Scanned s i es ⟨some (i + before.length), ((i + before.length : ℕ) : ℤ), pageAlign e.addr,
        (e.addr + e.len) &&& pageMask⟩

theorem Scanned.cons {e : MmapEntry} {es : List MmapEntry} (h : Scanned s (i + 1) es s') :
    Scanned s i (e :: es) s' := by
  cases h with
  | nothing => exact Scanned.nothing
  | @entry before after f hsplit hpage =>
    have hidx : i + 1 + before.length = i + (e :: before).length := by
      rw [List.length_cons]
      omega
    rw [hidx]
    exact Scanned.entry (by rw [hsplit, List.cons_append]) hpage

theorem findEntry_scanned {es : List MmapEntry} (h : findEntry s i es = some s') :
    Scanned s i es s' := by
  induction es generalizing i with
  | nil =>
    obtain rfl := Option.some.inj h
    exact Scanned.nothing
  | cons e es ih =>
    rw [findEntry] at h
    dsimp only at h
    split at h
    · split at h
      · exact absurd h (Option.some_ne_none _).symm
      · split at h
        · exact Scanned.cons (ih h)
        · next hkept =>
          obtain rfl := Option.some.inj h
          refine @Scanned.entry s i (e :: es) [] es e rfl ?_
          simp only [not_or, BitVec.lt_def, BitVec.toNat_sub, toNat_pageSize] at hkept
          omega
    · exact Scanned.cons (ih h)

/-- Taking a page of an entry that has one. -/
theorem takePage_ahead (hentry : s.currEntry.isSome) (hs : s.InOrder)
    (h : takePage s = (res, s')) :
    s'.InOrder ∧ s'.pagesAhead entries < s.pagesAhead entries := by
  obtain ⟨⟨a, ha⟩, ⟨b, hb⟩, hlt⟩ := hs hentry
  have hstop := s.currEnd.isLt
  have hnext : (s.currAvail + pageSize).toNat = s.currAvail.toNat + 4096 := by
    rw [BitVec.toNat_add, toNat_pageSize]
    omega
  have hend : s.currAvail + pageSize = s.currEnd ↔ s.currAvail.toNat + 4096 = s.currEnd.toNat := by
    rw [← BitVec.toNat_inj, hnext]
  rw [takePage,
    if_neg (by rw [Option.isNone_iff_eq_none]; exact Option.isSome_iff_ne_none.mp hentry)] at h
  obtain ⟨-, rfl⟩ := Prod.mk.inj h
  simp only [BootCursor.InOrder, BootCursor.pagesAhead, hnext, hend, hentry, if_true]
  split
  · exact ⟨fun hnone => absurd hnone (by simp), by simp; omega⟩
  · exact ⟨fun _ => ⟨⟨a + 1, by omega⟩, ⟨b, hb⟩, by omega⟩, by omega⟩

/-- The entry that a scan finds has no more pages than were ahead. -/
theorem Scanned.ahead (h : Scanned s i (entries.drop i) s') (hnull : s.currEntry = none)
    (hi : (s.currEntryIdx + 1).toNat = i) :
    s' = s ∨ s'.currEntry.isSome ∧ s'.InOrder ∧ s'.pagesAhead entries ≤ s.pagesAhead entries := by
  cases h with
  | nothing => exact Or.inl rfl
  | @entry before after e hsplit hpage =>
    refine Or.inr ⟨rfl, fun _ => ⟨dvd_pageAlign _, dvd_and_pageMask _, ?_⟩, ?_⟩
    · dsimp only
      omega
    · have hafter : entries.drop (i + before.length + 1) = after := by
        rw [Nat.add_assoc, ← List.drop_drop, hsplit]
        simp
      have hidx : (((i + before.length : ℕ) : ℤ) + 1).toNat = i + before.length + 1 := by omega
      simp only [BootCursor.pagesAhead, BootCursor.pagesFrom, hnull, hi, hidx, hafter, hsplit,
        List.map_append, List.map_cons, List.sum_append, List.sum_cons, MmapEntry.pages]
      simp

/-- One round takes a page, or the cursor stays. -/
theorem bootMmPageAllocInternal_ahead (hs : s.InOrder)
    (h : bootMmPageAllocInternal entries s = some (res, s')) :
    s' = s ∨ s'.InOrder ∧ s'.pagesAhead entries < s.pagesAhead entries := by
  unfold bootMmPageAllocInternal at h
  split at h
  · next hnull =>
    have hnull : s.currEntry = none := Option.isNone_iff_eq_none.mp hnull
    obtain ⟨u, hfind, htake⟩ := Option.map_eq_some_iff.mp h
    rcases (findEntry_scanned hfind).ahead hnull rfl with rfl | ⟨hentry, hu, hle⟩
    · left
      rw [takePage, hnull] at htake
      exact (Prod.mk.inj htake).2.symm
    · obtain ⟨hs', hlt⟩ : s'.InOrder ∧ s'.pagesAhead entries < u.pagesAhead entries :=
        takePage_ahead hentry hu htake
      exact Or.inr ⟨hs', hlt.trans_le hle⟩
  · next hsome =>
    have hentry : s.currEntry.isSome := by simpa [Option.isSome_iff_ne_none] using hsome
    exact Or.inr (takePage_ahead hentry hs (Option.some.inj h))

/-! ### Enough rounds -/

theorem BootCursor.Reached.internal (hs : s.Reached entries)
    (h : bootMmPageAllocInternal entries s = some (res, s')) : s'.Reached entries := by
  rcases bootMmPageAllocInternal_ahead hs.inOrder h with rfl | ⟨hs', hlt⟩
  · exact hs
  · exact ⟨hs', hlt.trans hs.ahead⟩

theorem BootCursor.Reached.alloc (hs : s.Reached entries)
    (h : bootMmPageAlloc entries used n s = some (res, s')) : s'.Reached entries := by
  induction n generalizing s with
  | zero => exact absurd h (Option.some_ne_none _).symm
  | succ n ih =>
    rcases bootMmPageAlloc_succ_eq_some.mp h with ⟨_, hcall⟩ | ⟨f, u, _, hcall, h⟩
    · exact hs.internal hcall
    · exact ih (hs.internal hcall) h

/-- A used answer that leaves the cursor where it is comes again in every round. -/
theorem bootMmPageAlloc_eq_none_of_stays (hcall : bootMmPageAllocInternal entries s = some (res, s))
    (hused : used res) (n : ℕ) : bootMmPageAlloc entries used n s = none := by
  induction n with
  | zero => rfl
  | succ n ih => simp only [bootMmPageAlloc, hcall, hused, if_true, ih]

/-- More rounds than there are pages ahead give whatever any number of rounds gives. -/
theorem bootMmPageAlloc_of_ahead_lt (hs : s.InOrder) (hm : s.pagesAhead entries < m)
    (h : bootMmPageAlloc entries used n s = some (res, s')) :
    bootMmPageAlloc entries used m s = some (res, s') := by
  induction n generalizing s m with
  | zero => exact absurd h (Option.some_ne_none _).symm
  | succ n ih =>
    obtain ⟨m, rfl⟩ := Nat.exists_eq_add_one_of_ne_zero (Nat.ne_zero_of_lt hm)
    rw [bootMmPageAlloc_succ_eq_some] at h ⊢
    rcases h with hfirst | ⟨f, u, hused, hcall, h⟩
    · exact Or.inl hfirst
    · rcases bootMmPageAllocInternal_ahead hs hcall with rfl | ⟨hu, hlt⟩
      · rw [bootMmPageAlloc_eq_none_of_stays hcall hused] at h
        exact absurd h (Option.some_ne_none _).symm
      · exact Or.inr ⟨f, u, hused, hcall, ih hu (by omega) h⟩

/-- The do-while loop of boot_mm_page_alloc returns after some number of rounds if and only if
it does so within frameRounds of them. -/
theorem bootMmPageAlloc_frameRounds (hs : s.Reached entries) :
    bootMmPageAlloc entries used (frameRounds entries) s = some (res, s') ↔
      ∃ n, bootMmPageAlloc entries used n s = some (res, s') :=
  ⟨fun h => ⟨_, h⟩, fun ⟨_, h⟩ => bootMmPageAlloc_of_ahead_lt hs.inOrder hs.ahead h⟩

/-! ### Answers on page boundaries -/

/-- An answer that is a page boundary or an error. -/
def PageOrError (res : Word) : Prop := 4096 ∣ res.toNat ∨ res = errPtr enomem

/-- The scan leaves the cursor on a page boundary, for any memory map. -/
theorem Scanned.aligned {i : ℕ} {es : List MmapEntry} (h : Scanned s i es s')
    (haligned : 4096 ∣ s.currAvail.toNat) : 4096 ∣ s'.currAvail.toNat := by
  cases h with
  | nothing => exact haligned
  | entry hsplit hpage => exact dvd_pageAlign _

theorem takePage_aligned (haligned : 4096 ∣ s.currAvail.toNat) :
    PageOrError (takePage s).1 ∧ 4096 ∣ (takePage s).2.currAvail.toNat := by
  unfold takePage
  split
  · exact ⟨Or.inr rfl, haligned⟩
  · refine ⟨Or.inl haligned, ?_⟩
    have hsize := toNat_pageSize
    dsimp only
    rw [BitVec.toNat_add, hsize]
    omega

theorem bootMmPageAllocInternal_aligned (haligned : 4096 ∣ s.currAvail.toNat)
    (h : bootMmPageAllocInternal entries s = some (res, s')) :
    PageOrError res ∧ 4096 ∣ s'.currAvail.toNat := by
  unfold bootMmPageAllocInternal at h
  split at h
  · obtain ⟨u, hfind, htake⟩ := Option.map_eq_some_iff.mp h
    have hu := takePage_aligned ((findEntry_scanned hfind).aligned haligned)
    rw [htake] at hu
    exact hu
  · have hs := takePage_aligned haligned
    rw [Option.some.inj h] at hs
    exact hs

theorem bootMmPageAlloc_aligned {fuel : ℕ} (haligned : 4096 ∣ s.currAvail.toNat)
    (h : bootMmPageAlloc entries used fuel s = some (res, s')) :
    (PageOrError res ∧ used res = false) ∧ 4096 ∣ s'.currAvail.toNat := by
  induction fuel generalizing s with
  | zero => exact absurd h (Option.some_ne_none _).symm
  | succ fuel ih =>
    rcases bootMmPageAlloc_succ_eq_some.mp h with ⟨hunused, hcall⟩ | ⟨f, u, _, hcall, h⟩
    · obtain ⟨hres, hnext⟩ := bootMmPageAllocInternal_aligned haligned hcall
      exact ⟨⟨hres, hunused⟩, hnext⟩
    · exact ih (bootMmPageAllocInternal_aligned haligned hcall).2 h

end Rounds

/-- boot_mm_page_alloc: no result when the processor halts or the loop has no end. -/
def bootAlloc (info : BootInfo) : BootCursor → Option (Word × BootCursor) :=
  bootMmPageAlloc info.mmapEntries (addrIsInUsedRange info) (frameRounds info.mmapEntries)

end ClosureOS
