import ClosureOS.BootInfo
import ClosureOS.PageTableMap
import Mathlib.Algebra.Order.BigOperators.Group.List
import Mathlib.Data.List.Range
import Mathlib.Data.List.TakeDrop

/-!
The linear page allocator of the boot stage, boot_mm_page_alloc in boot_mm.cpp. It
scans the memory map in table order with a cursor in static variables and skips the
frames in a used range. At any time the frames of the map split into those that the
cursor has passed and those that are pending; a call moves frames from one side to the
other and answers the last one moved.
-/
namespace ClosureOS

open WordAlign

/-- The static variables of the allocator. curr_entry always points to the entry with
index curr_entry_idx or is null. -/
structure BootCursor where
  currEntry : Option ℕ
  currEntryIdx : ℤ
  currAvail : Word
  currEnd : Word
deriving DecidableEq, Repr

def BootCursor.start : BootCursor := ⟨none, -1, 0#64, 0#64⟩

/-- The scan for the next entry, from index i on. An entry whose end wraps halts the
processor: no result. -/
def findEntry (s : BootCursor) : ℕ → List MmapEntry → Option BootCursor
  | _, [] => some s
  | i, e :: es =>
    if e.type = multibootMemoryAvailable then
      let base := e.addr
      let stop := base + e.len
      if base > stop then none
      else
        let base := pageAlign base
        let stop := stop &&& pageMask
        if stop < base ∨ stop - base < pageSize then findEntry s (i + 1) es
        else some ⟨some i, i, base, stop⟩
    else findEntry s (i + 1) es

/-- The end of boot_mm_page_alloc_internal: the next page of the current entry. -/
def takePage (s : BootCursor) : Word × BootCursor :=
  if s.currEntry.isNone then (errPtr enomem, s)
  else
    let res := s.currAvail
    let avail := s.currAvail + pageSize
    (res, { s with
      currAvail := avail, currEntry := if avail = s.currEnd then none else s.currEntry })

def bootMmPageAllocInternal (entries : List MmapEntry) (s : BootCursor) :
    Option (Word × BootCursor) :=
  if s.currEntry.isNone then
    let i := (s.currEntryIdx + 1).toNat
    (findEntry s i (entries.drop i)).map takePage
  else some (takePage s)

/-- The do-while loop of boot_mm_page_alloc, cut off after a number of rounds: no result when
the processor halts or the rounds run out. -/
def bootMmPageAlloc (entries : List MmapEntry) (used : Word → Bool) : ℕ → BootCursor →
    Option (Word × BootCursor)
  | 0, _ => none
  | n + 1, s =>
    match bootMmPageAllocInternal entries s with
    | none => none
    | some (res, s) => if used res then bootMmPageAlloc entries used n s else some (res, s)

/-- The loop returns the page of its first round, or that page is used and the rounds after it
return. -/
theorem bootMmPageAlloc_succ_eq_some {entries : List MmapEntry} {used : Word → Bool} {n : ℕ}
    {s s' : BootCursor} {res : Word} :
    bootMmPageAlloc entries used (n + 1) s = some (res, s') ↔
      used res = false ∧ bootMmPageAllocInternal entries s = some (res, s') ∨
      ∃ f u, used f ∧ bootMmPageAllocInternal entries s = some (f, u) ∧
        bootMmPageAlloc entries used n u = some (res, s') := by
  rw [bootMmPageAlloc]
  cases hcall : bootMmPageAllocInternal entries s with
  | none => simp
  | some out =>
    obtain ⟨f, u⟩ := out
    by_cases hused : used f
    · simp only [if_pos hused, Option.some.injEq, Prod.mk.injEq]
      constructor
      · exact fun h => Or.inr ⟨f, u, hused, ⟨rfl, rfl⟩, h⟩
      · rintro (⟨hfree, rfl, rfl⟩ | ⟨_, _, _, ⟨rfl, rfl⟩, h⟩)
        · exact absurd hused (by simp [hfree])
        · exact h
    · simp only [if_neg hused, Option.some.injEq, Prod.mk.injEq]
      constructor
      · rintro ⟨rfl, rfl⟩
        exact Or.inl ⟨eq_false_of_ne_true hused, rfl, rfl⟩
      · rintro (⟨_, rfl, rfl⟩ | ⟨_, _, hused', ⟨rfl, rfl⟩, _⟩)
        · exact ⟨rfl, rfl⟩
        · exact absurd hused' hused

/-- The pages between the ends of an entry, as the code rounds these. -/
def MmapEntry.pages (e : MmapEntry) : ℕ :=
  (((e.addr + e.len) &&& pageMask).toNat - (pageAlign e.addr).toNat) / 4096

/-- Every round but the last takes a page of the map, so that a loop that has not returned
after so many rounds never does. -/
def frameRounds (entries : List MmapEntry) : ℕ := (entries.map MmapEntry.pages).sum + 1

/-! ### Frames -/

/-- The addresses of the frames with numbers from a to b - 1. -/
def framesBetween (a b : ℕ) : List Word :=
  (List.range' a (b - a)).map fun n => BitVec.ofNat 64 (4096 * n)

theorem mem_framesBetween {a b : ℕ} {f : Word} :
    f ∈ framesBetween a b ↔ ∃ n, a ≤ n ∧ n < b ∧ f = BitVec.ofNat 64 (4096 * n) := by
  simp only [framesBetween, List.mem_map, List.mem_range'_1]
  constructor
  · rintro ⟨n, hn, rfl⟩
    exact ⟨n, hn.1, by omega, rfl⟩
  · rintro ⟨n, ha, hb, rfl⟩
    exact ⟨n, ⟨ha, by omega⟩, rfl⟩

theorem framesBetween_nil {a b : ℕ} (h : b ≤ a) : framesBetween a b = [] := by
  rw [framesBetween, Nat.sub_eq_zero_of_le h]
  rfl

theorem framesBetween_cons {a b : ℕ} (h : a < b) :
    framesBetween a b = BitVec.ofNat 64 (4096 * a) :: framesBetween (a + 1) b := by
  obtain ⟨k, rfl⟩ := Nat.exists_eq_add_of_lt h
  have hleft : a + k + 1 - a = k + 1 := by omega
  have hright : a + k + 1 - (a + 1) = k := by omega
  rw [framesBetween, hleft, List.range'_succ, List.map_cons, framesBetween, hright]

theorem framesBetween_concat {a b : ℕ} (h : a ≤ b) :
    framesBetween a (b + 1) = framesBetween a b ++ [BitVec.ofNat 64 (4096 * b)] := by
  obtain ⟨k, rfl⟩ := Nat.exists_eq_add_of_le h
  have hleft : a + k + 1 - a = k + 1 := by omega
  have hright : a + k - a = k := by omega
  rw [framesBetween, hleft, List.range'_concat, List.map_append, framesBetween, hright]
  simp

namespace MmapEntry

/-- The number of the first whole frame of an entry. -/
def firstPfn (e : MmapEntry) : ℕ := (e.addr.toNat + 4095) / 4096

/-- The number of the frame after the last whole one. -/
def endPfn (e : MmapEntry) : ℕ := e.stop / 4096

/-- The whole frames of an available entry that does not wrap. -/
def frames (e : MmapEntry) : List Word :=
  if e.Available ∧ e.stop < 2 ^ 64 then framesBetween e.firstPfn e.endPfn else []

/-- Rounding the start of the entry up to a page boundary does not wrap. -/
def AlignSafe (e : MmapEntry) : Prop := e.Available → e.addr.toNat + 4095 < 2 ^ 64

instance (e : MmapEntry) : Decidable e.AlignSafe := inferInstanceAs (Decidable (_ → _))

end MmapEntry

/-- All frames that the allocator can hand out, in the order of the table. -/
def allFrames (entries : List MmapEntry) : List Word := entries.flatMap MmapEntry.frames

/-! ### The cursor -/

/-- The cursor is at its start, or inside an available entry with at least one frame
passed. -/
inductive Placed (entries : List MmapEntry) : BootCursor → Prop
  | start : Placed entries .start
  | inside {i n : ℕ} {e : MmapEntry} (hentry : entries[i]? = some e) (havail : e.Available)
      (hstop : e.stop < 2 ^ 64) (hfirst : e.firstPfn < n) (hlast : n ≤ e.endPfn) :
      Placed entries ⟨if n = e.endPfn then none else some i, i, BitVec.ofNat 64 (4096 * n),
        BitVec.ofNat 64 (4096 * e.endPfn)⟩

namespace BootCursor

/-- The frames that the cursor has passed. -/
def taken (entries : List MmapEntry) (s : BootCursor) : List Word :=
  if s.currEntryIdx < 0 then []
  else
    (entries.take s.currEntryIdx.toNat).flatMap MmapEntry.frames ++
      (entries[s.currEntryIdx.toNat]?.map fun e =>
        framesBetween e.firstPfn (s.currAvail.toNat / 4096)).getD []

/-- The frames that are ahead of the cursor. -/
def pending (entries : List MmapEntry) (s : BootCursor) : List Word :=
  framesBetween (s.currAvail.toNat / 4096) (s.currEnd.toNat / 4096) ++
    (entries.drop (s.currEntryIdx + 1).toNat).flatMap MmapEntry.frames

end BootCursor

section Cursor

variable {entries : List MmapEntry} {used : Word → Bool} {s s' : BootCursor} {e : MmapEntry}
  {c : Option ℕ} {i n m : ℕ} {res : Word}

theorem toNat_frame (h : 4096 * n < 2 ^ 64) : (BitVec.ofNat 64 (4096 * n)).toNat = 4096 * n := by
  rw [BitVec.toNat_ofNat, Nat.mod_eq_of_lt h]

theorem toNat_frame_div (h : 4096 * n < 2 ^ 64) :
    (BitVec.ofNat 64 (4096 * n)).toNat / 4096 = n := by
  rw [toNat_frame h]
  omega

theorem framesBetween_append {a b d : ℕ} (hab : a ≤ b) (hbd : b ≤ d) :
    framesBetween a b ++ framesBetween b d = framesBetween a d := by
  induction d, hbd using Nat.le_induction with
  | base => rw [framesBetween_nil le_rfl, List.append_nil]
  | succ d hbd ih =>
    rw [framesBetween_concat hbd, ← List.append_assoc, ih, framesBetween_concat (hab.trans hbd)]

theorem taken_start : BootCursor.start.taken entries = [] := rfl

theorem taken_inside (hentry : entries[i]? = some e) (hn : 4096 * n < 2 ^ 64) (stop : Word) :
    BootCursor.taken entries ⟨c, i, BitVec.ofNat 64 (4096 * n), stop⟩ =
      (entries.take i).flatMap MmapEntry.frames ++ framesBetween e.firstPfn n := by
  have hi : ¬ (i : ℤ) < 0 := by omega
  simp only [BootCursor.taken, if_neg hi, Int.toNat_natCast, hentry, Option.map_some,
    Option.getD_some, toNat_frame_div hn]

theorem pending_inside (hn : 4096 * n < 2 ^ 64) (hm : 4096 * m < 2 ^ 64) :
    BootCursor.pending entries ⟨c, i, BitVec.ofNat 64 (4096 * n), BitVec.ofNat 64 (4096 * m)⟩ =
      framesBetween n m ++ (entries.drop (i + 1)).flatMap MmapEntry.frames := by
  have hi : ((i : ℤ) + 1).toNat = i + 1 := by omega
  simp only [BootCursor.pending, hi, toNat_frame_div hn, toNat_frame_div hm]

theorem MmapEntry.endPfn_lt (hstop : e.stop < 2 ^ 64) (hn : n ≤ e.endPfn) : 4096 * n < 2 ^ 64 := by
  unfold MmapEntry.endPfn at hn
  omega

theorem MmapEntry.mem_frames {f : Word} : f ∈ e.frames ↔ e.Available ∧ e.stop < 2 ^ 64 ∧
    ∃ n, e.firstPfn ≤ n ∧ n < e.endPfn ∧ f = BitVec.ofNat 64 (4096 * n) := by
  unfold frames
  split
  · next h => rw [mem_framesBetween, and_iff_right h.1, and_iff_right h.2]
  · next h => exact iff_of_false (List.not_mem_nil) fun hf => h ⟨hf.1, hf.2.1⟩

/-- The frames of the map are those passed and those ahead. -/
theorem Placed.taken_append_pending (h : Placed entries s) :
    s.taken entries ++ s.pending entries = allFrames entries := by
  cases h with
  | start => rfl
  | @inside i n e hentry havail hstop hfirst hlast =>
    have hn := MmapEntry.endPfn_lt hstop hlast
    have hm := MmapEntry.endPfn_lt hstop le_rfl
    obtain ⟨_, rfl⟩ := List.getElem?_eq_some_iff.mp hentry
    rw [taken_inside hentry hn, pending_inside hn hm, List.append_assoc,
      ← List.append_assoc (framesBetween _ n), framesBetween_append hfirst.le hlast]
    have hframes : framesBetween entries[i].firstPfn entries[i].endPfn = entries[i].frames :=
      (if_pos ⟨havail, hstop⟩).symm
    rw [hframes, ← List.flatMap_cons, ← List.flatMap_append, List.cons_getElem_drop_succ,
      List.take_append_drop, allFrames]

/-! ### The scan -/

/-- What the code computes for an entry that does not wrap. -/
theorem MmapEntry.bounds (hstop : e.stop < 2 ^ 64) :
    pageAlign e.addr = BitVec.ofNat 64 (4096 * e.firstPfn) ∧
    (e.addr + e.len) &&& pageMask = BitVec.ofNat 64 (4096 * e.endPfn) := by
  constructor
  · apply BitVec.eq_of_toNat_eq
    rw [toNat_pageAlign, BitVec.toNat_ofNat, firstPfn]
    omega
  · apply BitVec.eq_of_toNat_eq
    rw [toNat_and_pageMask, toNat_addr_add_len hstop, BitVec.toNat_ofNat, endPfn]
    omega

theorem MmapEntry.wrap_iff : e.addr > e.addr + e.len ↔ 2 ^ 64 ≤ e.stop := by
  constructor
  · intro h
    by_contra hlt
    rw [gt_iff_lt, BitVec.lt_def, toNat_addr_add_len (by omega), stop] at h
    omega
  · exact fun h => toNat_addr_add_len_of_wrap h

/-- The test that skips entries without a whole frame. -/
theorem MmapEntry.skip_iff (havail : e.Available) (hsafe : e.AlignSafe) (hstop : e.stop < 2 ^ 64) :
    ((e.addr + e.len) &&& pageMask < pageAlign e.addr ∨
      ((e.addr + e.len) &&& pageMask) - pageAlign e.addr < pageSize) ↔
    ¬ e.firstPfn < e.endPfn := by
  obtain ⟨hbase, hend⟩ := bounds hstop
  have hfirst : 4096 * e.firstPfn < 2 ^ 64 := by
    have haddr := hsafe havail
    unfold firstPfn
    omega
  have hlast := endPfn_lt hstop le_rfl
  rw [hbase, hend]
  simp only [BitVec.lt_def, BitVec.toNat_sub, toNat_pageSize, toNat_frame hfirst,
    toNat_frame hlast]
  omega

/-- What a scan that ends finds: nothing, or the first entry with a whole frame. -/
inductive Found (s : BootCursor) (i : ℕ) (es : List MmapEntry) : BootCursor → Prop
  | nothing (hnone : es.flatMap MmapEntry.frames = []) : Found s i es s
  | entry {before after : List MmapEntry} {e : MmapEntry} (hsplit : es = before ++ e :: after)
      (hbefore : before.flatMap MmapEntry.frames = []) (havail : e.Available)
      (hstop : e.stop < 2 ^ 64) (hlt : e.firstPfn < e.endPfn) :
      Found s i es ⟨some (i + before.length), ((i + before.length : ℕ) : ℤ),
        BitVec.ofNat 64 (4096 * e.firstPfn), BitVec.ofNat 64 (4096 * e.endPfn)⟩

theorem Found.cons {es : List MmapEntry} (hframes : e.frames = []) (h : Found s (i + 1) es s') :
    Found s i (e :: es) s' := by
  cases h with
  | nothing hnone =>
    exact Found.nothing (by rw [List.flatMap_cons, hframes, hnone, List.nil_append])
  | @entry before after f hsplit hbefore havail hstop hlt =>
    have hidx : i + 1 + before.length = i + (e :: before).length := by
      rw [List.length_cons]
      omega
    rw [hidx]
    refine Found.entry (by rw [hsplit, List.cons_append]) ?_ havail hstop hlt
    rw [List.flatMap_cons, hframes, hbefore, List.nil_append]

theorem findEntry_found {es : List MmapEntry} (hsafe : ∀ e ∈ es, e.AlignSafe)
    (h : findEntry s i es = some s') : Found s i es s' := by
  induction es generalizing i with
  | nil =>
    obtain rfl := Option.some.inj h
    exact Found.nothing rfl
  | cons e es ih =>
    have hrest := fun {i} => ih (i := i) fun e' he' => hsafe e' (List.mem_cons_of_mem e he')
    have he := hsafe e List.mem_cons_self
    unfold findEntry at h
    split at h
    · next havail =>
      have havail : e.Available := havail
      simp only [MmapEntry.wrap_iff] at h
      split at h
      · exact absurd h (by simp)
      · next hwrap =>
        have hstop : e.stop < 2 ^ 64 := by omega
        rw [if_congr (MmapEntry.skip_iff havail he hstop) rfl rfl] at h
        split at h
        · next hskip =>
          refine Found.cons ?_ (hrest h)
          rw [MmapEntry.frames, if_pos ⟨havail, hstop⟩, framesBetween_nil (by omega)]
        · next hskip =>
          obtain ⟨hbase, hend⟩ := MmapEntry.bounds hstop
          rw [hbase, hend] at h
          obtain rfl := Option.some.inj h
          exact Found.entry (List.nil_append _).symm rfl havail hstop (by omega)
    · next havail => exact Found.cons (if_neg fun hboth => havail hboth.1) (hrest h)

/-! ### One call -/

theorem takePage_inside (hstop : e.stop < 2 ^ 64) (hn : n < e.endPfn) :
    takePage ⟨some i, m, BitVec.ofNat 64 (4096 * n), BitVec.ofNat 64 (4096 * e.endPfn)⟩ =
      (BitVec.ofNat 64 (4096 * n), ⟨if n + 1 = e.endPfn then none else some i, m,
        BitVec.ofNat 64 (4096 * (n + 1)), BitVec.ofNat 64 (4096 * e.endPfn)⟩) := by
  have hlast := MmapEntry.endPfn_lt hstop le_rfl
  have hsucc := MmapEntry.endPfn_lt hstop (show n + 1 ≤ e.endPfn by omega)
  have hnext : BitVec.ofNat 64 (4096 * n) + pageSize = BitVec.ofNat 64 (4096 * (n + 1)) := by
    rw [pageSize_eq, ← BitVec.ofNat_add, Nat.mul_succ]
  have heq : BitVec.ofNat 64 (4096 * (n + 1)) = BitVec.ofNat 64 (4096 * e.endPfn) ↔
      n + 1 = e.endPfn := by
    constructor
    · intro h
      have hnat := congrArg BitVec.toNat h
      rw [toNat_frame hsucc, toNat_frame hlast] at hnat
      omega
    · exact fun h => by rw [h]
  rw [takePage, if_neg (by simp)]
  simp only [hnext, if_congr heq rfl rfl]

/-- The effect of one answer: the frame moves from the pending side to the other, or
nothing is pending and nothing happens. -/
inductive Advance (entries : List MmapEntry) (s : BootCursor) : Word → BootCursor → Prop
  | frame {f : Word} {s' : BootCursor} (hplaced : Placed entries s')
      (hpending : s.pending entries = f :: s'.pending entries) : Advance entries s f s'
  | empty (hpending : s.pending entries = []) : Advance entries s (errPtr enomem) s

/-- Taking a page of the entry at index i, of which n is the next frame. -/
theorem Advance.take (hentry : entries[i]? = some e) (havail : e.Available)
    (hstop : e.stop < 2 ^ 64) (hfirst : e.firstPfn ≤ n) (hn : n < e.endPfn)
    (hpending : s.pending entries = framesBetween n e.endPfn ++
      (entries.drop (i + 1)).flatMap MmapEntry.frames)
    (h : takePage ⟨some i, i, BitVec.ofNat 64 (4096 * n), BitVec.ofNat 64 (4096 * e.endPfn)⟩ =
      (res, s')) :
    Advance entries s res s' := by
  rw [takePage_inside hstop hn] at h
  obtain ⟨rfl, rfl⟩ := Prod.mk.inj h
  apply Advance.frame (Placed.inside hentry havail hstop (by omega) (by omega))
  rw [hpending, framesBetween_cons hn, pending_inside (MmapEntry.endPfn_lt hstop (by omega))
    (MmapEntry.endPfn_lt hstop le_rfl), List.cons_append]

/-- The scan that starts at index i behind the cursor and the page taken after it. -/
theorem Advance.find (hsafe : ∀ e ∈ entries, e.AlignSafe) (hnull : s.currEntry = none)
    (hpending : s.pending entries = (entries.drop i).flatMap MmapEntry.frames)
    (h : (findEntry s i (entries.drop i)).map takePage = some (res, s')) :
    Advance entries s res s' := by
  obtain ⟨u, hfind, htake⟩ := Option.map_eq_some_iff.mp h
  have hfound := findEntry_found (fun e he => hsafe e (List.mem_of_mem_drop he)) hfind
  cases hfound with
  | nothing hnone =>
    rw [takePage, hnull] at htake
    obtain ⟨rfl, rfl⟩ := Prod.mk.inj htake
    exact Advance.empty (hpending.trans hnone)
  | @entry before after e hsplit hbefore havail hstop hlt =>
    have hentry : entries[i + before.length]? = some e := by
      rw [← List.getElem?_drop, hsplit]
      simp
    have hafter : entries.drop (i + before.length + 1) = after := by
      rw [Nat.add_assoc, ← List.drop_drop, hsplit]
      simp
    refine Advance.take hentry havail hstop le_rfl hlt ?_ htake
    rw [hpending, hsplit, hafter, List.flatMap_append, hbefore, List.nil_append, List.flatMap_cons,
      MmapEntry.frames, if_pos ⟨havail, hstop⟩]

theorem bootMmPageAllocInternal_advance (hsafe : ∀ e ∈ entries, e.AlignSafe)
    (hplaced : Placed entries s) (h : bootMmPageAllocInternal entries s = some (res, s')) :
    Advance entries s res s' := by
  unfold bootMmPageAllocInternal at h
  cases hplaced with
  | start => exact Advance.find (i := 0) hsafe rfl rfl h
  | @inside i n e hentry havail hstop hfirst hlast =>
    have hpending : BootCursor.pending entries ⟨if n = e.endPfn then none else some i, i,
        BitVec.ofNat 64 (4096 * n), BitVec.ofNat 64 (4096 * e.endPfn)⟩ =
        framesBetween n e.endPfn ++ (entries.drop (i + 1)).flatMap MmapEntry.frames :=
      pending_inside (MmapEntry.endPfn_lt hstop hlast) (MmapEntry.endPfn_lt hstop le_rfl)
    by_cases hend : n = e.endPfn
    · have hnull : (if n = e.endPfn then none else some i) = none := if_pos hend
      rw [if_pos (by rw [hnull]; rfl)] at h
      refine Advance.find (i := ((i : ℤ) + 1).toNat) hsafe hnull ?_ h
      rw [hpending, framesBetween_nil hend.ge, List.nil_append]
      rfl
    · have hsome : (if n = e.endPfn then none else some i) = some i := if_neg hend
      rw [hsome] at h hpending ⊢
      exact Advance.take hentry havail hstop hfirst.le (by omega) hpending (Option.some.inj h)

/-! ### The loop -/

/-- The frames in no used range, of those that the cursor has passed. -/
def BootCursor.handed (entries : List MmapEntry) (used : Word → Bool) (s : BootCursor) :
    List Word :=
  (s.taken entries).filter fun f => !used f

/-- The frames that are left to hand out. -/
def BootCursor.free (entries : List MmapEntry) (used : Word → Bool) (s : BootCursor) : List Word :=
  (s.pending entries).filter fun f => !used f

theorem Placed.handed_append_free (h : Placed entries s) (used : Word → Bool) :
    s.handed entries used ++ s.free entries used = (allFrames entries).filter fun f => !used f := by
  rw [BootCursor.handed, BootCursor.free, ← List.filter_append, h.taken_append_pending]

/-- The answers of boot_mm_page_alloc are the frames left, one after the other, and then
errors. -/
inductive Answer (entries : List MmapEntry) (used : Word → Bool) (s : BootCursor) :
    Word → BootCursor → Prop
  | frame {f : Word} {s' : BootCursor} (hplaced : Placed entries s') (hunused : used f = false)
      (hfree : s.free entries used = f :: s'.free entries used) : Answer entries used s f s'
  | empty {s' : BootCursor} (hplaced : Placed entries s')
      (hunused : used (errPtr enomem) = false) (hfree : s.free entries used = [])
      (hfree' : s'.free entries used = []) : Answer entries used s (errPtr enomem) s'

theorem bootMmPageAlloc_answer (hsafe : ∀ e ∈ entries, e.AlignSafe) (hplaced : Placed entries s)
    (h : bootMmPageAlloc entries used n s = some (res, s')) : Answer entries used s res s' := by
  induction n generalizing s with
  | zero => exact absurd h (by simp [bootMmPageAlloc])
  | succ n ih =>
    rcases bootMmPageAlloc_succ_eq_some.mp h with ⟨hunused, hcall⟩ | ⟨f, u, hused, hcall, h⟩
    · cases bootMmPageAllocInternal_advance hsafe hplaced hcall with
      | frame hplaced' hpending =>
        apply Answer.frame hplaced' hunused
        rw [BootCursor.free, hpending, List.filter_cons_of_pos (by simp [hunused]),
          BootCursor.free]
      | empty hpending =>
        have hfree : s'.free entries used = [] := by
          rw [BootCursor.free, hpending, List.filter_nil]
        exact Answer.empty hplaced hunused hfree hfree
    · -- the frame is in a used range: the next round continues behind it
      cases bootMmPageAllocInternal_advance hsafe hplaced hcall with
      | frame hplaced' hpending =>
        have hfree : s.free entries used = u.free entries used := by
          rw [BootCursor.free, hpending, List.filter_cons_of_neg (by simp [hused]),
            BootCursor.free]
        cases ih hplaced' h with
        | frame hp hunused hf => exact Answer.frame hp hunused (hfree.trans hf)
        | empty hp hunused hf hf' => exact Answer.empty hp hunused (hfree.trans hf) hf'
      | empty hpending => exact ih hplaced h

/-! ### It returns -/

theorem findEntry_returns {es : List MmapEntry}
    (hstop : ∀ e ∈ es, e.Available → e.stop < 2 ^ 64) : ∃ s', findEntry s i es = some s' := by
  induction es generalizing i with
  | nil => exact ⟨s, rfl⟩
  | cons e es ih =>
    have hrest := fun {i} => ih (i := i) fun e' he' => hstop e' (List.mem_cons_of_mem e he')
    unfold findEntry
    simp only [MmapEntry.wrap_iff]
    split
    · next havail =>
      have hlt := hstop e List.mem_cons_self havail
      rw [if_neg (by omega)]
      split
      · exact hrest
      · exact ⟨_, rfl⟩
    · exact hrest

theorem bootMmPageAllocInternal_returns (hstop : ∀ e ∈ entries, e.Available → e.stop < 2 ^ 64)
    (s : BootCursor) : ∃ f s', bootMmPageAllocInternal entries s = some (f, s') := by
  unfold bootMmPageAllocInternal
  split
  · have hfound : ∃ u, findEntry s (s.currEntryIdx + 1).toNat
        (entries.drop (s.currEntryIdx + 1).toNat) = some u :=
      findEntry_returns fun e he => hstop e (List.mem_of_mem_drop he)
    obtain ⟨u, hfind⟩ := hfound
    exact ⟨(takePage u).1, (takePage u).2, Option.map_eq_some_iff.mpr ⟨u, hfind, rfl⟩⟩
  · exact ⟨_, _, rfl⟩

/-- With no wrapping entry, and errors outside the used ranges, every call returns. -/
theorem bootMmPageAlloc_returns (hsafe : ∀ e ∈ entries, e.AlignSafe)
    (hstop : ∀ e ∈ entries, e.Available → e.stop < 2 ^ 64)
    (herr : used (errPtr enomem) = false) (hplaced : Placed entries s)
    (hn : (s.pending entries).length < n) :
    ∃ f s', bootMmPageAlloc entries used n s = some (f, s') := by
  induction n generalizing s with
  | zero => omega
  | succ n ih =>
    obtain ⟨f, u, hcall⟩ := bootMmPageAllocInternal_returns hstop s
    simp only [bootMmPageAlloc, hcall]
    split
    · next hused =>
      cases bootMmPageAllocInternal_advance hsafe hplaced hcall with
      | frame hplaced' hpending =>
        rw [hpending, List.length_cons] at hn
        exact ih hplaced' (by omega)
      | empty _ => exact absurd hused (by rw [herr]; decide)
    · exact ⟨f, u, rfl⟩

theorem MmapEntry.length_frames_le (e : MmapEntry) (hsafe : e.AlignSafe) :
    e.frames.length ≤ e.pages := by
  unfold frames
  split
  · next h =>
    obtain ⟨hbase, hend⟩ := bounds h.2
    have hfirst : 4096 * e.firstPfn < 2 ^ 64 := by
      have haddr := hsafe h.1
      unfold firstPfn
      omega
    rw [pages, hbase, hend, toNat_frame hfirst, toNat_frame (endPfn_lt h.2 le_rfl)]
    simp only [framesBetween, List.length_map, List.length_range']
    omega
  · exact Nat.zero_le _

theorem Placed.length_pending_lt (h : Placed entries s) (hsafe : ∀ e ∈ entries, e.AlignSafe) :
    (s.pending entries).length < frameRounds entries := by
  have hsides := congrArg List.length h.taken_append_pending
  have hframes : (allFrames entries).length ≤ (entries.map MmapEntry.pages).sum := by
    rw [allFrames, List.length_flatMap]
    exact List.sum_le_sum fun e he => e.length_frames_le (hsafe e he)
  rw [List.length_append] at hsides
  rw [frameRounds]
  omega

end Cursor

end ClosureOS
