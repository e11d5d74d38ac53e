import ClosureOS.BootEnumerate

/-!
What the overflow guard of the boot allocator is worth. The guard stops entries whose end
wraps. Rounding the start of an entry up to a page is a second addition, which wraps for an
entry that starts in the last page of the address space; the scan then takes every frame for
a frame of that entry. Rounding all entries beforehand gives a map on which the allocator runs
in the same way and nothing wraps.
-/
namespace ClosureOS

/-- The answers of n calls of boot_mm_page_alloc_internal made one after the other. -/
def internalCalls (entries : List MmapEntry) : ℕ → BootCursor → Option (List Word × BootCursor)
  | 0, s => some ([], s)
  | n + 1, s =>
    match bootMmPageAllocInternal entries s with
    | none => none
    | some (res, s) => (internalCalls entries n s).map fun (rest, s) => (res :: rest, s)

namespace MmapEntry

/-- base > end, the guard of the scan. -/
def Guarded (e : MmapEntry) : Prop := e.addr > e.addr + e.len

/-- The bytes from f to f + 4096 are bytes of the entry. -/
def Inside (e : MmapEntry) (f : Word) : Prop := e.addr.toNat ≤ f.toNat ∧ f.toNat + 4096 ≤ e.stop

instance (e : MmapEntry) : Decidable e.Guarded := inferInstanceAs (Decidable (_ < _))

instance (e : MmapEntry) (f : Word) : Decidable (e.Inside f) := inferInstanceAs (Decidable (_ ∧ _))

end MmapEntry

/-- The guard fires for no available entry. -/
def NeverGuarded (entries : List MmapEntry) : Prop := ∀ e ∈ entries, e.Available → ¬ e.Guarded

/-- Every frame that a run of calls answers lies inside an available entry. -/
def FramesInside (entries : List MmapEntry) : Prop :=
  ∀ n answers s, internalCalls entries n .start = some (answers, s) →
    ∀ f ∈ answers, ¬ isErrPtr f → ∃ e ∈ entries, e.Available ∧ e.Inside f

/-! ### Rounded entries -/

namespace MmapEntry

/-- The entry with the bounds that the scan computes for it. -/
def rounded (e : MmapEntry) : MmapEntry :=
  if e.Available then
    let base := pageAlign e.addr
    let stop := (e.addr + e.len) &&& pageMask
    ⟨base, if stop < base then 0#64 else stop - base, e.type⟩
  else e

variable {e : MmapEntry}

theorem guarded_iff : e.Guarded ↔ 2 ^ 64 ≤ e.stop := wrap_iff

@[simp] theorem rounded_type (e : MmapEntry) : e.rounded.type = e.type := by
  unfold rounded
  split <;> rfl

theorem rounded_available : e.rounded.Available ↔ e.Available := by
  unfold Available
  rw [rounded_type]

theorem rounded_addr (havail : e.Available) : e.rounded.addr = pageAlign e.addr := by
  rw [rounded, if_pos havail]

/-- The end of the rounded entry, which lies on a page bound and does not wrap. -/
theorem rounded_stop (havail : e.Available) :
    e.rounded.stop =
      max (pageAlign e.addr).toNat ((e.addr + e.len) &&& pageMask).toNat := by
  rw [stop, rounded, if_pos havail]
  simp only
  by_cases hlt : (e.addr + e.len) &&& pageMask < pageAlign e.addr
  · rw [if_pos hlt]
    rw [BitVec.lt_def] at hlt
    simp only [BitVec.toNat_ofNat]
    omega
  · rw [if_neg hlt]
    rw [BitVec.lt_def] at hlt
    rw [BitVec.toNat_sub]
    omega

theorem rounded_stop_lt (havail : e.Available) : e.rounded.stop < 2 ^ 64 := by
  rw [rounded_stop havail]
  omega

theorem rounded_alignSafe (e : MmapEntry) : e.rounded.AlignSafe := by
  intro havail
  rw [rounded_addr (rounded_available.mp havail), toNat_pageAlign]
  omega

/-- Rounding again changes neither bound. -/
theorem rounded_bounds (havail : e.Available) :
    pageAlign e.rounded.addr = pageAlign e.addr ∧
    ((e.rounded.addr + e.rounded.len) &&& pageMask).toNat =
      max (pageAlign e.addr).toNat ((e.addr + e.len) &&& pageMask).toNat := by
  constructor
  · apply BitVec.eq_of_toNat_eq
    rw [rounded_addr havail, toNat_pageAlign, toNat_pageAlign]
    omega
  · rw [toNat_and_pageMask, toNat_addr_add_len (rounded_stop_lt havail), rounded_stop havail,
      toNat_pageAlign, toNat_and_pageMask]
    omega

/-- The scan skips the same entries. -/
theorem rounded_skip_iff (havail : e.Available) :
    ((e.rounded.addr + e.rounded.len) &&& pageMask < pageAlign e.rounded.addr ∨
      ((e.rounded.addr + e.rounded.len) &&& pageMask) - pageAlign e.rounded.addr < pageSize) ↔
    ((e.addr + e.len) &&& pageMask < pageAlign e.addr ∨
      ((e.addr + e.len) &&& pageMask) - pageAlign e.addr < pageSize) := by
  obtain ⟨hbase, hend⟩ := rounded_bounds havail
  rw [hbase]
  simp only [BitVec.lt_def, BitVec.toNat_sub, toNat_pageSize, hend]
  omega

/-- An entry that is not skipped ends where it did. -/
theorem rounded_end (havail : e.Available)
    (hkept : ¬ (e.addr + e.len) &&& pageMask < pageAlign e.addr) :
    (e.rounded.addr + e.rounded.len) &&& pageMask = (e.addr + e.len) &&& pageMask := by
  apply BitVec.eq_of_toNat_eq
  rw [BitVec.lt_def] at hkept
  rw [(rounded_bounds havail).2]
  omega

end MmapEntry

section Rounded

variable {entries : List MmapEntry} {s : BootCursor} {i : ℕ}

theorem findEntry_rounded {es : List MmapEntry} (hguard : NeverGuarded es) :
    findEntry s i (es.map MmapEntry.rounded) = findEntry s i es := by
  induction es generalizing i with
  | nil => rfl
  | cons e es ih =>
    have hrest := fun {i} => ih (i := i) fun e' he' => hguard e' (List.mem_cons_of_mem e he')
    rw [List.map_cons]
    unfold findEntry
    rw [MmapEntry.rounded_type]
    by_cases havail : e.type = multibootMemoryAvailable
    · have hwrap : ¬ e.addr > e.addr + e.len := hguard e List.mem_cons_self havail
      have hwrap' : ¬ e.rounded.addr > e.rounded.addr + e.rounded.len := by
        rw [MmapEntry.wrap_iff]
        have hlt := MmapEntry.rounded_stop_lt havail
        omega
      simp only [if_pos havail, if_neg hwrap, if_neg hwrap', hrest]
      rw [if_congr (MmapEntry.rounded_skip_iff havail) rfl rfl]
      split
      · rfl
      · next hkept =>
        rw [(MmapEntry.rounded_bounds havail).1,
          MmapEntry.rounded_end havail fun h => hkept (Or.inl h)]
    · simp only [if_neg havail, hrest]

/-- The allocator runs on the rounded map as on the map itself. -/
theorem bootMmPageAllocInternal_rounded (hguard : NeverGuarded entries) (s : BootCursor) :
    bootMmPageAllocInternal (entries.map MmapEntry.rounded) s =
      bootMmPageAllocInternal entries s := by
  unfold bootMmPageAllocInternal
  dsimp only
  rw [← List.map_drop, findEntry_rounded fun e he => hguard e (List.mem_of_mem_drop he)]

theorem internalCalls_rounded (hguard : NeverGuarded entries) (n : ℕ) (s : BootCursor) :
    internalCalls (entries.map MmapEntry.rounded) n s = internalCalls entries n s := by
  induction n generalizing s with
  | zero => rfl
  | succ n ih => simp only [internalCalls, bootMmPageAllocInternal_rounded hguard, ih]

/-- Without used ranges boot_mm_page_alloc takes one round. -/
theorem allocCalls_unused (entries : List MmapEntry) (rounds n : ℕ) (s : BootCursor) :
    allocCalls entries (fun _ => false) (rounds + 1) n s = internalCalls entries n s := by
  induction n generalizing s with
  | zero => rfl
  | succ n ih =>
    simp only [allocCalls, internalCalls, bootMmPageAlloc, ih]
    cases bootMmPageAllocInternal entries s <;> rfl

/-- The answers of n calls are the frames of the rounded map, as far as they go, and then
errors. -/
theorem internalCalls_eq (hguard : NeverGuarded entries) (n : ℕ) :
    ∃ s, internalCalls entries n .start =
      some ((allFrames (entries.map MmapEntry.rounded)).take n ++
        List.replicate (n - (allFrames (entries.map MmapEntry.rounded)).length)
          (errPtr enomem), s) := by
  have hsafe : ∀ e ∈ entries.map MmapEntry.rounded, e.AlignSafe := by
    intro e he
    obtain ⟨e', _, rfl⟩ := List.mem_map.mp he
    exact e'.rounded_alignSafe
  have hstop : ∀ e ∈ entries.map MmapEntry.rounded, e.Available → e.stop < 2 ^ 64 := by
    intro e he havail
    obtain ⟨e', _, rfl⟩ := List.mem_map.mp he
    exact MmapEntry.rounded_stop_lt (MmapEntry.rounded_available.mp havail)
  obtain ⟨s, hcalls⟩ :=
    @allocCalls_eq _ (fun _ => false) _ _ hsafe hstop rfl Placed.start le_rfl n
  have hfree : BootCursor.start.free (entries.map MmapEntry.rounded) (fun _ => false) =
      allFrames (entries.map MmapEntry.rounded) := by
    rw [BootCursor.free, ← Placed.start.taken_append_pending, taken_start, List.nil_append]
    simp
  rw [frameRounds, allocCalls_unused, internalCalls_rounded hguard, hfree] at hcalls
  exact ⟨s, hcalls⟩

end Rounded

/-! ### Which frames are inside -/

section Inside

variable {entries : List MmapEntry} {e : MmapEntry} {f : Word}

theorem MmapEntry.stop_lt_of_not_guarded (h : ¬ e.Guarded) : e.stop < 2 ^ 64 := by
  rw [guarded_iff] at h
  omega

/-- As long as rounding up does not wrap, the frames of the rounded entry are its own. -/
theorem MmapEntry.inside_of_mem_rounded (hguard : e.Available → ¬ e.Guarded) (hsafe : e.AlignSafe)
    (hf : f ∈ e.rounded.frames) : e.Available ∧ e.Inside f := by
  have havail : e.Available := rounded_available.mp (mem_frames.mp hf).1
  obtain ⟨_, _, hlow, hhigh⟩ := (mem_frames_iff (rounded_stop_lt havail)).mp hf
  have hstop := stop_lt_of_not_guarded (hguard havail)
  have haddr := hsafe havail
  rw [rounded_addr havail, toNat_pageAlign] at hlow
  rw [rounded_stop havail, toNat_pageAlign, toNat_and_pageMask, toNat_addr_add_len hstop] at hhigh
  refine ⟨havail, ?_, ?_⟩ <;> omega

/-- When it wraps, the rounded entry has every frame but the last one of the address space. -/
theorem MmapEntry.mem_rounded_of_not_alignSafe (hguard : e.Available → ¬ e.Guarded)
    (hsafe : ¬ e.AlignSafe) :
    f ∈ e.rounded.frames ↔ 4096 ∣ f.toNat ∧ f.toNat + 4096 ≤ 2 ^ 64 - 4096 := by
  simp only [AlignSafe, Classical.not_imp, Nat.not_lt] at hsafe
  obtain ⟨havail, haddr⟩ := hsafe
  have hstop := stop_lt_of_not_guarded (hguard havail)
  have hle : e.addr.toNat ≤ e.stop := Nat.le_add_right _ _
  rw [mem_frames_iff (rounded_stop_lt havail), and_iff_right (rounded_available.mpr havail),
    WholeFrame, rounded_addr havail, rounded_stop havail, toNat_pageAlign, toNat_and_pageMask,
    toNat_addr_add_len hstop]
  omega

/-- Every frame below the last page of the address space lies inside an available entry. -/
def AllInside (entries : List MmapEntry) : Prop :=
  ∀ f : Word, 4096 ∣ f.toNat → f.toNat + 4096 ≤ 2 ^ 64 - 4096 →
    ∃ e ∈ entries, e.Available ∧ e.Inside f

theorem framesInside_iff_allFrames (hguard : NeverGuarded entries) :
    FramesInside entries ↔ ∀ f ∈ allFrames (entries.map MmapEntry.rounded),
      ∃ e ∈ entries, e.Available ∧ e.Inside f := by
  constructor
  · intro h f hf
    obtain ⟨s, hcalls⟩ :=
      internalCalls_eq hguard (allFrames (entries.map MmapEntry.rounded)).length
    refine h _ _ s hcalls f ?_ ?_
    · rw [List.take_length]
      exact List.mem_append_left _ hf
    · obtain ⟨e', he', hfe⟩ := List.mem_flatMap.mp hf
      obtain ⟨e, _, rfl⟩ := List.mem_map.mp he'
      obtain ⟨havail, hstop, n, _, hn, rfl⟩ := MmapEntry.mem_frames.mp hfe
      have hfit := MmapEntry.endPfn_lt hstop (Nat.succ_le_of_lt hn)
      have hsmall : 4096 * n < 2 ^ 64 := by omega
      have hbound : (-maxErrno).toNat = 2 ^ 64 - 4095 := by decide
      simp only [isErrPtr, gt_iff_lt, BitVec.lt_def, toNat_frame hsmall, hbound]
      omega
  · intro h n answers s hcalls f hf herr
    obtain ⟨s', hcalls'⟩ := internalCalls_eq hguard n
    rw [hcalls'] at hcalls
    obtain ⟨rfl, _⟩ := Prod.mk.inj (Option.some.inj hcalls)
    rcases List.mem_append.mp hf with hframe | hlast
    · exact h f (List.mem_of_mem_take hframe)
    · rw [List.eq_of_mem_replicate hlast] at herr
      exact absurd (by decide) herr

/-- While the guard never fires, the frames handed out lie inside the available entries exactly
when rounding up wraps for none of them, or they cover everything below the last page. -/
theorem framesInside_iff (hguard : NeverGuarded entries) :
    FramesInside entries ↔ (∀ e ∈ entries, e.AlignSafe) ∨ AllInside entries := by
  rw [framesInside_iff_allFrames hguard]
  constructor
  · intro h
    by_contra hno
    simp only [not_or, not_forall] at hno
    obtain ⟨⟨e, he, hsafe⟩, hall⟩ := hno
    refine hall fun f hdvd hlt => h f ?_
    refine List.mem_flatMap.mpr ⟨e.rounded, List.mem_map_of_mem he, ?_⟩
    exact (MmapEntry.mem_rounded_of_not_alignSafe (hguard e he) hsafe).mpr ⟨hdvd, hlt⟩
  · intro h f hf
    obtain ⟨e', he', hfe⟩ := List.mem_flatMap.mp hf
    obtain ⟨e, he, rfl⟩ := List.mem_map.mp he'
    by_cases hsafe : e.AlignSafe
    · exact ⟨e, he, MmapEntry.inside_of_mem_rounded (hguard e he) hsafe hfe⟩
    · obtain ⟨hdvd, hlt⟩ :=
        (MmapEntry.mem_rounded_of_not_alignSafe (hguard e he) hsafe).mp hfe
      rcases h with hall | hall
      · exact absurd (hall e he) hsafe
      · exact hall f hdvd hlt

/-- Two overlapping entries that start off a page bound. -/
theorem framesInside_overlapping :
    FramesInside [⟨0x1001#64, 0x2800#64, multibootMemoryAvailable⟩,
      ⟨0x2000#64, 0x3000#64, multibootMemoryAvailable⟩] :=
  (framesInside_iff (by unfold NeverGuarded; decide)).mpr (Or.inl (by decide))

/-- An entry inside the last page hands out frame 0. -/
theorem not_framesInside_lastPage :
    ¬ ∀ entries, NeverGuarded entries → FramesInside entries := by
  intro h
  have hguard : NeverGuarded [⟨0xFFFFFFFFFFFFF001#64, 0xFFE#64, multibootMemoryAvailable⟩] := by
    unfold NeverGuarded
    decide
  obtain ⟨e, he, _, hlow, _⟩ := h _ hguard 1 [0#64] _ rfl 0#64 (by decide) (by decide)
  rw [List.mem_singleton.mp he] at hlow
  exact absurd hlow (by decide)

end Inside
end ClosureOS
