import ClosureOS.BootRounds
import ClosureOS.DonatedFrames

/-!
Whether the frames that the boot allocator handed out stay with the boot code. The page
database takes every available frame below the cursor for a used one. The cursor moves
through the memory map in table order, so this misses the frames of an earlier entry
that lies above the one the cursor has reached.
-/
namespace ClosureOS

open ByteMemory StatusLoops

/-- boot_mm_page_alloc, with a log of the frames that it handed out. -/
def loggedAlloc (info : BootInfo) (s : BootCursor × List Word) :
    Option (Word × BootCursor × List Word) :=
  (bootAlloc info s.1).map fun (page, cursor) =>
    (page, cursor, if isErrPtr page then s.2 else s.2 ++ [page])

/-- The state in which boot_mm_pgtable_init starts. -/
def bootStart (m : Memory) : BootState (BootCursor × List Word) :=
  { pages := (.start, []), mem := m, pgdbPageNr := 0#64, contents := [] }

/-- The page database records all frames of the log as used, so that none is donated. -/
def StaysOwned (info : BootInfo) (currAvail : Word) (handed : List Word) : Prop :=
  ∃ g, bootMmPageDatabaseInit info currAvail (fun _ => Page.zero) = some (0, g) ∧
    ∀ f ∈ handed, (g (stepPfn f)).type = .normalMem ∧ (g (stepPfn f)).refCount = 0#32 ∧
      ¬ Donated g (stepPfn f)

/-- Every entry in front of the cursor's entry that has a frame to hand out lies below
the cursor's entry. -/
def CursorAscends (info : BootInfo) (idx : ℤ) : Prop :=
  ∀ (i j : ℕ) (e e' : MmapEntry), i < j → (j : ℤ) = idx → info.mmapEntries[i]? = some e →
    info.mmapEntries[j]? = some e' → (∃ f ∈ e.frames, addrIsInUsedRange info f = false) →
    e.addr < e'.addr

/-- The available entries that have a frame to hand out are listed below all later
available ones. -/
def TableAscends (info : BootInfo) : Prop :=
  ∀ (i j : ℕ) (e e' : MmapEntry), i < j → info.mmapEntries[i]? = some e →
    info.mmapEntries[j]? = some e' → (∃ f ∈ e.frames, addrIsInUsedRange info f = false) →
    e'.Available → e.addr < e'.addr

section Owned

variable {info : BootInfo} {entries : List MmapEntry} {used : Word → Bool} {s : BootCursor}
  {e : MmapEntry} {f currAvail : Word} {n p : ℕ}

theorem MmapEntry.OnPageBounds.alignSafe (h : e.OnPageBounds) : e.AlignSafe := by
  intro _
  obtain ⟨⟨k, hk⟩, _⟩ := h
  omega

theorem MmapEntry.OnPageBounds.stepSafe (h : e.OnPageBounds) : e.StepSafe := by
  obtain ⟨⟨k, hk⟩, l, hl⟩ := h
  rw [StepSafe, BitVec.toNat_add]
  omega

/-! ### The log -/

/-- The log of a run: the cursor is somewhere in the map, and the log has the frames
passed that are in no used range. -/
def LogInv (info : BootInfo) (s : BootCursor × List Word) : Prop :=
  Placed info.mmapEntries s.1 ∧ s.2 = s.1.handed info.mmapEntries (addrIsInUsedRange info)

/-- A frame in front of the cursor is not taken for an error. -/
theorem not_isErrPtr_of_free (h : f ∈ s.free entries used) (hplaced : Placed entries s) :
    ¬ isErrPtr f := by
  have hall : f ∈ allFrames entries := by
    rw [← hplaced.taken_append_pending]
    exact List.mem_append_right _ (List.mem_of_mem_filter h)
  obtain ⟨e, _, hf⟩ := List.mem_flatMap.mp hall
  obtain ⟨_, hstop, n, _, hn, rfl⟩ := MmapEntry.mem_frames.mp hf
  exact not_isErrPtr ⟨n, toNat_frame (MmapEntry.endPfn_lt hstop hn.le)⟩

theorem loggedAlloc_keeps (hsafe : ∀ e ∈ info.mmapEntries, e.AlignSafe) (total : Prop)
    (hreturns : total → (∀ e ∈ info.mmapEntries, e.Available → e.stop < 2 ^ 64) ∧
      addrIsInUsedRange info (errPtr enomem) = false) :
    AllocKeeps total (LogInv info) (loggedAlloc info) := by
  rintro ⟨s, handed⟩ ⟨hplaced, hlog⟩
  change handed = _ at hlog
  unfold loggedAlloc
  cases hcall : bootAlloc info s with
  | none =>
    refine Or.inl ⟨fun htotal => ?_, rfl⟩
    obtain ⟨hstop, herr⟩ := hreturns htotal
    obtain ⟨f, s', hsome⟩ := bootMmPageAlloc_returns hsafe hstop herr hplaced
      (hplaced.length_pending_lt hsafe)
    exact absurd (hcall.symm.trans hsome) (by simp)
  | some out =>
    obtain ⟨page, s'⟩ := out
    refine Or.inr ⟨page, _, rfl, ?_⟩
    have hsides := hplaced.handed_append_free (addrIsInUsedRange info)
    cases bootMmPageAlloc_answer hsafe hplaced hcall with
    | frame hplaced' hunused hfree =>
      have hpage : ¬ isErrPtr page :=
        not_isErrPtr_of_free (by rw [hfree]; exact List.mem_cons_self) hplaced
      have hsides' := hplaced'.handed_append_free (addrIsInUsedRange info)
      rw [hfree, ← hsides', List.append_cons] at hsides
      refine ⟨hplaced', ?_⟩
      simp only [if_neg hpage]
      rw [hlog, List.append_cancel_right hsides]
    | empty hplaced' hunused hfree hfree' =>
      have hsides' := hplaced'.handed_append_free (addrIsInUsedRange info)
      rw [hfree, ← hsides', hfree', List.append_nil, List.append_nil] at hsides
      refine ⟨hplaced', ?_⟩
      simp only [if_pos (show isErrPtr (errPtr enomem) by decide)]
      rw [hlog, hsides]

/-- On any map: the cursor is on a page boundary, and the log has page boundaries in no used
range. -/
def LogFree (info : BootInfo) (s : BootCursor × List Word) : Prop :=
  4096 ∣ s.1.currAvail.toNat ∧
    ∀ f ∈ s.2, 4096 ∣ f.toNat ∧ addrIsInUsedRange info f = false

theorem loggedAlloc_keeps_free (info : BootInfo) :
    AllocKeeps False (LogFree info) (loggedAlloc info) := by
  rintro ⟨s, handed⟩ ⟨haligned, hlog⟩
  unfold loggedAlloc
  cases hcall : bootAlloc info s with
  | none => exact Or.inl ⟨id, rfl⟩
  | some out =>
    obtain ⟨page, s'⟩ := out
    obtain ⟨⟨hpage, hunused⟩, haligned'⟩ := bootMmPageAlloc_aligned haligned hcall
    refine Or.inr ⟨page, _, rfl, haligned', ?_⟩
    dsimp only
    split
    · exact hlog
    · next hnoerr =>
      intro f hf
      rcases List.mem_append.mp hf with hf | hf
      · exact hlog f hf
      · obtain rfl := List.mem_singleton.mp hf
        refine ⟨hpage.resolve_right fun herr => ?_, hunused⟩
        rw [herr] at hnoerr
        exact hnoerr (by decide)

theorem LogInv.start (info : BootInfo) : LogInv info (.start, []) := ⟨Placed.start, rfl⟩

/-! ### What the database records -/

/-- With entries on page boundaries the step on a frame is at its first byte. -/
theorem MmapEntry.OnPageBounds.stepAt (h : e.OnPageBounds) (hon : e.StepsOn p) :
    e.stepAt p = BitVec.ofNat 64 (4096 * p) ∧ e.Has (4096 * p) := by
  obtain ⟨hval, hlt⟩ := MmapEntry.toNat_stepAt hon
  obtain ⟨⟨k, hk⟩, _⟩ := h
  have hstart := hon.1
  have heq : (e.stepAt p).toNat = 4096 * p := by omega
  refine ⟨BitVec.eq_of_toNat_eq ?_, by omega, by omega⟩
  rw [heq, toNat_frame (by omega)]

theorem MmapEntry.OnPageBounds.stepsOn (h : e.OnPageBounds) (hstop : e.stop < 2 ^ 64)
    (hfirst : e.firstPfn ≤ n) (hn : n < e.endPfn) : e.StepsOn n ∧ e.Has (4096 * n) := by
  obtain ⟨⟨k, hk⟩, l, hl⟩ := h
  unfold firstPfn at hfirst
  unfold endPfn at hn
  refine ⟨⟨by omega, ?_⟩, by omega, by omega⟩
  rw [pageRounds_eq hstop]
  unfold stop at hn
  omega

/-- A frame of an available entry is recorded by that entry. -/
theorem recorded_frame (hpages : ∀ e ∈ entries, e.OnPageBounds)
    (hdisj : entries.Pairwise MmapEntry.Apart) (he : e ∈ entries) (hstop : e.stop < 2 ^ 64)
    (hfirst : e.firstPfn ≤ n) (hn : n < e.endPfn) (g : Pgdb) :
    ∃ q, entries.foldl (entryDone used currAvail) g n =
      initPage used currAvail (BitVec.ofNat 64 (4096 * n)) e.type q := by
  obtain ⟨hon, hbyte⟩ := (hpages e he).stepsOn hstop hfirst hn
  rcases exists_last_step entries n with hnone | ⟨before, e', after, hsplit, hon', hlast⟩
  · exact absurd hon (hnone e he)
  · have he' : e' ∈ entries := by
      rw [hsplit]
      exact List.mem_append_right _ List.mem_cons_self
    obtain ⟨hat, hbyte'⟩ := (hpages e' he').stepAt hon'
    obtain rfl := MmapEntry.eq_of_has hdisj he he' hbyte hbyte'
    obtain ⟨q, hq⟩ := foldl_entryDone_of_last used currAvail before hon' hlast g
    rw [hat] at hq
    exact ⟨q, by rw [hsplit, hq]⟩

/-- The log is recorded as used if and only if it lies below the cursor. -/
theorem staysOwned_iff_below (hpages : ∀ e ∈ info.mmapEntries, e.OnPageBounds)
    (hdisj : info.mmapEntries.Pairwise MmapEntry.Apart) {handed : List Word}
    (hhanded : ∀ f ∈ handed, f ∈ allFrames info.mmapEntries ∧ addrIsInUsedRange info f = false) :
    StaysOwned info currAvail handed ↔ ∀ f ∈ handed, f < currAvail := by
  rw [StaysOwned, bootMmPageDatabaseInit_eq fun e he => (hpages e he).stepSafe]
  have hrecord : ∀ f ∈ handed, ∃ q, info.mmapEntries.foldl
      (entryDone (addrIsInUsedRange info) currAvail) (fun _ => Page.zero) (stepPfn f) =
      initPage (addrIsInUsedRange info) currAvail f multibootMemoryAvailable q := by
    intro f hf
    obtain ⟨e, he, hfe⟩ := List.mem_flatMap.mp (hhanded f hf).1
    obtain ⟨havail, hstop, n, hfirst, hn, rfl⟩ := MmapEntry.mem_frames.mp hfe
    have hpfn : stepPfn (BitVec.ofNat 64 (4096 * n)) = n := by
      rw [stepPfn, BitVec.toNat_udiv, toNat_pageSize,
        toNat_frame_div (MmapEntry.endPfn_lt hstop hn.le)]
    rw [hpfn, ← (show e.type = multibootMemoryAvailable from havail)]
    exact recorded_frame hpages hdisj he hstop hfirst hn _
  constructor
  · rintro ⟨g, heq, howned⟩ f hf
    obtain ⟨_, rfl⟩ := Prod.mk.inj (Option.some.inj heq)
    obtain ⟨q, hq⟩ := hrecord f hf
    obtain ⟨_, _, hnot⟩ := howned f hf
    rw [Donated, hq, initPage_donated] at hnot
    by_contra habove
    exact hnot ⟨rfl, habove, (hhanded f hf).2⟩
  · refine fun hbelow => ⟨_, rfl, fun f hf => ?_⟩
    obtain ⟨q, hq⟩ := hrecord f hf
    rw [Donated, hq, initPage_donated]
    refine ⟨rfl, ?_, fun hnot => hnot.2.1 (hbelow f hf)⟩
    simp only [initPage, mmapRefCount, hbelow f hf, true_or, if_true]

/-! ### The cursor -/

theorem mem_handed : f ∈ s.handed entries used ↔ f ∈ s.taken entries ∧ used f = false := by
  rw [BootCursor.handed, List.mem_filter, Bool.not_eq_true']

/-- Frames of an entry lie inside it. -/
theorem MmapEntry.frame_bounds (hf : f ∈ e.frames) :
    e.addr.toNat ≤ f.toNat ∧ f.toNat + 4096 ≤ e.stop := by
  obtain ⟨_, hstop, n, hfirst, hn, rfl⟩ := mem_frames.mp hf
  have hval := toNat_frame (endPfn_lt hstop hn.le)
  unfold firstPfn at hfirst
  unfold endPfn at hn
  omega

theorem MmapEntry.lt_of_apart {e' : MmapEntry} (hapart : e.Apart e')
    (hlt : e.addr.toNat < e'.addr.toNat)
    (hne : e'.addr.toNat < e'.stop) : e.stop ≤ e'.addr.toNat := by
  by_contra hover
  exact hapart e'.addr.toNat ⟨by omega, by omega⟩ ⟨le_rfl, hne⟩

/-- An entry with a frame below the end of another one starts before it. -/
theorem MmapEntry.start_lt_of_frame {e' : MmapEntry} (hapart : e.Apart e') (hf : f ∈ e.frames)
    (hlt : f.toNat < e'.stop) : e.addr.toNat < e'.addr.toNat := by
  have hbounds := frame_bounds hf
  by_contra hnot
  exact hapart e.addr.toNat ⟨le_rfl, by omega⟩ ⟨Nat.le_of_not_lt hnot, by omega⟩

theorem MmapEntry.apart_of_index_lt {entries : List MmapEntry} {e' : MmapEntry} {i j : ℕ}
    (hdisj : entries.Pairwise MmapEntry.Apart) (hij : i < j) (he : entries[i]? = some e)
    (he' : entries[j]? = some e') : e.Apart e' := by
  obtain ⟨hi, rfl⟩ := List.getElem?_eq_some_iff.mp he
  obtain ⟨hj, rfl⟩ := List.getElem?_eq_some_iff.mp he'
  exact List.pairwise_iff_getElem.mp hdisj i j hi hj hij

/-- The log lies below the cursor if and only if the cursor has not moved down. -/
theorem handed_below_iff (hdisj : info.mmapEntries.Pairwise MmapEntry.Apart)
    (hplaced : Placed info.mmapEntries s) :
    (∀ f ∈ s.handed info.mmapEntries (addrIsInUsedRange info), f < s.currAvail) ↔
      CursorAscends info s.currEntryIdx := by
  cases hplaced with
  | start =>
    refine iff_of_true (fun f hf => ?_) fun i j _ _ _ hj _ _ _ => ?_
    · rw [mem_handed, taken_start] at hf
      exact absurd hf.1 List.not_mem_nil
    · change (j : ℤ) = -1 at hj
      omega
  | @inside idx n cur hentry havail hstop hfirst hlast =>
    have hn := MmapEntry.endPfn_lt hstop hlast
    have hcursor : cur.addr.toNat ≤ 4096 * cur.firstPfn ∧ 4096 * n ≤ cur.stop ∧
        cur.addr.toNat < cur.stop := by
      unfold MmapEntry.firstPfn at hfirst ⊢
      unfold MmapEntry.endPfn at hlast
      omega
    simp only [mem_handed, taken_inside hentry hn, List.mem_append, BitVec.lt_def, toNat_frame hn]
    constructor
    · rintro hbelow i j e e' hij hj he he' ⟨f, hf, hunused⟩
      obtain rfl : j = idx := by
        change (j : ℤ) = (idx : ℤ) at hj
        omega
      obtain rfl := Option.some.inj (hentry.symm.trans he')
      have hmem : e ∈ info.mmapEntries.take j := by
        obtain ⟨hilt, rfl⟩ := List.getElem?_eq_some_iff.mp he
        exact List.mem_take_iff_getElem.mpr ⟨i, by omega, rfl⟩
      have hlow := hbelow f ⟨Or.inl (List.mem_flatMap.mpr ⟨e, hmem, hf⟩), hunused⟩
      exact MmapEntry.start_lt_of_frame (MmapEntry.apart_of_index_lt hdisj hij he hentry) hf
        (hlow.trans_le hcursor.2.1)
    · rintro hascends f ⟨hf | hf, hunused⟩
      · obtain ⟨e, hmem, hfe⟩ := List.mem_flatMap.mp hf
        obtain ⟨i, hi, rfl⟩ := List.mem_take_iff_getElem.mp hmem
        have he : info.mmapEntries[i]? = some info.mmapEntries[i] :=
          List.getElem?_eq_getElem (by omega)
        have hlt := hascends i idx _ _ (by omega) rfl he hentry ⟨f, hfe, hunused⟩
        have hapart := MmapEntry.apart_of_index_lt hdisj (by omega) he hentry
        have hstop' := MmapEntry.lt_of_apart hapart hlt hcursor.2.2
        have hbounds := MmapEntry.frame_bounds hfe
        omega
      · obtain ⟨m, _, hm, rfl⟩ := mem_framesBetween.mp hf
        rw [toNat_frame (by omega)]
        omega

theorem TableAscends.cursor (h : TableAscends info) (hplaced : Placed info.mmapEntries s) :
    CursorAscends info s.currEntryIdx := by
  intro i j e e' hij hj he he' hfree
  apply h i j e e' hij he he' hfree
  cases hplaced with
  | start =>
    change (j : ℤ) = -1 at hj
    omega
  | @inside idx n cur hentry havail hstop hfirst hlast =>
    obtain rfl : j = idx := by
      change (j : ℤ) = (idx : ℤ) at hj
      omega
    obtain rfl := Option.some.inj (hentry.symm.trans he')
    exact havail

/-! ### Runs -/

theorem bootMmPgtableInit_logInv (hpages : ∀ e ∈ info.mmapEntries, e.OnPageBounds) {m : Memory}
    {ret : ℤ} {st' : BootState (BootCursor × List Word)}
    (hrun : bootMmPgtableInit (loggedAlloc info) info (bootStart m) = some (ret, st')) :
    LogInv info st'.pages := by
  have halloc : AllocKeeps False (LogInv info) (loggedAlloc info) :=
    loggedAlloc_keeps (fun e he => (hpages e he).alignSafe) False False.elim
  have hkeeps : BootKeeps False (LogInv info) (fun _ => True)
      (bootMmPgtableInit (loggedAlloc info) info) :=
    bootMmPgtableInit_keeps halloc (fun _ _ _ => trivial) False.elim
  exact (hkeeps.of_eq_some ⟨LogInv.start info, trivial⟩ hrun).1

theorem bootMmPgtableInit_logFree {m : Memory} {ret : ℤ} {st' : BootState (BootCursor × List Word)}
    (hrun : bootMmPgtableInit (loggedAlloc info) info (bootStart m) = some (ret, st')) :
    LogFree info st'.pages := by
  have hkeeps : BootKeeps False (LogFree info) (fun _ => True)
      (bootMmPgtableInit (loggedAlloc info) info) :=
    bootMmPgtableInit_keeps (loggedAlloc_keeps_free info) (fun _ _ _ => trivial) False.elim
  have hstart : LogFree info (BootCursor.start, []) :=
    ⟨by decide, fun f hf => absurd hf List.not_mem_nil⟩
  exact (hkeeps.of_eq_some ⟨hstart, trivial⟩ hrun).1

theorem LogInv.staysOwned_iff (hpages : ∀ e ∈ info.mmapEntries, e.OnPageBounds)
    (hdisj : info.mmapEntries.Pairwise MmapEntry.Apart) {t : BootCursor × List Word}
    (hinv : LogInv info t) :
    StaysOwned info t.1.currAvail t.2 ↔ CursorAscends info t.1.currEntryIdx := by
  obtain ⟨hplaced, hlog⟩ := hinv
  rw [← handed_below_iff hdisj hplaced, ← hlog]
  refine staysOwned_iff_below hpages hdisj fun f hf => ?_
  rw [hlog, mem_handed] at hf
  refine ⟨?_, hf.2⟩
  rw [← hplaced.taken_append_pending]
  exact List.mem_append_left _ hf.1

/-- All frames that boot_mm_page_alloc hands out in a run of boot_mm_pgtable_init are
recorded as used if and only if no entry in front of the cursor, with a frame to hand
out, lies above the cursor's entry; so always when the table ascends. -/
theorem bootAllocations_stayOwned_iff (hpages : ∀ e ∈ info.mmapEntries, e.OnPageBounds)
    (hdisj : info.mmapEntries.Pairwise MmapEntry.Apart) {m : Memory} {ret : ℤ}
    {st' : BootState (BootCursor × List Word)}
    (hrun : bootMmPgtableInit (loggedAlloc info) info (bootStart m) = some (ret, st')) :
    (StaysOwned info st'.pages.1.currAvail st'.pages.2 ↔
      CursorAscends info st'.pages.1.currEntryIdx) ∧
    (TableAscends info → StaysOwned info st'.pages.1.currAvail st'.pages.2) := by
  have hinv := bootMmPgtableInit_logInv hpages hrun
  have hiff := hinv.staysOwned_iff hpages hdisj
  exact ⟨hiff, fun htable => hiff.mpr (htable.cursor hinv.1)⟩

/-- The log has the given frames. -/
def LogHas (info : BootInfo) (fs : List Word) (t : BootCursor × List Word) : Prop :=
  LogInv info t ∧ ∀ f ∈ fs, f ∈ t.2

theorem loggedAlloc_keeps_mem (hpages : ∀ e ∈ info.mmapEntries, e.OnPageBounds)
    (hstop : ∀ e ∈ info.mmapEntries, e.Available → e.stop < 2 ^ 64)
    (herr : addrIsInUsedRange info (errPtr enomem) = false) (fs : List Word) :
    AllocKeeps True (LogHas info fs) (loggedAlloc info) := by
  rintro t ⟨hinv, hmem⟩
  have halloc := loggedAlloc_keeps (fun e he => (hpages e he).alignSafe) True
    fun _ => ⟨hstop, herr⟩
  rcases halloc t hinv with ⟨hnot, _⟩ | ⟨page, t', hcall, hinv'⟩
  · exact absurd trivial hnot
  · refine Or.inr ⟨page, t', hcall, hinv', fun f hf => ?_⟩
    obtain ⟨out, _, heq⟩ := Option.map_eq_some_iff.mp hcall
    obtain ⟨rfl, rfl⟩ := Prod.mk.inj heq
    simp only
    split
    · exact hmem f hf
    · exact List.mem_append_left _ (hmem f hf)

end Owned

/-! ### Instances -/

/-- A region of one frame below a region of eight. -/
def ascendingMap : BootInfo :=
  bootWithMap [⟨0x1000#64, 0x1000#64, multibootMemoryAvailable⟩,
    ⟨0x10000#64, 0x8000#64, multibootMemoryAvailable⟩]

theorem ascendingMap_tableAscends : TableAscends ascendingMap := by
  intro i j e e' hij he he' _ _
  obtain ⟨hj, rfl⟩ := List.getElem?_eq_some_iff.mp he'
  obtain ⟨hi, rfl⟩ := List.getElem?_eq_some_iff.mp he
  have hlen : ascendingMap.mmapEntries.length = 2 := rfl
  obtain ⟨rfl, rfl⟩ : i = 0 ∧ j = 1 := by omega
  exact (by decide : 0x1000#64 < 0x10000#64)

/-- The regions are listed by ascending address: all frames handed out stay owned. -/
theorem bootAllocations_stayOwned_eightFrames : ∃ ret st',
    bootMmPgtableInit (loggedAlloc ascendingMap) ascendingMap (bootStart fun _ => 0#8) =
      some (ret, st') ∧
    StaysOwned ascendingMap st'.pages.1.currAvail st'.pages.2 := by
  have hpages : ∀ e ∈ ascendingMap.mmapEntries, e.OnPageBounds := by decide
  have halloc : AllocKeeps True (LogInv ascendingMap) (loggedAlloc ascendingMap) :=
    loggedAlloc_keeps (fun e he => (hpages e he).alignSafe) True fun _ => ⟨by decide, by decide⟩
  have hkeeps : BootKeeps True (LogInv ascendingMap) (fun _ => True)
      (bootMmPgtableInit (loggedAlloc ascendingMap) ascendingMap) :=
    bootMmPgtableInit_keeps halloc (fun _ _ _ => trivial) fun _ => by decide
  rcases hkeeps (bootStart fun _ => 0#8) ⟨LogInv.start ascendingMap, trivial⟩ with
    ⟨hnot, _⟩ | ⟨ret, st', hrun, _⟩
  · exact absurd trivial hnot
  · exact ⟨ret, st', hrun, (bootAllocations_stayOwned_iff hpages
      (MmapEntry.pairwise_apart_of_bounds (by decide)) hrun).2 ascendingMap_tableAscends⟩

/-- A region of one frame, listed in front of a larger region below it, and a kernel
with one page of .bss. -/
def descendingMap : BootInfo :=
  { mmapEntries := [⟨0x10000#64, 0x1000#64, multibootMemoryAvailable⟩,
      ⟨0x1000#64, 0xF000#64, multibootMemoryAvailable⟩]
    sections := [⟨shtNobits, shfAlloc ||| shfWrite, 0xFFFFFF8018000000#64, 0x5000#64, 0x1000#64⟩]
    fb := none, multibootTagStart := 0x9000#64, multibootTagEnd := 0xA000#64 }

/-- The first two pages, for the root table and for .bss, come from both regions. -/
theorem descendingMap_run : ∃ ret st',
    bootMmPgtableInit (loggedAlloc descendingMap) descendingMap (bootStart fun _ => 0#8) =
      some (ret, st') ∧
    LogHas descendingMap [0x10000#64, 0x1000#64] st'.pages := by
  have hpages : ∀ e ∈ descendingMap.mmapEntries, e.OnPageBounds := by decide
  have halloc := loggedAlloc_keeps_mem hpages (by decide) (by decide) [0x10000#64, 0x1000#64]
  have hroot : loggedAlloc descendingMap (.start, []) =
      some (0x10000#64, ⟨none, 0, 0x11000#64, 0x11000#64⟩, [0x10000#64]) := by decide
  have hbss : loggedAlloc descendingMap (⟨none, 0, 0x11000#64, 0x11000#64⟩, [0x10000#64]) =
      some (0x1000#64, ⟨some 1, 1, 0x2000#64, 0x10000#64⟩, [0x10000#64, 0x1000#64]) := by decide
  have hinv : LogInv descendingMap
      (⟨some 1, 1, 0x2000#64, 0x10000#64⟩, [0x10000#64, 0x1000#64]) := by
    refine ⟨Placed.inside (i := 1) (n := 2) (e := ⟨0x1000#64, 0xF000#64, multibootMemoryAvailable⟩)
      rfl rfl (by decide) (by decide) (by decide), by decide⟩
  rw [bootMmPgtableInit, withPage_of_alloc hroot (by decide)]
  obtain ⟨r, u, hsection, hu⟩ := mapNobits_after (C := fun _ => True) 0x10000#64 halloc
    ⟨shtNobits, shfAlloc ||| shfWrite, 0xFFFFFF8018000000#64, 0x5000#64, 0x1000#64⟩
    { bootStart (fun _ => 0#8) with
      pages := (⟨none, 0, 0x11000#64, 0x11000#64⟩, [0x10000#64])
      mem := memset (fun _ => 0#8) 0x10000#64 0#8 4096 }
    (by decide) hbss (by decide) ⟨hinv, fun f hf => hf⟩ trivial
  have hlater : BootKeeps True (LogHas descendingMap [0x10000#64, 0x1000#64]) (fun _ => True)
      (mapLater (loggedAlloc descendingMap) 0x10000#64 descendingMap) :=
    mapLater_keeps halloc fun _ => by decide
  have hnone : BootKeeps True (LogHas descendingMap [0x10000#64, 0x1000#64]) (fun _ => True)
      (forEach (mapSection (loggedAlloc descendingMap) 0x10000#64) []) := Keeps.status 0
  obtain ⟨r', v, hsections, hv⟩ := Keeps.after hnone hsection hu
  obtain ⟨ret, st', hrun, hlast⟩ := Keeps.after hlater hsections hv
  exact ⟨ret, st', hrun, hlast.1⟩

theorem not_bootAllocations_stayOwned :
    ¬ ∀ (info : BootInfo) (m : Memory) (ret : ℤ) (st' : BootState (BootCursor × List Word)),
      (∀ e ∈ info.mmapEntries, e.OnPageBounds) → info.mmapEntries.Pairwise MmapEntry.Apart →
      bootMmPgtableInit (loggedAlloc info) info (bootStart m) = some (ret, st') →
      StaysOwned info st'.pages.1.currAvail st'.pages.2 := by
  intro hall
  have hpages : ∀ e ∈ descendingMap.mmapEntries, e.OnPageBounds := by decide
  have hdisj : descendingMap.mmapEntries.Pairwise MmapEntry.Apart :=
    MmapEntry.pairwise_apart_of_bounds (by decide)
  obtain ⟨ret, st', hrun, hinv, hmem⟩ := descendingMap_run
  have hascends := (hinv.staysOwned_iff hpages hdisj).mp
    (hall descendingMap _ ret st' hpages hdisj hrun)
  have hbss := hmem 0x1000#64 (by decide)
  rw [hinv.2, mem_handed] at hbss
  have hplaced := hinv.1
  generalize st'.pages.1 = s at hplaced hascends hbss
  cases hplaced with
  | start => exact absurd hbss.1 List.not_mem_nil
  | @inside idx n cur hentry havail hstop hfirst hlast =>
    rcases idx with _ | _ | idx
    · -- a cursor in the first entry has not passed the page of .bss
      obtain rfl := Option.some.inj hentry
      rw [taken_inside hentry (MmapEntry.endPfn_lt hstop hlast), List.take_zero, List.flatMap_nil,
        List.nil_append] at hbss
      obtain ⟨m, hm, hmn, heq⟩ := mem_framesBetween.mp hbss.1
      change 16 ≤ m at hm
      change n ≤ 17 at hlast
      obtain rfl : m = 16 := by omega
      exact absurd heq (by decide)
    · exact absurd (hascends 0 1 _ _ (by decide) rfl rfl rfl ⟨0x10000#64, by decide, by decide⟩)
        (by decide)
    · exact absurd hentry (by simp [descendingMap])

end ClosureOS
