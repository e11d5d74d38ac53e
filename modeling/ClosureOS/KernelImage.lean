import ClosureOS.BootOwnership
import ClosureOS.ImageRanges

/-!
The pages that a run of boot_mm_pgtable_init maps as the contents of a section, whether
they are in the used ranges, and what becomes of their frames when they are.
-/
namespace ClosureOS

open ByteMemory StatusLoops

/-! ### What a run maps -/

section Runs

variable {σ : Type} {alloc : σ → Option (Word × σ)} {root : Word} {info : BootInfo}

/-- Every allocator keeps the trivial invariant. -/
theorem allocKeeps_trivial (alloc : σ → Option (Word × σ)) :
    AllocKeeps False (fun _ => True) alloc := by
  intro s _
  cases alloc s with
  | none => exact Or.inl ⟨id, rfl⟩
  | some out => exact Or.inr ⟨out.1, out.2, rfl, trivial⟩

/-- A step that keeps every invariant of the contents does not append to them. -/
theorem BootKeeps.appends {c : Step (BootState σ)}
    (hc : ∀ C : List Word → Prop, BootKeeps False (fun _ => True) C c) :
    Appends BootState.contents c [] :=
  Appends.of_keeps fun l t ht => by simpa using hc (· = l) t ⟨trivial, ht⟩

theorem mapPage_appends (va pa attr : Word) :
    Appends BootState.contents (mapPage alloc root va pa attr) [] :=
  BootKeeps.appends fun _ => mapPage_keeps (allocKeeps_trivial alloc) va pa attr

theorem recordContent_appends (page : Word) :
    Appends BootState.contents (recordContent page : Step (BootState σ)) [page] := by
  intro t r t' heq
  obtain ⟨_, rfl⟩ := Prod.mk.inj (Option.some.inj heq)
  exact ⟨[page], List.prefix_rfl, rfl, fun _ => rfl⟩

theorem mapProgbits_appends (sh : Elf64Shdr) :
    Appends BootState.contents (mapProgbits alloc root sh) (contentPages sh) := by
  have hfits : (physEnd sh).toNat + 4095 < 2 ^ 64 := pageAlign_fits _
  have hloop : mapProgbits alloc root sh =
      forEach (fun x => andThen (mapPage alloc root x.2 x.1 (sectionAttr sh)) (recordContent x.1))
        ((List.range (pageRounds (physStart sh) (physEnd sh))).map fun i =>
          nextPages^[i] (physStart sh, sh.shAddr)) := by
    apply whileRounds_eq_forEach (pageRounds_lt (physStart sh) (physEnd sh))
    · intro i hi
      rw [iterate_nextPages]
      exact decide_eq_true ((lt_iff_pageRounds hfits hi.le).mpr hi)
    · rw [iterate_nextPages]
      exact decide_eq_false fun h => absurd ((lt_iff_pageRounds hfits le_rfl).mp h) (lt_irrefl _)
  have hpages : contentPages sh = ((List.range (pageRounds (physStart sh) (physEnd sh))).map
      fun i => nextPages^[i] (physStart sh, sh.shAddr)).flatMap fun x => [] ++ [x.1] := by
    rw [contentPages, List.flatMap_map, List.map_eq_flatMap]
    simp only [iterate_nextPages, List.nil_append]
  rw [hloop, hpages]
  exact Appends.forEach fun x _ => (mapPage_appends _ _ _).andThen (recordContent_appends _)

theorem mapSection_appends {sh : Elf64Shdr} (hknown : ¬ UnknownSection sh) :
    Appends BootState.contents (mapSection alloc root sh)
      (if HasContents sh then contentPages sh else []) := by
  unfold mapSection
  by_cases hflags : sh.shFlags &&& shfAlloc = 0#64
  · rw [if_pos hflags, if_neg fun h => h.1 hflags]
    exact Appends.status 0
  · rw [if_neg hflags]
    by_cases htype : sh.shType &&& shtProgbits = 0#32
    · have hnone : ¬ HasContents sh := fun h => h.2 htype
      have htype' : sh.shType &&& shtNobits ≠ 0#32 := fun h => hknown ⟨hflags, htype, h⟩
      rw [if_neg (not_not.mpr htype), if_pos htype', if_neg hnone]
      exact BootKeeps.appends fun _ => mapNobits_keeps (allocKeeps_trivial alloc) sh
    · rw [if_pos htype, if_pos ⟨hflags, htype⟩]
      exact mapProgbits_appends sh

theorem not_unknown_of_mem {sections : List Elf64Shdr} {sh : Elf64Shdr}
    (h : sh ∈ sections.takeWhile knownSection) : ¬ UnknownSection sh := by
  have hknown := List.mem_takeWhile_imp h
  simpa [knownSection] using hknown

/-- The sections up to the first unknown one append the pages of those with contents. -/
theorem mapKnown_appends (sections : List Elf64Shdr) :
    Appends BootState.contents
      (forEach (mapSection alloc root) (sections.takeWhile knownSection))
      ((contentSections sections).flatMap contentPages) := by
  have hforEach : Appends BootState.contents
      (forEach (mapSection alloc root) (sections.takeWhile knownSection))
      ((sections.takeWhile knownSection).flatMap fun sh =>
        if HasContents sh then contentPages sh else []) :=
    Appends.forEach fun sh hsh => mapSection_appends (not_unknown_of_mem hsh)
  have hpages : (contentSections sections).flatMap contentPages =
      (sections.takeWhile knownSection).flatMap fun sh =>
        if HasContents sh then contentPages sh else [] := by
    unfold contentSections
    generalize (sections.takeWhile knownSection) = known
    induction known with
    | nil => rfl
    | cons sh known ih =>
      by_cases hsh : HasContents sh
      · rw [List.filter_cons_of_pos (by simpa using hsh), List.flatMap_cons, List.flatMap_cons, ih,
          if_pos hsh]
      · rw [List.filter_cons_of_neg (by simpa using hsh), List.flatMap_cons, ih, if_neg hsh,
          List.nil_append]
  rw [hpages]
  exact hforEach

/-- The first unknown section ends the mapping. -/
theorem mapUnknown_appends (sections : List Elf64Shdr) :
    Appends BootState.contents
      (forEach (mapSection alloc root) (sections.dropWhile knownSection)) [] := by
  cases hrest : sections.dropWhile knownSection with
  | nil => exact Appends.status 0
  | cons sh rest =>
    have hunknown : UnknownSection sh := by
      have hhead := List.head_dropWhile_not knownSection (l := sections) (by rw [hrest]; simp)
      simp only [hrest, List.head_cons, knownSection, Bool.not_eq_false',
        decide_eq_true_eq] at hhead
      exact hhead
    have hstop : forEach (mapSection alloc root) (sh :: rest) =
        fun t => some (-(efault : ℤ), t) := by
      funext t
      rw [forEach, andThen, mapSection, if_neg hunknown.1, if_neg (not_not.mpr hunknown.2.1),
        if_neg (not_not.mpr hunknown.2.2)]
      rfl
    rw [hstop]
    exact Appends.status _

/-! ### Errors -/

theorem bootMmPgtableMap_status {va pa attr : Word} {s s' : σ} {m m' : Memory} {ret : ℤ}
    (h : bootMmPgtableMap alloc root va pa attr s m = some (ret, s', m')) :
    ret = 0 ∨ ret = -enomem := by
  unfold bootMmPgtableMap at h
  simp only at h
  split at h
  · exact absurd h (by simp)
  · exact Or.inr (Prod.mk.inj (Option.some.inj h)).1.symm
  · split at h
    · exact absurd h (by simp)
    · exact Or.inr (Prod.mk.inj (Option.some.inj h)).1.symm
    · split at h
      · exact absurd h (by simp)
      · exact Or.inr (Prod.mk.inj (Option.some.inj h)).1.symm
      · exact Or.inl (Prod.mk.inj (Option.some.inj h)).1.symm

theorem mapPage_failsWith (va pa attr : Word) :
    FailsWith (-(enomem : ℤ)) (mapPage alloc root va pa attr) := by
  intro t r t' heq
  obtain ⟨out, hcall, hout⟩ := Option.map_eq_some_iff.mp heq
  obtain ⟨rfl, _⟩ := Prod.mk.inj hout
  rcases bootMmPgtableMap_status hcall with h | h
  · exact Or.inl h.ge
  · exact Or.inr h

theorem withPage_failsWith {k : Word → Step (BootState σ)}
    (hk : ∀ page, FailsWith (-(enomem : ℤ)) (k page)) :
    FailsWith (-(enomem : ℤ)) (withPage alloc (fun _ => -(enomem : ℤ)) k) := by
  intro t r t' heq
  unfold withPage at heq
  split at heq
  · exact absurd heq (by simp)
  · split at heq
    · exact Or.inr (Prod.mk.inj (Option.some.inj heq)).1.symm
    · exact hk _ _ r t' heq

theorem status_failsWith {e ret : ℤ} (h : 0 ≤ ret ∨ ret = e) (f : BootState σ → BootState σ) :
    FailsWith e fun t => some (ret, f t) := by
  intro t r t' heq
  obtain ⟨rfl, _⟩ := Prod.mk.inj (Option.some.inj heq)
  exact h

theorem mapSection_failsWith {sh : Elf64Shdr} (hknown : ¬ UnknownSection sh) :
    FailsWith (-(enomem : ℤ)) (mapSection alloc root sh) := by
  unfold mapSection
  by_cases hflags : sh.shFlags &&& shfAlloc = 0#64
  · rw [if_pos hflags]
    exact status_failsWith (Or.inl le_rfl) id
  · rw [if_neg hflags]
    by_cases htype : sh.shType &&& shtProgbits = 0#32
    · have htype' : sh.shType &&& shtNobits ≠ 0#32 := fun h => hknown ⟨hflags, htype, h⟩
      rw [if_neg (not_not.mpr htype), if_pos htype', mapNobits]
      exact FailsWith.whileRounds
        (fun va => withPage_failsWith fun page => mapPage_failsWith va page _) _ _
    · rw [if_pos htype, mapProgbits]
      exact FailsWith.whileRounds (fun x => (mapPage_failsWith _ _ _).andThen
        (status_failsWith (Or.inl le_rfl) _)) _ _

/-- What a run maps as contents: the pages of the sections with contents in front of the
first unknown one, or the first of them when memory runs out. -/
theorem bootMmPgtableInit_contents {st st' : BootState σ} {ret : ℤ} (hstart : st.contents = [])
    (hrun : bootMmPgtableInit alloc info st = some (ret, st')) :
    st'.contents <+: (contentSections info.sections).flatMap contentPages ∧
      (ret ≠ -enomem →
        st'.contents = (contentSections info.sections).flatMap contentPages) := by
  rw [bootMmPgtableInit, withPage] at hrun
  split at hrun
  · exact absurd hrun (by simp)
  split at hrun
  · -- no page for the root table
    obtain ⟨rfl, rfl⟩ := Prod.mk.inj (Option.some.inj hrun)
    refine ⟨?_, fun h => absurd rfl h⟩
    rw [hstart]
    exact List.nil_prefix
  next page s hcall hpage =>
    rw [← List.takeWhile_append_dropWhile (p := knownSection) (l := info.sections), forEach_append,
      andThen_assoc] at hrun
    rcases andThen_eq_some.mp hrun with ⟨hknown, hneg⟩ | ⟨r, u, hknown, hr, hrest⟩
    · obtain ⟨l, hpre, hlog, _⟩ := mapKnown_appends info.sections _ _ _ hknown
      refine ⟨by rw [hlog, hstart]; exact hpre, fun herr => ?_⟩
      have hfails : FailsWith (-(enomem : ℤ))
          (forEach (mapSection alloc page) (info.sections.takeWhile knownSection)) :=
        FailsWith.forEach fun sh hsh => mapSection_failsWith (not_unknown_of_mem hsh)
      exact absurd (hfails _ _ _ hknown) (by omega)
    · obtain ⟨l, _, hlog, hfull⟩ := mapKnown_appends info.sections _ _ _ hknown
      rw [hstart, List.nil_append, hfull hr] at hlog
      have hlater : Appends BootState.contents (mapLater alloc page info) [] :=
        BootKeeps.appends fun _ => mapLater_keeps (allocKeeps_trivial alloc) False.elim
      obtain ⟨k, hpre, hlast, _⟩ :=
        ((mapUnknown_appends info.sections).andThen hlater) u ret st' hrest
      rw [List.append_nil, List.prefix_nil] at hpre
      rw [hpre, List.append_nil] at hlast
      rw [hlast, hlog]
      exact ⟨List.prefix_rfl, fun _ => rfl⟩

/-! ### Frames in a used range -/

/-- The first byte of the frame of a page decides: a page that is handed out or stepped on
at the first byte of the frame, outside the used ranges, is in another frame. -/
theorem stepPfn_ne_of_used {page f : Word} (hused : addrIsInUsedRange info (page &&& pageMask))
    (hf : 4096 ∣ f.toNat) (hfree : addrIsInUsedRange info f = false) :
    stepPfn f ≠ stepPfn page := by
  intro heq
  have hframe : f = page &&& pageMask := by
    rw [stepPfn, stepPfn, BitVec.toNat_udiv, BitVec.toNat_udiv, toNat_pageSize] at heq
    apply BitVec.eq_of_toNat_eq
    rw [toNat_and_pageMask]
    omega
  rw [hframe, hused] at hfree
  exact absurd hfree (by decide)

/-- A run of boot_mm_pgtable_init maps only reserved pages as contents when the used ranges
leave no gap in the image; and only then, unless memory runs out. The frames of reserved
pages are not handed out, and the page database donates none of them but through an
available entry that starts inside a page and steps on the frame outside the used ranges. -/
theorem imageReserved_iff {m : Memory} {ret : ℤ} {st' : BootState (BootCursor × List Word)}
    (hrun : bootMmPgtableInit (loggedAlloc info) info (bootStart m) = some (ret, st')) :
    (ImageCovered info → ImageReserved info st'.contents) ∧
    (ret ≠ -enomem → ImageReserved info st'.contents → ImageCovered info) ∧
    (ImageReserved info st'.contents → ∀ page ∈ st'.contents,
      (∀ f ∈ st'.pages.2, stepPfn f ≠ stepPfn page) ∧
      ∀ r g, bootMmPageDatabaseInit info st'.pages.1.currAvail (fun _ => Page.zero) =
        some (r, g) → Donated g (stepPfn page) → ∃ e ∈ info.mmapEntries,
          ¬ 4096 ∣ e.addr.toNat ∧ e.StepsFreely info (stepPfn page)) := by
  obtain ⟨hpre, hfull⟩ := bootMmPgtableInit_contents rfl hrun
  rw [← imageReserved_flatMap_iff]
  refine ⟨fun h page hpage => h page (hpre.subset hpage), fun herr h => ?_, ?_⟩
  · rw [← hfull herr]
    exact h
  · intro h page hpage
    refine ⟨fun f hf => ?_, fun r g hdb hdonated => ?_⟩
    · obtain ⟨haligned, hfree⟩ := (bootMmPgtableInit_logFree hrun).2 f hf
      exact stepPfn_ne_of_used (h page hpage).2 haligned hfree
    · obtain ⟨e, he, havail, base, hstep, hoffset, hfree⟩ := donated_stepsFreely hdb hdonated
      refine ⟨e, he, fun hbound => ?_, havail, base, hstep, hoffset, hfree⟩
      have hbase : 4096 ∣ base.toNat := by omega
      exact stepPfn_ne_of_used (h page hpage).2 hbase hfree hstep

end Runs

/-! ### Instances -/

/-- A kernel with one page of .text, and the multiboot tags in the given range. -/
def textKernel (tagStart tagEnd : Word) : BootInfo :=
  { mmapEntries := [⟨0#64, 0x9F000#64, multibootMemoryAvailable⟩,
      ⟨0x100000#64, 0x100000#64, multibootMemoryAvailable⟩]
    sections := [⟨shtProgbits, shfAlloc, 0xFFFFFF8000000000#64, 0x1000#64, 0x1000#64⟩]
    fb := none, multibootTagStart := tagStart, multibootTagEnd := tagEnd }

/-- The kernel boots and maps the page 0x100000 as its .text. -/
theorem textKernel_run (tagStart tagEnd : Word)
    (herr : addrIsInUsedRange (textKernel tagStart tagEnd) (errPtr enomem) = false)
    (hroot : loggedAlloc (textKernel tagStart tagEnd) (.start, []) =
      some (0#64, ⟨some 0, 0, 0x1000#64, 0x9F000#64⟩, [0#64]))
    (hsup : Supplies (loggedAlloc (textKernel tagStart tagEnd)) 3
      (⟨some 0, 0, 0x1000#64, 0x9F000#64⟩, [0#64])) : ∃ ret st',
    bootMmPgtableInit (loggedAlloc (textKernel tagStart tagEnd)) (textKernel tagStart tagEnd)
      (bootStart fun _ => 0#8) = some (ret, st') ∧ 0x100000#64 ∈ st'.contents := by
  generalize hinfo : textKernel tagStart tagEnd = info at *
  have hentries : info.mmapEntries = [⟨0#64, 0x9F000#64, multibootMemoryAvailable⟩,
      ⟨0x100000#64, 0x100000#64, multibootMemoryAvailable⟩] := by
    rw [← hinfo]
    rfl
  have hsections : info.sections =
      [⟨shtProgbits, shfAlloc, 0xFFFFFF8000000000#64, 0x1000#64, 0x1000#64⟩] := by
    rw [← hinfo]
    rfl
  have halloc : AllocKeeps True (LogInv info) (loggedAlloc info) :=
    loggedAlloc_keeps (by rw [hentries]; decide) True fun _ => ⟨by rw [hentries]; decide, herr⟩
  have hinv : LogInv info (⟨some 0, 0, 0x1000#64, 0x9F000#64⟩, [0#64]) := by
    rcases halloc _ (LogInv.start info) with ⟨hnot, _⟩ | ⟨x, t, hsome, ht⟩
    · exact absurd trivial hnot
    · obtain ⟨_, rfl⟩ := Prod.mk.inj (Option.some.inj (hroot.symm.trans hsome))
      exact ht
  have hlater : BootKeeps True (LogInv info) (0x100000#64 ∈ ·)
      (mapLater (loggedAlloc info) 0#64 info) :=
    mapLater_keeps halloc fun _ => by rw [hentries]; decide
  have hnone : BootKeeps True (LogInv info) (0x100000#64 ∈ ·)
      (forEach (mapSection (loggedAlloc info) 0#64) []) := Keeps.status 0
  rw [bootMmPgtableInit, withPage_of_alloc hroot (by decide), hsections, forEach]
  generalize hsh : (⟨shtProgbits, shfAlloc, 0xFFFFFF8000000000#64, 0x1000#64, 0x1000#64⟩ :
    Elf64Shdr) = sh
  have hbranch :
      mapSection (loggedAlloc info) 0#64 sh = mapProgbits (loggedAlloc info) 0#64 sh := by
    rw [mapSection, if_neg (by rw [← hsh]; decide), if_pos (by rw [← hsh]; decide)]
  have hfirst : physStart sh = 0x100000#64 := by
    rw [← hsh]
    decide
  obtain ⟨r, u, htext, hu⟩ := mapProgbits_after 0#64 halloc sh
    { bootStart (fun _ => 0#8) with
      pages := (⟨some 0, 0, 0x1000#64, 0x9F000#64⟩, [0#64])
      mem := memset (fun _ => 0#8) 0#64 0#8 4096 } (by rw [← hsh]; decide) hsup hinv
  rw [hfirst] at hu
  rw [hbranch]
  obtain ⟨r', v, hall, hv⟩ := Keeps.after hnone htext hu
  obtain ⟨ret, st', hrun, hlast⟩ := Keeps.after hlater hall hv
  exact ⟨ret, st', hrun, hlast.2⟩

/-- With the multiboot tags in front of the kernel the mapped page is a reserved one. -/
theorem imageReserved_textKernel : ∃ ret st',
    bootMmPgtableInit (loggedAlloc (textKernel 0x100000#64 0x101000#64))
      (textKernel 0x100000#64 0x101000#64) (bootStart fun _ => 0#8) = some (ret, st') ∧
    0x100000#64 ∈ st'.contents ∧
      ImageReserved (textKernel 0x100000#64 0x101000#64) st'.contents := by
  obtain ⟨ret, st', hrun, hmem⟩ := textKernel_run 0x100000#64 0x101000#64 (by decide) (by decide)
    ⟨0x1000#64, _, rfl, by decide, 0x2000#64, _, rfl, by decide, 0x3000#64, _, rfl, by decide,
      trivial⟩
  exact ⟨ret, st', hrun, hmem, (imageReserved_iff hrun).1
    ((imageCovered_iff_firstPages (by decide)).mpr (by decide))⟩

/-- With the tags elsewhere it is not. -/
theorem not_imageReserved :
    ¬ ∀ (info : BootInfo) (m : Memory) (ret : ℤ) (st' : BootState (BootCursor × List Word)),
      bootMmPgtableInit (loggedAlloc info) info (bootStart m) = some (ret, st') →
      ImageReserved info st'.contents := by
  intro hall
  obtain ⟨ret, st', hrun, hmem⟩ := textKernel_run 0x9000#64 0xA000#64 (by decide) (by decide)
    ⟨0x1000#64, _, rfl, by decide, 0x2000#64, _, rfl, by decide, 0x3000#64, _, rfl, by decide,
      trivial⟩
  exact absurd (hall _ _ ret st' hrun 0x100000#64 hmem).1 (by decide)

end ClosureOS
