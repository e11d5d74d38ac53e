import ClosureOS.PageDatabase

/-!
The indices at which boot_mm_page_database_init writes the page database, against the
size that boot_mm_pgtable_init gives it. The size rounds the highest end of an entry
down, the writes round the end of each entry up. So the last write of an entry whose
length is no multiple of a page is in range only if another entry ends in a higher frame.
-/
namespace ClosureOS

open StatusLoops

/-- The values of base in the inner loop, for one entry of the memory map. -/
def databaseBases (e : MmapEntry) : List Word :=
  visited (fun base => decide (base < e.addr + e.len)) (· + pageSize) wordRounds e.addr

/-- The indices at which the loops write mm::pgdb_base, in order. -/
def databaseWrites (entries : List MmapEntry) : List ℕ :=
  entries.flatMap fun e => (databaseBases e).map stepPfn

/-- The values of i in the loop that maps the page database. -/
def databaseChunks (nr : Word) : List Word :=
  visited (fun i => decide (i < nr)) (· + pgdbPgPageNr) wordRounds 0#64

/-- Every index written is below pgdb_page_nr, and its entry lies in a page that the
mapping loop maps. -/
def WritesInRange (entries : List MmapEntry) : Prop :=
  ∀ pfn ∈ databaseWrites entries, pfn < (physmemEnd entries / pageSize).toNat ∧
    ∃ i ∈ databaseChunks (physmemEnd entries / pageSize),
      pageAddr pfn &&& pageMask = kernPageDatabaseRegionBase + sizeofPage * i

/-- The indices above are those of the modelled loops: the inner loop writes at one base after
the other, boot_mm_pgtable_init leaves this pgdb_page_nr, and the mapping loop maps one page
for each chunk of it. -/
structure IndicesOfLoops (entries : List MmapEntry) : Prop where
  writes : ∀ e ∈ entries, ∀ (used : Word → Bool) (currAvail : Word),
    databaseEntry used currAvail e = forEach (fun base g => some (0, Function.update g
      (stepPfn base) (initPage used currAvail base e.type (g (stepPfn base))))) (databaseBases e)
  size : ∀ {σ : Type} {alloc : σ → Option (Word × σ)} {info : BootInfo} {st st' : BootState σ},
    info.mmapEntries = entries → bootMmPgtableInit alloc info st = some (0, st') →
      st'.pgdbPageNr = physmemEnd entries / pageSize
  chunks : ∀ {σ : Type} (alloc : σ → Option (Word × σ)) (root : Word),
    mapPageDatabase alloc root (physmemEnd entries / pageSize) =
      forEach (fun i => withPage alloc (fun page => page.toInt) fun page =>
        mapPage alloc root (kernPageDatabaseRegionBase + sizeofPage * i) page
          (pteAttrP ||| pteAttrRw)) (databaseChunks (physmemEnd entries / pageSize))

/-- The frame at which the rounded-down end of an entry lies. -/
def MmapEntry.endFrame (e : MmapEntry) : ℕ := e.addr.toNat / 4096 + e.len.toNat / 4096

/-- Each entry that does not have a whole number of pages ends below the end of another. -/
def PartialEntriesCovered (entries : List MmapEntry) : Prop :=
  ∀ e ∈ entries, ¬ 4096 ∣ e.len.toNat → ∃ f ∈ entries, e.endFrame < f.endFrame

instance (entries : List MmapEntry) : Decidable (PartialEntriesCovered entries) :=
  inferInstanceAs (Decidable (∀ e ∈ entries, _ → ∃ f ∈ entries, _))

section Bounds

variable {entries : List MmapEntry} {e : MmapEntry} {k pfn : ℕ}

theorem databaseBases_eq (hsafe : e.StepSafe) :
    databaseBases e = (List.range (pageRounds e.addr (e.addr + e.len))).map fun i =>
      (fun base => base + pageSize)^[i] e.addr :=
  visited_eq_map (pageRounds_lt e.addr (e.addr + e.len)) (entry_guard hsafe).1 (entry_guard hsafe).2

/-- The inner loop writes one entry of the database for each of its bases. -/
theorem databaseEntry_eq_forEach (used : Word → Bool) (currAvail : Word) (hsafe : e.StepSafe) :
    databaseEntry used currAvail e = forEach (fun base g => some (0, Function.update g
      (stepPfn base) (initPage used currAvail base e.type (g (stepPfn base)))))
      (databaseBases e) :=
  whileRounds_eq_forEach_visited ⟨_, pageRounds_lt e.addr (e.addr + e.len), (entry_guard hsafe).2⟩

theorem mapPageDatabase_eq_forEach {σ : Type} (alloc : σ → Option (Word × σ)) (root : Word)
    {nr : Word} (hnr : nr.toNat < 2 ^ 52) :
    mapPageDatabase alloc root nr = forEach (fun i => withPage alloc (fun page => page.toInt)
      fun page => mapPage alloc root (kernPageDatabaseRegionBase + sizeofPage * i) page
        (pteAttrP ||| pteAttrRw)) (databaseChunks nr) := by
  apply whileRounds_eq_forEach_visited
  obtain ⟨k, hk, hstop⟩ := exists_entry_stop nr hnr
  exact ⟨k, hk, by rw [iterate_add]; exact decide_eq_false hstop⟩

theorem bootMmPgtableInit_pgdbPageNr {σ : Type} {alloc : σ → Option (Word × σ)} {info : BootInfo}
    {st st' : BootState σ} (h : bootMmPgtableInit alloc info st = some (0, st')) :
    st'.pgdbPageNr = physmemEnd info.mmapEntries / pageSize := by
  unfold bootMmPgtableInit withPage at h
  cases halloc : alloc st.pages with
  | none => simp [halloc] at h
  | some out =>
    simp only [halloc] at h
    split at h
    · exact absurd (Prod.mk.inj (Option.some.inj h)).1 (by decide)
    · obtain ⟨_, _, _, _, h⟩ := andThen_of_nonneg le_rfl h
      obtain ⟨_, _, _, _, h⟩ := andThen_of_nonneg le_rfl h
      obtain ⟨_, _, _, _, h⟩ := andThen_of_nonneg le_rfl h
      obtain ⟨_, _, _, _, h⟩ := andThen_of_nonneg le_rfl h
      obtain ⟨_, rfl⟩ := Prod.mk.inj (Option.some.inj h)
      rfl

/-- An entry is written for each frame it steps on. -/
theorem mem_databaseWrites (hsafe : ∀ e ∈ entries, e.StepSafe) :
    pfn ∈ databaseWrites entries ↔ ∃ e ∈ entries, e.StepsOn pfn := by
  rw [databaseWrites, List.mem_flatMap]
  refine exists_congr fun e => and_congr_right fun he => ?_
  rw [databaseBases_eq (hsafe e he), List.map_map, List.mem_map]
  constructor
  · rintro ⟨i, hi, rfl⟩
    have hi := List.mem_range.mp hi
    rw [Function.comp_apply, iterate_add, MmapEntry.stepPfn_step hi, MmapEntry.StepsOn]
    omega
  · rintro ⟨hlow, hhigh⟩
    refine ⟨pfn - e.addr.toNat / 4096, List.mem_range.mpr (by omega), ?_⟩
    rw [Function.comp_apply, iterate_add, MmapEntry.stepPfn_step (by omega)]
    omega

/-- The running maximum reaches beyond frame k when one of the ends does. -/
theorem lt_physmemEnd_iff (hstop : ∀ e ∈ entries, e.stop ≤ 2 ^ 52) :
    k < (physmemEnd entries / pageSize).toNat ↔ ∃ e ∈ entries, k < e.endFrame := by
  have hfold : ∀ top : Word, k < (entries.foldl
      (fun top e =>
        if (e.addr &&& pageMask) + e.len > top then (e.addr &&& pageMask) + e.len else top)
      top).toNat / 4096 ↔ k < top.toNat / 4096 ∨ ∃ e ∈ entries, k < e.endFrame := by
    induction entries with
    | nil => simp
    | cons e entries ih =>
      intro top
      have hval : ((e.addr &&& pageMask) + e.len).toNat / 4096 = e.endFrame := by
        rw [MmapEntry.toNat_base_add_len ((hstop e List.mem_cons_self).trans_lt (by decide)),
          MmapEntry.endFrame]
        omega
      rw [List.foldl_cons, ih fun f hf => hstop f (List.mem_cons_of_mem e hf),
        List.exists_mem_cons_iff, ← or_assoc]
      apply or_congr_left
      rw [← hval]
      split
      · next hgt =>
        have hgt : top.toNat < ((e.addr &&& pageMask) + e.len).toNat := hgt
        omega
      · next hle =>
        have hle : ¬ top.toNat < ((e.addr &&& pageMask) + e.len).toNat := hle
        omega
  rw [BitVec.toNat_udiv, toNat_pageSize]
  exact (hfold 0#64).trans (or_iff_right (Nat.not_lt_zero _))

/-- Below pgdb_page_nr the page of every entry is mapped. -/
theorem exists_databaseChunk {nr : Word} (hnr : nr.toNat < 2 ^ 52) (hpfn : pfn < nr.toNat) :
    ∃ i ∈ databaseChunks nr,
      pageAddr pfn &&& pageMask = kernPageDatabaseRegionBase + sizeofPage * i := by
  have hval : ∀ k ≤ (nr.toNat + 63) / 64,
      ((fun i : Word => i + pgdbPgPageNr)^[k] 0#64).toNat = 64 * k := by
    intro k hk
    rw [iterate_add, BitVec.zero_add, BitVec.toNat_mul, BitVec.toNat_ofNat, pgdbPgPageNr,
      BitVec.toNat_ofNat]
    omega
  have hchunks : databaseChunks nr = (List.range ((nr.toNat + 63) / 64)).map fun k =>
      (fun i : Word => i + pgdbPgPageNr)^[k] 0#64 := by
    apply visited_eq_map (by rw [wordRounds]; omega)
    · intro k hk
      apply decide_eq_true
      rw [BitVec.lt_def, hval k hk.le]
      omega
    · apply decide_eq_false
      rw [BitVec.lt_def, hval _ le_rfl]
      omega
  refine ⟨(fun i => i + pgdbPgPageNr)^[pfn / 64] 0#64, ?_, ?_⟩
  · rw [hchunks]
    exact List.mem_map.mpr ⟨pfn / 64, List.mem_range.mpr (by omega), rfl⟩
  · apply BitVec.eq_of_toNat_eq
    rw [toNat_and_pageMask, toNat_pageAddr, BitVec.toNat_add, BitVec.toNat_mul, hval _ (by omega),
      kernPageDatabaseRegionBase, sizeofPage, BitVec.toNat_ofNat, BitVec.toNat_ofNat]
    omega

theorem physmemEnd_pages_lt (entries : List MmapEntry) :
    (physmemEnd entries / pageSize).toNat < 2 ^ 52 := by
  rw [BitVec.toNat_udiv, toNat_pageSize]
  omega

theorem MmapEntry.stepSafe_of_stop (hstop : e.stop ≤ 2 ^ 52) : e.StepSafe := by
  rw [MmapEntry.StepSafe, MmapEntry.toNat_addr_add_len (by omega)]
  omega

/-- The partial last page of an entry is written. -/
theorem WritesInRange.partialEntriesCovered (hstop : ∀ e ∈ entries, e.stop ≤ 2 ^ 52)
    (h : WritesInRange entries) : PartialEntriesCovered entries := by
  intro e he hpart
  have hlen := MmapEntry.pageRounds_eq ((hstop e he).trans_lt (by decide))
  have hon : e.StepsOn e.endFrame := by
    rw [MmapEntry.StepsOn, MmapEntry.endFrame, hlen]
    omega
  have hwrite :=
    (mem_databaseWrites fun e he => MmapEntry.stepSafe_of_stop (hstop e he)).mpr ⟨e, he, hon⟩
  exact (lt_physmemEnd_iff hstop).mp (h _ hwrite).1

theorem PartialEntriesCovered.writesInRange (hstop : ∀ e ∈ entries, e.stop ≤ 2 ^ 52)
    (h : PartialEntriesCovered entries) : WritesInRange entries := by
  intro pfn hpfn
  obtain ⟨e, he, hon⟩ :=
    (mem_databaseWrites fun e he => MmapEntry.stepSafe_of_stop (hstop e he)).mp hpfn
  rw [MmapEntry.StepsOn, MmapEntry.pageRounds_eq ((hstop e he).trans_lt (by decide))] at hon
  have hlt : pfn < (physmemEnd entries / pageSize).toNat := by
    rw [lt_physmemEnd_iff hstop]
    by_cases hpart : 4096 ∣ e.len.toNat
    · refine ⟨e, he, ?_⟩
      unfold MmapEntry.endFrame
      omega
    · obtain ⟨f, hf, hend⟩ := h e he hpart
      refine ⟨f, hf, lt_of_le_of_lt ?_ hend⟩
      unfold MmapEntry.endFrame
      omega
  exact ⟨hlt, exists_databaseChunk (physmemEnd_pages_lt entries) hlt⟩

/-- All writes of the page database are in range if and only if no entry with a partial
last page ends in the highest frame. The indices are those of the modelled loops. -/
theorem writesInRange_iff (hstop : ∀ e ∈ entries, e.stop ≤ 2 ^ 52) :
    (WritesInRange entries ↔ PartialEntriesCovered entries) ∧ IndicesOfLoops entries := by
  refine ⟨⟨fun h => h.partialEntriesCovered hstop, fun h => h.writesInRange hstop⟩, ?_⟩
  constructor
  · exact fun e he used currAvail =>
      databaseEntry_eq_forEach used currAvail (MmapEntry.stepSafe_of_stop (hstop e he))
  · rintro σ alloc info st st' rfl hrun
    exact bootMmPgtableInit_pgdbPageNr hrun
  · exact fun alloc root => mapPageDatabase_eq_forEach alloc root (physmemEnd_pages_lt entries)

theorem writesInRange_oneEntry :
    WritesInRange [⟨0x800#64, 0x3000#64, multibootMemoryAvailable⟩] :=
  (writesInRange_iff (by decide)).1.mpr (by decide)

end Bounds

/-- A whole page and a half: the second page is written, and the database has room for
one entry. -/
theorem not_writesInRange :
    ¬ ∀ entries : List MmapEntry, (∀ e ∈ entries, e.stop ≤ 2 ^ 52) → WritesInRange entries := by
  intro hall
  have hrange := hall [⟨0#64, 0x1800#64, multibootMemoryAvailable⟩] (by decide)
  have hcovered := hrange.partialEntriesCovered (by decide)
  revert hcovered
  decide

end ClosureOS
