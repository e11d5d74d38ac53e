import ClosureOS.BootInfo
import ClosureOS.Page
import ClosureOS.PageTableMap
import ClosureOS.StatusLoops

/-!
boot_mm_pgtable_init in boot_mm.cpp: the kernel sections, the frame buffer, the direct
map and the page database are entered into a new page table. The allocator is a
parameter, as for the mapping of one page. Loading the table and the addresses that are
kept for later are left out; a hlt has no result.
-/
namespace ClosureOS

open ByteMemory StatusLoops

def pteAttrP : Word := 1#64

def pteAttrRw : Word := 2#64

/-- PGDB_PG_PAGE_NR. -/
def pgdbPgPageNr : Word := 64#64

/-- The allocator, the memory and mm::pgdb_page_nr. contents is a history variable: the
pages mapped so far as the content of a section. -/
structure BootState (σ : Type) where
  pages : σ
  mem : Memory
  pgdbPageNr : Word
  contents : List Word

/-- The attributes of the pages of a section. -/
def sectionAttr (sh : Elf64Shdr) : Word :=
  if sh.shFlags &&& shfWrite ≠ 0#64 then pteAttrP ||| pteAttrRw else pteAttrP

/-- seg_phys_start of a section with contents. -/
def physStart (sh : Elf64Shdr) : Word := 0x100000#64 + sh.shOffset - pageSize

/-- seg_phys_end of a section with contents. -/
def physEnd (sh : Elf64Shdr) : Word := pageAlign (physStart sh + sh.shSize)

/-- Two addresses that move by a page in each round. -/
def nextPages (x : Word × Word) : Word × Word := (x.1 + pageSize, x.2 + pageSize)

/-- The running maximum physmem_end of the loop over the memory map. -/
def physmemEnd (entries : List MmapEntry) : Word :=
  entries.foldl
    (fun top e =>
      let stop := (e.addr &&& pageMask) + e.len
      if stop > top then stop else top) 0#64

section Init

variable {σ : Type} (alloc : σ → Option (Word × σ)) (root : Word)

def mapPage (va pa attr : Word) : Step (BootState σ) := fun st =>
  (bootMmPgtableMap alloc root va pa attr st.pages st.mem).map fun (ret, s, m) =>
    (ret, { st with pages := s, mem := m })

/-- A page from the allocator, checked for an error and cleared. -/
def withPage (error : Word → ℤ) (k : Word → Step (BootState σ)) : Step (BootState σ) := fun st =>
  match alloc st.pages with
  | none => none
  | some (page, s) =>
    if isErrPtr page then some (error page, { st with pages := s })
    else k page { st with pages := s, mem := memset st.mem page 0#8 4096 }

def recordContent (page : Word) : Step (BootState σ) := fun st =>
  some (0, { st with contents := st.contents ++ [page] })

/-- The branch for .text, .data and .rodata. -/
def mapProgbits (sh : Elf64Shdr) : Step (BootState σ) :=
  whileRounds (fun x => decide (x.1 < physEnd sh)) nextPages
    (fun x => andThen (mapPage alloc root x.2 x.1 (sectionAttr sh)) (recordContent x.1))
    wordRounds (physStart sh, sh.shAddr)

/-- The branch for .bss. -/
def mapNobits (sh : Elf64Shdr) : Step (BootState σ) :=
  whileRounds (fun va => decide (va < pageAlign (sh.shAddr + sh.shSize))) (· + pageSize)
    (fun va => withPage alloc (fun _ => -enomem) fun page =>
      mapPage alloc root va page (sectionAttr sh))
    wordRounds sh.shAddr

/-- The body of the loop over the sections. -/
def mapSection (sh : Elf64Shdr) : Step (BootState σ) :=
  if sh.shFlags &&& shfAlloc = 0#64 then fun st => some (0, st)
  else if sh.shType &&& shtProgbits ≠ 0#32 then mapProgbits alloc root sh
  else if sh.shType &&& shtNobits ≠ 0#32 then mapNobits alloc root sh
  else fun st => some (-efault, st)

def mapFrameBuffer : Option FrameBuffer → Step (BootState σ)
  | none => fun st => some (0, st)
  | some fb =>
    let start := fb.base &&& pageMask
    whileRounds (fun x => decide (x.1 < pageAlign (start + fb.sz))) nextPages
      (fun x => mapPage alloc root x.2 x.1 (pteAttrP ||| pteAttrRw)) wordRounds (start, start)

/-- The body of the direct map loop, for one entry of the memory map. -/
def mapEntry (e : MmapEntry) : Step (BootState σ) :=
  let base := e.addr &&& pageMask
  let stop := base + e.len
  let vaddr := base + kernDirectMapRegionBase
  if vaddr < base then fun _ => none
  else
    whileRounds (fun x => decide (x.1 < stop ∧ ¬ x.2 > kernDirectMapRegionEnd)) nextPages
      (fun x => mapPage alloc root x.2 x.1 (pteAttrP ||| pteAttrRw)) wordRounds (base, vaddr)

def mapPageDatabase (nr : Word) : Step (BootState σ) :=
  whileRounds (fun i => decide (i < nr)) (· + pgdbPgPageNr)
    (fun i => withPage alloc (fun page => page.toInt) fun page =>
      mapPage alloc root (kernPageDatabaseRegionBase + sizeofPage * i) page
        (pteAttrP ||| pteAttrRw))
    wordRounds 0#64

/-- What follows the kernel sections: the frame buffer, the direct map and the page
database. -/
def mapLater (info : BootInfo) : Step (BootState σ) :=
  andThen (mapFrameBuffer alloc root info.fb) <|
  andThen (forEach (mapEntry alloc root) info.mmapEntries) <|
  let nr := physmemEnd info.mmapEntries / pageSize
  andThen (mapPageDatabase alloc root nr) fun st => some (0, { st with pgdbPageNr := nr })

def bootMmPgtableInit (info : BootInfo) : Step (BootState σ) :=
  withPage alloc (fun _ => -enomem) fun root =>
    andThen (forEach (mapSection alloc root) info.sections) (mapLater alloc root info)

end Init

/-! ### The loops end -/

theorem iterate_add (d a : Word) (k : ℕ) :
    (fun x : Word => x + d)^[k] a = a + BitVec.ofNat 64 k * d := by
  induction k with
  | zero => simp
  | succ k ih =>
    rw [Function.iterate_succ_apply', ih, BitVec.ofNat_add, BitVec.add_mul, BitVec.one_mul,
      BitVec.add_assoc]

theorem iterate_nextPages (a v : Word) (k : ℕ) :
    nextPages^[k] (a, v) =
      (a + BitVec.ofNat 64 k * pageSize, v + BitVec.ofNat 64 k * pageSize) := by
  induction k with
  | zero => simp
  | succ k ih =>
    rw [Function.iterate_succ_apply', ih, nextPages]
    simp only [BitVec.ofNat_add, BitVec.add_mul, BitVec.one_mul, BitVec.add_assoc]

/-- The number of rounds of a loop over pages. -/
def pageRounds (start stop : Word) : ℕ := (stop.toNat - start.toNat + 4095) / 4096

theorem toNat_add_pages {a : Word} {k : ℕ} (h : a.toNat + 4096 * k < 2 ^ 64) :
    (a + BitVec.ofNat 64 k * pageSize).toNat = a.toNat + 4096 * k := by
  rw [BitVec.toNat_add, BitVec.toNat_mul, BitVec.toNat_ofNat, toNat_pageSize,
    Nat.mod_eq_of_lt (show k < 2 ^ 64 by omega)]
  omega

/-- Below a bound that leaves room for one more page the loop variable does not wrap. -/
theorem lt_iff_pageRounds {a stop : Word} {k : ℕ} (hfit : stop.toNat + 4095 < 2 ^ 64)
    (hk : k ≤ pageRounds a stop) :
    a + BitVec.ofNat 64 k * pageSize < stop ↔ k < pageRounds a stop := by
  unfold pageRounds at hk ⊢
  by_cases hlt : a.toNat < stop.toNat
  · rw [BitVec.lt_def, toNat_add_pages (by omega)]
    omega
  · obtain rfl : k = 0 := by omega
    rw [BitVec.lt_def, toNat_add_pages (by omega)]
    omega

theorem toNat_page {a stop : Word} {k : ℕ} (hfit : stop.toNat + 4095 < 2 ^ 64)
    (hk : k < pageRounds a stop) :
    (a + BitVec.ofNat 64 k * pageSize).toNat = a.toNat + 4096 * k := by
  apply toNat_add_pages
  unfold pageRounds at hk
  omega

theorem pageRounds_lt (a stop : Word) : pageRounds a stop < wordRounds := by
  unfold pageRounds wordRounds
  omega

theorem pageAlign_fits (x : Word) : (pageAlign x).toNat + 4095 < 2 ^ 64 := by
  rw [toNat_pageAlign]
  omega

/-- A loop over pages up to a page boundary ends. -/
theorem exists_page_stop (a x : Word) :
    ∃ k < wordRounds, ¬ a + BitVec.ofNat 64 k * pageSize < pageAlign x :=
  ⟨_, pageRounds_lt a (pageAlign x), by rw [lt_iff_pageRounds (pageAlign_fits x) le_rfl]; omega⟩

/-- The direct map loop ends at the latest behind the region of the direct map. -/
theorem exists_region_stop {a : Word} (ha : a.toNat < 2 ^ 47) : ∃ k < wordRounds,
    a + kernDirectMapRegionBase + BitVec.ofNat 64 k * pageSize > kernDirectMapRegionEnd := by
  have hbase : (a + kernDirectMapRegionBase).toNat = a.toNat + 0xFFFF800000000000 := by
    rw [BitVec.toNat_add, kernDirectMapRegionBase, BitVec.toNat_ofNat]
    omega
  refine ⟨(2 ^ 46 - a.toNat + 4095) / 4096, by rw [wordRounds]; omega, ?_⟩
  rw [gt_iff_lt, BitVec.lt_def, toNat_add_pages (by omega), hbase, kernDirectMapRegionEnd,
    BitVec.toNat_ofNat]
  omega

/-- The loop over the page database ends. -/
theorem exists_entry_stop (nr : Word) (hnr : nr.toNat < 2 ^ 52) :
    ∃ k < wordRounds, ¬ (0#64 + BitVec.ofNat 64 k * pgdbPgPageNr : Word) < nr := by
  refine ⟨nr.toNat, nr.isLt, ?_⟩
  rw [BitVec.zero_add, BitVec.lt_def, BitVec.toNat_mul, pgdbPgPageNr, BitVec.toNat_ofNat,
    BitVec.toNat_ofNat]
  omega

section Unfold

variable {σ : Type} {alloc : σ → Option (Word × σ)} {root : Word} {st : BootState σ}

theorem withPage_of_alloc {page : Word} {s : σ} (hcall : alloc st.pages = some (page, s))
    (hpage : ¬ isErrPtr page) (error : Word → ℤ) (k : Word → Step (BootState σ)) :
    withPage alloc error k st =
      k page { st with pages := s, mem := memset st.mem page 0#8 4096 } := by
  simp only [withPage, hcall, if_neg hpage]

end Unfold

/-! ### What a run keeps -/

section Keep

variable {σ : Type} {alloc : σ → Option (Word × σ)} {root : Word} {total : Prop} {P : σ → Prop}
  {C : List Word → Prop}

/-- The allocator keeps P. When total holds, it also returns on every state with P. -/
def AllocKeeps (total : Prop) (P : σ → Prop) (alloc : σ → Option (Word × σ)) : Prop :=
  ∀ s, P s → (¬ total ∧ alloc s = none) ∨ ∃ x s', alloc s = some (x, s') ∧ P s'

/-- The step keeps P of the allocator and C of the pages mapped as contents. -/
def BootKeeps (total : Prop) (P : σ → Prop) (C : List Word → Prop) (c : Step (BootState σ)) :
    Prop :=
  Keeps total (fun st => P st.pages ∧ C st.contents) c

theorem AllocKeeps.ensureTable (halloc : AllocKeeps total P alloc) {s : σ} (hs : P s)
    (entry : Word) (m : Memory) :
    (¬ total ∧ ensureTable alloc entry s m = none) ∨
    ∃ ok s' m', ensureTable alloc entry s m = some (ok, s', m') ∧ P s' := by
  unfold ClosureOS.ensureTable
  by_cases hzero : load64 m entry = 0#64
  · simp only [if_pos hzero]
    rcases halloc s hs with ⟨htotal, hnone⟩ | ⟨page, s', hsome, hP⟩
    · exact Or.inl ⟨htotal, by rw [hnone]⟩
    · simp only [hsome]
      split
      · exact Or.inr ⟨_, _, _, rfl, hP⟩
      · exact Or.inr ⟨_, _, _, rfl, hP⟩
  · simp only [if_neg hzero]
    exact Or.inr ⟨_, _, _, rfl, hs⟩

theorem AllocKeeps.pgtableMap (halloc : AllocKeeps total P alloc) {s : σ} (hs : P s)
    (root va pa attr : Word) (m : Memory) :
    (¬ total ∧ bootMmPgtableMap alloc root va pa attr s m = none) ∨
    ∃ ret s' m', bootMmPgtableMap alloc root va pa attr s m = some (ret, s', m') ∧ P s' := by
  unfold bootMmPgtableMap
  simp only
  rcases halloc.ensureTable hs (entryAddr root (pgdEntry va)) m with
    ⟨htotal, hnone⟩ | ⟨ok₁, s₁, m₁, hpgd, hs₁⟩
  · exact Or.inl ⟨htotal, by rw [hnone]⟩
  rw [hpgd]
  cases ok₁ with
  | false => exact Or.inr ⟨_, _, _, rfl, hs₁⟩
  | true =>
    simp only
    rcases halloc.ensureTable hs₁ _ m₁ with ⟨htotal, hnone⟩ | ⟨ok₂, s₂, m₂, hpud, hs₂⟩
    · exact Or.inl ⟨htotal, by rw [hnone]⟩
    rw [hpud]
    cases ok₂ with
    | false => exact Or.inr ⟨_, _, _, rfl, hs₂⟩
    | true =>
      simp only
      rcases halloc.ensureTable hs₂ _ m₂ with ⟨htotal, hnone⟩ | ⟨ok₃, s₃, m₃, hpmd, hs₃⟩
      · exact Or.inl ⟨htotal, by rw [hnone]⟩
      rw [hpmd]
      cases ok₃ with
      | false => exact Or.inr ⟨_, _, _, rfl, hs₃⟩
      | true => exact Or.inr ⟨_, _, _, rfl, hs₃⟩

theorem mapPage_keeps (halloc : AllocKeeps total P alloc) (va pa attr : Word) :
    BootKeeps total P C (mapPage alloc root va pa attr) := by
  intro st hst
  unfold mapPage
  rcases halloc.pgtableMap hst.1 root va pa attr st.mem with
    ⟨htotal, hnone⟩ | ⟨ret, s', m', hsome, hP⟩
  · exact Or.inl ⟨htotal, by rw [hnone]; rfl⟩
  · exact Or.inr ⟨ret, { st with pages := s', mem := m' }, by rw [hsome]; rfl, hP, hst.2⟩

theorem withPage_keeps (halloc : AllocKeeps total P alloc) (error : Word → ℤ)
    {k : Word → Step (BootState σ)} (hk : ∀ page, BootKeeps total P C (k page)) :
    BootKeeps total P C (withPage alloc error k) := by
  intro st hst
  unfold withPage
  rcases halloc st.pages hst.1 with ⟨htotal, hnone⟩ | ⟨page, s', hsome, hP⟩
  · exact Or.inl ⟨htotal, by rw [hnone]⟩
  · simp only [hsome]
    split
    · exact Or.inr ⟨_, _, rfl, hP, hst.2⟩
    · exact hk page _ ⟨hP, hst.2⟩

theorem mapProgbits_keeps (halloc : AllocKeeps total P alloc) (hC : ∀ l x, C l → C (l ++ [x]))
    (sh : Elf64Shdr) : BootKeeps total P C (mapProgbits alloc root sh) := by
  refine Keeps.whileRounds ?_ fun x => (mapPage_keeps halloc x.2 x.1 _).andThen fun st hst =>
    Or.inr ⟨0, _, rfl, hst.1, hC _ _ hst.2⟩
  obtain ⟨k, hk, hstop⟩ := exists_page_stop (physStart sh) (physStart sh + sh.shSize)
  exact ⟨k, hk, by rw [iterate_nextPages]; exact decide_eq_false hstop⟩

/-- With three frames left the first page of a section with contents is mapped. -/
theorem mapProgbits_after (root : Word) (halloc : AllocKeeps True P alloc) (sh : Elf64Shdr)
    (st : BootState σ) (hpages : physStart sh < physEnd sh) (hsup : Supplies alloc 3 st.pages)
    (hs : P st.pages) :
    ∃ r st', mapProgbits alloc root sh st = some (r, st') ∧ P st'.pages ∧
      physStart sh ∈ st'.contents := by
  obtain ⟨k, hk, hstop⟩ := exists_page_stop (physStart sh) (physStart sh + sh.shSize)
  obtain ⟨s', m', hmap, _⟩ :=
    bootMmPgtableMap_supplied hsup root sh.shAddr (physStart sh) (sectionAttr sh) st.mem
  have hs' : P s' := by
    rcases halloc.pgtableMap hs root sh.shAddr (physStart sh) (sectionAttr sh) st.mem with
      ⟨hnot, _⟩ | ⟨ret, s'', m'', hsome, hP⟩
    · exact absurd trivial hnot
    · obtain ⟨_, heq⟩ := Prod.mk.inj (Option.some.inj (hmap.symm.trans hsome))
      exact (Prod.mk.inj heq).1 ▸ hP
  have hbody : ∀ x : Word × Word, BootKeeps True P (physStart sh ∈ ·)
      (andThen (mapPage alloc root x.2 x.1 (sectionAttr sh)) (recordContent x.1)) := fun x =>
    (mapPage_keeps halloc x.2 x.1 _).andThen fun st hst =>
      Or.inr ⟨0, _, rfl, hst.1, List.mem_append_left _ hst.2⟩
  have hend : ∃ k < wordRounds,
      decide ((nextPages^[k] (physStart sh, sh.shAddr)).1 < physEnd sh) = false :=
    ⟨k, hk, by rw [iterate_nextPages]; exact decide_eq_false hstop⟩
  refine Keeps.whileRounds_after hbody (decide_eq_true hpages) hend
    (u := { st with pages := s', mem := m', contents := st.contents ++ [physStart sh] }) (r := 0)
    ?_ ⟨hs', List.mem_append_right _ (List.mem_singleton_self _)⟩
  simp only [andThen, mapPage, hmap, Option.map_some, recordContent]
  rfl

theorem mapNobits_keeps (halloc : AllocKeeps total P alloc) (sh : Elf64Shdr) :
    BootKeeps total P C (mapNobits alloc root sh) := by
  refine Keeps.whileRounds ?_ fun va => withPage_keeps halloc _ fun page =>
    mapPage_keeps halloc va page _
  obtain ⟨k, hk, hstop⟩ := exists_page_stop sh.shAddr (sh.shAddr + sh.shSize)
  exact ⟨k, hk, by rw [iterate_add]; exact decide_eq_false hstop⟩

/-- A .bss section takes a page, and what holds after that is kept. -/
theorem mapNobits_after (root : Word) (halloc : AllocKeeps True P alloc) (sh : Elf64Shdr)
    (st : BootState σ) {page : Word} {s : σ}
    (hpages : sh.shAddr < pageAlign (sh.shAddr + sh.shSize))
    (hcall : alloc st.pages = some (page, s)) (hpage : ¬ isErrPtr page) (hs : P s)
    (hC : C st.contents) :
    ∃ r st', mapNobits alloc root sh st = some (r, st') ∧ P st'.pages ∧ C st'.contents := by
  obtain ⟨k, hk, hstop⟩ := exists_page_stop sh.shAddr (sh.shAddr + sh.shSize)
  have hkeep : ∀ va page, BootKeeps True P C (mapPage alloc root va page (sectionAttr sh)) :=
    fun va page => mapPage_keeps halloc va page _
  obtain ⟨r, u, hfirst, hu⟩ := (hkeep sh.shAddr page
    { st with pages := s, mem := memset st.mem page 0#8 4096 } ⟨hs, hC⟩).resolve_left fun h =>
      h.1 trivial
  have hbody : ∀ va, BootKeeps True P C (withPage alloc (fun _ => -(enomem : ℤ)) fun page =>
      mapPage alloc root va page (sectionAttr sh)) := fun va => withPage_keeps halloc _ (hkeep va)
  have hend : ∃ k < wordRounds, decide ((· + pageSize)^[k] sh.shAddr <
      pageAlign (sh.shAddr + sh.shSize)) = false :=
    ⟨k, hk, by rw [iterate_add]; exact decide_eq_false hstop⟩
  exact Keeps.whileRounds_after hbody (decide_eq_true hpages) hend
    ((withPage_of_alloc hcall hpage _ _).trans hfirst) hu

theorem mapSection_keeps (halloc : AllocKeeps total P alloc) (hC : ∀ l x, C l → C (l ++ [x]))
    (sh : Elf64Shdr) : BootKeeps total P C (mapSection alloc root sh) := by
  unfold mapSection
  split
  · exact Keeps.status 0
  · split
    · exact mapProgbits_keeps halloc hC sh
    · split
      · exact mapNobits_keeps halloc sh
      · exact Keeps.status _

theorem mapFrameBuffer_keeps (halloc : AllocKeeps total P alloc) (fb : Option FrameBuffer) :
    BootKeeps total P C (mapFrameBuffer alloc root fb) := by
  cases fb with
  | none => exact Keeps.status 0
  | some fb =>
    refine Keeps.whileRounds ?_ fun x => mapPage_keeps halloc x.2 x.1 _
    obtain ⟨k, hk, hstop⟩ := exists_page_stop (fb.base &&& pageMask)
      ((fb.base &&& pageMask) + fb.sz)
    exact ⟨k, hk, by rw [iterate_nextPages]; exact decide_eq_false hstop⟩

/-- A base address below 2^47 does not wrap in the direct map. -/
theorem directMap_lt_iff (a : Word) : a + kernDirectMapRegionBase < a ↔ 2 ^ 47 ≤ a.toNat := by
  rw [BitVec.lt_def, BitVec.toNat_add, kernDirectMapRegionBase, BitVec.toNat_ofNat]
  omega

theorem mapEntry_keeps (halloc : AllocKeeps total P alloc) {e : MmapEntry}
    (haddr : total → e.addr.toNat < 2 ^ 47) : BootKeeps total P C (mapEntry alloc root e) := by
  have hmask : (e.addr &&& pageMask).toNat ≤ e.addr.toNat := by
    rw [toNat_and_pageMask]
    omega
  unfold mapEntry
  simp only [directMap_lt_iff]
  split
  · next hhigh => exact fun st _ => Or.inl ⟨fun htotal => by have := haddr htotal; omega, rfl⟩
  · next hlow =>
    refine Keeps.whileRounds ?_ fun x => mapPage_keeps halloc x.2 x.1 _
    obtain ⟨k, hk, hstop⟩ := exists_region_stop (a := e.addr &&& pageMask) (by omega)
    exact ⟨k, hk, by rw [iterate_nextPages]; exact decide_eq_false fun h => h.2 hstop⟩

theorem mapPageDatabase_keeps (halloc : AllocKeeps total P alloc) {nr : Word}
    (hnr : nr.toNat < 2 ^ 52) : BootKeeps total P C (mapPageDatabase alloc root nr) := by
  refine Keeps.whileRounds ?_ fun i => withPage_keeps halloc _ fun page =>
    mapPage_keeps halloc _ page _
  obtain ⟨k, hk, hstop⟩ := exists_entry_stop nr hnr
  exact ⟨k, hk, by rw [iterate_add]; exact decide_eq_false hstop⟩

theorem mapLater_keeps (halloc : AllocKeeps total P alloc) {info : BootInfo}
    (haddr : total → ∀ e ∈ info.mmapEntries, e.addr.toNat < 2 ^ 47) :
    BootKeeps total P C (mapLater alloc root info) := by
  have hnr : (physmemEnd info.mmapEntries / pageSize).toNat < 2 ^ 52 := by
    rw [BitVec.toNat_udiv, toNat_pageSize]
    omega
  have hentries : BootKeeps total P C (forEach (mapEntry alloc root) info.mmapEntries) :=
    Keeps.forEach fun e he => mapEntry_keeps halloc fun htotal => haddr htotal e he
  exact (mapFrameBuffer_keeps halloc info.fb).andThen (hentries.andThen
    ((mapPageDatabase_keeps halloc hnr).andThen fun st hst => Or.inr ⟨0, _, rfl, hst⟩))

/-- A run of boot_mm_pgtable_init keeps what the allocator keeps. It returns when every
allocation does and the memory map lies below 2^47. -/
theorem bootMmPgtableInit_keeps (halloc : AllocKeeps total P alloc)
    (hC : ∀ l x, C l → C (l ++ [x])) {info : BootInfo}
    (haddr : total → ∀ e ∈ info.mmapEntries, e.addr.toNat < 2 ^ 47) :
    BootKeeps total P C (bootMmPgtableInit alloc info) :=
  withPage_keeps halloc _ fun _ =>
    (Keeps.forEach fun sh _ => mapSection_keeps halloc hC sh).andThen (mapLater_keeps halloc haddr)

end Keep

end ClosureOS
