import ClosureOS.DatabaseBounds
import ClosureOS.PageTableRefine

/-!
The direct map that boot_mm_pgtable_init builds, against the memory map. The loop over an
entry starts at the page of its first byte and maps as many pages as its length fills. An
entry that does not start at a page boundary can reach one page further; that page is
mapped only if the loop of another entry comes by. Whatever the direct map enters is still
there at the end, since the page database lies elsewhere.
-/
namespace ClosureOS

open ByteMemory StatusLoops WordAlign

/-! ### Translation -/

/-- The address to which the processor translates va: bits 12 to 51 of the entry, and the
offset in the page. -/
def translate (m : Memory) (root va : Word) : Option Word :=
  (walk m root va).map fun e => (e &&& 0x000FFFFFFFFFF000#64) ||| (va &&& ~~~pageMask)

/-- Every byte of every entry of the memory map is found in the direct map. -/
def DirectMapCovers (m : Memory) (root : Word) (entries : List MmapEntry) : Prop :=
  ∀ e ∈ entries, ∀ a : Word, e.Has a.toNat → translate m root (kernDirectMapRegionBase + a) = some a

/-- The page of the last byte of each entry is one on which the loop of some entry steps. -/
def LastPagesMapped (entries : List MmapEntry) : Prop :=
  ∀ e ∈ entries, e.len ≠ 0#64 → ∃ f ∈ entries, f.StepsOn ((e.stop - 1) / 4096)

instance (entries : List MmapEntry) : Decidable (LastPagesMapped entries) :=
  inferInstanceAs (Decidable (∀ e ∈ entries, _ → ∃ f ∈ entries, _))

/-- The virtual addresses at which the pages of a section are mapped. -/
def sectionAddrs (sh : Elf64Shdr) : List Word :=
  if sh.shFlags &&& shfAlloc = 0#64 then []
  else if sh.shType &&& shtProgbits ≠ 0#32 then
    (visited (fun x => decide (x.1 < physEnd sh)) nextPages wordRounds
      (physStart sh, sh.shAddr)).map Prod.snd
  else if sh.shType &&& shtNobits ≠ 0#32 then
    visited (fun va => decide (va < pageAlign (sh.shAddr + sh.shSize))) (· + pageSize) wordRounds
      sh.shAddr
  else []

/-- No page of a section lies in the direct map. -/
def SectionsOutside (sections : List Elf64Shdr) : Prop :=
  ∀ sh ∈ sections, ∀ va ∈ sectionAddrs sh, ∀ a : Word, a.toNat < 2 ^ 46 →
    ¬ SamePage va (kernDirectMapRegionBase + a)

/-- Every frame that the allocator answers is page-aligned and was not answered before;
used keeps its answers. Its only error is -ENOMEM. -/
def FreshFrames {σ : Type} (alloc : σ → Option (Word × σ)) (used : σ → List Word) : Prop :=
  ∀ s x s', alloc s = some (x, s') → (∀ f ∈ used s, f ∈ used s') ∧
    (x = errPtr enomem ∨ PageAligned x ∧ x ∉ used s ∧ x ∈ used s')

/-- The entry is present and names frame q. -/
def MapsFrame (q : ℕ) (e : Word) : Prop := present e ∧ e.toNat % 2 ^ 52 / 4096 = q

section Address

variable {a x e : Word} {q q' : ℕ}

theorem lt_directMapPages (hq : q < 2 ^ 34) : q < directMapPages :=
  hq.trans (by decide)

/-- Different frames have different paths in the direct map. -/
theorem pathOf_pageToVirt_inj (hq : q < 2 ^ 34) (hq' : q' < 2 ^ 34) :
    pathOf (pageToVirt q) = pathOf (pageToVirt q') ↔ q = q' := by
  rw [← samePage_iff, samePage_iff_toNat, toNat_pageToVirt (lt_directMapPages hq),
    toNat_pageToVirt (lt_directMapPages hq')]
  omega

theorem pathOf_direct (ha : a.toNat < 2 ^ 46) :
    pathOf (kernDirectMapRegionBase + a) = pathOf (pageToVirt (a.toNat / 4096)) := by
  rw [← samePage_iff, samePage_iff_toNat, toNat_pageToVirt (lt_directMapPages (by omega)),
    BitVec.toNat_add,
    kernDirectMapRegionBase, BitVec.toNat_ofNat]
  omega

theorem mapsFrame_page (hq : q < 2 ^ 34) :
    MapsFrame q (pageToPhys q ||| (pteAttrP ||| pteAttrRw)) := by
  have hval := toNat_pageToPhys (hq.trans (by decide))
  have hsum : (pageToPhys q ||| (pteAttrP ||| pteAttrRw)).toNat = 4096 * q + 3 := by
    rw [toNat_or_of_dvd (k := 12) _ _ ⟨q, hval⟩ (by decide), hval]
    rfl
  refine ⟨by simp [present, pteAttrP, pteAttrRw], ?_⟩
  rw [hsum]
  omega

/-- The frame buffer is mapped to itself, and an address in the direct map region is not
the address of a frame below 64 TB. -/
theorem not_mapsFrame_identity (hq : q < 2 ^ 34) (hx : PageAligned x)
    (hpath : pathOf x = pathOf (pageToVirt q)) :
    ¬ MapsFrame q (x ||| (pteAttrP ||| pteAttrRw)) := by
  rw [← samePage_iff, samePage_iff_toNat, toNat_pageToVirt (lt_directMapPages hq)] at hpath
  have hsum : (x ||| (pteAttrP ||| pteAttrRw)).toNat = x.toNat + 3 :=
    toNat_or_of_dvd (k := 12) _ _ hx (by decide)
  rintro ⟨_, hframe⟩
  rw [hsum] at hframe
  obtain ⟨k, hk⟩ := hx
  omega

/-- An address is translated to the byte it stands for if and only if its entry names the
frame of the byte. -/
theorem physical_eq_iff :
    (e &&& 0x000FFFFFFFFFF000#64) ||| ((kernDirectMapRegionBase + a) &&& ~~~pageMask) = a ↔
      e.toNat % 2 ^ 52 / 4096 = a.toNat / 4096 := by
  have hframe : (e &&& 0x000FFFFFFFFFF000#64).toNat = e.toNat % 2 ^ 52 / 4096 * 4096 := by
    have hmask : (0x000FFFFFFFFFF000#64 : Word) = BitVec.ofNat 64 (2 ^ 52 - 1) &&& pageMask := by
      decide
    rw [hmask, ← BitVec.and_assoc, toNat_and_pageMask, toNat_and_lowMask e (by decide)]
  have hoffset : ((kernDirectMapRegionBase + a) &&& ~~~pageMask).toNat = a.toNat % 4096 := by
    have hmask : ~~~pageMask = BitVec.ofNat 64 (2 ^ 12 - 1) := by decide
    rw [hmask, toNat_and_lowMask _ (by decide), BitVec.toNat_add, kernDirectMapRegionBase,
      BitVec.toNat_ofNat]
    omega
  have hsum := toNat_or_of_dvd (k := 12) (e &&& 0x000FFFFFFFFFF000#64)
    ((kernDirectMapRegionBase + a) &&& ~~~pageMask) (by rw [hframe]; exact Nat.dvd_mul_left _ _)
    (by rw [hoffset]; omega)
  rw [hframe, hoffset] at hsum
  constructor
  · intro heq
    have hnat := congrArg BitVec.toNat heq
    omega
  · intro heq
    apply BitVec.eq_of_toNat_eq
    omega

end Address

/-! ### One entry of the table during the run -/

section Run

variable {σ : Type} {alloc : σ → Option (Word × σ)} {used : σ → List Word} {root va pa attr : Word}
  {p : List ℕ} {P Q R : Word → Prop} {q : ℕ}

theorem FreshFrames.freshIn (h : FreshFrames alloc used) (root : Word) :
    FreshIn False (fun s => root ∈ used s) alloc used root := by
  intro s hs
  cases hcall : alloc s with
  | none => exact Or.inl ⟨id, rfl⟩
  | some out =>
    obtain ⟨x, s'⟩ := out
    obtain ⟨hmono, hanswer⟩ := h s x s' hcall
    refine Or.inr ⟨x, s', rfl, hmono root hs, hmono, hanswer.imp_right ?_⟩
    rintro ⟨halign, hnew, hmem⟩
    exact ⟨halign, fun heq => hnew (heq ▸ hs), hnew, hmem⟩

/-- Memory holds a page table whose lowest entry at the path p satisfies Q, in frames that
the allocator has answered. -/
def EntryAt (used : σ → List Word) (root : Word) (p : List ℕ) (Q : Word → Prop) (st : BootState σ) :
    Prop :=
  root ∈ used st.pages ∧ ∃ T M, TableRep st.mem root (used st.pages) T M ∧ Q (M p)

theorem EntryAt.zeroed {st : BootState σ} (halign : PageAligned root) (hroot : root ∈ used st.pages)
    (hclear : ∀ x, InRange root 4096 x → st.mem x = 0#8) (hP : P 0#64) :
    EntryAt used root p P st :=
  ⟨hroot, _, _, TableRep.zeroed halign hclear _, hP⟩

/-- Mapping a page enters it at its path. -/
theorem mapPage_entry (hfresh : FreshFrames alloc used)
    (hQ : ∀ e, P e → Q (if p = pathOf va then pa ||| attr else e)) :
    Ensures (EntryAt used root p P) (mapPage alloc root va pa attr) (EntryAt used root p Q) := by
  rintro st r st' ⟨hroot, T, M, hrep, hP⟩ heq hr
  obtain ⟨⟨ret, s', m'⟩, hcall, hout⟩ := Option.map_eq_some_iff.mp heq
  obtain ⟨rfl, rfl⟩ := Prod.mk.inj hout
  rcases hrep.map (hfresh.freshIn root) hroot va pa attr with
    ⟨_, hnone⟩ | ⟨ret', s'', m'', hcall', hroot', hcases⟩
  · exact absurd (hcall.symm.trans hnone) (by simp)
  · obtain ⟨rfl, hrest⟩ := Prod.mk.inj (Option.some.inj (hcall.symm.trans hcall'))
    obtain ⟨rfl, rfl⟩ := Prod.mk.inj hrest
    rcases hcases with ⟨_, T', hrep'⟩ | ⟨herr, _⟩
    · refine ⟨hroot', T', _, hrep', ?_⟩
      have hnew := hQ (M p) hP
      rwa [Function.update_apply]
    · exact absurd hr (by rw [herr]; decide)

theorem mapPage_keeps_entry (hfresh : FreshFrames alloc used)
    (hQ : pathOf va = p → Q (pa ||| attr)) :
    Ensures (EntryAt used root p Q) (mapPage alloc root va pa attr) (EntryAt used root p Q) := by
  refine mapPage_entry hfresh fun e he => ?_
  split
  · next hpath => exact hQ hpath.symm
  · exact he

/-- A page for another purpose is cleared outside the tables. -/
theorem withPage_entry (hfresh : FreshFrames alloc used) {error : Word → ℤ}
    (herror : ∀ x, isErrPtr x → error x < 0) {k : Word → Step (BootState σ)}
    (hk : ∀ page, Ensures (EntryAt used root p P) (k page) (EntryAt used root p Q)) :
    Ensures (EntryAt used root p P) (withPage alloc error k) (EntryAt used root p Q) := by
  rintro st r st' ⟨hroot, T, M, hrep, hP⟩ heq hr
  unfold withPage at heq
  split at heq
  · exact absurd heq (by simp)
  next page s hcall =>
    split at heq
    · next herr =>
      obtain ⟨rfl, _⟩ := Prod.mk.inj (Option.some.inj heq)
      exact absurd hr (Int.not_le.mpr (herror page herr))
    · next herr =>
      obtain ⟨hmono, rfl | ⟨halign, hnew, _⟩⟩ := hfresh _ _ _ hcall
      · exact absurd isErrPtr_enomem herr
      · refine hk page _ r st' ⟨hmono root hroot, T, M, ?_, hP⟩ heq hr
        refine hrep.congr hmono fun t u htu x hx => ?_
        have hne : u ≠ page := by
          rintro rfl
          rcases (hrep.frame t u htu).2 with rfl | hmem
          · exact hnew hroot
          · exact hnew hmem
        dsimp only
        exact memset_of_not_inRange (by decide) (frames_apart (hrep.frame t u htu).1 halign hne hx)

theorem mapSection_entry (hfresh : FreshFrames alloc used) {sh : Elf64Shdr}
    (hQ : ∀ va ∈ sectionAddrs sh, pathOf va = p → ∀ e, Q e) :
    Ensures (EntryAt used root p Q) (mapSection alloc root sh) (EntryAt used root p Q) := by
  unfold sectionAddrs at hQ
  unfold mapSection
  split
  · exact Ensures.status 0
  next hflags =>
    rw [if_neg hflags] at hQ
    split
    · next htype =>
      rw [if_pos htype] at hQ
      obtain ⟨k, hk, hstop⟩ := exists_page_stop (physStart sh) (physStart sh + sh.shSize)
      rw [mapProgbits, whileRounds_eq_forEach_visited
        ⟨k, hk, by rw [iterate_nextPages]; exact decide_eq_false hstop⟩]
      refine Ensures.forEach fun x hx => (mapPage_keeps_entry hfresh fun hpath =>
        hQ x.2 (List.mem_map_of_mem hx) hpath _).andThen ?_
      intro st r st' hst heq _
      obtain ⟨_, rfl⟩ := Prod.mk.inj (Option.some.inj heq)
      exact hst
    next htype =>
      rw [if_neg htype] at hQ
      split
      · next htype' =>
        rw [if_pos htype'] at hQ
        obtain ⟨k, hk, hstop⟩ := exists_page_stop sh.shAddr (sh.shAddr + sh.shSize)
        rw [mapNobits, whileRounds_eq_forEach_visited
          ⟨k, hk, by rw [iterate_add]; exact decide_eq_false hstop⟩]
        exact Ensures.forEach fun va hva => withPage_entry hfresh (fun _ _ => by decide) fun page =>
          mapPage_keeps_entry hfresh fun hpath => hQ va hva hpath _
      · exact Ensures.status _

/-- The frame buffer is mapped to itself. -/
theorem mapFrameBuffer_entry (hfresh : FreshFrames alloc used) (fb : Option FrameBuffer)
    (hQ : ∀ x, PageAligned x → pathOf x = p → Q (x ||| (pteAttrP ||| pteAttrRw))) :
    Ensures (EntryAt used root p Q) (mapFrameBuffer alloc root fb) (EntryAt used root p Q) := by
  cases fb with
  | none => exact Ensures.status 0
  | some fb =>
    obtain ⟨k, hk, hstop⟩ :=
      exists_page_stop (fb.base &&& pageMask) ((fb.base &&& pageMask) + fb.sz)
    rw [mapFrameBuffer, whileRounds_eq_forEach_visited
      ⟨k, hk, by rw [iterate_nextPages]; exact decide_eq_false hstop⟩]
    have hstart : PageAligned (fb.base &&& pageMask) := by
      rw [PageAligned, toNat_and_pageMask]
      exact Nat.dvd_mul_left _ _
    have hnext : ∀ x : Word × Word, x.1 = x.2 ∧ PageAligned x.1 →
        (nextPages x).1 = (nextPages x).2 ∧ PageAligned (nextPages x).1 := by
      rintro ⟨x, y⟩ ⟨hxy, halign⟩
      obtain rfl : x = y := hxy
      refine ⟨rfl, ?_⟩
      simp only [nextPages, PageAligned, BitVec.toNat_add, toNat_pageSize] at halign ⊢
      omega
    refine Ensures.forEach fun x hx => mapPage_keeps_entry hfresh fun hpath => ?_
    obtain ⟨heq, halign⟩ := forall_visited ⟨rfl, hstart⟩ hnext x hx
    rw [← heq] at hpath
    exact hQ x.1 halign hpath

/-- The values of base in the loop over an entry of the memory map. -/
theorem MmapEntry.toNat_base_step {e : MmapEntry} (hstop : e.stop ≤ 2 ^ 46) {i : ℕ}
    (hi : i ≤ pageRounds e.addr (e.addr + e.len)) :
    ((e.addr &&& pageMask) + BitVec.ofNat 64 i * pageSize).toNat =
      e.addr.toNat / 4096 * 4096 + 4096 * i := by
  have hbase : (e.addr &&& pageMask).toNat = e.addr.toNat / 4096 * 4096 := toNat_and_pageMask _
  rw [MmapEntry.pageRounds_eq (hstop.trans_lt (by decide))] at hi
  unfold MmapEntry.stop at hstop
  rw [toNat_add_pages (by omega), hbase]

/-- base and vaddr in round i are the addresses of one frame. -/
theorem MmapEntry.direct_step {e : MmapEntry} (hstop : e.stop ≤ 2 ^ 46) {i : ℕ}
    (hi : i < pageRounds e.addr (e.addr + e.len)) :
    nextPages^[i] (e.addr &&& pageMask, (e.addr &&& pageMask) + kernDirectMapRegionBase) =
      (pageToPhys (e.addr.toNat / 4096 + i), pageToVirt (e.addr.toNat / 4096 + i)) := by
  have hrounds := MmapEntry.pageRounds_eq (hstop.trans_lt (by decide))
  have hphys : (e.addr &&& pageMask) + BitVec.ofNat 64 i * pageSize =
      pageToPhys (e.addr.toNat / 4096 + i) := by
    apply BitVec.eq_of_toNat_eq
    have hval := MmapEntry.toNat_base_step hstop hi.le
    unfold MmapEntry.stop at hstop
    rw [hval, toNat_pageToPhys (by omega)]
    omega
  rw [iterate_nextPages, BitVec.add_comm (e.addr &&& pageMask) kernDirectMapRegionBase,
    BitVec.add_assoc, hphys]
  rfl

/-- The loop over an entry of the memory map maps the frames on which it steps. -/
theorem mapEntry_eq (alloc : σ → Option (Word × σ)) (root : Word) {e : MmapEntry}
    (hstop : e.stop ≤ 2 ^ 46) :
    mapEntry alloc root e =
      forEach (fun q => mapPage alloc root (pageToVirt q) (pageToPhys q) (pteAttrP ||| pteAttrRw))
        (List.range' (e.addr.toNat / 4096) (pageRounds e.addr (e.addr + e.len))) := by
  have hrounds := MmapEntry.pageRounds_eq (hstop.trans_lt (by decide))
  have hend := MmapEntry.toNat_base_add_len (hstop.trans_lt (by decide))
  have hfits : e.addr.toNat + e.len.toNat ≤ 2 ^ 46 := hstop
  have hlow : ¬ (e.addr &&& pageMask) + kernDirectMapRegionBase < e.addr &&& pageMask := by
    rw [directMap_lt_iff, toNat_and_pageMask]
    omega
  rw [mapEntry, if_neg hlow, whileRounds_eq_forEach (k := pageRounds e.addr (e.addr + e.len))
    (by rw [wordRounds]; omega), forEach_map, List.range'_eq_map_range, forEach_map]
  · refine forEach_congr fun i hi => ?_
    rw [MmapEntry.direct_step hstop (List.mem_range.mp hi)]
  · intro i hi
    rw [MmapEntry.direct_step hstop hi]
    refine decide_eq_true ⟨?_, ?_⟩
    · rw [BitVec.lt_def, toNat_pageToPhys (by omega), hend]
      omega
    · rw [gt_iff_lt, BitVec.lt_def, toNat_pageToVirt (lt_directMapPages (by omega)),
        kernDirectMapRegionEnd, BitVec.toNat_ofNat]
      omega
  · rw [iterate_nextPages]
    refine decide_eq_false fun h => ?_
    have hlt := h.1
    rw [BitVec.lt_def, MmapEntry.toNat_base_step hstop le_rfl, hend] at hlt
    omega

/-- Mapping frame q' in the direct map, for the entry of frame q. -/
theorem mapPage_direct (hfresh : FreshFrames alloc used) {q' : ℕ} (hq : q < 2 ^ 34)
    (hq' : q' < 2 ^ 34)
    (hQ : q' = q → Q (pageToPhys q ||| (pteAttrP ||| pteAttrRw))) :
    Ensures (EntryAt used root (pathOf (pageToVirt q)) Q)
      (mapPage alloc root (pageToVirt q') (pageToPhys q') (pteAttrP ||| pteAttrRw))
      (EntryAt used root (pathOf (pageToVirt q)) Q) := by
  refine mapPage_keeps_entry hfresh fun hpath => ?_
  have heq := (pathOf_pageToVirt_inj hq' hq).mp hpath
  rw [heq]
  exact hQ heq

theorem MmapEntry.StepsOn.lt_of_stop {e : MmapEntry} (h : e.StepsOn q) (hstop : e.stop ≤ 2 ^ 46) :
    q < 2 ^ 34 := by
  have hrounds := MmapEntry.pageRounds_eq (hstop.trans_lt (by decide))
  unfold MmapEntry.stop at hstop
  rw [MmapEntry.StepsOn, hrounds] at h
  omega

theorem MmapEntry.mem_range'_iff {e : MmapEntry} :
    q ∈ List.range' (e.addr.toNat / 4096) (pageRounds e.addr (e.addr + e.len)) ↔ e.StepsOn q :=
  List.mem_range'_1

theorem mapEntry_keeps_entry (hfresh : FreshFrames alloc used) {e : MmapEntry}
    (hstop : e.stop ≤ 2 ^ 46) (hq : q < 2 ^ 34)
    (hQ : e.StepsOn q → Q (pageToPhys q ||| (pteAttrP ||| pteAttrRw))) :
    Ensures (EntryAt used root (pathOf (pageToVirt q)) Q) (mapEntry alloc root e)
      (EntryAt used root (pathOf (pageToVirt q)) Q) := by
  rw [mapEntry_eq alloc root hstop]
  refine Ensures.forEach fun q' hq' => ?_
  have hon := MmapEntry.mem_range'_iff.mp hq'
  exact mapPage_direct hfresh hq (hon.lt_of_stop hstop) fun heq => hQ (heq ▸ hon)

/-- An entry that steps on a frame maps it. -/
theorem mapEntry_maps (hfresh : FreshFrames alloc used) {e : MmapEntry} (hstop : e.stop ≤ 2 ^ 46)
    (hon : e.StepsOn q) :
    Ensures (EntryAt used root (pathOf (pageToVirt q)) fun _ => True) (mapEntry alloc root e)
      (EntryAt used root (pathOf (pageToVirt q)) (MapsFrame q)) := by
  have hq := hon.lt_of_stop hstop
  rw [mapEntry_eq alloc root hstop]
  refine Ensures.forEach_of_mem (MmapEntry.mem_range'_iff.mpr hon) (fun q' hq' => ?_) ?_
    fun q' hq' => ?_
  · exact mapPage_keeps_entry hfresh fun _ => trivial
  · refine mapPage_entry hfresh fun e _ => ?_
    rw [if_pos rfl]
    exact mapsFrame_page hq
  · have hon' := MmapEntry.mem_range'_iff.mp hq'
    exact mapPage_direct hfresh hq (hon'.lt_of_stop hstop) fun _ => mapsFrame_page hq

/-- The page database lies outside the direct map. -/
theorem mapPageDatabase_entry (hfresh : FreshFrames alloc used) {nr : Word}
    (hnr : nr.toNat ≤ 2 ^ 34)
    (hq : q < 2 ^ 34) :
    Ensures (EntryAt used root (pathOf (pageToVirt q)) Q) (mapPageDatabase alloc root nr)
      (EntryAt used root (pathOf (pageToVirt q)) Q) := by
  rw [mapPageDatabase_eq_forEach alloc root (hnr.trans_lt (by decide))]
  refine Ensures.forEach fun i hi => withPage_entry hfresh (fun x hx => ?_) fun page =>
    mapPage_keeps_entry hfresh fun hpath => ?_
  · rw [isErrPtr, gt_iff_lt, BitVec.lt_def, maxErrno, BitVec.toNat_neg, BitVec.toNat_ofNat] at hx
    rw [BitVec.toInt_eq_toNat_cond]
    split <;> omega
  · unfold databaseChunks at hi
    have hlt : i < nr := by simpa using guard_of_mem_visited hi
    rw [BitVec.lt_def] at hlt
    rw [← samePage_iff, samePage_iff_toNat, toNat_pageToVirt (lt_directMapPages hq),
      BitVec.toNat_add,
      BitVec.toNat_mul,
      kernPageDatabaseRegionBase, sizeofPage, BitVec.toNat_ofNat, BitVec.toNat_ofNat] at hpath
    omega

/-- The entry of frame q at the end of a run that returns 0: what the sections leave there,
what the frame buffer and the direct map make of it. -/
theorem bootMmPgtableInit_entry {info : BootInfo} {st st' : BootState σ} {s : σ}
    (hfresh : FreshFrames alloc used) (hstop : ∀ e ∈ info.mmapEntries, e.stop ≤ 2 ^ 46)
    (hroot : alloc st.pages = some (root, s)) (hq : q < 2 ^ 34) (hzero : P 0#64)
    (hsections : ∀ sh ∈ info.sections, ∀ va ∈ sectionAddrs sh,
      pathOf va = pathOf (pageToVirt q) → ∀ e, P e)
    (hfb : ∀ x, PageAligned x → pathOf x = pathOf (pageToVirt q) →
      P (x ||| (pteAttrP ||| pteAttrRw)))
    (hentries : Ensures (EntryAt used root (pathOf (pageToVirt q)) P)
      (forEach (mapEntry alloc root) info.mmapEntries)
      (EntryAt used root (pathOf (pageToVirt q)) Q))
    (hrun : bootMmPgtableInit alloc info st = some (0, st')) :
    EntryAt used root (pathOf (pageToVirt q)) Q st' := by
  have hnr : (physmemEnd info.mmapEntries / pageSize).toNat ≤ 2 ^ 34 := by
    by_contra hgt
    obtain ⟨e, he, hend⟩ := (lt_physmemEnd_iff fun e he => (hstop e he).trans (by decide)).mp
      (Nat.not_le.mp hgt)
    have hle := hstop e he
    unfold MmapEntry.stop at hle
    unfold MmapEntry.endFrame at hend
    omega
  have hlater : Ensures (EntryAt used root (pathOf (pageToVirt q)) P) (mapLater alloc root info)
      (EntryAt used root (pathOf (pageToVirt q)) Q) := by
    refine (mapFrameBuffer_entry hfresh info.fb hfb).andThen (hentries.andThen
      ((mapPageDatabase_entry hfresh hnr hq).andThen ?_))
    intro u r u' hu heq _
    obtain ⟨_, rfl⟩ := Prod.mk.inj (Option.some.inj heq)
    exact hu
  have hkernel : Ensures (EntryAt used root (pathOf (pageToVirt q)) P)
      (forEach (mapSection alloc root) info.sections)
      (EntryAt used root (pathOf (pageToVirt q)) P) :=
    Ensures.forEach fun sh hsh => mapSection_entry hfresh (hsections sh hsh)
  rw [bootMmPgtableInit, withPage, hroot] at hrun
  simp only at hrun
  split at hrun
  · exact absurd (Prod.mk.inj (Option.some.inj hrun)).1 (by decide)
  next herr =>
    obtain ⟨_, rfl | ⟨halign, _, hmem⟩⟩ := hfresh _ _ _ hroot
    · exact absurd isErrPtr_enomem herr
    · refine hkernel.andThen hlater _ 0 st'
        (EntryAt.zeroed halign hmem (fun x hx => ?_) hzero) hrun le_rfl
      dsimp only
      exact memset_of_inRange (by decide) hx

/-- The final entry of a frame decides how its bytes are translated. -/
theorem EntryAt.translate_iff {st : BootState σ} {a : Word} {q : ℕ} (ha : a.toNat < 2 ^ 46)
    (hq : a.toNat / 4096 = q) (h : EntryAt used root (pathOf (pageToVirt q)) Q st) :
    ∃ e, Q e ∧ (translate st.mem root (kernDirectMapRegionBase + a) = some a ↔ MapsFrame q e) := by
  obtain ⟨_, T, M, hrep, hQ⟩ := h
  refine ⟨_, hQ, ?_⟩
  rw [translate, hrep.walk_eq, pathOf_direct ha, hq]
  split
  · next hpresent =>
    rw [Option.map_some, Option.some.injEq, physical_eq_iff, hq]
    exact (and_iff_right hpresent).symm
  · next hpresent =>
    exact iff_of_false (by simp) fun h => hpresent h.1

section Covers

variable {info : BootInfo} {st st' : BootState σ} {s : σ}

/-- A frame on which some entry steps is found in the direct map. -/
theorem translate_of_stepsOn (hfresh : FreshFrames alloc used)
    (hstop : ∀ e ∈ info.mmapEntries, e.stop ≤ 2 ^ 46) (hroot : alloc st.pages = some (root, s))
    (hrun : bootMmPgtableInit alloc info st = some (0, st')) {f : MmapEntry}
    (hf : f ∈ info.mmapEntries) {a : Word} (ha : a.toNat < 2 ^ 46)
    (hon : f.StepsOn (a.toNat / 4096)) :
    translate st'.mem root (kernDirectMapRegionBase + a) = some a := by
  have hq : a.toNat / 4096 < 2 ^ 34 := by omega
  have hentries : Ensures (EntryAt used root (pathOf (pageToVirt (a.toNat / 4096))) fun _ => True)
      (forEach (mapEntry alloc root) info.mmapEntries)
      (EntryAt used root (pathOf (pageToVirt (a.toNat / 4096))) (MapsFrame (a.toNat / 4096))) :=
    Ensures.forEach_of_mem hf
      (fun e he => mapEntry_keeps_entry hfresh (hstop e he) hq fun _ => trivial)
      (mapEntry_maps hfresh (hstop f hf) hon)
      (fun e he => mapEntry_keeps_entry hfresh (hstop e he) hq fun _ => mapsFrame_page hq)
  have hend := bootMmPgtableInit_entry hfresh hstop hroot hq trivial (fun _ _ _ _ _ _ => trivial)
    (fun _ _ _ => trivial) hentries hrun
  obtain ⟨e, he, hiff⟩ := hend.translate_iff ha rfl
  exact hiff.mpr he

/-- A frame on which no entry steps is not. -/
theorem not_translate_of_not_stepsOn (hfresh : FreshFrames alloc used)
    (hstop : ∀ e ∈ info.mmapEntries, e.stop ≤ 2 ^ 46) (hroot : alloc st.pages = some (root, s))
    (hrun : bootMmPgtableInit alloc info st = some (0, st'))
    (houtside : SectionsOutside info.sections) {a : Word} (ha : a.toNat < 2 ^ 46)
    (hoff : ∀ f ∈ info.mmapEntries, ¬ f.StepsOn (a.toNat / 4096)) :
    translate st'.mem root (kernDirectMapRegionBase + a) ≠ some a := by
  have hq : a.toNat / 4096 < 2 ^ 34 := by omega
  have hend := bootMmPgtableInit_entry (P := fun e => ¬ MapsFrame (a.toNat / 4096) e) hfresh hstop
    hroot hq (fun h => absurd h.1 (by decide))
    (fun sh hsh va hva hpath =>
      absurd (samePage_iff.mpr (hpath.trans (pathOf_direct ha).symm)) (houtside sh hsh va hva a ha))
    (fun x hx hpath => not_mapsFrame_identity hq hx hpath)
    (Ensures.forEach fun e he => mapEntry_keeps_entry hfresh (hstop e he) hq
      fun hon => absurd hon (hoff e he)) hrun
  obtain ⟨e, he, hiff⟩ := hend.translate_iff ha rfl
  exact fun h => he (hiff.mp h)

theorem DirectMapCovers.lastPagesMapped (hfresh : FreshFrames alloc used)
    (hstop : ∀ e ∈ info.mmapEntries, e.stop ≤ 2 ^ 46) (hroot : alloc st.pages = some (root, s))
    (hrun : bootMmPgtableInit alloc info st = some (0, st'))
    (houtside : SectionsOutside info.sections)
    (hcovers : DirectMapCovers st'.mem root info.mmapEntries) :
    LastPagesMapped info.mmapEntries := by
  intro e he hlen
  by_contra hoff
  have hpos : 0 < e.len.toNat := Nat.pos_of_ne_zero fun h => hlen (BitVec.eq_of_toNat_eq h)
  have hle := hstop e he
  have hstart : e.addr.toNat < e.stop := by
    unfold MmapEntry.stop
    omega
  have hlast : (BitVec.ofNat 64 (e.stop - 1)).toNat = e.stop - 1 := by
    rw [BitVec.toNat_ofNat]
    omega
  refine not_translate_of_not_stepsOn hfresh hstop hroot hrun houtside
    (a := BitVec.ofNat 64 (e.stop - 1)) (by omega) (fun f hf hon => ?_) (hcovers e he _ ⟨?_, ?_⟩)
  · rw [hlast] at hon
    exact hoff ⟨f, hf, hon⟩
  · omega
  · omega

/-- When boot_mm_pgtable_init returns 0 the direct map has every byte of the memory map if
the page of the last byte of each entry is stepped on; and only if it is, provided that no
section is mapped into the direct map. -/
theorem directMapCovers_iff (hfresh : FreshFrames alloc used)
    (hstop : ∀ e ∈ info.mmapEntries, e.stop ≤ 2 ^ 46) (hroot : alloc st.pages = some (root, s))
    (hrun : bootMmPgtableInit alloc info st = some (0, st')) :
    (LastPagesMapped info.mmapEntries → DirectMapCovers st'.mem root info.mmapEntries) ∧
    (SectionsOutside info.sections → DirectMapCovers st'.mem root info.mmapEntries →
      LastPagesMapped info.mmapEntries) := by
  refine ⟨fun hlast e he a ⟨hlow, hhigh⟩ => ?_, fun houtside hcovers =>
    hcovers.lastPagesMapped hfresh hstop hroot hrun houtside⟩
  have hle := hstop e he
  -- the entry itself maps all its pages but the last one
  have hon : ∃ f ∈ info.mmapEntries, f.StepsOn (a.toNat / 4096) := by
    by_cases hself : e.StepsOn (a.toNat / 4096)
    · exact ⟨e, he, hself⟩
    · have hrounds := MmapEntry.pageRounds_eq (hle.trans_lt (by decide))
      have hlen : e.len ≠ 0#64 := by
        intro hzero
        rw [MmapEntry.stop, hzero, BitVec.toNat_ofNat] at hhigh
        omega
      have hpage : a.toNat / 4096 = (e.stop - 1) / 4096 := by
        rw [MmapEntry.StepsOn, hrounds] at hself
        unfold MmapEntry.stop at hhigh ⊢
        omega
      rw [hpage]
      exact hlast e he hlen
  obtain ⟨f, hf, hon⟩ := hon
  exact translate_of_stepsOn hfresh hstop hroot hrun hf (by omega) hon

end Covers

/-! ### Enough frames -/

/-- The step returns 0 when n more frames are in stock than it leaves there. -/
def Needs (alloc : σ → Option (Word × σ)) (n : ℕ) (c : Step (BootState σ)) : Prop :=
  ∀ k st, Supplies alloc (n + k) st.pages → ∃ st', c st = some (0, st') ∧ Supplies alloc k st'.pages

variable {m n : ℕ} {c d : Step (BootState σ)}

theorem Needs.andThen (hc : Needs alloc m c) (hd : Needs alloc n d) :
    Needs alloc (m + n) (andThen c d) := by
  intro k st hst
  rw [Nat.add_assoc] at hst
  obtain ⟨u, hcu, hu⟩ := hc (n + k) st hst
  obtain ⟨st', hdu, hst'⟩ := hd k u hu
  refine ⟨st', ?_, hst'⟩
  simp only [StatusLoops.andThen, hcu]
  rw [if_neg (Int.lt_irrefl 0), hdu]

theorem Needs.forEach {α : Type} {body : α → Step (BootState σ)} {xs : List α}
    (hbody : ∀ x ∈ xs, Needs alloc n (body x)) : Needs alloc (n * xs.length) (forEach body xs) := by
  induction xs with
  | nil => exact fun k st hst => ⟨st, rfl, by simpa using hst⟩
  | cons x xs ih =>
    rw [List.length_cons, Nat.mul_succ, Nat.add_comm]
    exact (hbody x List.mem_cons_self).andThen (ih fun y hy => hbody y (List.mem_cons_of_mem x hy))

theorem mapPage_needs (root va pa attr : Word) : Needs alloc 3 (mapPage alloc root va pa attr) := by
  intro k st hst
  rw [Nat.add_comm] at hst
  obtain ⟨s', m', hmap, hsup⟩ := bootMmPgtableMap_supplied hst root va pa attr st.mem
  exact ⟨_, by rw [mapPage, hmap]; rfl, hsup⟩

theorem withPage_needs {error : Word → ℤ} {k : Word → Step (BootState σ)}
    (hk : ∀ page, Needs alloc n (k page)) : Needs alloc (n + 1) (withPage alloc error k) := by
  intro j st hst
  rw [Nat.add_right_comm] at hst
  obtain ⟨page, s, hcall, herr, hrest⟩ := hst
  obtain ⟨st', hrun, hsup⟩ :=
    hk page j { st with pages := s, mem := memset st.mem page 0#8 4096 } hrest
  exact ⟨st', (withPage_of_alloc hcall herr error k).trans hrun, hsup⟩

/-- A memory map without a kernel image and a frame buffer. -/
def memoryOnly (entries : List MmapEntry) : BootInfo :=
  { mmapEntries := entries, sections := [], fb := none, multibootTagStart := 0#64
    multibootTagEnd := 0#64 }

/-- A run on a memory map whose entries have n pages each. -/
theorem memoryOnly_run (alloc : σ → Option (Word × σ)) (entries : List MmapEntry) (n : ℕ)
    (st : BootState σ) (hstop : ∀ e ∈ entries, e.stop ≤ 2 ^ 46)
    (hrounds : ∀ e ∈ entries, pageRounds e.addr (e.addr + e.len) = n)
    (hsup : Supplies alloc (1 + 3 * n * entries.length +
      4 * (databaseChunks (physmemEnd entries / pageSize)).length) st.pages) :
    ∃ root s st', alloc st.pages = some (root, s) ∧
      bootMmPgtableInit alloc (memoryOnly entries) st = some (0, st') := by
  have hnr : (physmemEnd entries / pageSize).toNat < 2 ^ 52 := by
    rw [BitVec.toNat_udiv, toNat_pageSize]
    omega
  have hentries : ∀ root, Needs alloc (3 * n * entries.length)
      (forEach (mapEntry alloc root) entries) := fun root =>
    Needs.forEach fun e he => by
      have hpages : Needs alloc (3 * (List.range' (e.addr.toNat / 4096) n).length)
          (forEach
            (fun q => mapPage alloc root (pageToVirt q) (pageToPhys q) (pteAttrP ||| pteAttrRw))
            (List.range' (e.addr.toNat / 4096) n)) :=
        Needs.forEach fun q _ => mapPage_needs root _ _ _
      rw [List.length_range'] at hpages
      rwa [mapEntry_eq alloc root (hstop e he), hrounds e he]
  have hdatabase : ∀ root, Needs alloc (4 * (databaseChunks (physmemEnd entries / pageSize)).length)
      (mapPageDatabase alloc root (physmemEnd entries / pageSize)) := fun root => by
    rw [mapPageDatabase_eq_forEach alloc root hnr]
    exact Needs.forEach fun i _ => withPage_needs fun page => mapPage_needs root _ page _
  have hstatus : ∀ f : BootState σ → BootState σ, (∀ u, (f u).pages = u.pages) →
      Needs alloc 0 fun u => some (0, f u) := by
    intro f hf k u hu
    rw [Nat.zero_add, ← hf] at hu
    exact ⟨f u, rfl, hu⟩
  rw [Nat.add_assoc, Nat.add_comm] at hsup
  obtain ⟨root, s, hcall, herr, hrest⟩ := hsup
  have hlater := (hstatus id fun _ => rfl).andThen ((hentries root).andThen
    ((hdatabase root).andThen (hstatus
      (fun u => { u with pgdbPageNr := physmemEnd entries / pageSize }) fun _ => rfl)))
  obtain ⟨st', hrun, _⟩ := ((hstatus id fun _ => rfl).andThen hlater) 0
    { st with pages := s, mem := memset st.mem root 0#8 4096 } (by simpa using hrest)
  refine ⟨root, s, st', hcall, ?_⟩
  rw [bootMmPgtableInit, withPage_of_alloc hcall herr]
  exact hrun

end Run

/-! ### Instances -/

/-- An allocator with sixteen frames from physical 4096 on. -/
def sixteenFrames (n : ℕ) : Option (Word × ℕ) :=
  if n < 16 then some (BitVec.ofNat 64 (4096 * (n + 1)), n + 1) else some (errPtr enomem, n)

def sixteenFramesUsed (n : ℕ) : List Word :=
  (List.range (min n 16)).map fun k => BitVec.ofNat 64 (4096 * (k + 1))

theorem sixteenFrames_fresh : FreshFrames sixteenFrames sixteenFramesUsed := by
  have htoNat : ∀ k < 16, (BitVec.ofNat 64 (4096 * (k + 1)) : Word).toNat = 4096 * (k + 1) := by
    intro k hk
    rw [BitVec.toNat_ofNat]
    omega
  intro n x n' halloc
  unfold sixteenFrames at halloc
  simp only [sixteenFramesUsed, List.mem_map, List.mem_range]
  split at halloc
  · next hn =>
    obtain ⟨rfl, rfl⟩ := Prod.mk.inj (Option.some.inj halloc)
    refine ⟨?_, Or.inr ⟨⟨n + 1, htoNat n hn⟩, ?_, n, by omega, rfl⟩⟩
    · rintro f ⟨k, hk, rfl⟩
      exact ⟨k, by omega, rfl⟩
    · rintro ⟨k, hk, heq⟩
      have hnat := congrArg BitVec.toNat heq
      rw [htoNat k (by omega), htoNat n hn] at hnat
      omega
  · obtain ⟨rfl, rfl⟩ := Prod.mk.inj (Option.some.inj halloc)
    exact ⟨fun _ hf => hf, Or.inl rfl⟩

theorem sixteenFrames_supplies {n k : ℕ} (h : n + k ≤ 16) : Supplies sixteenFrames n k := by
  induction n generalizing k with
  | zero => trivial
  | succ n ih =>
    have halign : PageAligned (BitVec.ofNat 64 (4096 * (k + 1))) := by
      rw [PageAligned, BitVec.toNat_ofNat]
      omega
    exact ⟨_, _, if_pos (by omega), not_isErrPtr halign, ih (by omega)⟩

def sixteenFramesStart : BootState ℕ :=
  { pages := 0, mem := fun _ => 0#8, pgdbPageNr := 0#64, contents := [] }

/-- The second half of page 0 and page 1 is one entry, and page 1 is another one: the last
page of the first entry is mapped by the second. -/
theorem directMapCovers_twoEntries : ∃ root s st',
    sixteenFrames 0 = some (root, s) ∧
    bootMmPgtableInit sixteenFrames (memoryOnly [⟨0x800#64, 0x1000#64, multibootMemoryAvailable⟩,
      ⟨0x1000#64, 0x1000#64, multibootMemoryReserved⟩]) sixteenFramesStart = some (0, st') ∧
    DirectMapCovers st'.mem root [⟨0x800#64, 0x1000#64, multibootMemoryAvailable⟩,
      ⟨0x1000#64, 0x1000#64, multibootMemoryReserved⟩] := by
  obtain ⟨root, s, st', hcall, hrun⟩ := memoryOnly_run sixteenFrames
    [⟨0x800#64, 0x1000#64, multibootMemoryAvailable⟩,
      ⟨0x1000#64, 0x1000#64, multibootMemoryReserved⟩]
    1 sixteenFramesStart (by decide) (by decide) (sixteenFrames_supplies (by decide))
  exact ⟨root, s, st', hcall, hrun,
    (directMapCovers_iff sixteenFrames_fresh (by decide) hcall hrun).1 (by decide)⟩

/-- Without the second entry the last 2048 bytes of the first one are not translated. -/
theorem not_directMapCovers :
    ¬ ∀ (σ : Type) (alloc : σ → Option (Word × σ)) (used : σ → List Word) (info : BootInfo)
      (st st' : BootState σ) (root : Word) (s : σ), FreshFrames alloc used →
      (∀ e ∈ info.mmapEntries, e.stop ≤ 2 ^ 46) → alloc st.pages = some (root, s) →
      bootMmPgtableInit alloc info st = some (0, st') →
      DirectMapCovers st'.mem root info.mmapEntries := by
  intro hall
  obtain ⟨root, s, st', hcall, hrun⟩ := memoryOnly_run sixteenFrames
    [⟨0x800#64, 0x1000#64, multibootMemoryAvailable⟩] 1 sixteenFramesStart (by decide) (by decide)
    (sixteenFrames_supplies (by decide))
  have hstop : ∀ e ∈ (memoryOnly [⟨0x800#64, 0x1000#64, multibootMemoryAvailable⟩]).mmapEntries,
      e.stop ≤ 2 ^ 46 := by decide
  have hcovers := hall ℕ sixteenFrames sixteenFramesUsed _ _ st' root s sixteenFrames_fresh hstop
    hcall hrun
  have hlast := hcovers.lastPagesMapped sixteenFrames_fresh hstop hcall hrun
    fun sh hsh => absurd hsh List.not_mem_nil
  revert hlast
  decide

end ClosureOS
