import ClosureOS.PageDatabase

/-!
Which frames the page database gives to the buddy pool. A frame in the middle of an
available entry is wholly available. The frames at its two ends need not be, and they
are given away all the same: the database does not drop partial pages as the boot
allocator does.
-/
namespace ClosureOS

open StatusLoops

/-- A page that pages_pool_init will hand to the buddy pool. -/
def Donated (g : Pgdb) (p : ℕ) : Prop := (g p).type = .normalMem ∧ (g p).refCount.slt 0#32

instance (g : Pgdb) (p : ℕ) : Decidable (Donated g p) := inferInstanceAs (Decidable (_ ∧ _))

/-- Every byte of frame p belongs to available entries, and to no other ones. -/
def WhollyAvailable (entries : List MmapEntry) (p : ℕ) : Prop :=
  ∀ x, 4096 * p ≤ x → x < 4096 * p + 4096 →
    (∃ e ∈ entries, e.Available ∧ e.Has x) ∧ ∀ e ∈ entries, e.Has x → e.Available

/-- After the initialisation of a zeroed database only wholly available frames are
donated. -/
def DonatesWholeFrames (info : BootInfo) (currAvail : Word) : Prop :=
  ∃ g, bootMmPageDatabaseInit info currAvail (fun _ => Page.zero) = some (0, g) ∧
    ∀ p, Donated g p → WhollyAvailable info.mmapEntries p

/-- Frame p is the first or the last one that the entry steps on. -/
def MmapEntry.EdgeStep (e : MmapEntry) (p : ℕ) : Prop :=
  e.StepsOn p ∧ (p = e.addr.toNat / 4096 ∨ ¬ e.StepsOn (p + 1))

/-- The first and the last frame of every available entry are wholly available, or the
step on them is below curr_avail or in a used range, or a later entry of the table steps
on them again. -/
def EdgesHarmless (info : BootInfo) (currAvail : Word) : Prop :=
  ∀ before e after, info.mmapEntries = before ++ e :: after → e.Available →
    ∀ p, e.EdgeStep p → WhollyAvailable info.mmapEntries p ∨ e.stepAt p < currAvail ∨
      addrIsInUsedRange info (e.stepAt p) ∨ ∃ f ∈ after, f.StepsOn p

/-- The available entry can step on frame p at a byte outside the used ranges. All its steps
are at the same offset in a page. -/
def MmapEntry.StepsFreely (info : BootInfo) (e : MmapEntry) (p : ℕ) : Prop :=
  e.Available ∧ ∃ base : Word, stepPfn base = p ∧ base.toNat % 4096 = e.addr.toNat % 4096 ∧
    addrIsInUsedRange info base = false

section Donated

variable {info : BootInfo} {entries : List MmapEntry} {e : MmapEntry} {used : Word → Bool}
  {currAvail base : Word} {type : BitVec 32} {g : Pgdb} {p : ℕ}

/-- What decides whether the step on a frame makes it a donated one. -/
theorem initPage_donated (q : Page) :
    ((initPage used currAvail base type q).type = .normalMem ∧
      (initPage used currAvail base type q).refCount.slt 0#32) ↔
    type = multibootMemoryAvailable ∧ ¬ base < currAvail ∧ used base = false := by
  simp only [initPage, mmapPageType, mmapRefCount]
  by_cases havail : type = multibootMemoryAvailable
  · by_cases hused : base < currAvail ∨ used base
    · rw [if_pos havail, if_pos havail, if_pos hused]
      apply iff_of_false (by decide)
      rintro ⟨_, hlt, hfree⟩
      rcases hused with h | h
      · exact hlt h
      · exact absurd h (by rw [hfree]; decide)
    · rw [if_pos havail, if_pos havail, if_neg hused]
      rw [not_or] at hused
      exact iff_of_true (by decide) ⟨havail, hused.1, by simpa using hused.2⟩
  · rw [if_neg havail, if_neg havail]
    exact iff_of_false (fun h => absurd h.2 (by decide)) fun h => havail h.1

/-- Every frame is donated only through an available entry that steps on it freely. -/
def DonatedFreely (info : BootInfo) (g : Pgdb) : Prop :=
  ∀ p, Donated g p → ∃ e ∈ info.mmapEntries, e.StepsFreely info p

theorem DonatedFreely.initPage (h : DonatedFreely info g) (he : e ∈ info.mmapEntries)
    (hoffset : base.toNat % 4096 = e.addr.toNat % 4096) :
    DonatedFreely info (Function.update g (stepPfn base)
      (initPage (addrIsInUsedRange info) currAvail base e.type (g (stepPfn base)))) := by
  intro p hdonated
  by_cases hp : p = stepPfn base
  · subst hp
    rw [Donated, Function.update_self, initPage_donated] at hdonated
    exact ⟨e, he, hdonated.1, base, rfl, hoffset, hdonated.2.2⟩
  · rw [Donated, Function.update_of_ne hp] at hdonated
    exact h p hdonated

theorem databaseEntry_donatedFreely (he : e ∈ info.mmapEntries) :
    Keeps False (DonatedFreely info)
      (databaseEntry (addrIsInUsedRange info) currAvail e) := by
  apply Keeps.whileRounds_of_inv (I := fun base : Word => base.toNat % 4096 = e.addr.toNat % 4096)
  · intro base hbase
    have hsize := toNat_pageSize
    rw [BitVec.toNat_add]
    omega
  · exact fun base hbase g hg => Or.inr ⟨0, _, rfl, hg.initPage he hbase⟩
  · rfl

/-- On any map whatever, where boot_mm_page_database_init returns. -/
theorem donated_stepsFreely {r : ℤ}
    (h : bootMmPageDatabaseInit info currAvail (fun _ => Page.zero) = some (r, g))
    (hdonated : Donated g p) : ∃ e ∈ info.mmapEntries, e.StepsFreely info p := by
  have hkeeps : Keeps False (DonatedFreely info) (bootMmPageDatabaseInit info currAvail) :=
    Keeps.forEach fun e he => databaseEntry_donatedFreely he
  have hzero : DonatedFreely info fun _ => Page.zero :=
    fun _ h => absurd h.1 (show Page.zero.type ≠ .normalMem by decide)
  exact hkeeps.of_eq_some hzero h p hdonated

/-- Between the two ends of an available entry frames are wholly available. -/
theorem whollyAvailable_middle (hdisj : entries.Pairwise MmapEntry.Apart) (he : e ∈ entries)
    (havail : e.Available) (hon : e.StepsOn p) (hedge : ¬ e.EdgeStep p) :
    WhollyAvailable entries p := by
  have hfirst : p ≠ e.addr.toNat / 4096 := fun h => hedge ⟨hon, Or.inl h⟩
  have hnext : e.StepsOn (p + 1) := by_contra fun h => hedge ⟨hon, Or.inr h⟩
  obtain ⟨hval, hlt⟩ := MmapEntry.toNat_stepAt hnext
  have hstart := hon.1
  intro x hlow hhigh
  have hx : e.Has x := ⟨by omega, by omega⟩
  exact ⟨⟨e, he, havail, hx⟩, fun f hf hfx => MmapEntry.eq_of_has hdisj hf he hfx hx ▸ havail⟩

/-- Only wholly available frames are given away if and only if the frames at the two
ends of the available entries do no harm. -/
theorem donatesWholeFrames_iff (hdisj : info.mmapEntries.Pairwise MmapEntry.Apart)
    (hstop : ∀ e ∈ info.mmapEntries, e.stop < 2 ^ 52) :
    DonatesWholeFrames info currAvail ↔ EdgesHarmless info currAvail := by
  have hsafe : ∀ e ∈ info.mmapEntries, e.StepSafe := by
    intro e he
    have hlt := hstop e he
    rw [MmapEntry.StepSafe, MmapEntry.toNat_addr_add_len (by omega)]
    omega
  rw [DonatesWholeFrames, bootMmPageDatabaseInit_eq hsafe]
  constructor
  · rintro ⟨g, heq, hwhole⟩ before e after hsplit havail p hedge
    obtain ⟨_, rfl⟩ := Prod.mk.inj (Option.some.inj heq)
    by_contra hharm
    simp only [not_or, not_exists, not_and] at hharm
    obtain ⟨hpart, hfree, hunused, hlast⟩ := hharm
    refine hpart (hwhole p ?_)
    obtain ⟨q, hq⟩ := foldl_entryDone_of_last (addrIsInUsedRange info) currAvail before hedge.1
      hlast fun _ => Page.zero
    rw [Donated, hsplit, hq]
    exact (initPage_donated q).mpr ⟨havail, hfree, by simpa using hunused⟩
  · refine fun hedges => ⟨_, rfl, fun p hdonated => ?_⟩
    rcases exists_last_step info.mmapEntries p with hnone | ⟨before, e, after, hsplit, hon, hlast⟩
    · rw [Donated, foldl_entryDone_of_none hnone] at hdonated
      exact absurd hdonated.1 (by decide)
    · obtain ⟨q, hq⟩ := foldl_entryDone_of_last (addrIsInUsedRange info) currAvail before hon
        hlast fun _ => Page.zero
      rw [Donated, hsplit, hq] at hdonated
      obtain ⟨havail, hfree, hunused⟩ := (initPage_donated q).mp hdonated
      by_cases hedge : e.EdgeStep p
      · rcases hedges before e after hsplit havail p hedge with h | h | h | ⟨f, hf, hfp⟩
        · exact h
        · exact absurd h hfree
        · exact absurd h (by rw [hunused]; decide)
        · exact absurd hfp (hlast f hf)
      · exact whollyAvailable_middle hdisj (by rw [hsplit]; simp) havail hon hedge

end Donated

/-! ### Instances -/

/-- A boot with the given memory map, no kernel sections and no frame buffer, and the
multiboot tags in the page at 0x9000. -/
def bootWithMap (entries : List MmapEntry) : BootInfo :=
  { mmapEntries := entries, sections := [], fb := none, multibootTagStart := 0x9000#64
    multibootTagEnd := 0xA000#64 }

theorem donatesWholeFrames_threePages :
    DonatesWholeFrames
      (bootWithMap [⟨0x1000#64, 0x3000#64, multibootMemoryAvailable⟩]) 0x2000#64 := by
  apply (donatesWholeFrames_iff (by simp [bootWithMap]) (by decide)).mpr
  intro before e after hsplit _ p hedge
  obtain ⟨_, rfl, _⟩ : before = [] ∧ e = ⟨0x1000#64, 0x3000#64, multibootMemoryAvailable⟩ ∧
      after = [] := by
    rcases before with _ | ⟨f, before⟩
    · obtain ⟨he, hafter⟩ := List.cons.inj hsplit
      exact ⟨rfl, he.symm, hafter.symm⟩
    · exact absurd (congrArg List.length hsplit) (by simp [bootWithMap])
  have hon : 1 ≤ p ∧ p < 1 + 3 := hedge.1
  refine Or.inl fun x hlow hhigh => ⟨⟨_, List.mem_singleton_self _, rfl, ?_⟩, ?_⟩
  · show 0x1000 ≤ x ∧ x < 0x1000 + 0x3000
    omega
  · intro f hf _
    rw [List.mem_singleton.mp hf]
    rfl

/-- A reserved half page in front of an available region, above the cursor: the frame
0xB000 is given away. -/
def reservedHalf : BootInfo :=
  bootWithMap [⟨0#64, 0xA000#64, multibootMemoryAvailable⟩,
    ⟨0xB000#64, 0x800#64, multibootMemoryReserved⟩,
    ⟨0xB800#64, 0x1800#64, multibootMemoryAvailable⟩]

theorem not_donatesWholeFrames :
    ¬ ∀ (info : BootInfo) (currAvail : Word), info.mmapEntries.Pairwise MmapEntry.Apart →
      (∀ e ∈ info.mmapEntries, e.stop < 2 ^ 52) → DonatesWholeFrames info currAvail := by
  intro hall
  obtain ⟨g, heq, hwhole⟩ := hall reservedHalf 0x8000#64
    (MmapEntry.pairwise_apart_of_bounds (by decide)) (by decide)
  rw [bootMmPageDatabaseInit_eq (by decide)] at heq
  obtain ⟨_, rfl⟩ := Prod.mk.inj (Option.some.inj heq)
  have hbyte := hwhole 11 (by decide) 0xB000 (by decide) (by decide)
  exact absurd (hbyte.2 ⟨0xB000#64, 0x800#64, multibootMemoryReserved⟩ (by decide) (by decide))
    (by decide)

end ClosureOS
