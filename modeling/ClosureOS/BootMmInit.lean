import ClosureOS.BootRounds
import ClosureOS.MmapEntries
import ClosureOS.PageDatabase

/-!
boot_mm_init and the test of its result in boot_main. A failure of boot_mm_pgtable_init is
printed and otherwise ignored: the page database is set up at the base that was never stored,
and the value returned is the base of the direct map cut down to an int, which is 0. So the
kernel is entered after every failure.
-/
namespace ClosureOS

open ByteMemory

/-- What boot_mm_init works on: the state of boot_mm_pgtable_init, mm::pgdb_base and the entries
behind it. Kept as a history are the bases with which boot_mm_page_database_init was called, the
error codes that were printed and whether main was entered. -/
structure BootRun where
  boot : BootState BootCursor
  pgdbBase : Word
  pgdb : Pgdb
  databaseInits : List Word
  printed : List ℤ
  mainEntered : Bool

/-- A function of the boot stage returns, or it stops: in a hlt, in a loop without end or, in the
walk over the tags, where the fuel ends. -/
inductive BootEnd (α : Type)
  | returns (ret : α) (r : BootRun)
  | stops (r : BootRun)

def BootEnd.run {α : Type} : BootEnd α → BootRun
  | .returns _ r => r
  | .stops r => r

namespace BootRun

variable (fb : Option FrameBuffer) (fuel : ℕ) (mbi : Word) (r : BootRun)

/-- The branch for a negative result, which prints it. -/
def report (ret : ℤ) : BootRun := if ret < 0 then { r with printed := r.printed ++ [ret] } else r

/-- boot_mm_pgtable_init with its last lines: mm::pgdb_base is set when everything is mapped,
and the entries behind it are new pages of zeros. -/
def runPgtableInit (info : BootInfo) : BootEnd ℤ :=
  match bootMmPgtableInit (bootAlloc info) info r.boot with
  | none => .stops r
  | some (ret, boot) =>
    if ret < 0 then .returns ret { r with boot := boot }
    else
      .returns ret { r with
        boot := boot, pgdbBase := kernPageDatabaseRegionBase, pgdb := fun _ => Page.zero }

/-- boot_mm_page_database_init on whatever mm::pgdb_base points to. -/
def runDatabaseInit (info : BootInfo) : BootEnd ℤ :=
  let r := { r with databaseInits := r.databaseInits ++ [r.pgdbBase] }
  match bootMmPageDatabaseInit info r.boot.pages.currAvail r.pgdb with
  | none => .stops r
  | some (ret, g) => .returns ret { r with pgdb := g }

/-- KERN_DIRECT_MAP_REGION_BASE as the result of a function of type int. -/
def initValue : ℤ := (kernDirectMapRegionBase.setWidth 32).toInt

def bootMmInit : BootEnd ℤ :=
  match bootMmInitTags r.boot.mem mbi fuel with
  | none => .stops r
  | some none => .returns (-1) r
  | some (some tags) =>
    let info := tags.bootInfo r.boot.mem fb
    match r.runPgtableInit info with
    | .stops r => .stops r
    | .returns ret r =>
      match (r.report ret).runDatabaseInit info with
      | .stops r => .stops r
      | .returns ret r => .returns initValue (r.report ret)

/-- boot_main from the call of boot_mm_init on. -/
def bootMain : BootEnd Unit :=
  match r.bootMmInit fb fuel mbi with
  | .stops r => .stops r
  | .returns ret r =>
    if ret < 0 then .stops (r.report ret) else .returns () { r with mainEntered := true }

/-! ### Failures -/

/-- boot_mm_pgtable_init is reached and returns an error, wherever it arose. -/
def PgtableInitFails : Prop :=
  ∃ tags ret boot, bootMmInitTags r.boot.mem mbi fuel = some (some tags) ∧
    bootMmPgtableInit (bootAlloc (tags.bootInfo r.boot.mem fb)) (tags.bootInfo r.boot.mem fb)
      r.boot = some (ret, boot) ∧ ret < 0

/-- boot_mm_init returns an error without touching the page database, and main is not entered. -/
structure FailureReported : Prop where
  negative : ∃ ret r', r.bootMmInit fb fuel mbi = .returns ret r' ∧ ret < 0
  noDatabase : (r.bootMmInit fb fuel mbi).run.databaseInits = r.databaseInits
  noMain : (r.bootMain fb fuel mbi).run.mainEntered = r.mainEntered

section Failures

variable {fb : Option FrameBuffer} {fuel : ℕ} {mbi : Word} {r : BootRun}

theorem initValue_eq : initValue = 0 := by decide

@[simp] theorem report_databaseInits (r : BootRun) (ret : ℤ) :
    (r.report ret).databaseInits = r.databaseInits := by
  unfold report
  split <;> rfl

@[simp] theorem report_pgdbBase (r : BootRun) (ret : ℤ) :
    (r.report ret).pgdbBase = r.pgdbBase := by
  unfold report
  split <;> rfl

/-- The call of boot_mm_page_database_init is kept whether it returns or not. -/
theorem runDatabaseInit_databaseInits (r : BootRun) (info : BootInfo) :
    (r.runDatabaseInit info).run.databaseInits = r.databaseInits ++ [r.pgdbBase] := by
  unfold runDatabaseInit
  dsimp only
  cases bootMmPageDatabaseInit info r.boot.pages.currAvail r.pgdb <;> rfl

/-- An error of boot_mm_pgtable_init leaves mm::pgdb_base as it was. -/
theorem runPgtableInit_of_fails {info : BootInfo} {ret : ℤ} {boot : BootState BootCursor}
    (hinit : bootMmPgtableInit (bootAlloc info) info r.boot = some (ret, boot)) (hneg : ret < 0) :
    r.runPgtableInit info = .returns ret { r with boot := boot } := by
  rw [runPgtableInit, hinit]
  exact if_pos hneg

/-- What boot_mm_init does after every failure: the page database is initialised at the old base,
and a return, if there is one, is a return of 0. -/
theorem bootMmInit_of_fails (hfail : r.PgtableInitFails fb fuel mbi) :
    (r.bootMmInit fb fuel mbi).run.databaseInits = r.databaseInits ++ [r.pgdbBase] ∧
      ∀ ret r', r.bootMmInit fb fuel mbi = .returns ret r' → ret = 0 := by
  obtain ⟨tags, ret, boot, htags, hinit, hneg⟩ := hfail
  have hrun := runPgtableInit_of_fails hinit hneg
  have hdatabase := runDatabaseInit_databaseInits ({ r with boot := boot }.report ret)
    (tags.bootInfo r.boot.mem fb)
  unfold bootMmInit
  simp only [htags, hrun]
  cases hend : ({ r with boot := boot }.report ret).runDatabaseInit
      (tags.bootInfo r.boot.mem fb) with
  | stops r' =>
    rw [hend] at hdatabase
    exact ⟨by simpa [BootEnd.run] using hdatabase, fun _ _ h => nomatch h⟩
  | returns ret' r' =>
    rw [hend] at hdatabase
    refine ⟨by simpa [BootEnd.run] using hdatabase, fun ret r'' h => ?_⟩
    rw [← initValue_eq]
    exact (BootEnd.returns.inj h).1.symm

theorem runDatabaseInit_returns {info : BootInfo} (hsafe : ∀ e ∈ info.mmapEntries, e.StepSafe)
    (r : BootRun) : ∃ r', r.runDatabaseInit info = .returns 0 r' := by
  unfold runDatabaseInit
  dsimp only
  rw [bootMmPageDatabaseInit_eq hsafe]
  exact ⟨_, rfl⟩

theorem main_entered_of_fails (hfail : r.PgtableInitFails fb fuel mbi)
    (hsafe : ∀ tags, bootMmInitTags r.boot.mem mbi fuel = some (some tags) →
      ∀ e ∈ (tags.bootInfo r.boot.mem fb).mmapEntries, e.StepSafe) :
    ∃ r', r.bootMain fb fuel mbi = .returns () r' ∧ r'.mainEntered = true := by
  obtain ⟨tags, ret, boot, htags, hinit, hneg⟩ := hfail
  have hrun := runPgtableInit_of_fails hinit hneg
  obtain ⟨r', hdatabase⟩ :=
    runDatabaseInit_returns (hsafe tags htags) ({ r with boot := boot }.report ret)
  have hreturns : r.bootMmInit fb fuel mbi = .returns 0 (r'.report 0) := by
    unfold bootMmInit
    simp only [htags, hrun, hdatabase, initValue_eq]
  rw [bootMain, hreturns]
  exact ⟨_, rfl, rfl⟩

/-- No failure of boot_mm_pgtable_init is reported: the page database is set up all the same,
and main is entered whenever that ends; so always on a memory map whose loops do not wrap. -/
theorem failure_never_reported (hfail : r.PgtableInitFails fb fuel mbi) :
    ¬ r.FailureReported fb fuel mbi ∧
      (r.bootMmInit fb fuel mbi).run.databaseInits = r.databaseInits ++ [r.pgdbBase] ∧
      (∀ ret r', r.bootMmInit fb fuel mbi = .returns ret r' →
        ret = 0 ∧ (r.bootMain fb fuel mbi).run.mainEntered = true) ∧
      ((∀ tags, bootMmInitTags r.boot.mem mbi fuel = some (some tags) →
          ∀ e ∈ (tags.bootInfo r.boot.mem fb).mmapEntries, e.StepSafe) →
        ∃ r', r.bootMain fb fuel mbi = .returns () r' ∧ r'.mainEntered = true) := by
  obtain ⟨hdatabase, hret⟩ := bootMmInit_of_fails hfail
  refine ⟨fun hreported => ?_, hdatabase, fun ret r' hinit => ?_, main_entered_of_fails hfail⟩
  · have hsame := hreported.noDatabase
    rw [hdatabase] at hsame
    simp at hsame
  · have hzero := hret ret r' hinit
    refine ⟨hzero, ?_⟩
    rw [bootMain, hinit, hzero]
    rfl

end Failures

/-- Multiboot information with a memory map of one reserved page and no sections. -/
def reservedOnlyTags : List (BitVec 8) :=
  [6, 0, 0, 0, 40, 0, 0, 0, 24, 0, 0, 0, 0, 0, 0, 0,
   0, 0, 0, 0, 0, 0, 0, 0, 0, 0x10, 0, 0, 0, 0, 0, 0, 2, 0, 0, 0, 0, 0, 0, 0,
   9, 0, 0, 0, 20, 0, 0, 0, 0, 0, 0, 0, 64, 0, 0, 0, 0, 0, 0, 0, 0, 0, 0, 0,
   0, 0, 0, 0, 8, 0, 0, 0]

/-- The state in which boot_mm_init is called, with these tags at 1 MB. -/
def reservedOnly : BootRun where
  boot := ⟨BootCursor.start, ofBytes 0x100008#64 reservedOnlyTags, 0#64, []⟩
  pgdbBase := 0#64
  pgdb := fun _ => Page.zero
  databaseInits := []
  printed := []
  mainEntered := false

/-- There is no page for the page table. -/
theorem pgtableInitFails_reservedOnly : reservedOnly.PgtableInitFails none 3 0x100000#64 :=
  ⟨⟨0x100008#64, 0x100030#64, 1#32, 0x100000#64, 0x101000#64⟩, -12, _, by decide, rfl, by decide⟩

theorem failure_never_reported_reservedOnly :
    ¬ reservedOnly.FailureReported none 3 0x100000#64 ∧
      (reservedOnly.bootMmInit none 3 0x100000#64).run.databaseInits = [0#64] ∧
      ∃ r', reservedOnly.bootMain none 3 0x100000#64 = .returns () r' ∧ r'.mainEntered = true := by
  obtain ⟨hreported, hdatabase, _, hmain⟩ := failure_never_reported pgtableInitFails_reservedOnly
  refine ⟨hreported, hdatabase, hmain fun tags htags => ?_⟩
  have hread : bootMmInitTags reservedOnly.boot.mem 0x100000#64 3 =
      some (some ⟨0x100008#64, 0x100030#64, 1#32, 0x100000#64, 0x101000#64⟩) := by decide
  obtain rfl := Option.some.inj (Option.some.inj (hread.symm.trans htags))
  decide

/-- The page database is set up at the null pointer. -/
theorem not_failureReported :
    ¬ ∀ (fb : Option FrameBuffer) (fuel : ℕ) (mbi : Word) (r : BootRun),
      r.PgtableInitFails fb fuel mbi → r.FailureReported fb fuel mbi := by
  intro hall
  have hreported := (hall none 3 0x100000#64 reservedOnly pgtableInitFails_reservedOnly).noDatabase
  rw [(bootMmInit_of_fails pgtableInitFails_reservedOnly).1] at hreported
  exact absurd hreported (by decide)

end BootRun
end ClosureOS
