import ClosureOS.BootInfo
import ClosureOS.Page
import ClosureOS.PageTableInit

/-!
boot_mm_page_database_init in boot_mm.cpp. Each entry of the memory map is walked in
steps of a page from its first byte, and the entry of the page database that the step
falls into is set from the type of the map entry. The last entry of the table that steps
on a frame decides. A frame that is only partly available is therefore given away when
an available entry steps on it last, which happens at the two ends of the entry.
-/
namespace ClosureOS

open StatusLoops

/-- The type that the switch gives to a page. -/
def mmapPageType (type : BitVec 32) : PageType :=
  if type = multibootMemoryAvailable then .normalMem
  else if type = multibootMemoryReserved then .reserved
  else if type = multibootMemoryAcpiReclaimable then .acpiReclaimable
  else if type = multibootMemoryNvs then .nvs
  else if type = multibootMemoryBadram then .badram
  else .unknown

/-- The reference count that the switch gives to a page: -1 for a free page. -/
def mmapRefCount (used : Word → Bool) (currAvail base : Word) (type : BitVec 32) : BitVec 32 :=
  if type = multibootMemoryAvailable then
    if base < currAvail ∨ used base then 0#32 else -1#32
  else 0#32

/-- The body of the inner loop. -/
def initPage (used : Word → Bool) (currAvail base : Word) (type : BitVec 32) (p : Page) : Page :=
  { p with
    migrateType := .unmovable, lock := 0#32, kc := none, pool := none, freelist := 0#64
    objNr := 0#64, type := mmapPageType type, refCount := mmapRefCount used currAvail base type }

def stepPfn (base : Word) : ℕ := (base / pageSize).toNat

/-- The inner loop, for one entry of the memory map. -/
def databaseEntry (used : Word → Bool) (currAvail : Word) (e : MmapEntry) : Step Pgdb :=
  whileRounds (fun base => decide (base < e.addr + e.len)) (· + pageSize)
    (fun base g => some (0, Function.update g (stepPfn base)
      (initPage used currAvail base e.type (g (stepPfn base)))))
    wordRounds e.addr

def bootMmPageDatabaseInit (info : BootInfo) (currAvail : Word) : Step Pgdb :=
  forEach (databaseEntry (addrIsInUsedRange info) currAvail) info.mmapEntries

/-! ### Steps -/

namespace MmapEntry

/-- The entry steps on frame p. -/
def StepsOn (e : MmapEntry) (p : ℕ) : Prop :=
  e.addr.toNat / 4096 ≤ p ∧ p < e.addr.toNat / 4096 + pageRounds e.addr (e.addr + e.len)

instance (e : MmapEntry) (p : ℕ) : Decidable (e.StepsOn p) := inferInstanceAs (Decidable (_ ∧ _))

/-- The byte at which the entry steps on frame p. -/
def stepAt (e : MmapEntry) (p : ℕ) : Word :=
  e.addr + BitVec.ofNat 64 (p - e.addr.toNat / 4096) * pageSize

/-- The loop over the entry does not wrap. -/
def StepSafe (e : MmapEntry) : Prop := (e.addr + e.len).toNat + 4095 < 2 ^ 64

instance (e : MmapEntry) : Decidable e.StepSafe := inferInstanceAs (Decidable (_ < _))

end MmapEntry

section Steps

variable {used : Word → Bool} {currAvail : Word} {e : MmapEntry} {p k : ℕ}

/-- An entry that steps anywhere does not wrap. -/
theorem MmapEntry.StepsOn.stop_lt (h : e.StepsOn p) : e.stop < 2 ^ 64 := by
  by_contra hwrap
  have hlt := toNat_addr_add_len_of_wrap (Nat.not_lt.mp hwrap)
  unfold StepsOn pageRounds at h
  omega

theorem MmapEntry.pageRounds_eq (hstop : e.stop < 2 ^ 64) :
    pageRounds e.addr (e.addr + e.len) = (e.len.toNat + 4095) / 4096 := by
  rw [pageRounds, toNat_addr_add_len hstop, stop, Nat.add_sub_cancel_left]

theorem MmapEntry.toNat_stepAt (h : e.StepsOn p) :
    (e.stepAt p).toNat = e.addr.toNat + 4096 * (p - e.addr.toNat / 4096) ∧
      (e.stepAt p).toNat < e.stop := by
  have hstop := h.stop_lt
  have hrounds := pageRounds_eq hstop
  rw [StepsOn, hrounds] at h
  unfold stop at hstop ⊢
  have hval : (e.stepAt p).toNat = e.addr.toNat + 4096 * (p - e.addr.toNat / 4096) :=
    toNat_add_pages (by omega)
  rw [hval]
  omega

theorem MmapEntry.stepPfn_step (hstep : k < pageRounds e.addr (e.addr + e.len)) :
    stepPfn (e.addr + BitVec.ofNat 64 k * pageSize) = e.addr.toNat / 4096 + k := by
  have hon : e.StepsOn (e.addr.toNat / 4096 + k) := ⟨by omega, by omega⟩
  have hval := (toNat_stepAt hon).1
  rw [stepAt, Nat.add_sub_cancel_left] at hval
  rw [stepPfn, BitVec.toNat_udiv, hval, toNat_pageSize]
  omega

/-- The first k steps of an entry. -/
def stepsDone (used : Word → Bool) (currAvail : Word) (e : MmapEntry) (k : ℕ) (g : Pgdb) : Pgdb :=
  fun p =>
    if e.addr.toNat / 4096 ≤ p ∧ p < e.addr.toNat / 4096 + k then
      initPage used currAvail (e.stepAt p) e.type (g p)
    else g p

theorem stepsDone_succ (g : Pgdb) :
    stepsDone used currAvail e (k + 1) g =
      Function.update (stepsDone used currAvail e k g) (e.addr.toNat / 4096 + k)
        (initPage used currAvail (e.addr + BitVec.ofNat 64 k * pageSize) e.type
          (stepsDone used currAvail e k g (e.addr.toNat / 4096 + k))) := by
  funext p
  by_cases hp : p = e.addr.toNat / 4096 + k
  · subst hp
    have hbefore : stepsDone used currAvail e k g (e.addr.toNat / 4096 + k) =
        g (e.addr.toNat / 4096 + k) := if_neg (by omega)
    rw [Function.update_self, hbefore, stepsDone, if_pos (by omega), MmapEntry.stepAt,
      Nat.add_sub_cancel_left]
  · rw [Function.update_of_ne hp, stepsDone, stepsDone]
    exact if_congr (by omega) rfl rfl

/-- The guard of the inner loop holds for the rounds of the entry and fails after them. -/
theorem entry_guard (hsafe : e.StepSafe) :
    (∀ i < pageRounds e.addr (e.addr + e.len),
      decide ((fun base => base + pageSize)^[i] e.addr < e.addr + e.len) = true) ∧
    decide ((fun base => base + pageSize)^[pageRounds e.addr (e.addr + e.len)] e.addr <
      e.addr + e.len) = false := by
  refine ⟨fun i hi => ?_, ?_⟩
  · rw [iterate_add]
    exact decide_eq_true ((lt_iff_pageRounds hsafe hi.le).mpr hi)
  · rw [iterate_add]
    exact decide_eq_false fun h => absurd ((lt_iff_pageRounds hsafe le_rfl).mp h) (lt_irrefl _)

/-- The inner loop sets the frames that the entry steps on. -/
theorem databaseEntry_eq (hsafe : e.StepSafe) (g : Pgdb) :
    databaseEntry used currAvail e g =
      some (0, stepsDone used currAvail e (pageRounds e.addr (e.addr + e.len)) g) := by
  have hloop : databaseEntry used currAvail e =
      forEach (fun base g => some (0, Function.update g (stepPfn base)
        (initPage used currAvail base e.type (g (stepPfn base)))))
        ((List.range (pageRounds e.addr (e.addr + e.len))).map fun i =>
          (fun base => base + pageSize)^[i] e.addr) :=
    whileRounds_eq_forEach (pageRounds_lt e.addr (e.addr + e.len)) (entry_guard hsafe).1
      (entry_guard hsafe).2
  rw [hloop, forEach_eq_foldl (fun _ _ _ => rfl), List.foldl_map]
  have hfold : ∀ k ≤ pageRounds e.addr (e.addr + e.len),
      (List.range k).foldl (fun g i => Function.update g
        (stepPfn ((fun base => base + pageSize)^[i] e.addr))
        (initPage used currAvail ((fun base => base + pageSize)^[i] e.addr) e.type
          (g (stepPfn ((fun base => base + pageSize)^[i] e.addr))))) g =
        stepsDone used currAvail e k g := by
    intro k hk
    induction k with
    | zero =>
      funext p
      exact (if_neg (by omega)).symm
    | succ k ih =>
      rw [List.range_succ, List.foldl_append, ih (by omega), List.foldl_cons, List.foldl_nil,
        iterate_add, MmapEntry.stepPfn_step (by omega), stepsDone_succ]
  rw [hfold _ le_rfl]

/-- The effect of one entry of the memory map on the database. -/
def entryDone (used : Word → Bool) (currAvail : Word) (g : Pgdb) (e : MmapEntry) : Pgdb :=
  stepsDone used currAvail e (pageRounds e.addr (e.addr + e.len)) g

theorem entryDone_of_stepsOn (h : e.StepsOn p) (g : Pgdb) :
    entryDone used currAvail g e p = initPage used currAvail (e.stepAt p) e.type (g p) := if_pos h

theorem entryDone_of_not_stepsOn (h : ¬ e.StepsOn p) (g : Pgdb) :
    entryDone used currAvail g e p = g p := if_neg h

theorem bootMmPageDatabaseInit_eq {info : BootInfo} (hsafe : ∀ e ∈ info.mmapEntries, e.StepSafe)
    (g : Pgdb) : bootMmPageDatabaseInit info currAvail g =
      some (0, info.mmapEntries.foldl (entryDone (addrIsInUsedRange info) currAvail) g) :=
  forEach_eq_foldl (fun e he g => databaseEntry_eq (hsafe e he) g) g

/-! ### The last entry that steps on a frame -/

theorem foldl_entryDone_of_none {entries : List MmapEntry} (h : ∀ e ∈ entries, ¬ e.StepsOn p)
    (g : Pgdb) : entries.foldl (entryDone used currAvail) g p = g p := by
  induction entries generalizing g with
  | nil => rfl
  | cons e entries ih =>
    rw [List.foldl_cons, ih fun f hf => h f (List.mem_cons_of_mem e hf),
      entryDone_of_not_stepsOn (h e List.mem_cons_self)]

theorem foldl_entryDone_of_last (used : Word → Bool) (currAvail : Word) (before : List MmapEntry)
    {after : List MmapEntry} (hon : e.StepsOn p) (hafter : ∀ f ∈ after, ¬ f.StepsOn p) (g : Pgdb) :
    ∃ q, (before ++ e :: after).foldl (entryDone used currAvail) g p =
      initPage used currAvail (e.stepAt p) e.type q := by
  rw [List.foldl_append, List.foldl_cons, foldl_entryDone_of_none hafter,
    entryDone_of_stepsOn hon]
  exact ⟨_, rfl⟩

theorem exists_last_step (entries : List MmapEntry) (p : ℕ) :
    (∀ e ∈ entries, ¬ e.StepsOn p) ∨ ∃ before e after, entries = before ++ e :: after ∧
      e.StepsOn p ∧ ∀ f ∈ after, ¬ f.StepsOn p := by
  induction entries with
  | nil => exact Or.inl fun e he => absurd he (List.not_mem_nil)
  | cons e entries ih =>
    rcases ih with hnone | ⟨before, f, after, rfl, hf, hafter⟩
    · by_cases he : e.StepsOn p
      · exact Or.inr ⟨[], e, entries, rfl, he, hnone⟩
      · refine Or.inl fun f hf => ?_
        rcases List.mem_cons.mp hf with rfl | hf
        · exact he
        · exact hnone f hf
    · exact Or.inr ⟨e :: before, f, after, rfl, hf, hafter⟩

end Steps

end ClosureOS
