import ClosureOS.ByteMemory
import ClosureOS.PageTypes

/-!
The constructor phase of kernel/main.cpp. The loop of global_constructor_caller reads a
slot of the array before it compares the slot's address with the end, so it reads the word
after the array whenever it gets there. It stops at every non-zero result, while main
takes only negative ones for a failure: after a positive result the constructors that are
left are skipped without a word.
-/
namespace ClosureOS

open ByteMemory

/-- The array of constructors that the linker script puts between __init_array and
__init_array_end. Constructors leave it alone; nothing is known of the memory after it. -/
structure InitArray where
  mem : Memory
  initArray : Word
  initArrayEnd : Word
  nr : ℕ
  room : initArray.toNat + 8 * nr = initArrayEnd.toNat
  nonNull : ∀ i < nr, load64 mem (initArray + 8#64 * BitVec.ofNat 64 i) ≠ 0#64

/-- The addresses of the slots that were read, and the slots whose constructors were
called. -/
structure CallerLog where
  reads : List Word
  calls : List ℕ
deriving DecidableEq

def CallerLog.read (log : CallerLog) (p : Word) : CallerLog :=
  { log with reads := log.reads ++ [p] }

def CallerLog.call (log : CallerLog) (i : ℕ) : CallerLog :=
  { log with calls := log.calls ++ [i] }

def constructorsFailed : String := "[x] FAILED at invoking global constructors, hlting..."

def noWork : String := "[x] No work todo, hlting..."

namespace InitArray

variable (a : InitArray) (results : ℕ → ℤ)

/-- init_array + i, which depends on i modulo 2^64 only. -/
def slot (i : ℕ) : Word := a.initArray + 8#64 * BitVec.ofNat 64 i

/-- The loop from i on, for a number of rounds; the constructor of slot i returns
results i. -/
def callerLoop : ℕ → ℕ → CallerLog → Option (ℤ × CallerLog)
  | 0, _, _ => none
  | rounds + 1, i, log =>
    let log := log.read (a.slot i)
    if load64 a.mem (a.slot i) ≠ 0#64 ∧ a.slot i < a.initArrayEnd then
      -- the call reads the slot again
      let log := (log.read (a.slot i)).call i
      let error := results i
      if error ≠ 0 then some (error, log) else callerLoop rounds (i + 1) log
    else some (0, log)

def globalConstructorCaller (rounds : ℕ) : Option (ℤ × CallerLog) :=
  a.callerLoop results rounds 0 ⟨[], []⟩

/-- main after mm_core_init, with the messages that it prints while it idles. -/
def main (rounds idle : ℕ) : Option (CallerLog × List String) :=
  match a.globalConstructorCaller results rounds with
  | none => none
  | some (ret, log) =>
    let puts := if ret < 0 then [constructorsFailed] else []
    some (log, puts ++ List.replicate idle noWork)

/-- Calls in the order of the slots, up to the first result that is not zero. -/
def UpToFirstError (nr : ℕ) (calls : List ℕ) : Prop :=
  ∃ k ≤ nr, calls = List.range k ∧ (∀ i, i + 1 < k → results i = 0) ∧
    (k < nr → ∃ i, i + 1 = k ∧ results i ≠ 0)

/-- The constructors all run, or the failure is reported. -/
structure ConstructorsRun : Prop where
  returns : ∃ rounds, (a.globalConstructorCaller results rounds).isSome
  reads : ∀ rounds ret log, a.globalConstructorCaller results rounds = some (ret, log) →
    ∀ p ∈ log.reads, p < a.initArrayEnd
  calls : ∀ rounds ret log, a.globalConstructorCaller results rounds = some (ret, log) →
    UpToFirstError results a.nr log.calls
  all_or_reported : ∀ rounds idle log puts, a.main results rounds idle = some (log, puts) →
    constructorsFailed ∉ puts → log.calls = List.range a.nr

variable {a results} {i k rounds idle : ℕ} {log : CallerLog}

theorem toNat_slot (hi : i ≤ a.nr) : (a.slot i).toNat = a.initArray.toNat + 8 * i := by
  have hroom := a.room
  have hend := a.initArrayEnd.isLt
  rw [slot, BitVec.toNat_add, BitVec.toNat_mul, BitVec.toNat_ofNat, BitVec.toNat_ofNat]
  omega

theorem slot_nr (a : InitArray) : a.slot a.nr = a.initArrayEnd :=
  BitVec.eq_of_toNat_eq ((toNat_slot (Nat.le_refl a.nr)).trans a.room)

theorem slot_lt (hi : i < a.nr) : a.slot i < a.initArrayEnd := by
  have hroom := a.room
  rw [BitVec.lt_def, toNat_slot (Nat.le_of_lt hi)]
  omega

/-- One round inside the array. -/
theorem callerLoop_of_lt (hi : i < a.nr) :
    a.callerLoop results (rounds + 1) i log =
      if results i ≠ 0 then some (results i, ((log.read (a.slot i)).read (a.slot i)).call i)
      else
        a.callerLoop results rounds (i + 1) (((log.read (a.slot i)).read (a.slot i)).call i) := by
  rw [callerLoop, if_pos ⟨a.nonNull i hi, slot_lt hi⟩]

/-- The round at the end of the array ends the loop, whatever it reads there. -/
theorem callerLoop_nr :
    a.callerLoop results (rounds + 1) a.nr log = some (0, log.read a.initArrayEnd) := by
  rw [callerLoop, slot_nr, if_neg fun h => BitVec.lt_irrefl _ h.2]

/-- The log after the first k constructors. -/
def logUpTo (a : InitArray) (k : ℕ) : CallerLog :=
  ⟨(List.range k).flatMap fun i => [a.slot i, a.slot i], List.range k⟩

theorem logUpTo_succ (a : InitArray) (k : ℕ) :
    ((((a.logUpTo k).read (a.slot k)).read (a.slot k)).call k) = a.logUpTo (k + 1) := by
  simp [logUpTo, CallerLog.read, CallerLog.call, List.range_succ]

theorem mem_logUpTo_reads {p : Word} : p ∈ (a.logUpTo k).reads ↔ ∃ i < k, p = a.slot i := by
  simp [logUpTo]

/-- As long as the results are zero, the loop goes on to the next slot. -/
theorem callerLoop_run (hk : k ≤ a.nr) (hzero : ∀ i < k, results i = 0) :
    a.globalConstructorCaller results (k + rounds) =
      a.callerLoop results rounds k (a.logUpTo k) := by
  induction k generalizing rounds with
  | zero =>
    rw [Nat.zero_add]
    rfl
  | succ k ih =>
    have hbefore := @ih (rounds + 1) (Nat.le_of_lt hk) fun i hi => hzero i (Nat.lt_succ_of_lt hi)
    rw [Nat.add_right_comm, Nat.add_assoc, hbefore, callerLoop_of_lt hk,
      if_neg (not_not.mpr (hzero k (Nat.lt_succ_self k))), logUpTo_succ]

theorem globalConstructorCaller_of_le (hk : k ≤ a.nr) (hzero : ∀ i < k, results i = 0)
    (hrounds : rounds ≤ k) : a.globalConstructorCaller results rounds = none := by
  have hzero' : ∀ i < rounds, results i = 0 := fun i hi => hzero i (Nat.lt_of_lt_of_le hi hrounds)
  have hrun : a.globalConstructorCaller results (rounds + 0) = _ :=
    callerLoop_run (Nat.le_trans hrounds hk) hzero'
  exact hrun

/-- Without an error the loop comes to the end of the array and reads the word there. -/
theorem globalConstructorCaller_of_zero (hzero : ∀ i < a.nr, results i = 0) (rounds : ℕ) :
    a.globalConstructorCaller results rounds =
      if rounds ≤ a.nr then none else some (0, (a.logUpTo a.nr).read a.initArrayEnd) := by
  split
  · next hrounds => exact globalConstructorCaller_of_le (Nat.le_refl _) hzero hrounds
  · next hrounds =>
    obtain ⟨n, rfl⟩ := Nat.exists_eq_add_of_lt (Nat.lt_of_not_le hrounds)
    rw [Nat.add_assoc, callerLoop_run (Nat.le_refl _) hzero, callerLoop_nr]

/-- The first error ends the loop. -/
theorem globalConstructorCaller_of_error (hk : k < a.nr) (hzero : ∀ i < k, results i = 0)
    (herror : results k ≠ 0) (rounds : ℕ) :
    a.globalConstructorCaller results rounds =
      if rounds ≤ k then none else some (results k, a.logUpTo (k + 1)) := by
  split
  · next hrounds => exact globalConstructorCaller_of_le (Nat.le_of_lt hk) hzero hrounds
  · next hrounds =>
    obtain ⟨n, rfl⟩ := Nat.exists_eq_add_of_lt (Nat.lt_of_not_le hrounds)
    rw [Nat.add_assoc, callerLoop_run (Nat.le_of_lt hk) hzero, callerLoop_of_lt hk,
      if_pos herror, logUpTo_succ]

theorem main_eq_some {puts : List String} :
    a.main results rounds idle = some (log, puts) ↔
      ∃ ret, a.globalConstructorCaller results rounds = some (ret, log) ∧
        puts = (if ret < 0 then [constructorsFailed] else []) ++ List.replicate idle noWork := by
  rw [main]
  cases a.globalConstructorCaller results rounds with
  | none => simp
  | some out =>
    obtain ⟨ret, log'⟩ := out
    simp only [Option.some.injEq, Prod.mk.injEq]
    constructor
    · rintro ⟨rfl, rfl⟩
      exact ⟨ret, ⟨rfl, rfl⟩, rfl⟩
    · rintro ⟨r, ⟨rfl, rfl⟩, rfl⟩
      exact ⟨rfl, rfl⟩

/-- Only a negative result is reported. -/
theorem constructorsFailed_mem_iff {ret : ℤ} :
    constructorsFailed ∈
      (if ret < 0 then [constructorsFailed] else []) ++ List.replicate idle noWork ↔ ret < 0 := by
  have hidle : constructorsFailed ∉ List.replicate idle noWork := fun hmem =>
    absurd (List.eq_of_mem_replicate hmem) (by decide)
  rw [List.mem_append, or_iff_left hidle]
  split
  · next hret => exact iff_of_true List.mem_cons_self hret
  · next hret => exact iff_of_false List.not_mem_nil hret

theorem zero_or_first (results : ℕ → ℤ) (nr : ℕ) :
    (∀ i < nr, results i = 0) ∨ ∃ k < nr, (∀ i < k, results i = 0) ∧ results k ≠ 0 := by
  induction nr with
  | zero => exact Or.inl fun i hi => absurd hi (Nat.not_lt_zero i)
  | succ n ih =>
    rcases ih with hzero | ⟨k, hk, hfirst⟩
    · by_cases hn : results n = 0
      · left
        intro i hi
        rcases Nat.lt_succ_iff_lt_or_eq.mp hi with hi | rfl
        · exact hzero i hi
        · exact hn
      · exact Or.inr ⟨n, Nat.lt_succ_self n, hzero, hn⟩
    · exact Or.inr ⟨k, Nat.lt_succ_of_lt hk, hfirst⟩

/-- The loop returns, whatever the results. -/
theorem globalConstructorCaller_returns (a : InitArray) (results : ℕ → ℤ) :
    ∃ rounds, (a.globalConstructorCaller results rounds).isSome := by
  refine ⟨a.nr + 1, ?_⟩
  rcases zero_or_first results a.nr with hzero | ⟨k, hk, hzero, herror⟩
  · rw [globalConstructorCaller_of_zero hzero, if_neg (Nat.not_succ_le_self a.nr)]
    rfl
  · rw [globalConstructorCaller_of_error hk hzero herror, if_neg (by omega)]
    rfl

/-- Its calls are in order up to the first error, whatever the results. -/
theorem upToFirstError_calls {ret : ℤ}
    (hcaller : a.globalConstructorCaller results rounds = some (ret, log)) :
    UpToFirstError results a.nr log.calls := by
  rcases zero_or_first results a.nr with hzero | ⟨k, hk, hzero, herror⟩
  · rw [globalConstructorCaller_of_zero hzero, Option.ite_none_left_eq_some] at hcaller
    obtain ⟨_, rfl⟩ := Prod.mk.inj (Option.some.inj hcaller.2)
    refine ⟨a.nr, Nat.le_refl _, rfl, fun i hi => hzero i (Nat.lt_of_succ_lt hi), fun hnr => ?_⟩
    exact absurd hnr (Nat.lt_irrefl _)
  · rw [globalConstructorCaller_of_error hk hzero herror, Option.ite_none_left_eq_some] at hcaller
    obtain ⟨_, rfl⟩ := Prod.mk.inj (Option.some.inj hcaller.2)
    refine ⟨k + 1, hk, rfl, fun i hi => hzero i (Nat.lt_of_succ_lt_succ hi), fun _ => ?_⟩
    exact ⟨k, rfl, herror⟩

/-- With all results zero the word after the array is read. -/
theorem not_constructorsRun_of_zero (hzero : ∀ i < a.nr, results i = 0) :
    ¬ a.ConstructorsRun results := by
  intro hrun
  have hcaller := globalConstructorCaller_of_zero hzero (a.nr + 1)
  rw [if_neg (Nat.not_succ_le_self a.nr)] at hcaller
  have hend := hrun.reads _ _ _ hcaller a.initArrayEnd
    (List.mem_append_right _ List.mem_cons_self)
  exact BitVec.lt_irrefl _ hend

/-- A positive result before the last slot leaves constructors that nobody calls. -/
theorem ConstructorsRun.of_error (hrun : a.ConstructorsRun results) (hk : k < a.nr)
    (hzero : ∀ i < k, results i = 0) (herror : results k ≠ 0) :
    results k < 0 ∨ k + 1 = a.nr := by
  by_cases hneg : results k < 0
  · exact Or.inl hneg
  right
  have hcaller := globalConstructorCaller_of_error hk hzero herror (k + 1)
  rw [if_neg (Nat.not_succ_le_self k)] at hcaller
  have hmain := (@main_eq_some a results (k + 1) 0 _ _).mpr ⟨results k, hcaller, rfl⟩
  have hall := hrun.all_or_reported _ _ _ _ hmain (mt constructorsFailed_mem_iff.mp hneg)
  have hlength := congrArg List.length hall
  simpa [logUpTo] using hlength

theorem constructorsRun_of_error (hk : k < a.nr) (hzero : ∀ i < k, results i = 0)
    (herror : results k ≠ 0) (hlast : results k < 0 ∨ k + 1 = a.nr) :
    a.ConstructorsRun results := by
  have hout : ∀ rounds ret log, a.globalConstructorCaller results rounds = some (ret, log) →
      ret = results k ∧ log = a.logUpTo (k + 1) := by
    intro rounds ret log hcaller
    rw [globalConstructorCaller_of_error hk hzero herror, Option.ite_none_left_eq_some] at hcaller
    obtain ⟨rfl, rfl⟩ := Prod.mk.inj (Option.some.inj hcaller.2)
    exact ⟨rfl, rfl⟩
  refine ⟨globalConstructorCaller_returns a results, ?_, ?_, ?_⟩
  · intro rounds ret log hcaller p hp
    obtain ⟨_, rfl⟩ := hout rounds ret log hcaller
    obtain ⟨i, hi, rfl⟩ := mem_logUpTo_reads.mp hp
    exact slot_lt (Nat.lt_of_lt_of_le hi hk)
  · exact fun rounds ret log hcaller => upToFirstError_calls hcaller
  · intro rounds idle log puts hmain hputs
    obtain ⟨ret, hcaller, rfl⟩ := main_eq_some.mp hmain
    obtain ⟨rfl, rfl⟩ := hout rounds ret log hcaller
    rw [constructorsFailed_mem_iff] at hputs
    rw [← hlast.resolve_left hputs]
    rfl

/-- All goes well exactly when an error ends the loop and main reports it or there is nothing
left to skip. -/
theorem constructorsRun_iff (a : InitArray) (results : ℕ → ℤ) :
    a.ConstructorsRun results ↔
      ∃ k < a.nr, (∀ i < k, results i = 0) ∧ results k ≠ 0 ∧
        (results k < 0 ∨ k + 1 = a.nr) := by
  constructor
  · intro hrun
    rcases zero_or_first results a.nr with hzero | ⟨k, hk, hzero, herror⟩
    · exact absurd hrun (not_constructorsRun_of_zero hzero)
    · exact ⟨k, hk, hzero, herror, hrun.of_error hk hzero herror⟩
  · rintro ⟨k, hk, hzero, herror, hlast⟩
    exact constructorsRun_of_error hk hzero herror hlast

theorem load64_ones_ne_zero (p : Word) : load64 (fun _ => 1#8) p ≠ 0#64 := by
  have hbytes : (List.range 8).foldr (fun _ acc => 1 + 256 * acc) 0 = 72340172838076673 := rfl
  have hload : load64 (fun _ => 1#8) p = BitVec.ofNat 64 72340172838076673 :=
    congrArg (BitVec.ofNat 64) hbytes
  rw [hload]
  decide

/-- Two constructors in a memory of ones. -/
def twoConstructors : InitArray where
  mem := fun _ => 1#8
  initArray := 0x1000#64
  initArrayEnd := 0x1010#64
  nr := 2
  room := rfl
  nonNull := fun _ _ => load64_ones_ne_zero _

/-- The first constructor returns 1. The second one is not called, and main prints nothing. -/
theorem not_constructorsRun_twoConstructors :
    ¬ twoConstructors.ConstructorsRun fun i => if i = 0 then 1 else 0 := by
  intro hrun
  have hmain : twoConstructors.main (fun i => if i = 0 then 1 else 0) 1 0 =
      some (⟨[0x1000#64, 0x1000#64], [0]⟩, []) := rfl
  have hall := hrun.all_or_reported _ _ _ _ hmain List.not_mem_nil
  exact absurd hall (by decide)

end InitArray

end ClosureOS
