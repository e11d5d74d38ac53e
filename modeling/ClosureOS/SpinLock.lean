import Mathlib.Data.Set.Insert
import Mathlib.Logic.Function.Basic
import Mathlib.Logic.Relation
import Mathlib.Tactic.Common

/-!
The spin lock of lib/atomic/lock.cpp, shared by any number of CPUs. Every CPU runs a
program of Lock, TryLock and UnLock calls, and each compare-and-swap and each exchange is
one step. Who holds the lock is recorded beside the counter, which is all that the code
stores; the counter and the record agree in every reachable state, so the lock behaves as
a mutex with at most one holder.
-/
namespace ClosureOS

/-! ### lib/atomic -/

/-- atomic_compare_and_swap: whether the value was the old one, and the value left. -/
def atomicCompareAndSwap (val oldval newval : ℤ) : Bool × ℤ :=
  if val = oldval then (true, newval) else (false, val)

/-- atomic_set: the previous value, and the value left. -/
def atomicSet (val newval : ℤ) : ℤ × ℤ := (val, newval)

def spinlockLocked : ℤ := 1

def spinlockFree : ℤ := 0

/-- The only member of a SpinLock. -/
structure SpinLock where
  counter : ℤ
deriving DecidableEq

namespace SpinLock

variable (l : SpinLock)

/-- One evaluation of the condition of the loop in Lock, and the whole of TryLock. -/
def tryLock : Bool × SpinLock :=
  let r := atomicCompareAndSwap l.counter spinlockFree spinlockLocked
  (r.1, ⟨r.2⟩)

def unLock : SpinLock := ⟨(atomicSet l.counter spinlockFree).2⟩

def reset : SpinLock := ⟨(atomicSet l.counter spinlockFree).2⟩

end SpinLock

/-! ### CPUs that share a lock -/

/-- What a CPU does next, depending on where it stands in its program: one of the calls and
where it stands after the call returns, or nothing any more. -/
inductive LockCall (σ : Type)
  | lock (next : σ)
  | tryLock (next : Bool → σ)
  | unLock (next : σ)
  | done

variable {Cpu σ : Type}

/-- The lock, where each CPU stands, and the record of the CPUs that hold the lock. -/
structure LockState (Cpu σ : Type) where
  lock : SpinLock
  loc : Cpu → σ
  holders : Set Cpu

namespace LockState

/-- After Reset, whatever the counter was before. -/
def start (l : SpinLock) (loc : Cpu → σ) : LockState Cpu σ := ⟨l.reset, loc, ∅⟩

variable [DecidableEq Cpu] (prog : Cpu → σ → LockCall σ) (s : LockState Cpu σ) (c : Cpu)

/-- A compare-and-swap by a CPU; where the CPU stands afterwards depends on its result. -/
def attempt (next : Bool → σ) : LockState Cpu σ where
  lock := s.lock.tryLock.2
  loc := Function.update s.loc c (next s.lock.tryLock.1)
  holders := if s.lock.tryLock.1 then insert c s.holders else s.holders

/-- The exchange of UnLock. -/
def release (next : σ) : LockState Cpu σ where
  lock := s.lock.unLock
  loc := Function.update s.loc c next
  holders := s.holders \ {c}

/-- One atomic step of a CPU. Lock tries again from where it stands while the
compare-and-swap fails. -/
def step : LockState Cpu σ :=
  match prog c (s.loc c) with
  | .lock next => s.attempt c fun ok => if ok then next else s.loc c
  | .tryLock next => s.attempt c next
  | .unLock next => s.release c next
  | .done => s

/-- UnLock is called by a holder only. -/
def UnLocksHeld : Prop :=
  ∀ next, prog c (s.loc c) = .unLock next → c ∈ s.holders

/-- A step of some CPU, in which UnLock is called by a holder only. -/
def Next (t : LockState Cpu σ) : Prop := ∃ c, s.UnLocksHeld prog c ∧ t = s.step prog c

/-- States that runs from a state reach, in any interleaving. -/
def Reaches : LockState Cpu σ → LockState Cpu σ → Prop := Relation.ReflTransGen (Next prog)

end LockState

/-! ### The mutex that the lock implements -/

/-- A mutex as its users see it: the one CPU that holds it, if any. -/
abbrev Mutex (Cpu : Type) := Option Cpu

namespace Mutex

/-- Taking the mutex fails while anybody holds it. -/
def tryAcquire (c : Cpu) : Mutex Cpu → Bool × Mutex Cpu
  | none => (true, some c)
  | some d => (false, some d)

/-- What a call does to the mutex at its step. -/
def call (c : Cpu) : LockCall σ → Mutex Cpu → Mutex Cpu
  | .lock _, m => (tryAcquire c m).2
  | .tryLock _, m => (tryAcquire c m).2
  | .unLock _, _ => none
  | .done, m => m

end Mutex

namespace LockState

/-- The counter and the record of holders both say who holds the mutex. -/
structure Implements (s : LockState Cpu σ) (m : Mutex Cpu) : Prop where
  counter : s.lock.counter = if m.isSome then spinlockLocked else spinlockFree
  holders : ∀ c, c ∈ s.holders ↔ m = some c

section Step

variable {s : LockState Cpu σ} {m : Mutex Cpu}

theorem implements_start (l : SpinLock) (loc : Cpu → σ) : (start l loc).Implements none :=
  ⟨rfl, fun c => by simp [start]⟩

theorem Implements.free (h : s.Implements none) : s.lock.tryLock = (true, ⟨spinlockLocked⟩) := by
  have hcounter : s.lock.counter = spinlockFree := h.counter
  simp only [SpinLock.tryLock, atomicCompareAndSwap, if_pos hcounter]

theorem Implements.locked {d : Cpu} (h : s.Implements (some d)) :
    s.lock.tryLock = (false, s.lock) := by
  have hcounter : s.lock.counter = spinlockLocked := h.counter
  have hne : s.lock.counter ≠ spinlockFree := by
    rw [hcounter]
    decide
  simp only [SpinLock.tryLock, atomicCompareAndSwap, if_neg hne]

/-- The compare-and-swap answers what the mutex answers. -/
theorem Implements.tryLock (h : s.Implements m) (c : Cpu) :
    s.lock.tryLock.1 = (m.tryAcquire c).1 := by
  cases m with
  | none => rw [h.free, Mutex.tryAcquire]
  | some d => rw [h.locked, Mutex.tryAcquire]

theorem Implements.nonempty_iff (h : s.Implements m) : s.holders.Nonempty ↔ m.isSome := by
  constructor
  · rintro ⟨c, hc⟩
    rw [(h.holders c).mp hc]
    rfl
  · intro hm
    obtain ⟨c, rfl⟩ := Option.isSome_iff_exists.mp hm
    exact ⟨c, (h.holders c).mpr rfl⟩

theorem Implements.tryLock_eq_false_iff (h : s.Implements m) :
    s.lock.tryLock.1 = false ↔ s.holders.Nonempty := by
  rw [h.nonempty_iff]
  cases m with
  | none => simp [h.free]
  | some d => simp [h.locked]

variable [DecidableEq Cpu] {c : Cpu}

theorem Implements.attempt (h : s.Implements m) (next : Bool → σ) :
    (s.attempt c next).Implements (m.tryAcquire c).2 := by
  cases m with
  | none =>
    refine ⟨by simp [LockState.attempt, h.free, Mutex.tryAcquire], fun d => ?_⟩
    have hd : d ∉ s.holders := fun hd => by simpa using (h.holders d).mp hd
    simp only [LockState.attempt, h.free, Mutex.tryAcquire, if_true, Set.mem_insert_iff, hd,
      or_false, Option.some.injEq]
    exact eq_comm
  | some e =>
    refine ⟨?_, fun d => ?_⟩
    · simpa [LockState.attempt, h.locked, Mutex.tryAcquire] using h.counter
    · simpa [LockState.attempt, h.locked, Mutex.tryAcquire] using h.holders d

/-- The exchange frees the lock for everybody, so it has to be done by the holder. -/
theorem Implements.release (h : s.Implements m) (hc : c ∈ s.holders) (next : σ) :
    (s.release c next).Implements none := by
  obtain rfl := (h.holders c).mp hc
  refine ⟨rfl, fun d => ?_⟩
  have hd : d ∈ s.holders → d = c := fun hd => (Option.some.inj ((h.holders d).mp hd)).symm
  simp only [LockState.release, Set.mem_sdiff, Set.mem_singleton_iff, reduceCtorEq, iff_false]
  exact fun ⟨hmem, hne⟩ => hne (hd hmem)

variable {prog : Cpu → σ → LockCall σ}

/-- A step of the lock is a step of the mutex. -/
theorem Implements.step (h : s.Implements m) (hheld : s.UnLocksHeld prog c) :
    (s.step prog c).Implements (Mutex.call c (prog c (s.loc c)) m) := by
  unfold LockState.step
  cases hcall : prog c (s.loc c) with
  | lock next => exact h.attempt _
  | tryLock next => exact h.attempt _
  | unLock next => exact h.release (hheld next hcall) next
  | done => exact h

theorem Reaches.implements {t : LockState Cpu σ} (hrun : Reaches prog s t)
    (h : s.Implements m) : ∃ m', t.Implements m' := by
  induction hrun with
  | refl => exact ⟨m, h⟩
  | tail _ hnext ih =>
    obtain ⟨c, hheld, rfl⟩ := hnext
    obtain ⟨m', hm'⟩ := ih
    exact ⟨_, hm'.step hheld⟩

end Step

section Runs

variable [DecidableEq Cpu] {prog : Cpu → σ → LockCall σ} {s : LockState Cpu σ}

/-- At most one CPU holds the lock, the counter says whether one does, and TryLock fails
exactly when one does. -/
structure MutuallyExclusive (prog : Cpu → σ → LockCall σ) (s : LockState Cpu σ) : Prop where
  atMostOne : ∀ c ∈ s.holders, ∀ d ∈ s.holders, c = d
  locked : s.lock.counter = 1 ↔ s.holders.Nonempty
  free : s.lock.counter = 0 ↔ s.holders = ∅
  tryLock : ∀ c next, prog c (s.loc c) = .tryLock next →
    (s.step prog c).loc c = next s.lock.tryLock.1 ∧
      (s.lock.tryLock.1 = false ↔ ∃ d, d ∈ s.holders)

theorem Implements.mutuallyExclusive {m : Mutex Cpu} (h : s.Implements m) :
    MutuallyExclusive prog s where
  atMostOne c hc d hd := by
    have hsame := ((h.holders c).mp hc).symm.trans ((h.holders d).mp hd)
    exact Option.some.inj hsame
  locked := by
    rw [h.nonempty_iff, h.counter]
    cases m <;> simp [spinlockLocked, spinlockFree]
  free := by
    rw [← Set.not_nonempty_iff_eq_empty, h.nonempty_iff, h.counter]
    cases m <;> simp [spinlockLocked, spinlockFree]
  tryLock c next hcall := by
    refine ⟨?_, h.tryLock_eq_false_iff⟩
    simp [LockState.step, hcall, LockState.attempt]

/-- Every state that the CPUs reach after Reset, in any interleaving. -/
theorem mutuallyExclusive_of_reaches {l : SpinLock} {loc : Cpu → σ}
    (hrun : Reaches prog (start l loc) s) : MutuallyExclusive prog s := by
  obtain ⟨m, hm⟩ := hrun.implements (implements_start l loc)
  exact hm.mutuallyExclusive

end Runs

/-- CPUs that try the lock once and give it back if they got it. -/
def tryOnce : ℕ → ℕ → LockCall ℕ
  | _, 0 => .tryLock fun ok => if ok then 1 else 2
  | _, 1 => .unLock 2
  | _, _ => .done

theorem mutuallyExclusive_of_reaches_tryOnce :
    MutuallyExclusive tryOnce
      (((start ⟨7⟩ fun _ => 0).step tryOnce 5 |>.step tryOnce 3).step tryOnce 5) := by
  refine mutuallyExclusive_of_reaches (.tail (.tail (.single ⟨5, ?_, rfl⟩) ⟨3, ?_, rfl⟩)
    ⟨5, ?_, rfl⟩)
  · exact fun _ h => nomatch h
  · exact fun _ h => nomatch h
  · exact fun _ _ => Or.inl rfl

end LockState
end ClosureOS
