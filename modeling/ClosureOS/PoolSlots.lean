import ClosureOS.KMemCache

/-!
The sixteen pool slots of a KMemCache. AddPool and RemovePool keep the slots as they should:
a pool goes into the lowest free slot and comes out of the slot that is named. Neither of
them counts, so pool_nr stays 0 from Init on and is right only while no pool is attached.
-/
namespace ClosureOS

namespace KMemCache

/-- RemovePool: the pool that was in the slot. -/
def removePool (kc : KMemCache) (index : ℕ) : Option ℕ × KMemCache :=
  if index ≥ cachePoolMaxNr then (none, kc)
  else
    match kc.pools index with
    | some pid => (some pid, { kc with pools := Function.update kc.pools index none })
    | none => (none, kc)

/-- The number of slots that hold a pool. -/
def occupied (kc : KMemCache) : ℕ :=
  ((List.range cachePoolMaxNr).filter fun i => (kc.pools i).isSome).length

/-- The slot that AddPool has to take. -/
structure LowestFree (kc : KMemCache) (i : ℕ) : Prop where
  lt : i < cachePoolMaxNr
  free : kc.pools i = none
  lowest : ∀ j < i, (kc.pools j).isSome

/-- What AddPool and RemovePool promise about the slots. -/
structure SlotCalls (kc : KMemCache) : Prop where
  full : ∀ pid, (kc.addPool pid).1 = false ↔ kc.occupied = cachePoolMaxNr
  rejects : ∀ pid, kc.occupied = cachePoolMaxNr → (kc.addPool pid).2.pools = kc.pools
  attaches : ∀ pid, kc.occupied ≠ cachePoolMaxNr →
    ∃ i, LowestFree kc i ∧ (kc.addPool pid).2.pools = Function.update kc.pools i (some pid)
  removes : ∀ i < cachePoolMaxNr, (kc.removePool i).1 = kc.pools i ∧
    (kc.removePool i).2.pools = Function.update kc.pools i none
  outOfRange : ∀ i, cachePoolMaxNr ≤ i → kc.removePool i = (none, kc)

/-- The counter and the slots agree, and the calls do what they promise. -/
structure PoolBookkeeping (kc : KMemCache) : Prop where
  counted : kc.poolNr = kc.occupied
  calls : SlotCalls kc

section Slots

variable {kc : KMemCache}

theorem occupied_eq_max_iff :
    kc.occupied = cachePoolMaxNr ↔ ∀ i < cachePoolMaxNr, (kc.pools i).isSome := by
  have hiff := @List.length_filter_eq_length_iff ℕ (fun i => (kc.pools i).isSome)
    (List.range cachePoolMaxNr)
  rw [List.length_range] at hiff
  rw [occupied, hiff]
  simp only [List.mem_range]

theorem occupied_eq_zero_iff :
    kc.occupied = 0 ↔ ∀ i < cachePoolMaxNr, kc.pools i = none := by
  simp [occupied, List.filter_eq_nil_iff]

/-- Everything AddPool can do while pool_nr is 0. -/
theorem addPool_cases (hnr : kc.poolNr = 0) (pid : ℕ) :
    (∃ i, LowestFree kc i ∧
      kc.addPool pid = (true, { kc with pools := Function.update kc.pools i (some pid) })) ∨
    (kc.occupied = cachePoolMaxNr ∧ kc.addPool pid = (false, kc)) := by
  have hne : kc.poolNr ≠ cachePoolMaxNr := by
    rw [hnr]
    decide
  rw [addPool, if_neg hne]
  cases hfind : (List.range cachePoolMaxNr).find? fun i => (kc.pools i).isNone with
  | some i =>
    obtain ⟨hfree, hmem, hlow⟩ := List.find?_range_eq_some.mp hfind
    refine Or.inl ⟨i, ⟨List.mem_range.mp hmem, Option.isNone_iff_eq_none.mp hfree, ?_⟩, rfl⟩
    intro j hj
    simpa using hlow j hj
  | none =>
    refine Or.inr ⟨occupied_eq_max_iff.mpr fun i hi => ?_, rfl⟩
    simpa using List.find?_range_eq_none.mp hfind i hi

theorem removePool_cases (kc : KMemCache) {i : ℕ} (hi : i < cachePoolMaxNr) :
    kc.removePool i = (kc.pools i, { kc with pools := Function.update kc.pools i none }) := by
  rw [removePool, if_neg (by omega)]
  cases hslot : kc.pools i with
  | some pid => rfl
  | none =>
    have hsame : Function.update kc.pools i none = kc.pools := by
      rw [← hslot, Function.update_eq_self]
    simp only [hsame]

/-- A free slot is what AddPool looks for, so it fails only when there is none. -/
theorem LowestFree.occupied_ne {i : ℕ} (h : LowestFree kc i) : kc.occupied ≠ cachePoolMaxNr := by
  intro hfull
  have hsome := occupied_eq_max_iff.mp hfull i h.lt
  rw [h.free] at hsome
  exact absurd hsome (by simp)

theorem slotCalls_of_poolNr (hnr : kc.poolNr = 0) : SlotCalls kc where
  full pid := by
    rcases addPool_cases hnr pid with ⟨i, hi, hadd⟩ | ⟨hfull, hadd⟩
    · simp [hadd, hi.occupied_ne]
    · simp [hadd, hfull]
  rejects pid hfull := by
    rcases addPool_cases hnr pid with ⟨i, hi, _⟩ | ⟨_, hadd⟩
    · exact absurd hfull hi.occupied_ne
    · rw [hadd]
  attaches pid hne := by
    rcases addPool_cases hnr pid with ⟨i, hi, hadd⟩ | ⟨hfull, _⟩
    · exact ⟨i, hi, by rw [hadd]⟩
    · exact absurd hfull hne
  removes i hi := by
    rw [removePool_cases kc hi]
    exact ⟨rfl, rfl⟩
  outOfRange i hi := if_pos hi

end Slots

/-! ### Runs from Init -/

/-- A call of AddPool with a pool or of RemovePool with an index. -/
inductive PoolCall
  | add (pid : ℕ)
  | remove (index : ℕ)
deriving DecidableEq

def PoolCall.run (kc : KMemCache) : PoolCall → KMemCache
  | .add pid => (kc.addPool pid).2
  | .remove index => (kc.removePool index).2

def runPoolCalls (objSz : Word) (calls : List PoolCall) : KMemCache :=
  calls.foldl PoolCall.run (init objSz)

section Runs

variable {kc : KMemCache} {objSz : Word} {calls : List PoolCall}

/-- No call writes the counter. -/
theorem run_poolNr (hnr : kc.poolNr = 0) (call : PoolCall) : (call.run kc).poolNr = 0 := by
  cases call with
  | add pid =>
    rcases addPool_cases hnr pid with ⟨i, _, hadd⟩ | ⟨_, hadd⟩
    · rw [PoolCall.run, hadd]
      exact hnr
    · rw [PoolCall.run, hadd]
      exact hnr
  | remove index =>
    by_cases hi : index < cachePoolMaxNr
    · rw [PoolCall.run, removePool_cases kc hi]
      exact hnr
    · rw [PoolCall.run, removePool, if_pos (by omega)]
      exact hnr

theorem runPoolCalls_append (objSz : Word) (calls calls' : List PoolCall) :
    runPoolCalls objSz (calls ++ calls') = calls'.foldl PoolCall.run (runPoolCalls objSz calls) :=
  List.foldl_append

theorem runPoolCalls_poolNr (objSz : Word) (calls : List PoolCall) :
    (runPoolCalls objSz calls).poolNr = 0 := by
  induction calls using List.reverseRecOn with
  | nil => rfl
  | append_singleton calls call ih =>
    rw [runPoolCalls_append]
    exact run_poolNr ih call

/-- In every reachable state the slots are kept as promised. -/
theorem slotCalls_runPoolCalls (objSz : Word) (calls : List PoolCall) :
    SlotCalls (runPoolCalls objSz calls) :=
  slotCalls_of_poolNr (runPoolCalls_poolNr objSz calls)

/-- The counter is right in the states without an attached pool. -/
theorem poolBookkeeping_iff_occupied :
    PoolBookkeeping (runPoolCalls objSz calls) ↔ (runPoolCalls objSz calls).occupied = 0 := by
  have hnr := runPoolCalls_poolNr objSz calls
  constructor
  · exact fun h => h.counted.symm.trans hnr
  · exact fun h => ⟨hnr.trans h.symm, slotCalls_runPoolCalls objSz calls⟩

theorem occupied_of_remove (hcalls : ∀ call ∈ calls, ∃ index, call = .remove index) :
    (runPoolCalls objSz calls).occupied = 0 := by
  rw [occupied_eq_zero_iff]
  intro i hi
  induction calls using List.reverseRecOn with
  | nil => rfl
  | append_singleton calls call ih =>
    obtain ⟨index, rfl⟩ := hcalls call (by simp)
    have hbefore := ih fun call' hcall' => hcalls call' (by simp [hcall'])
    rw [runPoolCalls_append, List.foldl_cons, List.foldl_nil, PoolCall.run]
    by_cases hindex : index < cachePoolMaxNr
    · simp only [removePool_cases _ hindex, Function.update_apply]
      split
      · rfl
      · exact hbefore
    · rw [removePool, if_pos (by omega)]
      exact hbefore

/-- The first AddPool after Init, whatever was removed before, attaches a pool that is not
counted. -/
theorem occupied_add_ne_zero (hcalls : (runPoolCalls objSz calls).occupied = 0) (pid : ℕ) :
    (runPoolCalls objSz (calls ++ [.add pid])).occupied ≠ 0 := by
  intro hzero
  have hfree := occupied_eq_zero_iff.mp hzero
  rw [runPoolCalls_append, List.foldl_cons, List.foldl_nil, PoolCall.run] at hfree
  rcases addPool_cases (runPoolCalls_poolNr objSz calls) pid with ⟨i, hi, hadd⟩ | ⟨hfull, _⟩
  · have hslot := hfree i hi.lt
    simp [hadd] at hslot
  · rw [hcalls] at hfull
    exact absurd hfull (by decide)

/-- The bookkeeping is right after a run exactly when no pool is attached then, and in all
states along the run exactly when the run never calls AddPool. -/
theorem poolBookkeeping_iff (objSz : Word) (calls : List PoolCall) :
    (PoolBookkeeping (runPoolCalls objSz calls) ↔ (runPoolCalls objSz calls).occupied = 0) ∧
    ((∀ pre, pre <+: calls → PoolBookkeeping (runPoolCalls objSz pre)) ↔
      ∀ call ∈ calls, ∃ index, call = .remove index) := by
  refine ⟨poolBookkeeping_iff_occupied, ?_, ?_⟩
  · intro hrun
    induction calls using List.reverseRecOn with
    | nil => exact fun call hcall => absurd hcall (by simp)
    | append_singleton calls call ih =>
      have hbefore := ih fun pre hpre => hrun pre (hpre.trans (List.prefix_append _ _))
      intro call' hcall'
      rcases List.mem_append.mp hcall' with hmem | hlast
      · exact hbefore call' hmem
      · rw [List.mem_singleton.mp hlast]
        cases call with
        | remove index => exact ⟨index, rfl⟩
        | add pid =>
          have hend := poolBookkeeping_iff_occupied.mp (hrun _ (List.prefix_refl _))
          exact absurd hend (occupied_add_ne_zero (occupied_of_remove hbefore) pid)
  · intro hcalls pre hpre
    refine poolBookkeeping_iff_occupied.mpr (occupied_of_remove fun call hcall => ?_)
    exact hcalls call (hpre.subset hcall)

/-- One pool is attached and the counter still says none. -/
theorem not_poolBookkeeping_add :
    ¬ ∀ calls, PoolBookkeeping (runPoolCalls 64#64 calls) := by
  intro h
  have hcounted := (h [.add 0]).counted
  exact absurd hcounted (by decide)

end Runs
end KMemCache
end ClosureOS
