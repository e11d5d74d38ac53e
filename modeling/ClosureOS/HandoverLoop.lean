import ClosureOS.BootHandover

/-!
The loop of pages_pool_init with its counter as the compiler deduces it. The literal 0 makes
the counter an int, which the comparison converts to the type of pgdb_page_nr; the increment
after the greatest int overflows. Below 2^31 pages the loop visits every page once and ends,
from there on it overflows after the page with the number 2^31 - 1.
-/
namespace ClosureOS

/-- The counter, the pages that were tested and those that were passed to AddPages, in their
order, and the state. -/
structure HandoverRun where
  i : BitVec 32
  tested : List ℕ
  passed : List ℕ
  pool : PoolState

/-- How a run of the loop ends: its condition fails, the counter overflows, or the rounds that
it was given are over. -/
inductive HandoverEnd
  | finished (r : HandoverRun)
  | overflow (r : HandoverRun)
  | outOfRounds

namespace HandoverRun

/-- i < pgdb_page_nr: the counter is extended with its sign and then read without one. -/
def guard (nr : Word) (r : HandoverRun) : Bool := r.i.signExtend 64 < nr

/-- The body for pgdb_base[i], which a counter that never was negative addresses. -/
def body (r : HandoverRun) : HandoverRun :=
  let p := r.i.toNat
  let pg := r.pool.pgdb p
  { r with
    tested := r.tested ++ [p],
    passed := if pg.type = .normalMem ∧ pg.refCount.slt 0#32 then r.passed ++ [p] else r.passed,
    pool := poolInitStep r.pool p }

def loop (nr : Word) : ℕ → HandoverRun → HandoverEnd
  | 0, _ => .outOfRounds
  | rounds + 1, r =>
    if r.guard nr then
      let r := r.body
      if r.i = BitVec.intMax 32 then .overflow r else loop nr rounds { r with i := r.i + 1#32 }
    else .finished r

end HandoverRun

/-- More rounds than an int has values. -/
def handoverRounds : ℕ := 2 ^ 32

def pagesPoolInitRun (nr : Word) (s : PoolState) : HandoverEnd :=
  HandoverRun.loop nr handoverRounds ⟨0#32, [], [], s.init globlPagePool⟩

instance (nr : ℕ) (g : Pgdb) (i : ℕ) : Decidable (Eligible nr g i) :=
  inferInstanceAs (Decidable (_ ∧ _ ∧ _))

/-- The pages that are eligible when the loop comes to them. -/
def eligibleAtVisit (s : PoolState) (nr n : ℕ) : List ℕ :=
  (List.range n).filter fun i => Eligible nr (handedOver s i).pgdb i

/-- The state of the loop after n rounds. -/
def handoverAt (s : PoolState) (nr n : ℕ) : HandoverRun where
  i := BitVec.ofNat 32 n
  tested := List.range n
  passed := eligibleAtVisit s nr n
  pool := handedOver s n

section Rounds

variable {nr : Word} {s : PoolState} {n rounds : ℕ}

theorem toNat_counter (hn : n < 2 ^ 31) : (BitVec.ofNat 32 n).toNat = n := by
  rw [BitVec.toNat_ofNat]
  omega

theorem guard_handoverAt (hn : n < 2 ^ 31) :
    (handoverAt s nr.toNat n).guard nr = decide (n < nr.toNat) := by
  have hmsb : (BitVec.ofNat 32 n).msb = false := by
    rw [BitVec.msb_eq_false_iff_two_mul_lt, toNat_counter hn]
    omega
  have hextend : ((BitVec.ofNat 32 n).signExtend 64).toNat = n := by
    rw [BitVec.signExtend_eq_setWidth_of_msb_false hmsb, BitVec.toNat_setWidth, toNat_counter hn]
    omega
  simp only [HandoverRun.guard, handoverAt, BitVec.lt_def, hextend]

/-- The body tests page n and passes it to AddPages if it is eligible. -/
theorem body_handoverAt (hn : n < 2 ^ 31) (hnr : n < nr.toNat) :
    (handoverAt s nr.toNat n).body =
      { handoverAt s nr.toNat (n + 1) with i := BitVec.ofNat 32 n } := by
  have helig : eligibleAtVisit s nr.toNat (n + 1) =
      if Eligible nr.toNat (handedOver s n).pgdb n then eligibleAtVisit s nr.toNat n ++ [n]
      else eligibleAtVisit s nr.toNat n := by
    rw [eligibleAtVisit, List.range_succ, List.filter_append]
    by_cases he : Eligible nr.toNat (handedOver s n).pgdb n
    · rw [if_pos he, List.filter_singleton, decide_eq_true he, cond_true, eligibleAtVisit]
    · rw [if_neg he, List.filter_singleton, decide_eq_false he, cond_false, List.append_nil,
        eligibleAtVisit]
  have hiff : Eligible nr.toNat (handedOver s n).pgdb n ↔
      ((handedOver s n).pgdb n).type = .normalMem ∧ ((handedOver s n).pgdb n).refCount.slt 0#32 :=
    ⟨fun h => h.2, fun h => ⟨hnr, h⟩⟩
  simp only [HandoverRun.body, handoverAt, toNat_counter hn, helig, hiff, List.range_succ,
    handedOver_succ]

/-- A round before the greatest int. -/
theorem loop_handoverAt (hn : n < 2 ^ 31 - 1) (hnr : n < nr.toNat) :
    HandoverRun.loop nr (rounds + 1) (handoverAt s nr.toNat n) =
      HandoverRun.loop nr rounds (handoverAt s nr.toNat (n + 1)) := by
  have hguard := @guard_handoverAt nr s n (by omega)
  rw [decide_eq_true hnr] at hguard
  have hne : BitVec.ofNat 32 n ≠ BitVec.intMax 32 := by
    intro he
    have hnat := congrArg BitVec.toNat he
    rw [toNat_counter (by omega), BitVec.toNat_intMax] at hnat
    omega
  have hnext : BitVec.ofNat 32 n + 1#32 = BitVec.ofNat 32 (n + 1) :=
    (BitVec.ofNat_add n 1).symm
  rw [HandoverRun.loop, if_pos hguard, body_handoverAt (by omega) hnr, if_neg hne, hnext]
  rfl

/-- The rounds before page n, when neither the pages nor the ints are over by then. -/
theorem loop_start (hn : n ≤ 2 ^ 31 - 1) (hnr : n ≤ nr.toNat) :
    HandoverRun.loop nr (rounds + n) (handoverAt s nr.toNat 0) =
      HandoverRun.loop nr rounds (handoverAt s nr.toNat n) := by
  induction n generalizing rounds with
  | zero => rfl
  | succ n ih =>
    rw [← loop_handoverAt (by omega) (by omega), ← ih (by omega) (by omega)]
    congr 1
    omega

theorem pagesPoolInitRun_of_lt (hnr : nr.toNat < 2 ^ 31) (s : PoolState) :
    pagesPoolInitRun nr s = .finished (handoverAt s nr.toNat nr.toNat) := by
  have hguard := @guard_handoverAt nr s nr.toNat hnr
  rw [decide_eq_false (lt_irrefl _)] at hguard
  have hrounds : handoverRounds = (handoverRounds - nr.toNat - 1) + 1 + nr.toNat := by
    unfold handoverRounds
    omega
  have hstart := @loop_start nr s nr.toNat (handoverRounds - nr.toNat - 1 + 1) (by omega) le_rfl
  rw [← hrounds] at hstart
  refine hstart.trans ?_
  rw [HandoverRun.loop, if_neg (by rw [hguard]; simp)]

/-- From 2^31 pages on the counter overflows behind the page 2^31 - 1. -/
theorem pagesPoolInitRun_of_le (hnr : 2 ^ 31 ≤ nr.toNat) (s : PoolState) :
    ∃ r, pagesPoolInitRun nr s = .overflow r := by
  have hguard := @guard_handoverAt nr s (2 ^ 31 - 1) (by omega)
  rw [decide_eq_true (by omega)] at hguard
  have hrounds : handoverRounds = (handoverRounds - (2 ^ 31 - 1) - 1) + 1 + (2 ^ 31 - 1) := by
    unfold handoverRounds
    omega
  have hstart := @loop_start nr s (2 ^ 31 - 1) (handoverRounds - (2 ^ 31 - 1) - 1 + 1) le_rfl
    (by omega)
  rw [← hrounds] at hstart
  have hmax : BitVec.ofNat 32 (2 ^ 31 - 1) = BitVec.intMax 32 := by
    apply BitVec.eq_of_toNat_eq
    rw [toNat_counter (by omega), BitVec.toNat_intMax]
  rw [HandoverRun.loop, if_pos hguard, body_handoverAt (by omega) (by omega), if_pos hmax]
    at hstart
  exact ⟨_, hstart⟩

end Rounds

/-! ### Every page is visited -/

/-- The loop ends without overflow, after it has tested the pages below pgdb_page_nr in
ascending order and passed those that were eligible to AddPages once each. In a database
without free pages these are the pages that were eligible from the start. -/
def VisitsEveryPage (nr : Word) (s : PoolState) : Prop :=
  ∃ r, pagesPoolInitRun nr s = .finished r ∧ r.tested = List.range nr.toNat ∧
    r.passed = eligibleAtVisit s nr.toNat nr.toNat ∧
    ((∀ q, (s.pgdb q).isFree = false) →
      r.passed = (List.range nr.toNat).filter fun i => Eligible nr.toNat s.pgdb i) ∧
    pagesPoolInit nr.toNat s = some r.pool

/-- No page changes before it is visited. -/
theorem eligibleAtVisit_eq {s : PoolState} (hg : ∀ q, (s.pgdb q).isFree = false) (nr n : ℕ) :
    eligibleAtVisit s nr n = (List.range n).filter fun i => Eligible nr s.pgdb i := by
  refine List.filter_congr fun i _ => ?_
  have hfresh : (handedOver s i).pgdb i = s.pgdb i := (handedOver_base hg i).fresh i le_rfl
  exact decide_eq_decide.mpr (by rw [Eligible, Eligible, hfresh])

theorem visitsEveryPage_iff (nr : Word) (s : PoolState) :
    VisitsEveryPage nr s ↔ nr.toNat < 2 ^ 31 := by
  constructor
  · rintro ⟨r, hrun, _⟩
    by_contra hnr
    obtain ⟨r', hoverflow⟩ := pagesPoolInitRun_of_le (Nat.not_lt.mp hnr) s
    rw [hoverflow] at hrun
    exact nomatch hrun
  · intro hnr
    exact ⟨_, pagesPoolInitRun_of_lt hnr s, rfl, rfl, fun hg => eligibleAtVisit_eq hg _ _,
      pagesPoolInit_eq hnr s⟩

/-- With 8 TB of memory there are 2^31 pages. -/
theorem not_visitsEveryPage_8TB :
    ¬ ∀ (nr : Word) (s : PoolState), nr.toNat ≤ 2 ^ 34 → VisitsEveryPage nr s := by
  intro h
  obtain ⟨r, hrun, _⟩ := h (BitVec.ofNat 64 (2 ^ 31)) (fourPageDatabase []) (by decide)
  obtain ⟨r', hoverflow⟩ := @pagesPoolInitRun_of_le (BitVec.ofNat 64 (2 ^ 31)) (by decide)
    (fourPageDatabase [])
  rw [hoverflow] at hrun
  exact nomatch hrun

end ClosureOS
