import ClosureOS.DyadicBlocks
import ClosureOS.Page

/-!
The buddy system, PagePool in mm/page_mm.cppm. The free lists of every pool are
kept beside the one page database they share, because list_del unlinks an entry
from whichever list it is on. Each operation has one lemma that says all it does;
the invariants of later modules are derived from these lemmas only.
-/
namespace ClosureOS

open DyadicBlocks

def maxPageOrder : ℕ := 11

/-- GloblPagePool. -/
def globlPagePool : ℕ := 0

/-- The page database and the free lists: pool i keeps list freelist i k for
blocks of order k, first entry first. -/
structure PoolState where
  pgdb : Pgdb
  freelist : ℕ → ℕ → List ℕ

def buddyPagePfn (pfn order : ℕ) : ℕ := pfn ^^^ (1 <<< order)

def getPageBuddy (p order : ℕ) : ℕ := buddyPagePfn p order

theorem getPageBuddy_eq (p order : ℕ) : getPageBuddy p order = p ^^^ 2 ^ order := by
  rw [getPageBuddy, buddyPagePfn, Nat.shiftLeft_eq, Nat.one_mul]

namespace PoolState

/-- The blocks on the free lists of a pool. -/
def freeBlocks (s : PoolState) (pid : ℕ) : List Block := blocks maxPageOrder (s.freelist pid)

theorem mem_freeBlocks {s : PoolState} {pid : ℕ} {b : Block} :
    b ∈ s.freeBlocks pid ↔ b.order < maxPageOrder ∧ b.start ∈ s.freelist pid b.order :=
  mem_blocks

/-- lib::list_del on the node of entry p. -/
def listDel (s : PoolState) (p : ℕ) : PoolState :=
  { s with freelist := fun i k => (s.freelist i k).erase p }

/-- lib::list_add_next on the head of list k: p becomes the first entry. -/
def listAddNext (s : PoolState) (pid k p : ℕ) : PoolState :=
  { s with
    freelist := Function.update s.freelist pid
      (Function.update (s.freelist pid) k (p :: s.freelist pid k)) }

def setPage (s : PoolState) (p : ℕ) (pg : Page) : PoolState :=
  { s with pgdb := Function.update s.pgdb p pg }

end PoolState

/-! ### __reinit_page -/

def reinitPageAt (p order : ℕ) (free : Bool) (g : Pgdb) (i : ℕ) : Pgdb :=
  let g := Function.update g (p + i)
    { g (p + i) with
      isFree := free, order := orderField order, freelist := 0#64, kc := none, isHead := false }
  -- the counters written in each round are those of the head
  Function.update g p { g p with refCount := -1#32, mapCount := -1#32 }

def reinitPage (g : Pgdb) (p order : ℕ) (free : Bool) : Pgdb :=
  let g := (List.range (1 <<< order)).foldl (reinitPageAt p order free) g
  Function.update g p { g p with isHead := true }

/-- An entry of a block that was just initialised. -/
def reinitEntry (pg : Page) (order : ℕ) (free head : Bool) : Page :=
  { pg with
    isFree := free, order := orderField order, freelist := 0#64, kc := none, isHead := head,
    refCount := if head then -1#32 else pg.refCount,
    mapCount := if head then -1#32 else pg.mapCount }

/-- One round of the loop, at each entry: it writes p + i and the counters of p. -/
theorem reinitPageAt_apply (g : Pgdb) (p order : ℕ) (free : Bool) (i q : ℕ) :
    reinitPageAt p order free g i q =
      if q = p + i then { reinitEntry (g q) order free (q == p) with isHead := false }
      else if q = p then { g q with refCount := -1#32, mapCount := -1#32 } else g q := by
  simp only [reinitPageAt, Function.update_apply, reinitEntry]
  by_cases hi : i = 0
  · subst hi
    by_cases hqp : q = p
    · subst hqp
      simp
    · simp [hqp]
  · by_cases hqp : q = p
    · subst hqp
      simp [hi]
    · by_cases hqi : q = p + i
      · subst hqi
        simp [hi]
      · simp [hqp, hqi]

theorem reinitPage_loop (g : Pgdb) (p order : ℕ) (free : Bool) (n q : ℕ) :
    (List.range n).foldl (reinitPageAt p order free) g q =
      if p ≤ q ∧ q < p + n then { reinitEntry (g q) order free (q == p) with isHead := false }
      else g q := by
  induction n with
  | zero => simp
  | succ n ih =>
    rw [List.range_succ, List.foldl_append, List.foldl_cons, List.foldl_nil, reinitPageAt_apply, ih]
    by_cases hqn : q = p + n
    · subst hqn
      simp
    · by_cases hqp : q = p
      · subst hqp
        have hn : 0 < n := by omega
        simp [hn, reinitEntry]
      · have hiff : (p ≤ q ∧ q < p + (n + 1)) ↔ (p ≤ q ∧ q < p + n) := by omega
        simp only [if_neg hqn, if_neg hqp, hiff]

theorem reinitPage_of_mem {g : Pgdb} {p order : ℕ} {free : Bool} {q : ℕ}
    (h : q ∈ (⟨p, order⟩ : Block)) :
    reinitPage g p order free q = reinitEntry (g q) order free (q == p) := by
  rw [Block.mem_iff] at h
  have hp : p < p + 2 ^ order := Nat.lt_add_of_pos_right (Nat.two_pow_pos _)
  simp only [reinitPage, Function.update_apply, reinitPage_loop, Nat.shiftLeft_eq, Nat.one_mul]
  by_cases hqp : q = p
  · subst q
    simp [hp, reinitEntry]
  · simp [hqp, h, reinitEntry]

theorem reinitPage_of_not_mem {g : Pgdb} {p order : ℕ} {free : Bool} {q : ℕ}
    (h : q ∉ (⟨p, order⟩ : Block)) : reinitPage g p order free q = g q := by
  have hqp : q ≠ p := fun he => h (he ▸ Block.start_mem ⟨p, order⟩)
  rw [Block.mem_iff] at h
  simp only [reinitPage, Function.update_apply, reinitPage_loop, Nat.shiftLeft_eq, Nat.one_mul]
  simp [hqp, h]

namespace PoolState

def reinit (s : PoolState) (p order : ℕ) (free : Bool) : PoolState :=
  { s with pgdb := reinitPage s.pgdb p order free }

theorem reinit_pgdb_of_mem {s : PoolState} {p order : ℕ} {free : Bool} {q : ℕ}
    (h : q ∈ (⟨p, order⟩ : Block)) :
    (s.reinit p order free).pgdb q = reinitEntry (s.pgdb q) order free (q == p) :=
  reinitPage_of_mem h

theorem reinit_pgdb_of_not_mem {s : PoolState} {p order : ℕ} {free : Bool} {q : ℕ}
    (h : q ∉ (⟨p, order⟩ : Block)) : (s.reinit p order free).pgdb q = s.pgdb q :=
  reinitPage_of_not_mem h

/-! ### __alloc_page_direct -/

/-- The search loop: the order and first entry of the first list, from order up,
that is not empty. -/
def allocSearch (s : PoolState) (pid order : ℕ) : Option (ℕ × ℕ) :=
  (List.range' order (maxPageOrder - order)).findSome? fun k =>
    (s.freelist pid k).head?.map fun p => (k, p)

/-- The do-while loop that puts the upper halves back on the lists below allocated. -/
def putHalves (pid p order : ℕ) : ℕ → PoolState → PoolState
  | 0, s => s
  | allocated + 1, s =>
    if order ≤ allocated then
      let buddy := getPageBuddy p allocated
      putHalves pid p order allocated
        ((s.reinit buddy allocated true).listAddNext pid allocated buddy)
    else s

def allocPageDirect (s : PoolState) (pid order : ℕ) : Option ℕ × PoolState :=
  match s.allocSearch pid order with
  | none => (none, s)
  | some (allocated, p) =>
    let s := putHalves pid p order allocated (s.listDel p)
    (some p, s.reinit p order false)

/-- __reclaim_memory is a stub in the source. -/
def reclaimMemory (s : PoolState) : PoolState := s

/-- __alloc_pages: one more try after reclaiming memory. -/
def allocPages (s : PoolState) (pid order : ℕ) : Option ℕ × PoolState :=
  if order ≥ maxPageOrder then (none, s)
  else
    match s.allocPageDirect pid order with
    | (some p, s) => (some p, s)
    | (none, s) => s.reclaimMemory.allocPageDirect pid order

/-! ### __free_pages -/

/-- The test of the merge loop. It reads the flags of the buddy entry and not its
order field. -/
def CanCombine (s : PoolState) (buddy : ℕ) : Prop :=
  (s.pgdb buddy).type = .normalMem ∧ (s.pgdb buddy).isHead ∧ (s.pgdb buddy).isFree

instance (s : PoolState) (buddy : ℕ) : Decidable (s.CanCombine buddy) :=
  inferInstanceAs (Decidable (_ ∧ _ ∧ _))

/-- One round of the merge loop once the test holds. -/
def combineStep (s : PoolState) (p buddy : ℕ) : ℕ × PoolState :=
  let s := s.listDel buddy
  if buddy < p then (buddy, s.setPage p { s.pgdb p with isHead := false }) else (p, s)

/-- The merge loop, with n rounds left before the largest order is reached. -/
def combinePages : ℕ → ℕ → ℕ → PoolState → ℕ × ℕ × PoolState
  | 0, p, order, s => (p, order, s)
  | n + 1, p, order, s =>
    let buddy := getPageBuddy p order
    if s.CanCombine buddy then
      let (p, s) := s.combineStep p buddy
      combinePages n p (order + 1) s
    else (p, order, s)

def freePages (s : PoolState) (pid : ℕ) (page : Option ℕ) (order : ℕ) : PoolState :=
  match page with
  | none => s
  | some p =>
    if order ≥ maxPageOrder then s
    else
      let (p, order, s) := combinePages (maxPageOrder - 1 - order) p order s
      (s.reinit p order true).listAddNext pid order p

/-- AddPages: every round of the loop writes the pool field of the first entry. -/
def addPages (s : PoolState) (pid p order : ℕ) : PoolState :=
  let s := (List.range (1 <<< order)).foldl
    (fun s _ => s.setPage p { s.pgdb p with pool := some pid }) s
  s.freePages pid (some p) order

/-- Init empties the eleven lists of the pool. -/
def init (s : PoolState) (pid : ℕ) : PoolState :=
  { s with
    freelist := Function.update s.freelist pid fun k =>
      if k < maxPageOrder then [] else s.freelist pid k }

/-! ### What each operation does -/

@[simp] theorem listDel_pgdb (s : PoolState) (p : ℕ) : (s.listDel p).pgdb = s.pgdb := rfl

@[simp] theorem listAddNext_pgdb (s : PoolState) (pid k p : ℕ) :
    (s.listAddNext pid k p).pgdb = s.pgdb := rfl

theorem listAddNext_self (s : PoolState) (pid k p : ℕ) :
    (s.listAddNext pid k p).freelist pid =
      Function.update (s.freelist pid) k (p :: s.freelist pid k) :=
  Function.update_self ..

theorem freeBlocks_listAddNext (s : PoolState) (pid : ℕ) {k : ℕ} (p : ℕ) (hk : k < maxPageOrder) :
    ((s.listAddNext pid k p).freeBlocks pid).Perm (⟨p, k⟩ :: s.freeBlocks pid) := by
  rw [freeBlocks, listAddNext_self]
  exact blocks_perm_push _ p hk

theorem freeBlocks_listDel {s : PoolState} {pid p k : ℕ} {l : List Block}
    (h : Separated (s.freeBlocks pid ++ l)) (hb : ⟨p, k⟩ ∈ s.freeBlocks pid) :
    (s.freeBlocks pid).Perm (⟨p, k⟩ :: (s.listDel p).freeBlocks pid) := by
  have hp := mem_freeBlocks.mp hb
  exact blocks_perm_eraseAll h hp.1 hp.2

theorem freeBlocks_listDel_of_separated {s : PoolState} {pid p k : ℕ}
    (h : Separated (s.freeBlocks pid)) (hb : ⟨p, k⟩ ∈ s.freeBlocks pid) :
    (s.freeBlocks pid).Perm (⟨p, k⟩ :: (s.listDel p).freeBlocks pid) := by
  have hsep : Separated (s.freeBlocks pid ++ []) := by
    rw [List.append_nil]
    exact h
  exact freeBlocks_listDel hsep hb

theorem allocSearch_eq_some {s : PoolState} {pid order j p : ℕ}
    (h : s.allocSearch pid order = some (j, p)) :
    order ≤ j ∧ ⟨p, j⟩ ∈ s.freeBlocks pid ∧ (s.freelist pid j).head? = some p ∧
      ∀ i, order ≤ i → i < j → s.freelist pid i = [] := by
  obtain ⟨l₁, k, l₂, hl, hk, hnone⟩ := List.findSome?_eq_some_iff.mp h
  obtain ⟨q, hq, hqe⟩ := Option.map_eq_some_iff.mp hk
  obtain ⟨rfl, rfl⟩ := Prod.mk.inj hqe
  obtain ⟨hle, hlt⟩ := List.mem_range'_1.mp
    (show k ∈ List.range' order (maxPageOrder - order) by rw [hl]; simp)
  have hk : k < maxPageOrder := by omega
  refine ⟨hle, mem_freeBlocks.mpr ⟨hk, List.mem_of_mem_head? hq⟩, hq, ?_⟩
  intro i hi hik
  have hmem : i ∈ l₁ := by
    have hi' : i ∈ l₁ ++ k :: l₂ := by
      rw [← hl, List.mem_range'_1]
      omega
    have hsorted : (l₁ ++ k :: l₂).Pairwise (· < ·) := by
      rw [← hl]
      exact List.pairwise_lt_range'
    rcases List.mem_append.mp hi' with hmem | hmem
    · exact hmem
    · rcases List.mem_cons.mp hmem with rfl | hmem
      · exact absurd hik (Nat.lt_irrefl _)
      · have := List.rel_of_pairwise_cons (List.pairwise_append.mp hsorted).2.1 hmem
        omega
  simpa using hnone i hmem

theorem allocSearch_eq_none {s : PoolState} {pid order : ℕ} :
    s.allocSearch pid order = none ↔
      ∀ i, order ≤ i → i < maxPageOrder → s.freelist pid i = [] := by
  rw [allocSearch, List.findSome?_eq_none_iff]
  constructor
  · intro h i hi hlt
    simpa using h i (List.mem_range'_1.mpr ⟨hi, by omega⟩)
  · intro h i hi
    have hi := List.mem_range'_1.mp hi
    simpa using h i hi.1 (by omega)

/-- Everything a call of AllocPages can do. The second try never changes the
outcome of the first, since reclaiming is a stub. -/
theorem allocPages_cases (s : PoolState) (pid order : ℕ) :
    (order < maxPageOrder ∧ ∃ j p, s.allocSearch pid order = some (j, p) ∧
      s.allocPages pid order =
        (some p, (putHalves pid p order j (s.listDel p)).reinit p order false)) ∨
    ((maxPageOrder ≤ order ∨ s.allocSearch pid order = none) ∧
      s.allocPages pid order = (none, s)) := by
  by_cases ho : order ≥ maxPageOrder
  · exact Or.inr ⟨Or.inl ho, by rw [allocPages, if_pos ho]⟩
  · cases hsearch : s.allocSearch pid order with
    | none =>
      refine Or.inr ⟨Or.inr rfl, ?_⟩
      simp only [allocPages, if_neg ho, allocPageDirect, hsearch, reclaimMemory]
    | some jp =>
      refine Or.inl ⟨Nat.lt_of_not_le ho, jp.1, jp.2, rfl, ?_⟩
      simp only [allocPages, if_neg ho, allocPageDirect, hsearch]

/-- A successful AllocPages, read backwards. -/
theorem allocPages_eq_some {s s' : PoolState} {pid order p : ℕ}
    (h : s.allocPages pid order = (some p, s')) :
    order < maxPageOrder ∧ ∃ j, s.allocSearch pid order = some (j, p) ∧
      s' = (putHalves pid p order j (s.listDel p)).reinit p order false := by
  rcases s.allocPages_cases pid order with ⟨ho, j, q, hsearch, heq⟩ | ⟨_, heq⟩
  · obtain ⟨hq, hs⟩ := Prod.mk.inj (heq.symm.trans h)
    obtain rfl := Option.some.inj hq
    exact ⟨ho, j, hsearch, hs.symm⟩
  · exact nomatch (Prod.mk.inj (heq.symm.trans h)).1

/-- The block that AllocPages hands out starts a free block that is large enough. -/
theorem allocPages_source {s s' : PoolState} {pid order p : ℕ}
    (halloc : s.allocPages pid order = (some p, s')) :
    ∃ j, order ≤ j ∧ ⟨p, j⟩ ∈ s.freeBlocks pid := by
  obtain ⟨_, j, hsearch, _⟩ := allocPages_eq_some halloc
  obtain ⟨hle, hmem, _⟩ := allocSearch_eq_some hsearch
  exact ⟨j, hle, hmem⟩

/-- What putting one half back keeps, the loop keeps. -/
theorem putHalves_invariant {pid p order j : ℕ} {s : PoolState} {I : ℕ → PoolState → Prop}
    (hstep : ∀ k t, order ≤ k → k < j → I (k + 1) t →
      I k ((t.reinit (getPageBuddy p k) k true).listAddNext pid k (getPageBuddy p k)))
    (hle : order ≤ j) (h : I j s) : I order (putHalves pid p order j s) := by
  induction j generalizing s with
  | zero =>
    obtain rfl := Nat.le_zero.mp hle
    exact h
  | succ j ih =>
    unfold putHalves
    by_cases ho : order ≤ j
    · rw [if_pos ho]
      apply ih (fun k t hk hkj => hstep k t hk (Nat.lt_succ_of_lt hkj)) ho
      exact hstep j s ho (Nat.lt_succ_self j) h
    · obtain rfl : order = j + 1 := by omega
      rw [if_neg ho]
      exact h

/-- A block of the order asked for is not split. -/
theorem putHalves_self (pid p order : ℕ) (s : PoolState) : putHalves pid p order order s = s := by
  cases order with
  | zero => rfl
  | succ k => rw [putHalves, if_neg (by omega)]

/-- AllocPages takes the first entry of the list of its order. -/
theorem allocPages_of_head {s : PoolState} {pid k x : ℕ} (hk : k < maxPageOrder)
    (hhead : (s.freelist pid k).head? = some x) :
    s.allocPages pid k = (some x, (s.listDel x).reinit x k false) := by
  have hcons : List.range' k (maxPageOrder - k) =
      k :: List.range' (k + 1) (maxPageOrder - k - 1) := by
    rw [← List.range'_succ]
    congr 1
    omega
  have hsearch : s.allocSearch pid k = some (k, x) := by
    rw [allocSearch, hcons, List.findSome?_cons_of_isSome]
    · rw [hhead, Option.map_some]
    · rw [hhead]
      rfl
  rcases s.allocPages_cases pid k with ⟨_, j, p, hsearch', heq⟩ | ⟨hnone, _⟩
  · obtain ⟨rfl, rfl⟩ := Prod.mk.inj (Option.some.inj (hsearch.symm.trans hsearch'))
    rw [heq, putHalves_self]
  · rcases hnone with hle | hnone
    · omega
    · rw [hnone] at hsearch
      exact absurd hsearch.symm (Option.some_ne_none _)

/-- The upper halves of an aligned block. -/
theorem getPageBuddy_of_dvd {p k j : ℕ} (hp : 2 ^ j ∣ p) (hk : k < j) :
    getPageBuddy p k = p + 2 ^ k := by
  rw [getPageBuddy_eq, xor_two_pow_of_dvd ((pow_dvd_pow 2 hk).trans hp)]

theorem getPageBuddy_not_mem {p k : ℕ} (hp : 2 ^ k ∣ p) : getPageBuddy p k ∉ (⟨p, k⟩ : Block) := by
  rw [getPageBuddy_eq]
  exact xor_two_pow_not_mem hp

/-- Splitting writes only pages of the block that is split, outside its lowest part. -/
theorem putHalves_pgdb {pid p order j q : ℕ} {s : PoolState} (hp : 2 ^ j ∣ p) (hle : order ≤ j)
    (hq : q ∈ (⟨p, order⟩ : Block) ∨ q ∉ (⟨p, j⟩ : Block)) :
    (putHalves pid p order j s).pgdb q = s.pgdb q := by
  refine putHalves_invariant (I := fun _ t => t.pgdb q = s.pgdb q) (fun k t hk hkj ht => ?_) hle rfl
  have hlow : 2 ^ order ≤ 2 ^ k := Nat.pow_le_pow_right (by decide) hk
  have hhigh : 2 ^ k + 2 ^ k ≤ 2 ^ j := by
    rw [← Nat.two_mul, ← Nat.pow_succ']
    exact Nat.pow_le_pow_right (by decide) hkj
  have hnot : q ∉ (⟨getPageBuddy p k, k⟩ : Block) := by
    simp only [Block.mem_iff, getPageBuddy_of_dvd hp hkj] at hq ⊢
    omega
  exact (reinit_pgdb_of_not_mem hnot).trans ht

theorem putHalves_freelist_of_ne {pid p order j i : ℕ} {s : PoolState} (hi : i ≠ pid)
    (hle : order ≤ j) : (putHalves pid p order j s).freelist i = s.freelist i :=
  putHalves_invariant (I := fun _ t => t.freelist i = s.freelist i)
    (fun _ _ _ _ ht => (Function.update_of_ne hi _ _).trans ht) hle rfl

/-- Putting one half back: the halves replace the block. -/
theorem separated_put_half {s : PoolState} {pid p k : ℕ} {l : List Block}
    (h : Separated (⟨p, k + 1⟩ :: (s.freeBlocks pid ++ l))) (hk : k < maxPageOrder) :
    Separated (⟨p, k⟩ :: (((s.reinit (getPageBuddy p k) k true).listAddNext pid k
      (getPageBuddy p k)).freeBlocks pid ++ l)) := by
  rw [getPageBuddy_eq]
  exact h.split.of_perm (((freeBlocks_listAddNext _ pid (p ^^^ 2 ^ k) hk).append_right l).cons _)

theorem putHalves_separated {pid p order j : ℕ} {s : PoolState} {l : List Block}
    (h : Separated (⟨p, j⟩ :: (s.freeBlocks pid ++ l))) (hle : order ≤ j) (hj : j ≤ maxPageOrder) :
    Separated (⟨p, order⟩ :: ((putHalves pid p order j s).freeBlocks pid ++ l)) :=
  putHalves_invariant (I := fun k t => Separated (⟨p, k⟩ :: (t.freeBlocks pid ++ l)))
    (fun _ _ _ hkj ht => separated_put_half ht (hkj.trans_le hj)) hle h

/-- Every listed block after the split was listed before or lies in the block that
is split. -/
theorem mem_freeBlocks_putHalves {pid p order j : ℕ} {s : PoolState} {b : Block} (hp : 2 ^ j ∣ p)
    (hle : order ≤ j) (hj : j ≤ maxPageOrder)
    (hb : b ∈ (putHalves pid p order j s).freeBlocks pid) :
    b ∈ s.freeBlocks pid ∨ ∀ i ∈ b, i ∈ (⟨p, j⟩ : Block) := by
  refine putHalves_invariant (I := fun _ t => b ∈ t.freeBlocks pid →
    b ∈ s.freeBlocks pid ∨ ∀ i ∈ b, i ∈ (⟨p, j⟩ : Block)) (fun k t _ hkj ht hb => ?_) hle Or.inl hb
  rcases List.mem_cons.mp ((freeBlocks_listAddNext _ pid _ (hkj.trans_le hj)).mem_iff.mp hb) with
    rfl | hb
  · have hhigh : 2 ^ k + 2 ^ k ≤ 2 ^ j := by
      rw [← Nat.two_mul, ← Nat.pow_succ']
      exact Nat.pow_le_pow_right (by decide) hkj
    refine Or.inr fun i hi => ?_
    simp only [Block.mem_iff, getPageBuddy_of_dvd hp hkj] at hi ⊢
    omega
  · exact ht hb

/-- A successful AllocPages, for a pool whose blocks are separated from each other
and from the blocks of l: where the block comes from, its entries, and the frame. -/
structure Allocated (s : PoolState) (pid order p : ℕ) (l : List Block) (s' : PoolState) :
    Prop where
  order_lt : order < maxPageOrder
  source : ∃ a ∈ s.freeBlocks pid, ∀ i ∈ (⟨p, order⟩ : Block), i ∈ a
  separated : Separated (⟨p, order⟩ :: (s'.freeBlocks pid ++ l))
  free_subset : ∀ b ∈ s'.freeBlocks pid, ∃ a ∈ s.freeBlocks pid, ∀ i ∈ b, i ∈ a
  entry : ∀ q ∈ (⟨p, order⟩ : Block), s'.pgdb q = reinitEntry (s.pgdb q) order false (q == p)
  frame : ∀ q, (∀ b ∈ s.freeBlocks pid, q ∉ b) → s'.pgdb q = s.pgdb q
  others : ∀ i, i ≠ pid → s'.freelist i = fun k => (s.freelist i k).erase p

theorem allocPages_some {s s' : PoolState} {pid order p : ℕ} {l : List Block}
    (hsep : Separated (s.freeBlocks pid ++ l)) (h : s.allocPages pid order = (some p, s')) :
    Allocated s pid order p l s' := by
  obtain ⟨ho, j, hsearch, rfl⟩ := allocPages_eq_some h
  obtain ⟨hle, hmem, _, _⟩ := allocSearch_eq_some hsearch
  have hdvd : 2 ^ j ∣ p := hsep.aligned _ (List.mem_append_left _ hmem)
  have hj : j < maxPageOrder := (mem_freeBlocks.mp hmem).1
  have hperm := freeBlocks_listDel hsep hmem
  have hsub : ∀ i ∈ (⟨p, order⟩ : Block), i ∈ (⟨p, j⟩ : Block) := fun i => mem_of_order_le hle
  refine ⟨ho, ⟨_, hmem, hsub⟩, ?_, ?_, ?_, ?_, ?_⟩
  · exact putHalves_separated (hsep.perm (hperm.append_right l)) hle (Nat.le_of_lt hj)
  · intro b hb
    rcases mem_freeBlocks_putHalves hdvd hle (Nat.le_of_lt hj) hb with hb | hb
    · exact ⟨b, hperm.mem_iff.mpr (List.mem_cons_of_mem _ hb), fun _ hi => hi⟩
    · exact ⟨_, hmem, hb⟩
  · intro q hq
    rw [reinit_pgdb_of_mem hq, putHalves_pgdb hdvd hle (Or.inl hq)]
    rfl
  · intro q hq
    have hnot : q ∉ (⟨p, j⟩ : Block) := hq _ hmem
    rw [reinit_pgdb_of_not_mem (fun hmem => hnot (hsub q hmem)),
      putHalves_pgdb hdvd hle (Or.inr hnot)]
    rfl
  · intro i hi
    exact putHalves_freelist_of_ne hi hle

/-- A failed AllocPages changes nothing. -/
theorem allocPages_none {s s' : PoolState} {pid order : ℕ}
    (h : s.allocPages pid order = (none, s')) : s' = s := by
  rcases s.allocPages_cases pid order with ⟨_, j, r, _, heq⟩ | ⟨_, heq⟩
  · rw [heq] at h
    exact absurd (Prod.mk.inj h).1 (by simp)
  · rw [heq] at h
    exact (Prod.mk.inj h).2.symm

end PoolState

end ClosureOS
