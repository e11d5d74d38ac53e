import ClosureOS.ByteMemory
import ClosureOS.PageRefs
import Mathlib.Logic.Function.Iterate

/-!
KMemCache in mm/heap_mm.cppm: slabs of equal objects on blocks of the buddy system.
The free objects of the current slab form a chain through their own first words, so
the contents of memory are part of the state. A loop that the source writes with a
label takes fuel here; no result means that the fuel ran out or a null pointer was
followed.
-/
namespace ClosureOS

open ByteMemory DyadicBlocks

def cachePoolMaxNr : ℕ := 0x10

/-- class KMemCache: pools are named by their numbers and pages by their frame
numbers. freelist is the address of the first free object of the current page. -/
structure KMemCache where
  pools : ℕ → Option ℕ
  poolNr : ℕ
  order : ℕ
  pageObjNr : Word
  objSz : Word
  current : Option ℕ
  partialPages : List ℕ
  fullPages : List ℕ
  freelist : Word

namespace KMemCache

def init (objSz : Word) : KMemCache :=
  let order := (objSz >>> pageShift).toNat
  let order := if objSz ≥ pageSize then order + 1 else order
  { pools := fun _ => none, poolNr := 0, order := order, pageObjNr := (pageSize <<< order) / objSz,
    objSz := objSz, current := none, partialPages := [], fullPages := [], freelist := 0#64 }

/-- AddPool takes the first empty slot; it does not count the pool. -/
def addPool (kc : KMemCache) (pid : ℕ) : Bool × KMemCache :=
  if kc.poolNr = cachePoolMaxNr then (false, kc)
  else
    match (List.range cachePoolMaxNr).find? fun i => (kc.pools i).isNone with
    | none => (false, kc)
    | some i => (true, { kc with pools := Function.update kc.pools i (some pid) })

/-- The pools in the slots of the cache, in the order they are tried. -/
def attachedPools (kc : KMemCache) : List ℕ := (List.range cachePoolMaxNr).filterMap kc.pools

def listDel (kc : KMemCache) (p : ℕ) : KMemCache :=
  { kc with partialPages := kc.partialPages.erase p, fullPages := kc.fullPages.erase p }

/-- list_add_next on the head of the full list. -/
def addFull (kc : KMemCache) (p : ℕ) : KMemCache := { kc with fullPages := p :: kc.fullPages }

end KMemCache

/-- The memory manager: pages with their free lists, the contents of memory and the
caches. The blocks handed out by AllocPages so far are a history variable that no
operation reads. -/
structure HeapState where
  pool : PoolState
  mem : Memory
  caches : ℕ → KMemCache
  handedOut : List Block

namespace HeapState

def setCache (h : HeapState) (c : ℕ) (kc : KMemCache) : HeapState :=
  { h with caches := Function.update h.caches c kc }

def setPage (h : HeapState) (p : ℕ) (pg : Page) : HeapState :=
  { h with pool := h.pool.setPage p pg }

@[simp] theorem setCache_caches_self (h : HeapState) (c : ℕ) (kc : KMemCache) :
    (h.setCache c kc).caches c = kc :=
  Function.update_self ..

theorem setCache_caches_of_ne (h : HeapState) {c e : ℕ} (kc : KMemCache) (he : e ≠ c) :
    (h.setCache c kc).caches e = h.caches e :=
  Function.update_of_ne he ..

@[simp] theorem setCache_pool (h : HeapState) (c : ℕ) (kc : KMemCache) :
    (h.setCache c kc).pool = h.pool := rfl

@[simp] theorem setCache_mem (h : HeapState) (c : ℕ) (kc : KMemCache) :
    (h.setCache c kc).mem = h.mem := rfl

@[simp] theorem setCache_handedOut (h : HeapState) (c : ℕ) (kc : KMemCache) :
    (h.setCache c kc).handedOut = h.handedOut := rfl

@[simp] theorem setPage_caches (h : HeapState) (p : ℕ) (pg : Page) :
    (h.setPage p pg).caches = h.caches := rfl

@[simp] theorem setPage_mem (h : HeapState) (p : ℕ) (pg : Page) : (h.setPage p pg).mem = h.mem :=
  rfl

@[simp] theorem setPage_handedOut (h : HeapState) (p : ℕ) (pg : Page) :
    (h.setPage p pg).handedOut = h.handedOut := rfl

@[simp] theorem setPage_pgdb_self (h : HeapState) (p : ℕ) (pg : Page) :
    (h.setPage p pg).pool.pgdb p = pg :=
  Function.update_self ..

theorem setPage_pgdb_of_ne (h : HeapState) {p q : ℕ} (pg : Page) (hq : q ≠ p) :
    (h.setPage p pg).pool.pgdb q = h.pool.pgdb q :=
  Function.update_of_ne hq ..

/-- list_del on the node of a page, whichever list it is on. -/
def listDel (h : HeapState) (p : ℕ) : HeapState :=
  { h with pool := h.pool.listDel p, caches := fun c => (h.caches c).listDel p }

def allocPages (h : HeapState) (pid order : ℕ) : Option ℕ × HeapState :=
  match h.pool.allocPages pid order with
  | (none, s) => (none, { h with pool := s })
  | (some p, s) => (some p, { h with pool := s, handedOut := ⟨p, order⟩ :: h.handedOut })

/-- The loop that asks one pool after the other for a block. -/
def tryPools (order : ℕ) : List ℕ → HeapState → Option ℕ × HeapState
  | [], h => (none, h)
  | pid :: pids, h =>
    match h.allocPages pid order with
    | (some p, h) => (some p, h)
    | (none, h) => tryPools order pids h

/-- Everything the loop can do: the first pool that has a block hands it out, or none
has one and nothing changes. -/
theorem tryPools_cases (h : HeapState) (order : ℕ) (pids : List ℕ) :
    (∃ pid ∈ pids, ∃ p s, h.pool.allocPages pid order = (some p, s) ∧
        h.tryPools order pids =
          (some p, { h with pool := s, handedOut := ⟨p, order⟩ :: h.handedOut })) ∨
      (h.tryPools order pids = (none, h) ∧
        ∀ pid ∈ pids, (h.pool.allocPages pid order).1 = none) := by
  induction pids with
  | nil => exact Or.inr ⟨rfl, by simp⟩
  | cons pid pids ih =>
    rw [tryPools, allocPages]
    cases hres : h.pool.allocPages pid order with
    | mk r s =>
      cases r with
      | some p => exact Or.inl ⟨pid, List.mem_cons_self, p, s, hres, rfl⟩
      | none =>
        obtain rfl := PoolState.allocPages_none hres
        rcases ih with ⟨i, hi, p, s, halloc, heq⟩ | ⟨heq, hnone⟩
        · exact Or.inl ⟨i, List.mem_cons_of_mem _ hi, p, s, halloc, heq⟩
        · refine Or.inr ⟨heq, fun i hi => ?_⟩
          rcases List.mem_cons.mp hi with rfl | hi
          · rw [hres]
          · exact hnone i hi

def internalPageAlloc (h : HeapState) (c : ℕ) : Option ℕ × HeapState :=
  tryPools (h.caches c).order (h.caches c).attachedPools h

/-- One round of the slicing loop, on memory, curr_obj and next_obj. -/
def sliceStep (objSz : Word) (st : Memory × Word × Word) : Memory × Word × Word :=
  (store64 st.1 st.2.2 st.2.1, st.2.2, st.2.2 + objSz)

def pageObjSlicing (h : HeapState) (c page : ℕ) : HeapState :=
  let kc := h.caches c
  let (mem, currObj, _) := (sliceStep kc.objSz)^[kc.pageObjNr.toNat] (h.mem, 0#64, pageToVirt page)
  let pg := h.pool.pgdb page
  let s := h.pool.setPage page { pg with objNr := kc.pageObjNr, freelist := currObj, kc := some c }
  { h with pool := s.getPage page, mem := mem }

/-- The first lines of a redo round whose free list is empty: the current page goes
on the full list. -/
def retireCurrent (h : HeapState) (c : ℕ) : HeapState :=
  let kc := h.caches c
  match kc.current with
  | none => h
  | some p => h.setCache c { kc.addFull p with current := none }

/-- The first page of the list of partial pages becomes the current one. -/
def takePartial (h : HeapState) (c p : ℕ) : HeapState :=
  let kc := h.caches c
  (h.setCache c { kc with current := some p, freelist := (h.pool.pgdb p).freelist }).listDel p

/-- A page from the buddy system becomes the current one. -/
def adoptPage (h : HeapState) (c p : ℕ) : HeapState :=
  let kc := h.caches c
  let h := (h.setCache c { kc with current := some p }).pageObjSlicing c p
  let kc := h.caches c
  h.setCache c { kc with freelist := (h.pool.pgdb p).freelist }

/-- The first free object leaves the chain of the current page p. -/
def popObject (h : HeapState) (c p : ℕ) : HeapState :=
  let kc := h.caches c
  let pg := h.pool.pgdb p
  (h.setCache c { kc with freelist := load64 h.mem kc.freelist }).setPage p
    { pg with objNr := pg.objNr - 1#64 }

def internalObjAlloc : ℕ → HeapState → ℕ → Option (Word × HeapState)
  | 0, _, _ => none
  | fuel + 1, h, c =>
    if (h.caches c).freelist ≠ 0#64 then
      match (h.caches c).current with
      | none => none
      | some p => some ((h.caches c).freelist, h.popObject c p)
    else
      let h := h.retireCurrent c
      match (h.caches c).partialPages with
      | p :: _ => internalObjAlloc fuel (h.takePartial c p) c
      | [] =>
        match h.internalPageAlloc c with
        | (none, h) => some (0#64, h)
        | (some p, h) => internalObjAlloc fuel (h.adoptPage c p) c

/-! ### What a round does -/

section Round

variable {h : HeapState} {c p : ℕ}

theorem retireCurrent_pool : (h.retireCurrent c).pool = h.pool := by
  rw [retireCurrent]
  split <;> rfl

theorem retireCurrent_mem : (h.retireCurrent c).mem = h.mem := by
  rw [retireCurrent]
  split <;> rfl

theorem retireCurrent_handedOut : (h.retireCurrent c).handedOut = h.handedOut := by
  rw [retireCurrent]
  split <;> rfl

theorem retireCurrent_caches_self : (h.retireCurrent c).caches c =
    { h.caches c with
      current := none, fullPages := (h.caches c).current.toList ++ (h.caches c).fullPages } := by
  rw [retireCurrent]
  cases hcur : (h.caches c).current with
  | none =>
    change h.caches c = { h.caches c with current := none }
    rw [← hcur]
  | some p => exact setCache_caches_self h c _

theorem retireCurrent_caches_of_ne {e : ℕ} (he : e ≠ c) :
    (h.retireCurrent c).caches e = h.caches e := by
  rw [retireCurrent]
  split
  · rfl
  · exact setCache_caches_of_ne _ _ he

/-- Retiring the current page changes nothing that a call to the pools reads. -/
theorem retireCurrent_caches : ((h.retireCurrent c).caches c).order = (h.caches c).order ∧
    ((h.retireCurrent c).caches c).attachedPools = (h.caches c).attachedPools := by
  rw [retireCurrent_caches_self]
  exact ⟨rfl, rfl⟩

theorem popObject_caches_self : (h.popObject c p).caches c =
    { h.caches c with freelist := load64 h.mem (h.caches c).freelist } := by
  rw [popObject, setPage_caches, setCache_caches_self]

/-- A round that finds an object. -/
theorem internalObjAlloc_pop (fuel : ℕ) (hne : (h.caches c).freelist ≠ 0#64)
    (hcur : (h.caches c).current = some p) :
    h.internalObjAlloc (fuel + 1) c = some ((h.caches c).freelist, h.popObject c p) := by
  simp only [internalObjAlloc, if_pos hne, hcur]

/-- A round that takes the first partial page. -/
theorem internalObjAlloc_take (fuel : ℕ) {rest : List ℕ} (hzero : (h.caches c).freelist = 0#64)
    (hpart : (h.caches c).partialPages = p :: rest) :
    h.internalObjAlloc (fuel + 1) c =
      ((h.retireCurrent c).takePartial c p).internalObjAlloc fuel c := by
  have hpart' : ((h.retireCurrent c).caches c).partialPages = p :: rest := by
    rw [retireCurrent_caches_self]
    exact hpart
  simp only [internalObjAlloc, hzero, hpart', ne_eq, not_true_eq_false, if_false]

/-- A round that asks the pools. -/
theorem internalObjAlloc_refill (fuel : ℕ) (hzero : (h.caches c).freelist = 0#64)
    (hpart : (h.caches c).partialPages = []) {page : Option ℕ} {h₁ : HeapState}
    (hres : (h.retireCurrent c).internalPageAlloc c = (page, h₁)) :
    h.internalObjAlloc (fuel + 1) c =
      page.elim (some (0#64, h₁)) fun p => (h₁.adoptPage c p).internalObjAlloc fuel c := by
  have hpart' : ((h.retireCurrent c).caches c).partialPages = [] := by
    rw [retireCurrent_caches_self]
    exact hpart
  simp only [internalObjAlloc, hzero, hpart', hres, ne_eq, not_true_eq_false, if_false]
  cases page <;> rfl

end Round

def putPage (h : HeapState) (p : ℕ) : Option HeapState :=
  (h.pool.putPage p).map fun s => { h with pool := s }

def internalObjFree (h : HeapState) (c page : ℕ) (obj : Word) : Option HeapState :=
  let pg := h.pool.pgdb page
  let kc := h.caches c
  let h := h.setPage page { pg with objNr := pg.objNr + 1#64 }
  if kc.current = some page then
    let h := { h with mem := store64 h.mem obj kc.freelist }
    some (h.setCache c { kc with freelist := obj })
  else if pg.objNr + 1#64 = 1#64 then
    some ((h.listDel page).setCache c ((kc.listDel page).addFull page))
  else if pg.objNr + 1#64 = kc.pageObjNr then
    (h.listDel page).putPage page
  else some h

/-- KMemCache::Malloc. -/
def cacheMalloc (fuel : ℕ) (h : HeapState) (c : ℕ) : Option (Word × HeapState) :=
  internalObjAlloc fuel h c

/-- KMemCache::Free. -/
def cacheFree (h : HeapState) (c page : ℕ) (obj : Word) : Option HeapState :=
  internalObjFree h c page obj

end HeapState

end ClosureOS
