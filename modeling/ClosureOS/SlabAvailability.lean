import ClosureOS.HeapRuns
import Mathlib.Data.List.Perm.Subperm

/-!
How many objects a cache can serve from the slabs it owns. Malloc reaches only the
free objects of the current slab: the list of partial pages is never filled, and an
object freed to another slab is counted there but linked nowhere. So the count over
all owned slabs is right exactly when the slabs on the full list have no free object,
which holds as long as every object is freed while its slab is the current one.
-/
namespace ClosureOS

open ByteMemory DyadicBlocks PoolState HeapState

/-- The slab pages that a cache holds. -/
def KMemCache.ownedPages (kc : KMemCache) : List ℕ :=
  kc.current.toList ++ kc.partialPages ++ kc.fullPages

def objNrSum (h : HeapState) (pages : List ℕ) : ℕ :=
  (pages.map fun p => (h.pool.pgdb p).objNr.toNat).sum

/-- Cache c can serve n calls of Malloc in a row without taking a block from a pool. -/
inductive MallocsFromOwned (c : ℕ) : ℕ → HeapState → Prop
  | zero {h : HeapState} : MallocsFromOwned c 0 h
  | succ {n fuel : ℕ} {h h' : HeapState} {obj : Word}
      (hrun : h.cacheMalloc fuel c = some (obj, h')) (hobj : obj ≠ 0#64)
      (hout : h'.handedOut = h.handedOut) (hrest : MallocsFromOwned c n h') :
      MallocsFromOwned c (n + 1) h

/-- Every object of the slab at page p is live. -/
def AllLive (h : HeapState) (live : List Allocation) (c p : ℕ) : Prop :=
  ∀ i, i < (h.caches c).pageObjNr.toNat →
    ∃ a ∈ live, a.ptr = slotAddr p (h.caches c).objSz i

/-- The free objects of the owned slabs are the ones Malloc can return; it fails only
when there are none and no attached pool has a block. -/
structure FreedAvailable (c : ℕ) (r : HeapRun) : Prop where
  exact : ∀ n, MallocsFromOwned c n r.heap ↔
    n ≤ objNrSum r.heap (r.heap.caches c).ownedPages
  null : ∀ fuel h', r.heap.cacheMalloc fuel c = some (0#64, h') →
    (∀ p ∈ (r.heap.caches c).ownedPages, AllLive r.heap r.live c p) ∧
      ∀ pid ∈ (r.heap.caches c).attachedPools,
        (r.heap.pool.allocPages pid (r.heap.caches c).order).1 = none

/-- The slabs on the full list have no free object. -/
def FullPagesUsed (h : HeapState) (c : ℕ) : Prop :=
  ∀ p ∈ (h.caches c).fullPages, (h.pool.pgdb p).objNr.toNat = 0

variable {cfg : HeapConfig} {h h' : HeapState} {live : List Allocation} {b : Block}
  {a : Allocation} {c p n fuel : ℕ} {obj : Word}

/-! ### Objects and slabs -/

/-- A slab without free objects is live as a whole. -/
theorem HeapInv.allLive (hinv : HeapInv cfg h live) (hb : b ∈ h.handedOut)
    (hkc : (h.pool.pgdb b.start).kc = some c) (hzero : (h.pool.pgdb b.start).objNr.toNat = 0) :
    AllLive h live c b.start := by
  obtain ⟨_, hslab⟩ := hinv.slab b hb c hkc
  have hcount := hslab.count
  rw [hzero, Nat.zero_add] at hcount
  let ptrs := (live.filter fun a => decide (virtToPage a.ptr ∈ b)).map Allocation.ptr
  have hlen :
      ptrs.length = (slots b.start (h.caches c).objSz (h.caches c).pageObjNr.toNat).length := by
    rw [length_slots, ← hcount, List.length_map, liveIn, List.countP_eq_length_filter]
  have hnodup : ptrs.Nodup := by
    apply List.pairwise_map.mpr
    exact hinv.distinct.sublist List.filter_sublist
  have hsub : ptrs ⊆ slots b.start (h.caches c).objSz (h.caches c).pageObjNr.toNat := by
    intro x hx
    obtain ⟨a, ha, rfl⟩ := List.mem_map.mp hx
    obtain ⟨ha, hon⟩ := List.mem_filter.mp ha
    have hback := hinv.backed_of_mem ha hb (by simpa using hon)
    exact (hback.object c (hback.kc.symm.trans hkc)).2
  have hperm := (hnodup.subperm hsub).perm_of_length_le (Nat.le_of_eq hlen.symm)
  intro i hi
  have hslot : slotAddr b.start (h.caches c).objSz i ∈ ptrs :=
    hperm.mem_iff.mpr (mem_slots.mpr ⟨i, hi, rfl⟩)
  obtain ⟨a, ha, heq⟩ := List.mem_map.mp hslot
  exact ⟨a, (List.mem_filter.mp ha).1, heq⟩

theorem HeapInv.ownsSlab_of_owned (hinv : HeapInv cfg h live) (hc : c ∈ cfg.caches)
    (hp : p ∈ (h.caches c).ownedPages) : OwnsSlab h c p := by
  have hcache := hinv.cache c hc
  rw [KMemCache.ownedPages, hcache.noPartial, List.append_nil] at hp
  rcases List.mem_append.mp hp with hp | hp
  · exact hcache.current p (by simpa using hp)
  · exact (hcache.full p hp).2

/-- The free objects of the current slab. -/
def currentObjNr (h : HeapState) (c : ℕ) : ℕ := objNrSum h (h.caches c).current.toList

theorem HeapInv.objNrSum_owned (hinv : HeapInv cfg h live) (hc : c ∈ cfg.caches) :
    objNrSum h (h.caches c).ownedPages = currentObjNr h c + objNrSum h (h.caches c).fullPages := by
  rw [KMemCache.ownedPages, (hinv.cache c hc).noPartial, List.append_nil, currentObjNr, objNrSum,
    objNrSum, objNrSum, List.map_append, List.sum_append]

theorem objNrSum_eq_zero {pages : List ℕ} :
    objNrSum h pages = 0 ↔ ∀ p ∈ pages, (h.pool.pgdb p).objNr.toNat = 0 := by
  simp [objNrSum, List.sum_eq_zero_iff_forall_eq_nat]

theorem currentObjNr_of_current (hcur : (h.caches c).current = some p) :
    currentObjNr h c = (h.pool.pgdb p).objNr.toNat := by
  simp [currentObjNr, objNrSum, hcur]

/-- There is a free object on the chain exactly when the current slab counts one. -/
theorem HeapInv.currentObjNr_eq_zero_iff (hinv : HeapInv cfg h live) (hc : c ∈ cfg.caches) :
    currentObjNr h c = 0 ↔ (h.caches c).freelist = 0#64 := by
  cases hcur : (h.caches c).current with
  | none => simp [currentObjNr, objNrSum, hcur, (hinv.cache c hc).idle hcur]
  | some p =>
    obtain ⟨b, _, rfl, _, hslab⟩ := hinv.current_slab hc hcur
    rw [currentObjNr_of_current hcur]
    refine ⟨fun hzero => ?_, fun hzero => hslab.objNr_zero hcur hzero⟩
    obtain ⟨_, l, hchain, _, hlen, _⟩ := hslab.current hcur
    rw [hzero] at hlen
    rw [List.length_eq_zero_iff.mp hlen] at hchain
    exact hchain

/-! ### What Malloc can serve -/

/-- Taking an object lowers the count of the current slab by one. -/
theorem HeapInv.currentObjNr_pop (hinv : HeapInv cfg h live) (hc : c ∈ cfg.caches)
    (hne : (h.caches c).freelist ≠ 0#64) (hcur : (h.caches c).current = some p) :
    currentObjNr (h.popObject c p) c + 1 = currentObjNr h c := by
  have hpos := mt (hinv.currentObjNr_eq_zero_iff hc).mp hne
  have hcur' : ((h.popObject c p).caches c).current = some p := by
    rw [popObject_caches_self]
    exact hcur
  rw [currentObjNr_of_current hcur] at hpos ⊢
  rw [currentObjNr_of_current hcur', HeapState.popObject, setPage_pgdb_self, BitVec.toNat_sub]
  simp only [BitVec.toNat_ofNat]
  omega

/-- Malloc serves from the owned slabs as long as the current slab has free objects,
and no longer. -/
theorem HeapInv.mallocsFromOwned_iff (hnodup : cfg.pools.Nodup) (hc : c ∈ cfg.caches)
    (hinv : HeapInv cfg h live) : MallocsFromOwned c n h ↔ n ≤ currentObjNr h c := by
  constructor
  · intro hmallocs
    induction hmallocs generalizing live with
    | zero => exact Nat.zero_le _
    | @succ n fuel h h' obj hrun hobj hout _ ih =>
      rcases hinv.cacheMalloc_cases hnodup hc hrun with ⟨p, hne, hcur, rfl, rfl⟩ |
        ⟨_, p, h₁, _, hfresh, _, q, _, _, rfl⟩ | ⟨_, rfl, _, _⟩
      · have hpop := hinv.currentObjNr_pop hc hne hcur
        have hrest := ih (hinv.pop hc hcur hne (Nat.zero_le _))
        omega
      · have hadded : ((h₁.adoptPage c p).popObject c q).handedOut = h₁.handedOut := rfl
        rw [hadded, hfresh.handedOut, retireCurrent_handedOut] at hout
        exact absurd hout (List.cons_ne_self _ _)
      · exact absurd rfl hobj
  · induction n generalizing h live with
    | zero => exact fun _ => .zero
    | succ n ih =>
      intro hle
      have hne : (h.caches c).freelist ≠ 0#64 := by
        intro hzero
        have := (hinv.currentObjNr_eq_zero_iff hc).mpr hzero
        omega
      obtain ⟨p, hcur, _⟩ := hinv.served_pop hc hne
      have hpop := hinv.currentObjNr_pop hc hne hcur
      exact .succ (internalObjAlloc_pop 0 hne hcur) hne rfl
        (ih (hinv.pop hc hcur hne (Nat.zero_le _)) (by omega))

/-- The property holds in a state exactly when the full slabs have no free object. -/
theorem HeapInv.freedAvailable_iff {r : HeapRun} (hinv : HeapInv cfg r.heap r.live)
    (hnodup : cfg.pools.Nodup) (hc : c ∈ cfg.caches) :
    FreedAvailable c r ↔ FullPagesUsed r.heap c := by
  have hsum := hinv.objNrSum_owned hc
  constructor
  · intro havail
    have hexact := (havail.exact _).mpr (Nat.le_refl _)
    rw [hinv.mallocsFromOwned_iff hnodup hc, hsum] at hexact
    exact objNrSum_eq_zero.mp (by omega)
  · intro hused
    have hzero : objNrSum r.heap (r.heap.caches c).fullPages = 0 := objNrSum_eq_zero.mpr hused
    refine ⟨fun n => ?_, fun fuel h' hrun => ?_⟩
    · rw [hinv.mallocsFromOwned_iff hnodup hc, hsum, hzero, Nat.add_zero]
    · rcases hinv.cacheMalloc_cases hnodup hc hrun with ⟨p, hne, _, hobj, _⟩ |
        ⟨_, p, h₁, _, _, hadopt, q, _, hobj, _⟩ | ⟨hlist, _, _, hpools⟩
      · exact absurd hobj.symm hne
      · exact absurd hobj.symm hadopt.freelist
      · refine ⟨fun p hp => ?_, ?_⟩
        · have hnone := (hinv.currentObjNr_eq_zero_iff hc).mpr hlist
          have hall := objNrSum_eq_zero.mp (hsum.trans (by rw [hnone, hzero])) p hp
          obtain ⟨b, hb, rfl, hkc⟩ := hinv.ownsSlab_of_owned hc hp
          exact hinv.allLive hb hkc hall
        · rw [retireCurrent_pool, retireCurrent_caches.1, retireCurrent_caches.2] at hpools
          exact hpools

/-! ### What a call does to the full slabs -/

/-- The full slabs stay used when no count on the full list changes. -/
theorem FullPagesUsed.of_same (hused : FullPagesUsed h c)
    (hfull : (h'.caches c).fullPages = (h.caches c).fullPages)
    (hentry : ∀ q ∈ (h.caches c).fullPages, h'.pool.pgdb q = h.pool.pgdb q) :
    FullPagesUsed h' c := by
  intro q hq
  rw [hfull] at hq
  rw [hentry q hq]
  exact hused q hq

theorem FullPagesUsed.pop (hused : FullPagesUsed h c) (hinv : HeapInv cfg h live)
    (hc : c ∈ cfg.caches) (hcur : (h.caches c).current = some p) :
    FullPagesUsed (h.popObject c p) c := by
  refine hused.of_same (by rw [popObject_caches_self]) fun q hq => setPage_pgdb_of_ne _ _ ?_
  rintro rfl
  exact ((hinv.cache c hc).full q hq).1 hcur

theorem FullPagesUsed.retire (hused : FullPagesUsed h c) (hinv : HeapInv cfg h live)
    (hc : c ∈ cfg.caches) (hzero : (h.caches c).freelist = 0#64) :
    FullPagesUsed (h.retireCurrent c) c := by
  intro q hq
  rw [retireCurrent_caches_self] at hq
  rw [retireCurrent_pool]
  rcases List.mem_append.mp hq with hcur | hq
  · rw [← currentObjNr_of_current (Option.mem_toList.mp hcur)]
    exact (hinv.currentObjNr_eq_zero_iff hc).mpr hzero
  · exact hused q hq

/-- Malloc puts slabs on the full list only when they have no free object. -/
theorem FullPagesUsed.cacheMalloc (hused : FullPagesUsed h c) (hinv : HeapInv cfg h live)
    (hnodup : cfg.pools.Nodup) (hc : c ∈ cfg.caches)
    (hrun : h.cacheMalloc fuel c = some (obj, h')) : FullPagesUsed h' c := by
  rcases hinv.cacheMalloc_cases hnodup hc hrun with ⟨p, _, hcur, _, rfl⟩ |
    ⟨hzero, p, h₁, _, hfresh, hadopt, q, hcur, _, rfl⟩ | ⟨hzero, _, rfl, _⟩
  · exact hused.pop hinv hc hcur
  · have hretired := (hinv.retire hc hzero).1
    refine FullPagesUsed.pop ?_ hadopt.inv hc hcur
    refine (hused.retire hinv hc hzero).of_same ?_ fun q hq => ?_
    · rw [hadopt.full, hfresh.caches]
    · obtain ⟨b, hb, rfl, hkc⟩ := ((hretired.cache c hc).full q hq).2
      have hsame := hfresh.entry b hb b.start b.start_mem
      rw [← hsame]
      apply hadopt.entry _
      rintro rfl
      have hnone := hfresh.kc
      simp only [hsame, hkc] at hnone
      exact absurd hnone (by simp)
  · exact hused.retire hinv hc hzero

theorem cacheFree_current (hcur : (h.caches c).current = some p)
    (hrun : h.cacheFree c p a.ptr = some h') :
    (h'.caches c).fullPages = (h.caches c).fullPages ∧
      ∀ q, q ≠ p → h'.pool.pgdb q = h.pool.pgdb q := by
  simp only [HeapState.cacheFree, internalObjFree, if_pos hcur, Option.some.injEq] at hrun
  subst hrun
  exact ⟨by rw [setCache_caches_self], fun q hq => setPage_pgdb_of_ne _ _ hq⟩

theorem FullPagesUsed.cacheFree (hused : FullPagesUsed h c) (hinv : HeapInv cfg h live)
    (hc : c ∈ cfg.caches) (hcur : (h.caches c).current = some p)
    (hrun : h.cacheFree c p a.ptr = some h') : FullPagesUsed h' c := by
  obtain ⟨hfull, hentry⟩ := cacheFree_current hcur hrun
  refine hused.of_same hfull fun q hq => hentry q ?_
  rintro rfl
  exact ((hinv.cache c hc).full q hq).1 hcur

/-- The first object freed to a slab that is not the current one leaves the slab on the
full list with a free object. -/
theorem FullPagesUsed.lost_by_other (hused : FullPagesUsed h c) (hinv : HeapInv cfg h live)
    (ha : a ∈ live) (hback : Backed h a b) (hsource : a.source = some c)
    (hcur : (h.caches c).current ≠ some b.start)
    (hrun : h.cacheFree c b.start a.ptr = some h') : ¬ FullPagesUsed h' c := by
  have hkc := hback.kc.trans hsource
  obtain ⟨_, hslab⟩ := hinv.slab b hback.mem c hkc
  obtain ⟨hsucc, hlt⟩ := hslab.objNr_succ ha (hinv.virtToPage_mem hback)
  have hzero := hused b.start (hslab.listed hcur hlt).1
  have hone : (h.pool.pgdb b.start).objNr + 1#64 = 1#64 := by
    apply BitVec.eq_of_toNat_eq
    rw [hsucc, hzero]
    rfl
  simp only [HeapState.cacheFree, internalObjFree, if_neg hcur, if_pos hone,
    Option.some.injEq] at hrun
  intro hused'
  have hlisted : b.start ∈ (h'.caches c).fullPages := by
    rw [← hrun, setCache_caches_self, KMemCache.addFull]
    exact List.mem_cons_self
  have hcount : (h'.pool.pgdb b.start).objNr = (h.pool.pgdb b.start).objNr + 1#64 := by
    rw [← hrun]
    exact congrArg Page.objNr (setPage_pgdb_self h b.start _)
  have hfree := hused' b.start hlisted
  rw [hcount, hone] at hfree
  exact absurd hfree (by decide)

/-! ### Runs of one cache -/

/-- A step of a run of cache c: Malloc, Free of a live object with the head page of its
slab, where P holds of the state and that page, or writes of the clients. -/
inductive CacheStep (c : ℕ) (P : HeapState → ℕ → Prop) : HeapRun → HeapRun → Prop
  | malloc {r : HeapRun} {fuel : ℕ} {obj : Word} {h' : HeapState}
      (hrun : r.heap.cacheMalloc fuel c = some (obj, h')) :
      CacheStep c P r ⟨h', if obj = 0#64 then r.live
        else ⟨obj, (r.heap.caches c).objSz.toNat, some c⟩ :: r.live⟩
  | free {r : HeapRun} {a : Allocation} {page : ℕ} {h' : HeapState} (ha : a ∈ r.live)
      (hpage : page = getHeadPage r.heap.pool.pgdb (virtToPage a.ptr)) (hP : P r.heap page)
      (hrun : r.heap.cacheFree c page a.ptr = some h') :
      CacheStep c P r ⟨h', r.live.erase a⟩
  | write {r : HeapRun} {m : Memory}
      (hframe : ∀ x, (∀ a ∈ r.live, ¬ InRange a.ptr a.size x) → m x = r.heap.mem x) :
      CacheStep c P r ⟨{ r.heap with mem := m }, r.live⟩

/-- The page that Free is given is the current page of the cache. -/
def FreesCurrent (c : ℕ) (h : HeapState) (page : ℕ) : Prop := (h.caches c).current = some page

/-- What a run may start from: a cache that was just initialised with a default size
and attached to pools whose free blocks are separated and have room in the direct map. -/
structure FreshCache (h : HeapState) (c : ℕ) (pools : List ℕ) : Prop where
  cache : ∃ i < kobjectSizeNr, ∃ pids, (∀ pid ∈ pids, pid ∈ pools) ∧
    h.caches c = (KMemCache.init (kobjDefaultSize.getD i 0#64)).attach pids
  nodup : pools.Nodup
  separated : Separated (h.pool.freeBlocksOf pools)
  stop : ∀ b ∈ h.pool.freeBlocksOf pools, b.stop ≤ directMapPages
  handedOut : h.handedOut = []

/-- The configuration of a run of one cache. -/
def cacheConfig (h : HeapState) (c : ℕ) (pools : List ℕ) : HeapConfig :=
  ⟨pools, [c], fun _ => (h.caches c).objSz⟩

theorem FreshCache.heapInv {pools : List ℕ} (hfresh : FreshCache h c pools) :
    HeapInv (cacheConfig h c pools) h [] := by
  obtain ⟨i, hi, pids, hsub, hkc⟩ := hfresh.cache
  refine HeapInv.fresh hfresh.separated hfresh.stop hfresh.handedOut fun e he => ?_
  obtain rfl := List.mem_singleton.mp he
  exact CacheInv.fresh hi hkc rfl hsub

/-- The invariant of a run of one cache: every live object is one of its own. -/
structure CacheRunInv (cfg : HeapConfig) (c : ℕ) (r : HeapRun) : Prop where
  heap : HeapInv cfg r.heap r.live
  source : ∀ a ∈ r.live, a.source = some c

section Runs

variable {P : HeapState → ℕ → Prop} {r r' : HeapRun}

/-- The head page that Free is given is the page of the block that backs the object. -/
theorem CacheRunInv.backed_of_page (hrun : CacheRunInv cfg c r) (ha : a ∈ r.live)
    (hpage : p = getHeadPage r.heap.pool.pgdb (virtToPage a.ptr)) :
    ∃ b, Backed r.heap a b ∧ p = b.start := by
  obtain ⟨b, hback⟩ := hrun.heap.backed a ha
  exact ⟨b, hback, hpage.trans (hrun.heap.free_head hback).1⟩

theorem CacheRunInv.step (hrun : CacheRunInv cfg c r) (hnodup : cfg.pools.Nodup)
    (hc : c ∈ cfg.caches) (hstep : CacheStep c P r r') : CacheRunInv cfg c r' := by
  cases hstep with
  | @malloc fuel obj h' hcall =>
    rcases hrun.heap.cacheMalloc hnodup hc hcall with ⟨rfl, hinv⟩ | ⟨hne, hserved⟩
    · exact ⟨by simpa only [if_true] using hinv, by simpa only [if_true] using hrun.source⟩
    · rw [if_neg hne]
      refine ⟨hserved _ (by rw [(hrun.heap.cache c hc).objSz]), fun a ha => ?_⟩
      rcases List.mem_cons.mp ha with rfl | ha
      · rfl
      · exact hrun.source a ha
  | free ha hpage _ hcall =>
    obtain ⟨b, hback, rfl⟩ := hrun.backed_of_page ha hpage
    obtain ⟨h', heq, hinv⟩ := hrun.heap.cacheFree ha hback (hrun.source _ ha)
    obtain rfl := Option.some.inj (heq.symm.trans hcall)
    exact ⟨hinv, fun x hx => hrun.source x (List.mem_of_mem_erase hx)⟩
  | write hframe => exact ⟨hrun.heap.write hframe, hrun.source⟩

theorem CacheRunInv.run {r₀ : HeapRun} (hinit : CacheRunInv cfg c r₀) (hnodup : cfg.pools.Nodup)
    (hc : c ∈ cfg.caches) (hsteps : Relation.ReflTransGen (CacheStep c P) r₀ r) :
    CacheRunInv cfg c r := by
  induction hsteps with
  | refl => exact hinit
  | tail _ hstep ih => exact ih.step hnodup hc hstep

/-- Frees to the current slab keep the full slabs used. -/
theorem FullPagesUsed.step (hused : FullPagesUsed r.heap c) (hrun : CacheRunInv cfg c r)
    (hnodup : cfg.pools.Nodup) (hc : c ∈ cfg.caches) (hstep : CacheStep c (FreesCurrent c) r r') :
    FullPagesUsed r'.heap c := by
  cases hstep with
  | malloc hcall => exact hused.cacheMalloc hrun.heap hnodup hc hcall
  | free _ _ hcur hcall => exact hused.cacheFree hrun.heap hc hcur hcall
  | write _ => exact hused

theorem FullPagesUsed.run {r₀ : HeapRun} (hused : FullPagesUsed r₀.heap c)
    (hinit : CacheRunInv cfg c r₀) (hnodup : cfg.pools.Nodup) (hc : c ∈ cfg.caches)
    (hsteps : Relation.ReflTransGen (CacheStep c (FreesCurrent c)) r₀ r) :
    FullPagesUsed r.heap c := by
  induction hsteps with
  | refl => exact hused
  | tail hsteps hstep ih => exact ih.step (hinit.run hnodup hc hsteps) hnodup hc hstep

end Runs

/-- The first state of a run satisfies the invariant, and nothing is full. -/
theorem FreshCache.start {pools : List ℕ} (hfresh : FreshCache h c pools) :
    CacheRunInv (cacheConfig h c pools) c ⟨h, []⟩ ∧ FullPagesUsed h c := by
  refine ⟨⟨hfresh.heapInv, by simp⟩, ?_⟩
  obtain ⟨i, _, pids, _, hkc⟩ := hfresh.cache
  obtain ⟨slots, heq, _⟩ := (KMemCache.init (kobjDefaultSize.getD i 0#64)).attach_same pids
  intro q hq
  rw [hkc, heq] at hq
  simp [KMemCache.init] at hq

/-- In a run whose frees all go to the current slab, every state serves exactly the
free objects of the owned slabs, and Malloc fails only when all of them are live and no
pool has a block. The first free to another slab breaks this. -/
theorem freedAvailable_while_current {pools : List ℕ} (hfresh : FreshCache h c pools) {r : HeapRun}
    (hrun : Relation.ReflTransGen (CacheStep c (FreesCurrent c)) ⟨h, []⟩ r) :
    FreedAvailable c r ∧
      ∀ a ∈ r.live, ¬ FreesCurrent c r.heap (getHeadPage r.heap.pool.pgdb (virtToPage a.ptr)) →
        ∀ h', r.heap.cacheFree c (getHeadPage r.heap.pool.pgdb (virtToPage a.ptr)) a.ptr = some h' →
          ¬ FreedAvailable c ⟨h', r.live.erase a⟩ := by
  have hc : c ∈ (cacheConfig h c pools).caches := List.mem_singleton_self c
  obtain ⟨hinit, hempty⟩ := hfresh.start
  have hinv := hinit.run hfresh.nodup hc hrun
  have hused := hempty.run hinit hfresh.nodup hc hrun
  refine ⟨(hinv.heap.freedAvailable_iff hfresh.nodup hc).mpr hused, fun a ha hcur h' hcall => ?_⟩
  obtain ⟨b, hback, hpage⟩ := hinv.backed_of_page ha rfl
  rw [hpage] at hcur hcall
  have hsource := hinv.source a ha
  obtain ⟨h₁, heq, hinv'⟩ := hinv.heap.cacheFree ha hback hsource
  obtain rfl := Option.some.inj (heq.symm.trans hcall)
  intro havail
  exact hused.lost_by_other hinv.heap ha hback hsource hcur hcall
    ((hinv'.freedAvailable_iff (r := ⟨h₁, r.live.erase a⟩) hfresh.nodup hc).mp havail)

/-- A cache of 2048-byte objects on a pool with one free block of four pages. -/
def slabHeap : HeapState where
  pool := fourPages.pool
  mem := fun _ => 0#8
  caches := fun _ => (KMemCache.init 2048#64).attach [globlPagePool]
  handedOut := []

theorem slabHeap_fresh : FreshCache slabHeap 0 [globlPagePool] where
  cache := ⟨8, by decide, [globlPagePool], fun _ hpid => hpid, rfl⟩
  nodup := List.nodup_singleton _
  separated := by
    show Separated (fourPages.pool.freeBlocks 0 ++ [])
    rw [List.append_nil]
    exact fourPages_separated
  stop := by
    show ∀ b ∈ fourPages.pool.freeBlocks 0 ++ [], b.stop ≤ directMapPages
    rw [fourPages_freeBlocks]
    decide
  handedOut := rfl

/-- One object is taken and freed while its slab is the current one. -/
theorem freedAvailable_while_current_slabHeap :
    ∃ r, Relation.ReflTransGen (CacheStep 0 (FreesCurrent 0)) ⟨slabHeap, []⟩ r ∧
      r.heap.handedOut = [⟨0, 0⟩] ∧ FreedAvailable 0 r := by
  have hcalls : (slabHeap.cacheMalloc 2 0).bind (fun res => (res.2.cacheFree 0 0 res.1).map
      fun h' => (res.1, getHeadPage res.2.pool.pgdb (virtToPage res.1), (res.2.caches 0).current,
        h'.handedOut)) = some (0xFFFF800000000800#64, 0, some 0, [⟨0, 0⟩]) := rfl
  obtain ⟨⟨obj, h₁⟩, hmalloc, hrest⟩ := Option.bind_eq_some_iff.mp hcalls
  obtain ⟨h₂, hfree, hres⟩ := Option.map_eq_some_iff.mp hrest
  simp only [Prod.mk.injEq] at hres
  obtain ⟨rfl, hpage, hcur, hout⟩ := hres
  have hrun : Relation.ReflTransGen (CacheStep 0 (FreesCurrent 0)) ⟨slabHeap, []⟩
      ⟨h₂, [⟨0xFFFF800000000800#64, _, some 0⟩].erase _⟩ :=
    (Relation.ReflTransGen.single (.malloc hmalloc)).tail
      (.free (List.mem_singleton_self _) hpage.symm hcur hfree)
  exact ⟨_, hrun, hout, (freedAvailable_while_current slabHeap_fresh hrun).1⟩

/-- Three objects of 2048 bytes fill one slab and start a second one. Freeing an object
of the first slab then raises its count while no list leads to the object. -/
theorem not_freedAvailable :
    ¬ ∀ (h : HeapState) (c : ℕ) (pools : List ℕ), FreshCache h c pools → ∀ r : HeapRun,
      Relation.ReflTransGen (CacheStep c fun _ _ => True) ⟨h, []⟩ r → FreedAvailable c r := by
  intro hall
  have hcalls : (slabHeap.cacheMalloc 2 0).bind (fun res₁ => (res₁.2.cacheMalloc 2 0).bind
      fun res₂ => (res₂.2.cacheMalloc 2 0).bind fun res₃ =>
        (res₃.2.cacheFree 0 0 res₂.1).map fun h' => (res₁.1, res₂.1, res₃.1,
          getHeadPage res₃.2.pool.pgdb (virtToPage res₂.1), (h'.caches 0).fullPages,
          (h'.pool.pgdb 0).objNr)) =
      some (0xFFFF800000000800#64, 0xFFFF800000000000#64, 0xFFFF800000001800#64, 0, [0], 1#64) :=
  rfl
  obtain ⟨⟨obj₁, h₁⟩, hmalloc₁, hrest⟩ := Option.bind_eq_some_iff.mp hcalls
  obtain ⟨⟨obj₂, h₂⟩, hmalloc₂, hrest⟩ := Option.bind_eq_some_iff.mp hrest
  obtain ⟨⟨obj₃, h₃⟩, hmalloc₃, hrest⟩ := Option.bind_eq_some_iff.mp hrest
  obtain ⟨h₄, hfree, hres⟩ := Option.map_eq_some_iff.mp hrest
  simp only [Prod.mk.injEq] at hres
  obtain ⟨rfl, rfl, rfl, hpage, hfull, hobjNr⟩ := hres
  let any : HeapState → ℕ → Prop := fun _ _ => True
  have hrun₁ := Relation.ReflTransGen.single
    (CacheStep.malloc (P := any) (r := ⟨slabHeap, []⟩) hmalloc₁)
  have hrun₂ := hrun₁.tail (CacheStep.malloc hmalloc₂)
  have hrun₃ := hrun₂.tail (CacheStep.malloc hmalloc₃)
  have hrun := hrun₃.tail (CacheStep.free (List.mem_cons_of_mem _ List.mem_cons_self) hpage.symm
    trivial hfree)
  have havail := hall _ _ _ slabHeap_fresh _ hrun
  have hinv := (slabHeap_fresh.start.1.run slabHeap_fresh.nodup (List.mem_singleton_self 0) hrun)
  have hused := (hinv.heap.freedAvailable_iff slabHeap_fresh.nodup (List.mem_singleton_self 0)).mp
    havail 0 (by rw [hfull]; exact List.mem_singleton_self 0)
  rw [hobjNr] at hused
  exact absurd hused (by decide)

end ClosureOS
