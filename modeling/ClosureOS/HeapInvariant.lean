import ClosureOS.SlabLayout
import Mathlib.Data.List.Count

/-!
The invariant of the heap. The blocks handed out by the buddy system stay separated
from each other and from the free ones. A block with a cache in its head page is a
slab: its objects are free or live, obj_nr counts the free ones, and the free objects
of the current slab are chained. A block without a cache carries at most one live
allocation. An operation works on one block; what it has to show is stated once.
-/
namespace ClosureOS

open ByteMemory DyadicBlocks PoolState

/-! ### Blocks of a group of pools -/

namespace PoolState

def freeBlocksOf (s : PoolState) (pools : List ℕ) : List Block := pools.flatMap s.freeBlocks

theorem freeBlocksOf_perm (s : PoolState) {pools : List ℕ} {pid : ℕ} (h : pid ∈ pools) :
    (s.freeBlocksOf pools).Perm (s.freeBlocks pid ++ s.freeBlocksOf (pools.erase pid)) :=
  (List.perm_cons_erase h).flatMap_right _

theorem mem_freeBlocksOf {s : PoolState} {pools : List ℕ} {b : Block} :
    b ∈ s.freeBlocksOf pools ↔ ∃ pid ∈ pools, b ∈ s.freeBlocks pid :=
  List.mem_flatMap

theorem freeBlocks_erase {s : PoolState} {pid p : ℕ} (h : ∀ b ∈ s.freeBlocks pid, p ∉ b) :
    blocks maxPageOrder (fun k => (s.freelist pid k).erase p) = s.freeBlocks pid := by
  apply blocks_congr
  intro k hk
  apply List.erase_of_not_mem
  intro hp
  exact h ⟨p, k⟩ (mem_freeBlocks.mpr ⟨hk, hp⟩) (Block.start_mem ⟨p, k⟩)

/-- Unlinking a page that is in no free block. -/
theorem freeBlocksOf_listDel {s : PoolState} {pools : List ℕ} {p : ℕ}
    (h : ∀ b ∈ s.freeBlocksOf pools, p ∉ b) :
    (s.listDel p).freeBlocksOf pools = s.freeBlocksOf pools := by
  apply List.flatMap_congr
  intro pid hpid
  exact freeBlocks_erase fun b hb => h b (mem_freeBlocksOf.mpr ⟨pid, hpid, hb⟩)

/-- A successful AllocPages seen from a group of pools. -/
structure AllocatedFrom (s : PoolState) (pools : List ℕ) (order p : ℕ) (l : List Block)
    (s' : PoolState) : Prop where
  order_lt : order < maxPageOrder
  source : ∃ a ∈ s.freeBlocksOf pools, ∀ i ∈ (⟨p, order⟩ : Block), i ∈ a
  separated : Separated (⟨p, order⟩ :: (s'.freeBlocksOf pools ++ l))
  free_subset : ∀ b ∈ s'.freeBlocksOf pools, ∃ a ∈ s.freeBlocksOf pools, ∀ i ∈ b, i ∈ a
  entry : ∀ q ∈ (⟨p, order⟩ : Block), s'.pgdb q = reinitEntry (s.pgdb q) order false (q == p)
  frame : ∀ q, (∀ b ∈ s.freeBlocksOf pools, q ∉ b) → s'.pgdb q = s.pgdb q

theorem allocatedFrom {s s' : PoolState} {pools : List ℕ} {pid order p : ℕ} {l : List Block}
    (hnodup : pools.Nodup) (hpid : pid ∈ pools) (hsep : Separated (s.freeBlocksOf pools ++ l))
    (h : s.allocPages pid order = (some p, s')) : AllocatedFrom s pools order p l s' := by
  have hperm := s.freeBlocksOf_perm hpid
  have hsep' : Separated (s.freeBlocks pid ++ (s.freeBlocksOf (pools.erase pid) ++ l)) := by
    rw [← List.append_assoc]
    exact hsep.perm (hperm.append_right l)
  have halloc := allocPages_some hsep' h
  obtain ⟨a, ha, hsub⟩ := halloc.source
  have hpa : p ∈ a := hsub p (Block.start_mem ⟨p, order⟩)
  -- the lists of the other pools do not hold the block that was split
  have hothers : s'.freeBlocksOf (pools.erase pid) = s.freeBlocksOf (pools.erase pid) := by
    apply List.flatMap_congr
    intro i hi
    have hne : i ≠ pid := fun he => hnodup.not_mem_erase (he ▸ hi)
    rw [PoolState.freeBlocks, halloc.others i hne]
    apply freeBlocks_erase
    intro b hb
    have hbmem : b ∈ s.freeBlocksOf (pools.erase pid) ++ l :=
      List.mem_append_left _ (mem_freeBlocksOf.mpr ⟨i, hi, hb⟩)
    exact ((List.pairwise_append.mp hsep'.apart).2.2 a ha b hbmem).not_mem hpa
  have hperm' := s'.freeBlocksOf_perm hpid
  rw [hothers] at hperm'
  refine ⟨halloc.order_lt, ⟨a, hperm.mem_iff.mpr (List.mem_append_left _ ha), hsub⟩, ?_, ?_,
    halloc.entry, ?_⟩
  · refine halloc.separated.of_perm (List.Perm.cons _ ?_)
    rw [← List.append_assoc]
    exact hperm'.append_right l
  · intro b hb
    rcases List.mem_append.mp (hperm'.mem_iff.mp hb) with hb | hb
    · obtain ⟨c, hc, hsubc⟩ := halloc.free_subset b hb
      exact ⟨c, hperm.mem_iff.mpr (List.mem_append_left _ hc), hsubc⟩
    · exact ⟨b, hperm.mem_iff.mpr (List.mem_append_right _ hb), fun _ hi => hi⟩
  · exact fun q hq => halloc.frame q fun b hb =>
      hq b (hperm.mem_iff.mpr (List.mem_append_left _ hb))

end PoolState

/-! ### The invariant -/

/-- A live allocation: its address, the bytes asked for and the cache that served it,
none when it is backed by pages. -/
structure Allocation where
  ptr : Word
  size : ℕ
  source : Option ℕ
deriving DecidableEq

/-- How many allocations lie on pages of a block. -/
def liveIn (live : List Allocation) (b : Block) : ℕ :=
  live.countP fun a => decide (virtToPage a.ptr ∈ b)

/-- The sizes that Init computes for an object size of the default table. -/
structure KMemCache.Sized (kc : KMemCache) : Prop where
  order_lt : kc.order < maxPageOrder
  aligned : 16 ∣ kc.objSz.toNat
  pos : 0 < kc.objSz.toNat
  two : 2 ≤ kc.pageObjNr.toNat
  fits : kc.pageObjNr.toNat * kc.objSz.toNat ≤ 4096 * 2 ^ kc.order

/-- Page p heads a block that was handed out and sliced for cache c. -/
def OwnsSlab (h : HeapState) (c p : ℕ) : Prop :=
  ∃ b ∈ h.handedOut, b.start = p ∧ (h.pool.pgdb p).kc = some c

/-- What stays fixed in a run: the pools and caches in use and the object sizes. -/
structure HeapConfig where
  pools : List ℕ
  caches : List ℕ
  objSz : ℕ → Word

structure CacheInv (cfg : HeapConfig) (h : HeapState) (c : ℕ) : Prop where
  sized : (h.caches c).Sized
  objSz : (h.caches c).objSz = cfg.objSz c
  attached : ∀ pid ∈ (h.caches c).attachedPools, pid ∈ cfg.pools
  noPartial : (h.caches c).partialPages = []
  current : ∀ p, (h.caches c).current = some p → OwnsSlab h c p
  idle : (h.caches c).current = none → (h.caches c).freelist = 0#64
  full : ∀ p ∈ (h.caches c).fullPages, (h.caches c).current ≠ some p ∧ OwnsSlab h c p
  nodup : (h.caches c).fullPages.Nodup

/-- The slab b of cache c: obj_nr counts the objects that are not live, and the
chain of the current slab holds all of them. -/
structure SlabInv (h : HeapState) (live : List Allocation) (c : ℕ) (b : Block) : Prop where
  order : b.order = (h.caches c).order
  count : (h.pool.pgdb b.start).objNr.toNat + liveIn live b = (h.caches c).pageObjNr.toNat
  current : (h.caches c).current = some b.start →
    (h.pool.pgdb b.start).refCount = 0#32 ∧
      ∃ l, Chain (load64 h.mem) 0#64 (h.caches c).freelist l ∧ l.Nodup ∧
        l.length = (h.pool.pgdb b.start).objNr.toNat ∧
        ∀ a ∈ l, a ∈ slots b.start (h.caches c).objSz (h.caches c).pageObjNr.toNat ∧
          ∀ x ∈ live, x.ptr ≠ a
  listed : (h.caches c).current ≠ some b.start →
    (h.pool.pgdb b.start).objNr.toNat < (h.caches c).pageObjNr.toNat →
      b.start ∈ (h.caches c).fullPages ∧ (h.pool.pgdb b.start).refCount = 0#32

/-- The block b that was handed out backs the allocation a. -/
structure Backed (h : HeapState) (a : Allocation) (b : Block) : Prop where
  mem : b ∈ h.handedOut
  kc : (h.pool.pgdb b.start).kc = a.source
  object : ∀ c, a.source = some c → a.size ≤ (h.caches c).objSz.toNat ∧
    a.ptr ∈ slots b.start (h.caches c).objSz (h.caches c).pageObjNr.toNat
  large : a.source = none → a.ptr = pageToVirt b.start ∧ a.size ≤ 4096 * 2 ^ b.order ∧
    (h.pool.pgdb b.start).refCount = 0#32

structure HeapInv (cfg : HeapConfig) (h : HeapState) (live : List Allocation) : Prop where
  separated : Separated (h.pool.freeBlocksOf cfg.pools ++ h.handedOut)
  stop : ∀ b ∈ h.pool.freeBlocksOf cfg.pools ++ h.handedOut, b.stop ≤ directMapPages
  order_lt : ∀ b ∈ h.handedOut, b.order < maxPageOrder
  entry : ∀ b ∈ h.handedOut, ∀ q ∈ b,
    (h.pool.pgdb q).order = b.order ∧ (h.pool.pgdb q).isHead = (q == b.start)
  cache : ∀ c ∈ cfg.caches, CacheInv cfg h c
  slab : ∀ b ∈ h.handedOut, ∀ c, (h.pool.pgdb b.start).kc = some c →
    c ∈ cfg.caches ∧ SlabInv h live c b
  backed : ∀ a ∈ live, ∃ b, Backed h a b
  distinct : live.Pairwise fun a a' => a.ptr ≠ a'.ptr

section Reading

variable {cfg : HeapConfig} {h h' : HeapState} {live live' : List Allocation} {b d : Block}
  {a : Allocation} {c p q : ℕ}

theorem HeapInv.handedOut_apart (hinv : HeapInv cfg h live) (hb : b ∈ h.handedOut)
    (hd : d ∈ h.handedOut) (hne : b ≠ d) : b.Apart d := by
  have happ := (List.pairwise_append.mp hinv.separated.apart).2.1
  exact happ.forall hb hd hne

theorem HeapInv.eq_of_start (hinv : HeapInv cfg h live) (hb : b ∈ h.handedOut)
    (hd : d ∈ h.handedOut) (heq : b.start = d.start) : b = d := by
  by_contra hne
  exact (hinv.handedOut_apart hb hd hne).not_mem b.start_mem (heq ▸ d.start_mem)

theorem HeapInv.start_ne (hinv : HeapInv cfg h live) (hb : b ∈ h.handedOut)
    (hd : d ∈ h.handedOut) (hne : d ≠ b) : d.start ≠ b.start :=
  fun heq => hne (hinv.eq_of_start hd hb heq)

/-- Pages of a block that was handed out are in no free block. -/
theorem HeapInv.not_mem_free (hinv : HeapInv cfg h live) (hb : b ∈ h.handedOut)
    (hq : q ∈ b) : ∀ d ∈ h.pool.freeBlocksOf cfg.pools, q ∉ d :=
  fun d hd => ((List.pairwise_append.mp hinv.separated.apart).2.2 d hd b hb).symm.not_mem hq

theorem HeapInv.stop_handedOut (hinv : HeapInv cfg h live) (hb : b ∈ h.handedOut) :
    b.stop ≤ directMapPages :=
  hinv.stop b (List.mem_append_right _ hb)

theorem HeapInv.aligned (hinv : HeapInv cfg h live) (hb : b ∈ h.handedOut) : b.Aligned :=
  hinv.separated.aligned b (List.mem_append_right _ hb)

theorem KMemCache.Sized.word_le {kc : KMemCache} (h : kc.Sized) : 8 ≤ kc.objSz.toNat := by
  obtain ⟨m, hm⟩ := h.aligned
  have := h.pos
  omega

theorem HeapInv.sized (hinv : HeapInv cfg h live) (hb : b ∈ h.handedOut)
    (hkc : (h.pool.pgdb b.start).kc = some c) : (h.caches c).Sized :=
  (hinv.cache c (hinv.slab b hb c hkc).1).sized

theorem HeapInv.fits (hinv : HeapInv cfg h live) (hb : b ∈ h.handedOut)
    (hkc : (h.pool.pgdb b.start).kc = some c) :
    SlabFits b (h.caches c).objSz (h.caches c).pageObjNr where
  stop := hinv.stop_handedOut hb
  pos := (hinv.sized hb hkc).pos
  fits := by
    rw [(hinv.slab b hb c hkc).2.order]
    exact (hinv.sized hb hkc).fits

/-- The head page of each page of a block that was handed out. -/
theorem HeapInv.getHeadPage_eq (hinv : HeapInv cfg h live) (hb : b ∈ h.handedOut)
    (hq : q ∈ b) : getHeadPage h.pool.pgdb q = b.start := by
  have hstop := hinv.stop_handedOut hb
  refine ClosureOS.getHeadPage_eq (k := b.order) (hinv.order_lt b hb) (hinv.aligned hb) ?_ hq
    (hinv.entry b hb q hq).1 (hinv.entry b hb q hq).2
  exact hstop.trans (Nat.pow_le_pow_right (by omega) (by omega))

/-- The address of an allocation lies on a page of the block that backs it. -/
theorem HeapInv.virtToPage_mem (hinv : HeapInv cfg h live) (hback : Backed h a b) :
    virtToPage a.ptr ∈ b := by
  cases hsource : a.source with
  | none =>
    obtain ⟨hptr, _, _⟩ := hback.large hsource
    rw [hptr]
    have hpos := Nat.two_pow_pos b.order
    apply virtToPage_mem_of_inRange (hinv.stop_handedOut hback.mem) (n := 1) (by omega)
    rw [InRange, BitVec.sub_self]
    exact Nat.one_pos
  | some c =>
    have hfits := hinv.fits hback.mem (hback.kc.trans hsource)
    exact hfits.virtToPage_of_mem_slots (hback.object c hsource).2

theorem HeapInv.backed_eq (hinv : HeapInv cfg h live) (hback : Backed h a d)
    (hb : b ∈ h.handedOut) (hmem : virtToPage a.ptr ∈ b) : d = b := by
  by_contra hne
  exact (hinv.handedOut_apart hback.mem hb hne).not_mem (hinv.virtToPage_mem hback) hmem

theorem HeapInv.backed_of_mem (hinv : HeapInv cfg h live) (ha : a ∈ live)
    (hb : b ∈ h.handedOut) (hmem : virtToPage a.ptr ∈ b) : Backed h a b := by
  obtain ⟨d, hback⟩ := hinv.backed a ha
  exact hinv.backed_eq hback hb hmem ▸ hback

end Reading

/-! ### Changes inside one block -/

/-- What a change of cache record must keep for the slab at page p. -/
structure SameFor (kc kc' : KMemCache) (p : ℕ) : Prop where
  order : kc'.order = kc.order
  objSz : kc'.objSz = kc.objSz
  pageObjNr : kc'.pageObjNr = kc.pageObjNr
  current : kc'.current = some p ↔ kc.current = some p
  freelist : kc.current = some p → kc'.freelist = kc.freelist
  full : p ∈ kc.fullPages → p ∈ kc'.fullPages

theorem SameFor.refl (kc : KMemCache) (p : ℕ) : SameFor kc kc p :=
  ⟨rfl, rfl, rfl, Iff.rfl, fun _ => rfl, id⟩

/-- A change that only concerns the block b: its head entry, the bytes of its pages
and the allocations on them. -/
structure LocalChange (cfg : HeapConfig) (h h' : HeapState) (live live' : List Allocation)
    (b : Block) : Prop where
  free : h'.pool.freeBlocksOf cfg.pools = h.pool.freeBlocksOf cfg.pools
  handedOut : h'.handedOut = h.handedOut
  entry : ∀ q, q ≠ b.start → h'.pool.pgdb q = h.pool.pgdb q
  order : (h'.pool.pgdb b.start).order = (h.pool.pgdb b.start).order
  isHead : (h'.pool.pgdb b.start).isHead = (h.pool.pgdb b.start).isHead
  mem : ∀ x, virtToPage x ∉ b → h'.mem x = h.mem x
  mem_live : ∀ a ∈ live', a ∈ live ∨ virtToPage a.ptr ∈ b
  count : ∀ d, b.Apart d → liveIn live' d = liveIn live d
  caches : ∀ c ∈ cfg.caches, ∀ p, p ≠ b.start → SameFor (h.caches c) (h'.caches c) p

section Local

variable {cfg : HeapConfig} {h h' : HeapState} {live live' : List Allocation} {b d : Block}
  {a : Allocation} {c p q : ℕ}

theorem LocalChange.slab (hchange : LocalChange cfg h h' live live' b)
    (hinv : HeapInv cfg h live) (hb : b ∈ h.handedOut) (hd : d ∈ h.handedOut)
    (hne : d ≠ b) (hkc : (h.pool.pgdb d.start).kc = some c) : SlabInv h' live' c d := by
  obtain ⟨hc, hslab⟩ := hinv.slab d hd c hkc
  have hstart := hinv.start_ne hb hd hne
  have happ := hinv.handedOut_apart hb hd (Ne.symm hne)
  have hsame := hchange.caches c hc d.start hstart
  have hentry := hchange.entry d.start hstart
  have hfits := hinv.fits hd hkc
  refine ⟨?_, ?_, ?_, ?_⟩
  · rw [hsame.order]
    exact hslab.order
  · rw [hentry, hchange.count d happ, hsame.pageObjNr]
    exact hslab.count
  · intro hcur
    obtain ⟨href, l, hchain, hnodup, hlen, hmem⟩ := hslab.current (hsame.current.mp hcur)
    rw [hentry, hsame.freelist (hsame.current.mp hcur), hsame.objSz, hsame.pageObjNr]
    refine ⟨href, l, ?_, hnodup, hlen, ?_⟩
    · refine hchain.congr fun x hx => load64_congr fun y hy => ?_
      obtain ⟨i, hi, rfl⟩ := mem_slots.mp (hmem x hx).1
      have hyd := hfits.virtToPage_mem hi (hinv.sized hd hkc).word_le hy
      exact (hchange.mem y (happ.symm.not_mem hyd)).symm
    · intro x hx
      refine ⟨(hmem x hx).1, fun y hy heq => ?_⟩
      rcases hchange.mem_live y hy with hy | hy
      · exact (hmem x hx).2 y hy heq
      · have hxd := hfits.virtToPage_of_mem_slots (hmem x hx).1
        exact happ.not_mem hy (heq ▸ hxd)
  · intro hcur hlt
    rw [hentry] at hlt ⊢
    rw [hsame.pageObjNr] at hlt
    obtain ⟨hfull, href⟩ := hslab.listed (fun hc => hcur (hsame.current.mpr hc)) hlt
    exact ⟨hsame.full hfull, href⟩

theorem LocalChange.backed (hchange : LocalChange cfg h h' live live' b)
    (hinv : HeapInv cfg h live) (hb : b ∈ h.handedOut) (hback : Backed h a d)
    (hne : d ≠ b) : Backed h' a d := by
  have hstart := hinv.start_ne hb hback.mem hne
  have hentry := hchange.entry d.start hstart
  refine ⟨hchange.handedOut ▸ hback.mem, by rw [hentry]; exact hback.kc, ?_, ?_⟩
  · intro c hsource
    have hc := (hinv.slab d hback.mem c (hback.kc.trans hsource)).1
    have hsame := hchange.caches c hc d.start hstart
    rw [hsame.objSz, hsame.pageObjNr]
    exact hback.object c hsource
  · intro hsource
    rw [hentry]
    exact hback.large hsource

/-- A cache that an operation leaves as it is. -/
theorem CacheInv.frame (hcache : CacheInv cfg h c) (hsame : h'.caches c = h.caches c)
    (howns : ∀ p, OwnsSlab h c p → OwnsSlab h' c p) : CacheInv cfg h' c := by
  refine ⟨?_, ?_, ?_, ?_, ?_, ?_, ?_, ?_⟩ <;> rw [hsame]
  · exact hcache.sized
  · exact hcache.objSz
  · exact hcache.attached
  · exact hcache.noPartial
  · exact fun p hp => howns p (hcache.current p hp)
  · exact hcache.idle
  · exact fun p hp => ⟨(hcache.full p hp).1, howns p (hcache.full p hp).2⟩
  · exact hcache.nodup

theorem LocalChange.ownsSlab (hchange : LocalChange cfg h h' live live' b)
    (hkc : (h.pool.pgdb b.start).kc = some c → (h'.pool.pgdb b.start).kc = some c)
    (howns : OwnsSlab h c p) : OwnsSlab h' c p := by
  obtain ⟨d, hd, rfl, hkcd⟩ := howns
  refine ⟨d, hchange.handedOut ▸ hd, rfl, ?_⟩
  by_cases heq : d.start = b.start
  · rw [heq] at hkcd ⊢
    exact hkc hkcd
  · rw [hchange.entry d.start heq]
    exact hkcd

/-- The invariant after a change inside b: the caches, the slab at b and the
allocations on b have to be looked at, and nothing else. -/
theorem HeapInv.change (hinv : HeapInv cfg h live) (hb : b ∈ h.handedOut)
    (hchange : LocalChange cfg h h' live live' b)
    (hcaches : ∀ c ∈ cfg.caches, CacheInv cfg h' c)
    (hslab : ∀ c, (h'.pool.pgdb b.start).kc = some c → c ∈ cfg.caches ∧ SlabInv h' live' c b)
    (hback : ∀ a ∈ live', virtToPage a.ptr ∈ b → Backed h' a b)
    (hdistinct : live'.Pairwise fun a a' => a.ptr ≠ a'.ptr) : HeapInv cfg h' live' := by
  refine ⟨?_, ?_, ?_, ?_, hcaches, ?_, ?_, hdistinct⟩
  · rw [hchange.free, hchange.handedOut]
    exact hinv.separated
  · rw [hchange.free, hchange.handedOut]
    exact hinv.stop
  · rw [hchange.handedOut]
    exact hinv.order_lt
  · intro d hd q hq
    rw [hchange.handedOut] at hd
    have hold := hinv.entry d hd q hq
    by_cases hqb : q = b.start
    · subst hqb
      rw [hchange.order, hchange.isHead]
      exact hold
    · rw [hchange.entry q hqb]
      exact hold
  · intro d hd c hkc
    rw [hchange.handedOut] at hd
    by_cases hne : d = b
    · subst hne
      exact hslab c hkc
    · rw [hchange.entry d.start (hinv.start_ne hb hd hne)] at hkc
      exact ⟨(hinv.slab d hd c hkc).1, hchange.slab hinv hb hd hne hkc⟩
  · intro a ha
    by_cases hmem : virtToPage a.ptr ∈ b
    · exact ⟨b, hback a ha hmem⟩
    · rcases hchange.mem_live a ha with hold | hold
      · obtain ⟨d, hbackd⟩ := hinv.backed a hold
        refine ⟨d, hchange.backed hinv hb hbackd ?_⟩
        rintro rfl
        exact hmem (hinv.virtToPage_mem hbackd)
      · exact absurd hold hmem

end Local

/-! ### Counting the allocations of a block -/

section Counting

variable {live : List Allocation} {a : Allocation} {b d : Block}

theorem liveIn_cons_of_mem (h : virtToPage a.ptr ∈ b) : liveIn (a :: live) b = liveIn live b + 1 :=
  List.countP_cons_of_pos (by simpa using h)

theorem liveIn_cons_of_apart (h : virtToPage a.ptr ∈ b) (happ : b.Apart d) :
    liveIn (a :: live) d = liveIn live d :=
  List.countP_cons_of_neg (by simpa using happ.not_mem h)

theorem liveIn_erase_of_mem (ha : a ∈ live) (h : virtToPage a.ptr ∈ b) :
    liveIn (live.erase a) b = liveIn live b - 1 := by
  rw [liveIn, List.countP_erase, if_pos ⟨ha, by simpa using h⟩]
  rfl

theorem liveIn_pos (ha : a ∈ live) (h : virtToPage a.ptr ∈ b) : 0 < liveIn live b :=
  List.countP_pos_iff.mpr ⟨a, ha, by simpa using h⟩

theorem liveIn_erase_of_apart (h : virtToPage a.ptr ∈ b) (happ : b.Apart d) :
    liveIn (live.erase a) d = liveIn live d := by
  rw [liveIn, List.countP_erase, if_neg]
  · rfl
  · rintro ⟨_, hmem⟩
    exact happ.not_mem h (by simpa using hmem)

end Counting

/-! ### The first state of a run -/

/-- AddPool called with one pool after the other. -/
def KMemCache.attach (kc : KMemCache) (pids : List ℕ) : KMemCache :=
  pids.foldl (fun kc pid => (kc.addPool pid).2) kc

theorem KMemCache.addPool_same (kc : KMemCache) (pid : ℕ) :
    ∃ pools, (kc.addPool pid).2 = { kc with pools := pools } ∧
      ∀ i q, pools i = some q → kc.pools i = some q ∨ q = pid := by
  unfold KMemCache.addPool
  split
  · exact ⟨kc.pools, rfl, fun _ _ h => Or.inl h⟩
  · split
    · exact ⟨kc.pools, rfl, fun _ _ h => Or.inl h⟩
    · refine ⟨_, rfl, fun i q hq => ?_⟩
      rw [Function.update_apply] at hq
      split at hq
      · exact Or.inr (Option.some.inj hq).symm
      · exact Or.inl hq

/-- Attaching pools changes the slots only, and puts nothing else into them. -/
theorem KMemCache.attach_same (kc : KMemCache) (pids : List ℕ) :
    ∃ pools, kc.attach pids = { kc with pools := pools } ∧
      ∀ i q, pools i = some q → kc.pools i = some q ∨ q ∈ pids := by
  induction pids generalizing kc with
  | nil => exact ⟨kc.pools, rfl, fun _ _ h => Or.inl h⟩
  | cons pid pids ih =>
    obtain ⟨pools₁, heq₁, hsub₁⟩ := kc.addPool_same pid
    obtain ⟨pools₂, heq₂, hsub₂⟩ := ih (kc.addPool pid).2
    refine ⟨pools₂, ?_, fun i q hq => ?_⟩
    · rw [KMemCache.attach, List.foldl_cons]
      unfold KMemCache.attach at heq₂
      rw [heq₂, heq₁]
    · rcases hsub₂ i q hq with hold | hmem
      · rw [heq₁] at hold
        rcases hsub₁ i q hold with hold | rfl
        · exact Or.inl hold
        · exact Or.inr List.mem_cons_self
      · exact Or.inr (List.mem_cons_of_mem _ hmem)

/-- Every default size passes what a slab needs of it. -/
theorem KMemCache.init_sized {i : ℕ} (hi : i < kobjectSizeNr) :
    (KMemCache.init (kobjDefaultSize.getD i 0#64)).Sized := by
  constructor <;> revert i <;> decide

section Fresh

variable {cfg : HeapConfig} {h : HeapState} {c : ℕ}

/-- A cache that was just initialised with a default size and attached to pools. -/
theorem CacheInv.fresh {i : ℕ} {pids : List ℕ} (hi : i < kobjectSizeNr)
    (hkc : h.caches c = (KMemCache.init (kobjDefaultSize.getD i 0#64)).attach pids)
    (hobjSz : (h.caches c).objSz = cfg.objSz c) (hsub : ∀ pid ∈ pids, pid ∈ cfg.pools) :
    CacheInv cfg h c := by
  obtain ⟨pools, heq, hpools⟩ :=
    (KMemCache.init (kobjDefaultSize.getD i 0#64)).attach_same pids
  have hsized := KMemCache.init_sized hi
  rw [heq] at hkc
  refine ⟨?_, hobjSz, ?_, ?_, ?_, ?_, ?_, ?_⟩ <;> rw [hkc]
  · exact ⟨hsized.order_lt, hsized.aligned, hsized.pos, hsized.two, hsized.fits⟩
  · intro pid hpid
    obtain ⟨i, _, hi⟩ := List.mem_filterMap.mp hpid
    rcases hpools i pid hi with hnone | hmem
    · simp [KMemCache.init] at hnone
    · exact hsub pid hmem
  · rfl
  · intro p hp
    simp [KMemCache.init] at hp
  · exact fun _ => rfl
  · intro p hp
    simp [KMemCache.init] at hp
  · exact List.nodup_nil

theorem HeapInv.fresh (hsep : Separated (h.pool.freeBlocksOf cfg.pools))
    (hstop : ∀ b ∈ h.pool.freeBlocksOf cfg.pools, b.stop ≤ directMapPages)
    (hout : h.handedOut = []) (hcaches : ∀ c ∈ cfg.caches, CacheInv cfg h c) :
    HeapInv cfg h [] := by
  refine ⟨?_, ?_, ?_, ?_, hcaches, ?_, by simp, List.Pairwise.nil⟩ <;> rw [hout]
  · rw [List.append_nil]
    exact hsep
  · rw [List.append_nil]
    exact hstop
  · simp
  · simp
  · simp

end Fresh

end ClosureOS
