import ClosureOS.HeapSteps
import Mathlib.Logic.Relation

/-!
Runs of the heap front end: KHeapPool::Malloc and KHeapPool::Free in any order, with
clients that write into the memory they were given. Every state of a run satisfies the
heap invariant, and every call of a run returns.
-/
namespace ClosureOS

open ByteMemory DyadicBlocks PoolState HeapState

variable {cfg : HeapConfig} {h h' : HeapState} {live : List Allocation} {b : Block}
  {a : Allocation} {c p q order : ℕ}

/-! ### Allocations backed by pages -/

/-- A new count on a block that no cache owns. -/
theorem HeapInv.setRefCount (hinv : HeapInv cfg h live) (hb : b ∈ h.handedOut)
    (hkc : (h.pool.pgdb b.start).kc = none) {pg : Page} {r : BitVec 32}
    (hpg : pg = { h.pool.pgdb b.start with refCount := r }) {live' : List Allocation}
    (hmem : ∀ a ∈ live', a ∈ live ∨ virtToPage a.ptr ∈ b)
    (hcount : ∀ d, b.Apart d → liveIn live' d = liveIn live d)
    (hback : ∀ a ∈ live', virtToPage a.ptr ∈ b → Backed (h.setPage b.start pg) a b)
    (hdistinct : live'.Pairwise fun a a' => a.ptr ≠ a'.ptr) :
    HeapInv cfg (h.setPage b.start pg) live' := by
  have hentry := setPage_pgdb_self h b.start pg
  have hchange : LocalChange cfg h (h.setPage b.start pg) live live' b :=
    ⟨rfl, rfl, fun q hq => Function.update_of_ne hq .., by rw [hentry, hpg],
      by rw [hentry, hpg], fun _ _ => rfl, hmem, hcount, fun _ _ _ _ => SameFor.refl _ _⟩
  refine hinv.change hb hchange ?_ ?_ hback hdistinct
  · intro c hc
    refine (hinv.cache c hc).frame rfl fun p ho => hchange.ownsSlab (fun hs => ?_) ho
    rw [hkc] at hs
    exact absurd hs (by simp)
  · intro c hkc'
    rw [hentry, hpg] at hkc'
    exact absurd (hkc.symm.trans hkc') (by simp)

theorem HeapInv.virtToPage_start (hinv : HeapInv cfg h live) (hb : b ∈ h.handedOut) :
    virtToPage (pageToVirt b.start) ∈ b := by
  have hpos := Nat.two_pow_pos b.order
  apply virtToPage_mem_of_inRange (hinv.stop_handedOut hb) (n := 1) (by omega)
  rw [InRange, BitVec.sub_self]
  exact Nat.one_pos

/-- A block that was just handed out is taken for one large allocation. -/
theorem HeapInv.takePages (hinv : HeapInv cfg h live) (hb : b ∈ h.handedOut)
    (hkc : (h.pool.pgdb b.start).kc = none) (href : (h.pool.pgdb b.start).refCount = -1#32)
    (hempty : ∀ a ∈ live, virtToPage a.ptr ∉ b) {size : ℕ} (hsize : size ≤ 4096 * 2 ^ b.order) :
    HeapInv cfg { h with pool := h.pool.getPage b.start }
      (⟨pageToVirt b.start, size, none⟩ :: live) := by
  have hon := hinv.virtToPage_start hb
  have hnew : ∀ y ∈ live, pageToVirt b.start ≠ y.ptr := by
    intro y hy heq
    rw [heq] at hon
    exact hempty y hy hon
  rw [getPage_of_isHead (hinv.isHead hb), href]
  refine hinv.setRefCount hb hkc rfl ?_ (fun d happ => liveIn_cons_of_apart hon happ) ?_
    (List.pairwise_cons.mpr ⟨hnew, hinv.distinct⟩)
  · intro a ha
    rcases List.mem_cons.mp ha with rfl | ha
    · exact Or.inr hon
    · exact Or.inl ha
  · intro a ha hmem
    rcases List.mem_cons.mp ha with rfl | ha
    · have hentry := setPage_pgdb_self h b.start
        { h.pool.pgdb b.start with refCount := -1#32 + 1#32 }
      exact ⟨hb, by rw [hentry]; exact hkc, by simp, fun _ => ⟨rfl, hsize, by rw [hentry]; rfl⟩⟩
    · exact absurd hmem (hempty a ha)

/-- Free of a page-backed allocation lowers the count to -1 and releases nothing. -/
theorem HeapInv.dropPages (hinv : HeapInv cfg h live) (ha : a ∈ live) (hback : Backed h a b)
    (hsource : a.source = none) :
    ∃ h', h.putPage b.start = some h' ∧ HeapInv cfg h' (live.erase a) := by
  obtain ⟨hptr, _, href⟩ := hback.large hsource
  have hb := hback.mem
  have hkc := hback.kc.trans hsource
  have hon := hinv.virtToPage_mem hback
  refine ⟨_, HeapState.putPage_of_isHead (hinv.isHead hb) href, ?_⟩
  refine hinv.setRefCount hb hkc rfl (fun x hx => Or.inl (List.mem_of_mem_erase hx))
    (fun d happ => liveIn_erase_of_apart hon happ) ?_ (hinv.distinct.sublist List.erase_sublist)
  intro x hx hxon
  have hbackx := hinv.backed_of_mem (List.mem_of_mem_erase hx) hb hxon
  have hxptr := (hbackx.large (hbackx.kc.symm.trans hkc)).1
  exact absurd (hxptr.trans hptr.symm) (distinct_erase hinv ha x hx)

/-! ### Client writes -/

/-- Every byte of a live allocation is on a page of the block that backs it. -/
theorem HeapInv.range_mem (hinv : HeapInv cfg h live) (hback : Backed h a b) {x : Word}
    (hx : InRange a.ptr a.size x) : virtToPage x ∈ b := by
  cases hsource : a.source with
  | none =>
    obtain ⟨hptr, hsize, _⟩ := hback.large hsource
    rw [hptr] at hx
    exact virtToPage_mem_of_inRange (hinv.stop_handedOut hback.mem) hsize hx
  | some c =>
    obtain ⟨hsize, hslot⟩ := hback.object c hsource
    obtain ⟨i, hi, heq⟩ := mem_slots.mp hslot
    rw [heq] at hx
    exact (hinv.fits hback.mem (hback.kc.trans hsource)).virtToPage_mem hi hsize hx

/-- The link of a free object is in no live allocation. -/
theorem HeapInv.link_not_mem (hinv : HeapInv cfg h live) (hb : b ∈ h.handedOut)
    (hkc : (h.pool.pgdb b.start).kc = some c) {o x : Word}
    (ho : o ∈ slots b.start (h.caches c).objSz (h.caches c).pageObjNr.toNat)
    (hdead : ∀ a ∈ live, a.ptr ≠ o) (hx : InRange o 8 x) :
    ∀ a ∈ live, ¬ InRange a.ptr a.size x := by
  intro a ha hxa
  have hfits := hinv.fits hb hkc
  have hword := (hinv.sized hb hkc).word_le
  obtain ⟨i, hi, rfl⟩ := mem_slots.mp ho
  obtain ⟨d, hback⟩ := hinv.backed a ha
  by_cases hdb : d = b
  · subst hdb
    obtain ⟨hsize, hslot⟩ := hback.object c (hback.kc.symm.trans hkc)
    obtain ⟨j, hj, heq⟩ := mem_slots.mp hslot
    have hij : i ≠ j := by
      rintro rfl
      exact hdead a ha heq
    rw [heq] at hxa
    exact hfits.slots_apart hi hj hij (Nat.le_refl _) (x := x) (Nat.lt_of_lt_of_le hx hword)
      (Nat.lt_of_lt_of_le hxa hsize)
  · exact (hinv.handedOut_apart hback.mem hb hdb).not_mem (hinv.range_mem hback hxa)
      (hfits.virtToPage_mem hi hword hx)

/-- Clients that write into their own allocations do not disturb the heap. -/
theorem HeapInv.write (hinv : HeapInv cfg h live) {m : Memory}
    (hframe : ∀ x, (∀ a ∈ live, ¬ InRange a.ptr a.size x) → m x = h.mem x) :
    HeapInv cfg { h with mem := m } live := by
  refine ⟨hinv.separated, hinv.stop, hinv.order_lt, hinv.entry, ?_, ?_, ?_, hinv.distinct⟩
  · exact fun c hc => (hinv.cache c hc).frame rfl fun p ho => ho
  · intro b hb c hkc
    obtain ⟨hc, hslab⟩ := hinv.slab b hb c hkc
    refine ⟨hc, hslab.order, hslab.count, fun hcur => ?_, hslab.listed⟩
    obtain ⟨href, l, hchain, hnodup, hlen, hmem⟩ := hslab.current hcur
    refine ⟨href, l, hchain.congr fun o ho => load64_congr fun x hx => ?_, hnodup, hlen, hmem⟩
    obtain ⟨hslot, hdead⟩ := hmem o ho
    exact (hframe x (hinv.link_not_mem hb hkc hslot hdead hx)).symm
  · intro a ha
    obtain ⟨b, hback⟩ := hinv.backed a ha
    exact ⟨b, hback.mem, hback.kc, hback.object, hback.large⟩

/-! ### The front end -/

/-- The front end uses the caches and pools of the configuration. -/
structure KHeapPool.Uses (kp : KHeapPool) (cfg : HeapConfig) : Prop where
  caches : ∀ x ∈ kp.caches.zip kp.cacheObjSizes, x.1 ∈ cfg.caches ∧ cfg.objSz x.1 = x.2
  pools : ∀ pid ∈ kp.pools, pid ∈ cfg.pools
  nodup : cfg.pools.Nodup

section FrontEnd

variable {kp : KHeapPool} {fuel : ℕ} {size obj : Word} {source : Option ℕ}

theorem HeapInv.mallocCaches (hnodup : cfg.pools.Nodup) {l : List (ℕ × Word)}
    (hl : ∀ x ∈ l, x.1 ∈ cfg.caches ∧ cfg.objSz x.1 = x.2) (hinv : HeapInv cfg h live)
    (hrun : h.mallocCaches fuel size l = some (obj, source, h')) :
    (obj = 0#64 ∧ HeapInv cfg h' live) ∨
      (obj ≠ 0#64 ∧ HeapInv cfg h' (⟨obj, size.toNat, source⟩ :: live)) := by
  induction l generalizing h with
  | nil =>
    simp only [HeapState.mallocCaches, Option.some.injEq, Prod.mk.injEq] at hrun
    obtain ⟨rfl, _, rfl⟩ := hrun
    exact Or.inl ⟨rfl, hinv⟩
  | cons x l ih =>
    obtain ⟨c, objSize⟩ := x
    obtain ⟨hc, hsz⟩ := hl _ List.mem_cons_self
    have hrest := fun x hx => hl x (List.mem_cons_of_mem _ hx)
    rcases HeapState.mallocCaches_cons_eq_some hrun with hpass |
      ⟨o, h₁, hle, hcall, ⟨rfl, hnext⟩ | ⟨hne, rfl, rfl, rfl⟩⟩
    · exact ih hrest hinv hpass
    · exact ih hrest (hinv.cacheMalloc_null hnodup hc hcall) hnext
    · refine Or.inr ⟨hne, hinv.cacheMalloc_object hnodup hc hcall hne ?_⟩
      rw [show cfg.objSz c = objSize from hsz]
      exact hle

theorem HeapInv.mallocCaches_null (hinv : HeapInv cfg h live) (hnodup : cfg.pools.Nodup)
    {l : List (ℕ × Word)} (hl : ∀ x ∈ l, x.1 ∈ cfg.caches ∧ cfg.objSz x.1 = x.2)
    (hrun : h.mallocCaches fuel size l = some (0#64, source, h')) : HeapInv cfg h' live := by
  rcases hinv.mallocCaches hnodup hl hrun with ⟨_, hinv'⟩ | ⟨hne, _⟩
  · exact hinv'
  · exact absurd rfl hne

theorem HeapInv.mallocCaches_returns (hnodup : cfg.pools.Nodup) {l : List (ℕ × Word)}
    (hl : ∀ x ∈ l, x.1 ∈ cfg.caches ∧ cfg.objSz x.1 = x.2) (hinv : HeapInv cfg h live) (fuel : ℕ)
    (size : Word) : ∃ r, h.mallocCaches (fuel + 2) size l = some r := by
  induction l generalizing h with
  | nil => exact ⟨_, rfl⟩
  | cons x l ih =>
    obtain ⟨c, objSize⟩ := x
    have hc := (hl _ List.mem_cons_self).1
    have hrest := fun x hx => hl x (List.mem_cons_of_mem _ hx)
    rw [HeapState.mallocCaches]
    by_cases hle : size ≤ objSize
    · obtain ⟨⟨o, h₁⟩, hcall⟩ := hinv.cacheMalloc_returns hnodup hc fuel
      simp only [if_pos hle, hcall]
      rcases hinv.cacheMalloc hnodup hc hcall with ⟨rfl, hinv₁⟩ | ⟨hne, _⟩
      · exact ih hrest hinv₁
      · exact ⟨_, if_pos hne⟩
    · rw [if_neg hle]
      exact ih hrest hinv

theorem HeapInv.mallocPools (huses : kp.Uses cfg) (hinv : HeapInv cfg h live) :
    ((h.mallocPools kp size).1 = 0#64 ∧ HeapInv cfg (h.mallocPools kp size).2 live) ∨
      ((h.mallocPools kp size).1 ≠ 0#64 ∧ HeapInv cfg (h.mallocPools kp size).2
        (⟨(h.mallocPools kp size).1, size.toNat, none⟩ :: live)) := by
  rcases hinv.tryPools (mallocPoolsOrder size) huses.nodup huses.pools with
    ⟨p, h₁, heq, hinv₁, hfresh⟩ | ⟨heq, _⟩
  · simp only [HeapState.mallocPools, heq]
    have hb : (⟨p, mallocPoolsOrder size⟩ : Block) ∈ h₁.handedOut := by
      rw [hfresh.handedOut]
      exact List.mem_cons_self
    have hlt : p < directMapPages := by
      have hstop := hinv₁.stop_handedOut hb
      have hpos := Nat.two_pow_pos (mallocPoolsOrder size)
      unfold Block.stop at hstop
      simp only at hstop
      omega
    refine Or.inr ⟨?_, hinv₁.takePages hb hfresh.kc hfresh.refCount hfresh.empty
      (le_of_mallocPoolsOrder (hinv₁.order_lt _ hb))⟩
    intro hzero
    have haddr := toNat_pageToVirt hlt
    rw [hzero] at haddr
    simp only [BitVec.toNat_ofNat, Nat.zero_mod] at haddr
    omega
  · simp only [HeapState.mallocPools, heq]
    exact Or.inl ⟨trivial, hinv⟩

/-- A call of Malloc: no memory, or one more live allocation. -/
theorem HeapInv.malloc (huses : kp.Uses cfg) (hinv : HeapInv cfg h live)
    (hrun : h.malloc fuel kp size = some (obj, source, h')) :
    (obj = 0#64 ∧ HeapInv cfg h' live) ∨
      (obj ≠ 0#64 ∧ HeapInv cfg h' (⟨obj, size.toNat, source⟩ :: live)) := by
  obtain ⟨o, src, h₁, hcaches, ⟨rfl, rfl, rfl, rfl⟩ | ⟨hne, rfl, rfl, rfl⟩⟩ :=
    HeapState.malloc_eq_some hrun
  · exact (hinv.mallocCaches_null huses.nodup huses.caches hcaches).mallocPools huses
  · exact hinv.mallocCaches huses.nodup huses.caches hcaches

theorem HeapInv.malloc_returns (huses : kp.Uses cfg) (hinv : HeapInv cfg h live) (fuel : ℕ)
    (size : Word) : ∃ r, h.malloc (fuel + 2) kp size = some r := by
  obtain ⟨⟨o, src, h₁⟩, hcaches⟩ := hinv.mallocCaches_returns huses.nodup huses.caches fuel size
  simp only [HeapState.malloc, hcaches]
  split
  · exact ⟨_, rfl⟩
  · exact ⟨_, rfl⟩

/-- The page that Free works on is the head of the block that backs the object, and it
names the cache that served the object. -/
theorem HeapInv.free_head (hinv : HeapInv cfg h live) (hback : Backed h a b) :
    getHeadPage h.pool.pgdb (virtToPage a.ptr) = b.start ∧
      (h.pool.pgdb b.start).kc = a.source :=
  ⟨hinv.getHeadPage_eq hback.mem (hinv.virtToPage_mem hback), hback.kc⟩

/-- What a call of Free on a live pointer turns into. -/
theorem HeapInv.free_eq (hinv : HeapInv cfg h live) (hback : Backed h a b) :
    h.free a.ptr = match a.source with
      | none => h.putPage b.start
      | some c => h.cacheFree c b.start a.ptr := by
  obtain ⟨hhead, hkc⟩ := hinv.free_head hback
  cases hsource : a.source with
  | none => simp only [HeapState.free, hhead, hkc, hsource]
  | some c => simp only [HeapState.free, hhead, hkc, hsource]

theorem HeapInv.free (hinv : HeapInv cfg h live) (ha : a ∈ live) :
    ∃ h', h.free a.ptr = some h' ∧ HeapInv cfg h' (live.erase a) := by
  obtain ⟨b, hback⟩ := hinv.backed a ha
  rw [hinv.free_eq hback]
  cases hsource : a.source with
  | none => exact hinv.dropPages ha hback hsource
  | some c => exact hinv.cacheFree ha hback hsource

end FrontEnd

/-! ### Runs -/

/-- The heap in the middle of a run, with the allocations that are live. -/
structure HeapRun where
  heap : HeapState
  live : List Allocation

/-- One step of a run: a call of Malloc that returns, a call of Free on a live pointer
that returns, or writes of the clients into their own allocations. -/
inductive HeapStep (kp : KHeapPool) : HeapRun → HeapRun → Prop
  | malloc {r : HeapRun} {fuel : ℕ} {size obj : Word} {source : Option ℕ} {h' : HeapState}
      (hrun : r.heap.malloc fuel kp size = some (obj, source, h')) :
      HeapStep kp r ⟨h', if obj = 0#64 then r.live else ⟨obj, size.toNat, source⟩ :: r.live⟩
  | free {r : HeapRun} {a : Allocation} {h' : HeapState} (ha : a ∈ r.live)
      (hrun : r.heap.free a.ptr = some h') : HeapStep kp r ⟨h', r.live.erase a⟩
  | write {r : HeapRun} {m : Memory}
      (hframe : ∀ x, (∀ a ∈ r.live, ¬ InRange a.ptr a.size x) → m x = r.heap.mem x) :
      HeapStep kp r ⟨{ r.heap with mem := m }, r.live⟩

theorem HeapInv.step {kp : KHeapPool} (huses : kp.Uses cfg) {r r' : HeapRun}
    (hinv : HeapInv cfg r.heap r.live) (hstep : HeapStep kp r r') :
    HeapInv cfg r'.heap r'.live := by
  cases hstep with
  | malloc hrun =>
    rcases hinv.malloc huses hrun with ⟨rfl, hinv'⟩ | ⟨hne, hinv'⟩
    · simpa only [if_true] using hinv'
    · simpa only [if_neg hne] using hinv'
  | free ha hrun =>
    obtain ⟨h', heq, hinv'⟩ := hinv.free ha
    obtain rfl := Option.some.inj (heq.symm.trans hrun)
    exact hinv'
  | write hframe => exact hinv.write hframe

theorem HeapInv.run {kp : KHeapPool} (huses : kp.Uses cfg) {r r' : HeapRun}
    (hinv : HeapInv cfg r.heap r.live) (hrun : Relation.ReflTransGen (HeapStep kp) r r') :
    HeapInv cfg r'.heap r'.live := by
  induction hrun with
  | refl => exact hinv
  | tail _ hstep ih => exact ih.step huses hstep

end ClosureOS
