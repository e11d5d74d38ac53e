import ClosureOS.HeapInvariant

/-!
Each operation of the heap keeps the heap invariant. One lemma is proved for each
branch of the source: a block is handed out, adopted as the current slab, an object
is popped, a slab is retired, an object is freed to the current or to another slab,
and a page-backed block is taken or dropped. The calls of the caches and of the front
end are composed of these.
-/
namespace ClosureOS

open ByteMemory DyadicBlocks PoolState HeapState

variable {cfg : HeapConfig} {h h' : HeapState} {live : List Allocation} {b d : Block}
  {a : Allocation} {c p q order : ℕ}

/-! ### Blocks from the buddy system -/

/-- A block that was just handed out: no cache owns it and nothing lies on it. -/
structure FreshBlock (h h' : HeapState) (live : List Allocation) (b : Block) : Prop where
  handedOut : h'.handedOut = b :: h.handedOut
  mem : h'.mem = h.mem
  caches : h'.caches = h.caches
  entry : ∀ d ∈ h.handedOut, ∀ q ∈ d, h'.pool.pgdb q = h.pool.pgdb q
  kc : (h'.pool.pgdb b.start).kc = none
  refCount : (h'.pool.pgdb b.start).refCount = -1#32
  empty : ∀ a ∈ live, virtToPage a.ptr ∉ b

/-- Slabs do not notice changes outside their own head entry, cache and memory. -/
theorem SlabInv.congr (hslab : SlabInv h live c b) (hcache : h'.caches c = h.caches c)
    (hentry : h'.pool.pgdb b.start = h.pool.pgdb b.start) (hmem : h'.mem = h.mem) :
    SlabInv h' live c b := by
  refine ⟨?_, ?_, ?_, ?_⟩ <;> rw [hcache]
  · exact hslab.order
  · rw [hentry]
    exact hslab.count
  · rw [hentry, hmem]
    exact hslab.current
  · rw [hentry]
    exact hslab.listed

theorem HeapInv.handOut {s' : PoolState} (hinv : HeapInv cfg h live)
    (halloc : AllocatedFrom h.pool cfg.pools order p h.handedOut s') :
    HeapInv cfg { h with pool := s', handedOut := ⟨p, order⟩ :: h.handedOut } live ∧
      FreshBlock h { h with pool := s', handedOut := ⟨p, order⟩ :: h.handedOut } live
        ⟨p, order⟩ := by
  have hold : ∀ d ∈ h.handedOut, ∀ q ∈ d, s'.pgdb q = h.pool.pgdb q :=
    fun d hd q hq => halloc.frame q (hinv.not_mem_free hd hq)
  have happ : ∀ d ∈ h.handedOut, Block.Apart ⟨p, order⟩ d :=
    fun d hd => halloc.separated.head_apart (List.mem_append_right _ hd)
  have hnew := halloc.entry p (Block.start_mem ⟨p, order⟩)
  have hbacked : ∀ a d, Backed h a d →
      Backed { h with pool := s', handedOut := ⟨p, order⟩ :: h.handedOut } a d := by
    intro a d hback
    have hentry := hold d hback.mem d.start d.start_mem
    exact ⟨List.mem_cons_of_mem _ hback.mem, (congrArg Page.kc hentry).trans hback.kc,
      hback.object, fun hs => ⟨(hback.large hs).1, (hback.large hs).2.1,
        (congrArg Page.refCount hentry).trans (hback.large hs).2.2⟩⟩
  refine ⟨⟨?_, ?_, ?_, ?_, ?_, ?_, ?_, hinv.distinct⟩, ⟨rfl, rfl, rfl, hold, ?_, ?_, ?_⟩⟩
  · exact halloc.separated.perm List.perm_middle.symm
  · intro d hd
    rcases List.mem_append.mp hd with hd | hd
    · obtain ⟨e, he, hsub⟩ := halloc.free_subset d hd
      exact (Block.stop_le_of_subset hsub).trans (hinv.stop e (List.mem_append_left _ he))
    · rcases List.mem_cons.mp hd with rfl | hd
      · obtain ⟨e, he, hsub⟩ := halloc.source
        exact (Block.stop_le_of_subset hsub).trans (hinv.stop e (List.mem_append_left _ he))
      · exact hinv.stop_handedOut hd
  · intro d hd
    rcases List.mem_cons.mp hd with rfl | hd
    · exact halloc.order_lt
    · exact hinv.order_lt d hd
  · intro d hd q hq
    rcases List.mem_cons.mp hd with rfl | hd
    · simp only [halloc.entry q hq, reinitEntry, orderField_of_lt halloc.order_lt, true_and]
    · simp only [hold d hd q hq]
      exact hinv.entry d hd q hq
  · intro c hc
    refine (hinv.cache c hc).frame rfl ?_
    rintro q ⟨d, hd, rfl, hkc⟩
    exact ⟨d, List.mem_cons_of_mem _ hd, rfl,
      (congrArg Page.kc (hold d hd d.start d.start_mem)).trans hkc⟩
  · intro d hd c hkc
    rcases List.mem_cons.mp hd with rfl | hd
    · simp only [hnew, reinitEntry] at hkc
      exact absurd hkc (by simp)
    · simp only [hold d hd d.start d.start_mem] at hkc
      obtain ⟨hc, hslab⟩ := hinv.slab d hd c hkc
      exact ⟨hc, hslab.congr rfl (hold d hd d.start d.start_mem) rfl⟩
  · intro a ha
    obtain ⟨d, hback⟩ := hinv.backed a ha
    exact ⟨d, hbacked a d hback⟩
  · simp only [hnew, reinitEntry]
  · simp [hnew, reinitEntry]
  · intro a ha hmem
    obtain ⟨d, hback⟩ := hinv.backed a ha
    exact (happ d hback.mem).not_mem hmem (hinv.virtToPage_mem hback)

/-- Asking the pools of a list for a block: the first that has one hands it out. -/
theorem HeapInv.tryPools (hinv : HeapInv cfg h live) (order : ℕ) (hnodup : cfg.pools.Nodup)
    {pids : List ℕ} (hsub : ∀ pid ∈ pids, pid ∈ cfg.pools) :
    (∃ p h', h.tryPools order pids = (some p, h') ∧ HeapInv cfg h' live ∧
        FreshBlock h h' live ⟨p, order⟩) ∨
      (h.tryPools order pids = (none, h) ∧
        ∀ pid ∈ pids, (h.pool.allocPages pid order).1 = none) := by
  rcases h.tryPools_cases order pids with ⟨pid, hpid, p, s, halloc, heq⟩ | hnone
  · have hfrom := allocatedFrom hnodup (hsub pid hpid) hinv.separated halloc
    exact Or.inl ⟨p, _, heq, hinv.handOut hfrom⟩
  · exact Or.inr hnone

/-! ### The current slab -/

/-- What adopting a block does to the state. -/
theorem adoptPage_eq (hfits : SlabFits b (h.caches c).objSz (h.caches c).pageObjNr)
    (hsz : 8 ≤ (h.caches c).objSz.toNat) (hhead : (h.pool.pgdb b.start).isHead = true) :
    ∃ m' head, h.adoptPage c b.start =
        { pool := h.pool.setPage b.start { h.pool.pgdb b.start with
            objNr := (h.caches c).pageObjNr, freelist := head, kc := some c,
            refCount := (h.pool.pgdb b.start).refCount + 1#32 },
          mem := m',
          caches := Function.update h.caches c
            { h.caches c with current := some b.start, freelist := head },
          handedOut := h.handedOut } ∧
      Chain (load64 m') 0#64 head
        (slots b.start (h.caches c).objSz (h.caches c).pageObjNr.toNat) ∧
      ∀ x, virtToPage x ∉ b → m' x = h.mem x := by
  obtain ⟨m', head, hloop, hchain, hframe⟩ := hfits.slicing hsz h.mem (Nat.le_refl _)
  refine ⟨m', head, ?_, hchain, fun x hx => hframe x fun hr => hx ?_⟩
  swap
  · exact virtToPage_mem_of_inRange hfits.stop (Nat.le_refl _) hr
  simp only [HeapState.adoptPage, HeapState.pageObjSlicing, setCache_caches_self, setCache_mem,
    setCache_pool, hloop]
  rw [getPage_of_isHead]
  · simp only [PoolState.setPage, HeapState.setCache, Function.update_self, Function.update_idem]
  · simp only [PoolState.setPage, Function.update_self]
    exact hhead

theorem HeapInv.isHead (hinv : HeapInv cfg h live) (hb : b ∈ h.handedOut) :
    (h.pool.pgdb b.start).isHead = true := by
  rw [(hinv.entry b hb b.start b.start_mem).2]
  exact beq_self_eq_true _

/-- A step that moves pages and objects of the cache c: the other caches stay. -/
structure CacheUpdate (cfg : HeapConfig) (h h' : HeapState) (c : ℕ) (cur : Option ℕ) (head : Word)
    (full : List ℕ) : Prop where
  self : h'.caches c = { h.caches c with current := cur, freelist := head, fullPages := full }
  others : ∀ e ∈ cfg.caches, e ≠ c → h'.caches e = h.caches e

theorem CacheUpdate.sameFor {cur : Option ℕ} {head : Word} {full : List ℕ}
    (hupd : CacheUpdate cfg h h' c cur head full)
    (hcur : ∀ p, p ≠ q → (cur = some p ↔ (h.caches c).current = some p))
    (hhead : ∀ p, p ≠ q → (h.caches c).current = some p → head = (h.caches c).freelist)
    (hfull : ∀ p, p ≠ q → p ∈ (h.caches c).fullPages → p ∈ full) :
    ∀ e ∈ cfg.caches, ∀ p, p ≠ q → SameFor (h.caches e) (h'.caches e) p := by
  intro e he p hp
  by_cases hec : e = c
  · subst hec
    rw [hupd.self]
    exact ⟨rfl, rfl, rfl, hcur p hp, hhead p hp, hfull p hp⟩
  · rw [hupd.others e he hec]
    exact SameFor.refl _ _

theorem CacheUpdate.cacheInv {cur : Option ℕ} {head : Word} {full : List ℕ}
    (hupd : CacheUpdate cfg h h' c cur head full) (hinv : HeapInv cfg h live)
    (hkeep : ∀ e p, OwnsSlab h e p → OwnsSlab h' e p)
    (hcur : ∀ p, cur = some p → OwnsSlab h' c p) (hidle : cur = none → head = 0#64)
    (hfull : ∀ p ∈ full, cur ≠ some p ∧ OwnsSlab h' c p) (hnodup : full.Nodup) :
    ∀ e ∈ cfg.caches, CacheInv cfg h' e := by
  intro e he
  have hcache := hinv.cache e he
  by_cases hec : e = c
  · subst hec
    refine ⟨?_, ?_, ?_, ?_, ?_, ?_, ?_, ?_⟩ <;> rw [hupd.self]
    · exact ⟨hcache.sized.order_lt, hcache.sized.aligned, hcache.sized.pos, hcache.sized.two,
        hcache.sized.fits⟩
    · exact hcache.objSz
    · exact hcache.attached
    · exact hcache.noPartial
    · exact hcur
    · exact hidle
    · exact hfull
    · exact hnodup
  · exact hcache.frame (hupd.others e he hec) fun p => hkeep e p

/-- An allocation on a slab stays backed while the sizes of its cache stay. -/
theorem CacheUpdate.backed {cur : Option ℕ} {head : Word} {full : List ℕ}
    (hupd : CacheUpdate cfg h h' c cur head full) (hout : h'.handedOut = h.handedOut)
    (hback : Backed h a b) (hkc : (h.pool.pgdb b.start).kc = some c)
    (hkc' : (h'.pool.pgdb b.start).kc = some c) : Backed h' a b := by
  have hsource : a.source = some c := hback.kc.symm.trans hkc
  refine ⟨hout ▸ hback.mem, hkc'.trans hsource.symm, ?_, fun hnone => ?_⟩
  · intro e he
    obtain rfl := Option.some.inj (hsource.symm.trans he)
    rw [hupd.self]
    exact hback.object c hsource
  · rw [hsource] at hnone
    exact absurd hnone (by simp)

/-- The invariant after a step on the slab b of c: its new lists, the slab itself and
the allocations that are new have to be looked at. -/
theorem CacheUpdate.heapInv {cur : Option ℕ} {head : Word} {full : List ℕ} {live' : List Allocation}
    (hupd : CacheUpdate cfg h h' c cur head full) (hinv : HeapInv cfg h live)
    (hb : b ∈ h.handedOut) (hkc : (h.pool.pgdb b.start).kc = some c)
    (hkc' : (h'.pool.pgdb b.start).kc = some c) (hchange : LocalChange cfg h h' live live' b)
    (hcur : ∀ p, cur = some p → OwnsSlab h c p) (hidle : cur = none → head = 0#64)
    (hfull : ∀ p ∈ full, cur ≠ some p ∧ OwnsSlab h c p) (hnodup : full.Nodup)
    (hslab : SlabInv h' live' c b) (hback : ∀ a ∈ live', a ∈ live ∨ Backed h' a b)
    (hdistinct : live'.Pairwise fun a a' => a.ptr ≠ a'.ptr) : HeapInv cfg h' live' := by
  obtain ⟨hc, _⟩ := hinv.slab b hb c hkc
  have hkeep : ∀ e p, OwnsSlab h e p → OwnsSlab h' e p := by
    refine fun e p ho => hchange.ownsSlab (fun hs => ?_) ho
    rw [hkc', ← hkc]
    exact hs
  refine hinv.change hb hchange ?_ ?_ ?_ hdistinct
  · exact hupd.cacheInv hinv hkeep (fun p hp => hkeep c p (hcur p hp)) hidle
      (fun p hp => ⟨(hfull p hp).1, hkeep c p (hfull p hp).2⟩) hnodup
  · intro e hkce
    obtain rfl := Option.some.inj (hkc'.symm.trans hkce)
    exact ⟨hc, hslab⟩
  · intro a ha hon
    rcases hback a ha with hold | hnew
    · exact hupd.backed hchange.handedOut (hinv.backed_of_mem hold hb hon) hkc hkc'
    · exact hnew

/-- The slab b is the current one after the step: the new chain has to be given. -/
theorem CacheUpdate.slabInv {cur : Option ℕ} {head : Word} {full : List ℕ} {l : List Word}
    {live' : List Allocation} (hupd : CacheUpdate cfg h h' c cur head full)
    (hcur : cur = some b.start) (horder : b.order = (h.caches c).order)
    (href : (h'.pool.pgdb b.start).refCount = 0#32)
    (hobjNr : (h'.pool.pgdb b.start).objNr.toNat = l.length)
    (hcount : l.length + liveIn live' b = (h.caches c).pageObjNr.toNat)
    (hchain : Chain (load64 h'.mem) 0#64 head l) (hnodup : l.Nodup)
    (hfree : ∀ x ∈ l, x ∈ slots b.start (h.caches c).objSz (h.caches c).pageObjNr.toNat ∧
      ∀ y ∈ live', y.ptr ≠ x) : SlabInv h' live' c b := by
  refine ⟨?_, ?_, fun _ => ⟨href, l, ?_, hnodup, hobjNr.symm, ?_⟩, fun hnc => absurd ?_ hnc⟩ <;>
    rw [hupd.self]
  · exact horder
  · rw [hobjNr]
    exact hcount
  · exact hchain
  · exact hfree
  · exact hcur

/-- A block that became the current slab of c. -/
structure Adopted (cfg : HeapConfig) (h h' : HeapState) (live : List Allocation) (c p : ℕ) :
    Prop where
  inv : HeapInv cfg h' live
  freelist : (h'.caches c).freelist ≠ 0#64
  full : (h'.caches c).fullPages = (h.caches c).fullPages
  entry : ∀ q, q ≠ p → h'.pool.pgdb q = h.pool.pgdb q

theorem HeapInv.adopt (hinv : HeapInv cfg h live) (hc : c ∈ cfg.caches)
    (hb : b ∈ h.handedOut) (hcur : (h.caches c).current = none)
    (horder : b.order = (h.caches c).order)
    (hkc : (h.pool.pgdb b.start).kc = none) (href : (h.pool.pgdb b.start).refCount = -1#32)
    (hempty : ∀ a ∈ live, virtToPage a.ptr ∉ b) :
    Adopted cfg h (h.adoptPage c b.start) live c b.start := by
  have hcache := hinv.cache c hc
  have hsized := hcache.sized
  have hfits : SlabFits b (h.caches c).objSz (h.caches c).pageObjNr :=
    ⟨hinv.stop_handedOut hb, hsized.pos, horder ▸ hsized.fits⟩
  obtain ⟨m', head, heq, hchain, hframe⟩ := adoptPage_eq hfits hsized.word_le (hinv.isHead hb)
  have hupd : CacheUpdate cfg h (h.adoptPage c b.start) c (some b.start) head
      (h.caches c).fullPages := by
    rw [heq]
    exact ⟨Function.update_self .., fun e _ he => Function.update_of_ne he ..⟩
  have hentry : (h.adoptPage c b.start).pool.pgdb b.start = { h.pool.pgdb b.start with
      objNr := (h.caches c).pageObjNr, freelist := head, kc := some c,
      refCount := (h.pool.pgdb b.start).refCount + 1#32 } := by
    rw [heq]
    exact Function.update_self ..
  have hchange : LocalChange cfg h (h.adoptPage c b.start) live live b := by
    refine ⟨by rw [heq]; rfl, by rw [heq], ?_, by rw [hentry], by rw [hentry],
      by rw [heq]; exact hframe, fun a ha => Or.inl ha, fun _ _ => rfl, hupd.sameFor ?_ ?_ ?_⟩
    · intro q hq
      rw [heq]
      exact Function.update_of_ne hq ..
    · intro p hp
      simp [hcur, Ne.symm hp]
    · intro p _ hpc
      exact absurd (hcur.symm.trans hpc) (by simp)
    · exact fun _ _ => id
  have howns : OwnsSlab (h.adoptPage c b.start) c b.start :=
    ⟨b, hchange.handedOut ▸ hb, rfl, by rw [hentry]⟩
  have hkeep : ∀ e p, OwnsSlab h e p → OwnsSlab (h.adoptPage c b.start) e p :=
    fun e p ho => hchange.ownsSlab (fun hs => by rw [hkc] at hs; exact absurd hs (by simp)) ho
  refine ⟨hinv.change hb hchange ?_ ?_ ?_ hinv.distinct, ?_, by rw [hupd.self], hchange.entry⟩
  · refine hupd.cacheInv hinv hkeep ?_ (by simp) ?_ hcache.nodup
    · rintro p hp
      obtain rfl := Option.some.inj hp
      exact howns
    · intro p hp
      obtain ⟨_, ho⟩ := hcache.full p hp
      refine ⟨?_, hkeep c p ho⟩
      intro hpb
      obtain ⟨d, hd, rfl, hkcd⟩ := ho
      rw [← Option.some.inj hpb, hkc] at hkcd
      exact absurd hkcd (by simp)
  · intro e hkce
    rw [hentry] at hkce
    obtain rfl := Option.some.inj hkce
    have hlen := length_slots b.start (h.caches c).objSz (h.caches c).pageObjNr.toNat
    refine ⟨hc, hupd.slabInv rfl horder (by rw [hentry, href]; rfl) (by rw [hentry, hlen]) ?_
      (by rw [heq]; exact hchain) hfits.nodup_slots fun x hx => ⟨hx, fun y hy hyx => ?_⟩⟩
    · have hzero : liveIn live b = 0 :=
        List.countP_eq_zero.mpr fun a ha => by simpa using hempty a ha
      rw [hlen, hzero, Nat.add_zero]
    · exact hempty y hy (hyx ▸ hfits.virtToPage_of_mem_slots hx)
  · intro a ha hmem
    exact absurd hmem (hempty a ha)
  · rw [hupd.self]
    intro hzero
    have hnil := Chain.eq_nil (hzero ▸ hchain)
    have hlen := length_slots b.start (h.caches c).objSz (h.caches c).pageObjNr.toNat
    rw [hnil] at hlen
    have := hsized.two
    simp only [List.length_nil] at hlen
    omega

theorem HeapInv.current_slab (hinv : HeapInv cfg h live) (hc : c ∈ cfg.caches)
    (hcur : (h.caches c).current = some p) :
    ∃ b ∈ h.handedOut, b.start = p ∧ (h.pool.pgdb p).kc = some c ∧ SlabInv h live c b := by
  obtain ⟨b, hb, rfl, hkc⟩ := (hinv.cache c hc).current p hcur
  exact ⟨b, hb, rfl, hkc, (hinv.slab b hb c hkc).2⟩

/-- Malloc takes the first object of the chain of the current slab. -/
theorem HeapInv.pop (hinv : HeapInv cfg h live) (hc : c ∈ cfg.caches)
    (hcur : (h.caches c).current = some p) (hne : (h.caches c).freelist ≠ 0#64) {size : ℕ}
    (hsize : size ≤ (h.caches c).objSz.toNat) :
    HeapInv cfg (h.popObject c p)
      (⟨(h.caches c).freelist, size, some c⟩ :: live) := by
  obtain ⟨b, hb, rfl, hkc, hslab⟩ := hinv.current_slab hc hcur
  obtain ⟨href, l, hchain, hnodup, hlen, hmem⟩ := hslab.current hcur
  obtain ⟨l, rfl, hrest⟩ := hchain.pop hne
  obtain ⟨hslot, hdead⟩ := hmem _ List.mem_cons_self
  have hcache := hinv.cache c hc
  have hfits := hinv.fits hb hkc
  have hon : virtToPage (h.caches c).freelist ∈ b := hfits.virtToPage_of_mem_slots hslot
  have hupd : CacheUpdate cfg h (h.popObject c b.start) c (h.caches c).current
      (load64 h.mem (h.caches c).freelist) (h.caches c).fullPages := by
    refine ⟨?_, fun e _ he => ?_⟩
    · exact popObject_caches_self
    · rw [HeapState.popObject, setPage_caches, setCache_caches_of_ne h _ he]
  have hentry : (h.popObject c b.start).pool.pgdb b.start =
      { h.pool.pgdb b.start with objNr := (h.pool.pgdb b.start).objNr - 1#64 } :=
    setPage_pgdb_self ..
  have hchange : LocalChange cfg h (h.popObject c b.start) live
      (⟨(h.caches c).freelist, size, some c⟩ :: live) b := by
    refine ⟨rfl, rfl, fun q hq => Function.update_of_ne hq .., by rw [hentry], by rw [hentry],
      fun _ _ => rfl, ?_, fun d happ => liveIn_cons_of_apart hon happ,
      hupd.sameFor (fun _ _ => Iff.rfl) ?_ fun _ _ => id⟩
    · intro a ha
      rcases List.mem_cons.mp ha with rfl | ha
      · exact Or.inr hon
      · exact Or.inl ha
    · intro p hp hpc
      exact absurd (Option.some.inj (hpc.symm.trans hcur)) hp
  have hmem' : (h.popObject c b.start).mem = h.mem := rfl
  generalize h.popObject c b.start = h' at hupd hchange hentry hmem' ⊢
  have hobjNr : (h'.pool.pgdb b.start).objNr.toNat = l.length := by
    simp only [List.length_cons] at hlen
    rw [hentry, BitVec.toNat_sub]
    simp only [BitVec.toNat_ofNat]
    omega
  refine hupd.heapInv hinv hb hkc (by rw [hentry]; exact hkc) hchange hcache.current
    (fun hnone => absurd (hnone.symm.trans hcur) (by simp)) hcache.full hcache.nodup
    (hupd.slabInv hcur hslab.order (by rw [hentry]; exact href) hobjNr ?_
      (by rw [hmem']; exact hrest) (List.nodup_cons.mp hnodup).2 ?_) ?_ ?_
  · have hcount := hslab.count
    simp only [List.length_cons] at hlen
    have hlive : liveIn (⟨(h.caches c).freelist, size, some c⟩ :: live) b = liveIn live b + 1 :=
      liveIn_cons_of_mem hon
    rw [hlive]
    omega
  · intro x hx
    obtain ⟨hxslot, hxdead⟩ := hmem x (List.mem_cons_of_mem _ hx)
    refine ⟨hxslot, fun y hy hyx => ?_⟩
    rcases List.mem_cons.mp hy with rfl | hy
    · simp only at hyx
      exact (List.nodup_cons.mp hnodup).1 (hyx ▸ hx)
    · exact hxdead y hy hyx
  · intro a ha
    rcases List.mem_cons.mp ha with rfl | ha
    · refine Or.inr ⟨hchange.handedOut ▸ hb, by rw [hentry]; exact hkc, ?_, by simp⟩
      intro e he
      obtain rfl := Option.some.inj he
      rw [hupd.self]
      exact ⟨hsize, hslot⟩
    · exact Or.inl ha
  · exact List.pairwise_cons.mpr ⟨fun y hy => Ne.symm (hdead y hy), hinv.distinct⟩

/-- An empty chain means that no object of the current slab is free. -/
theorem SlabInv.objNr_zero (hslab : SlabInv h live c b) (hcur : (h.caches c).current = some b.start)
    (hzero : (h.caches c).freelist = 0#64) : (h.pool.pgdb b.start).objNr.toNat = 0 := by
  obtain ⟨_, l, hchain, _, hlen, _⟩ := hslab.current hcur
  rw [hzero] at hchain
  rw [← hlen, hchain.eq_nil]
  rfl

/-- The current slab has no free object left and goes on the full list. -/
theorem HeapInv.retire (hinv : HeapInv cfg h live) (hc : c ∈ cfg.caches)
    (hzero : (h.caches c).freelist = 0#64) :
    HeapInv cfg (h.retireCurrent c) live ∧ ((h.retireCurrent c).caches c).current = none := by
  have hcache := hinv.cache c hc
  cases hcur : (h.caches c).current with
  | none =>
    have heq : h.retireCurrent c = h := by simp only [HeapState.retireCurrent, hcur]
    rw [heq]
    exact ⟨hinv, hcur⟩
  | some p =>
    obtain ⟨b, hb, rfl, hkc, hslab⟩ := hinv.current_slab hc hcur
    have hupd : CacheUpdate cfg h (h.retireCurrent c) c none 0#64
        (b.start :: (h.caches c).fullPages) := by
      refine ⟨?_, fun e _ he => retireCurrent_caches_of_ne he⟩
      rw [retireCurrent_caches_self, hcur, ← hzero]
      rfl
    have hpool := @retireCurrent_pool h c
    have hmem := @retireCurrent_mem h c
    have hout := @retireCurrent_handedOut h c
    generalize h.retireCurrent c = h' at hupd hpool hmem hout
    have hchange : LocalChange cfg h h' live live b := by
      refine ⟨by rw [hpool], hout, fun q _ => by rw [hpool], by rw [hpool], by rw [hpool],
        fun x _ => by rw [hmem], fun a ha => Or.inl ha, fun _ _ => rfl, hupd.sameFor ?_ ?_ ?_⟩
      · intro p hp
        simp [hcur, Ne.symm hp]
      · intro p hp hpc
        exact absurd (Option.some.inj (hpc.symm.trans hcur)) hp
      · exact fun _ _ => List.mem_cons_of_mem _
    refine ⟨hupd.heapInv hinv hb hkc (by rw [hpool]; exact hkc) hchange (by simp) (fun _ => rfl)
      ?_ ?_ ⟨?_, ?_, ?_, ?_⟩ (fun a ha => Or.inl ha) hinv.distinct, by rw [hupd.self]⟩
    · intro p hp
      refine ⟨by simp, ?_⟩
      rcases List.mem_cons.mp hp with rfl | hp
      · exact hcache.current _ hcur
      · exact (hcache.full p hp).2
    · exact List.nodup_cons.mpr ⟨fun hp => (hcache.full _ hp).1 hcur, hcache.nodup⟩
    · rw [hupd.self]
      exact hslab.order
    · rw [hupd.self, hpool]
      exact hslab.count
    · intro hcur'
      rw [hupd.self] at hcur'
      exact absurd hcur' (by simp)
    · intro _ _
      rw [hupd.self, hpool]
      exact ⟨List.mem_cons_self, (hslab.current hcur).1⟩

/-! ### KMemCache::Malloc -/

/-- What a call of Malloc can do to the heap: serve an object, or find no memory. -/
def Served (cfg : HeapConfig) (c : ℕ) (live : List Allocation) (obj : Word) (h : HeapState) :
    Prop :=
  (obj = 0#64 ∧ HeapInv cfg h live) ∨
    (obj ≠ 0#64 ∧ ∀ size, size ≤ (cfg.objSz c).toNat →
      HeapInv cfg h (⟨obj, size, some c⟩ :: live))

theorem HeapInv.served_pop (hinv : HeapInv cfg h live) (hc : c ∈ cfg.caches)
    (hne : (h.caches c).freelist ≠ 0#64) :
    ∃ p, (h.caches c).current = some p ∧
      Served cfg c live (h.caches c).freelist (h.popObject c p) := by
  have hcache := hinv.cache c hc
  cases hcur : (h.caches c).current with
  | none => exact absurd (hcache.idle hcur) hne
  | some p =>
    refine ⟨p, rfl, Or.inr ⟨hne, fun size hsize => hinv.pop hc hcur hne ?_⟩⟩
    rw [hcache.objSz]
    exact hsize

/-- The part of a round that looks for a new current slab. It finds one with free
objects, or leaves the cache without a current slab. -/
theorem HeapInv.refill (hinv : HeapInv cfg h live) (hnodup : cfg.pools.Nodup) (hc : c ∈ cfg.caches)
    (hcur : (h.caches c).current = none) :
    (h.caches c).partialPages = [] ∧
      ((∃ p h', h.internalPageAlloc c = (some p, h') ∧
          FreshBlock h h' live ⟨p, (h.caches c).order⟩ ∧
          Adopted cfg h' (h'.adoptPage c p) live c p) ∨
        (h.internalPageAlloc c = (none, h) ∧ ∀ pid ∈ (h.caches c).attachedPools,
          (h.pool.allocPages pid (h.caches c).order).1 = none)) := by
  have hcache := hinv.cache c hc
  refine ⟨hcache.noPartial, ?_⟩
  rcases hinv.tryPools (h.caches c).order hnodup hcache.attached with
    ⟨p, h', heq, hinv', hfresh⟩ | ⟨heq, hnone⟩
  · have hb : (⟨p, (h.caches c).order⟩ : Block) ∈ h'.handedOut := by
      rw [hfresh.handedOut]
      exact List.mem_cons_self
    exact Or.inl ⟨p, h', heq, hfresh, hinv'.adopt hc hb (by rw [hfresh.caches]; exact hcur)
      (by rw [hfresh.caches]) hfresh.kc hfresh.refCount hfresh.empty⟩
  · exact Or.inr ⟨heq, hnone⟩

/-- A call of Malloc, seen from the cache: it pops an object, or it adopts a block and
pops an object of it, or it returns null and no pool has a block. -/
theorem HeapInv.cacheMalloc_cases (hinv : HeapInv cfg h live) (hnodup : cfg.pools.Nodup)
    (hc : c ∈ cfg.caches) {fuel : ℕ} {obj : Word} (hrun : h.cacheMalloc fuel c = some (obj, h')) :
    (∃ p, (h.caches c).freelist ≠ 0#64 ∧ (h.caches c).current = some p ∧
        obj = (h.caches c).freelist ∧ h' = h.popObject c p) ∨
      ((h.caches c).freelist = 0#64 ∧ ∃ p h₁,
        (h.retireCurrent c).internalPageAlloc c = (some p, h₁) ∧
        FreshBlock (h.retireCurrent c) h₁ live ⟨p, ((h.retireCurrent c).caches c).order⟩ ∧
        Adopted cfg h₁ (h₁.adoptPage c p) live c p ∧
        ∃ q, ((h₁.adoptPage c p).caches c).current = some q ∧
          obj = ((h₁.adoptPage c p).caches c).freelist ∧
          h' = (h₁.adoptPage c p).popObject c q) ∨
      ((h.caches c).freelist = 0#64 ∧ obj = 0#64 ∧ h' = h.retireCurrent c ∧
        ∀ pid ∈ ((h.retireCurrent c).caches c).attachedPools,
          ((h.retireCurrent c).pool.allocPages pid ((h.retireCurrent c).caches c).order).1 =
            none) := by
  rw [HeapState.cacheMalloc] at hrun
  cases fuel with
  | zero => exact absurd hrun (by simp [internalObjAlloc])
  | succ fuel =>
    by_cases hne : (h.caches c).freelist ≠ 0#64
    · obtain ⟨p, hcur, _⟩ := hinv.served_pop hc hne
      rw [internalObjAlloc_pop fuel hne hcur, Option.some.injEq, Prod.mk.injEq] at hrun
      exact Or.inl ⟨p, hne, hcur, hrun.1.symm, hrun.2.symm⟩
    · have hzero := not_not.mp hne
      obtain ⟨hretired, hnone⟩ := hinv.retire hc hzero
      obtain ⟨_, hrefill⟩ := hretired.refill hnodup hc hnone
      have hround := @internalObjAlloc_refill h c fuel hzero (hinv.cache c hc).noPartial
      rcases hrefill with ⟨p, h₁, heq, hfresh, hadopt⟩ | ⟨heq, hpools⟩
      · rw [hround heq, Option.elim_some] at hrun
        obtain ⟨q, hcur, _⟩ := hadopt.inv.served_pop hc hadopt.freelist
        cases fuel with
        | zero => exact absurd hrun (by simp [internalObjAlloc])
        | succ fuel =>
          rw [internalObjAlloc_pop fuel hadopt.freelist hcur, Option.some.injEq,
            Prod.mk.injEq] at hrun
          exact Or.inr (Or.inl ⟨hzero, p, h₁, heq, hfresh, hadopt, q, hcur, hrun.1.symm,
            hrun.2.symm⟩)
      · rw [hround heq, Option.elim_none, Option.some.injEq, Prod.mk.injEq] at hrun
        exact Or.inr (Or.inr ⟨hzero, hrun.1.symm, hrun.2.symm, hpools⟩)

theorem HeapInv.cacheMalloc (hnodup : cfg.pools.Nodup) (hc : c ∈ cfg.caches) {fuel : ℕ}
    {obj : Word} (hinv : HeapInv cfg h live) (hrun : h.cacheMalloc fuel c = some (obj, h')) :
    Served cfg c live obj h' := by
  rcases hinv.cacheMalloc_cases hnodup hc hrun with ⟨p, hne, hcur, rfl, rfl⟩ |
    ⟨_, p, h₁, _, _, hadopt, q, hcur, rfl, rfl⟩ | ⟨hzero, rfl, rfl, _⟩
  · obtain ⟨q, hq, hserved⟩ := hinv.served_pop hc hne
    obtain rfl := Option.some.inj (hcur.symm.trans hq)
    exact hserved
  · obtain ⟨q', hq, hserved⟩ := hadopt.inv.served_pop hc hadopt.freelist
    obtain rfl := Option.some.inj (hcur.symm.trans hq)
    exact hserved
  · exact Or.inl ⟨rfl, (hinv.retire hc hzero).1⟩

theorem HeapInv.cacheMalloc_null (hinv : HeapInv cfg h live) (hnodup : cfg.pools.Nodup)
    (hc : c ∈ cfg.caches) {fuel : ℕ} (hrun : h.cacheMalloc fuel c = some (0#64, h')) :
    HeapInv cfg h' live := by
  rcases hinv.cacheMalloc hnodup hc hrun with ⟨_, hinv'⟩ | ⟨hne, _⟩
  · exact hinv'
  · exact absurd rfl hne

theorem HeapInv.cacheMalloc_object (hinv : HeapInv cfg h live) (hnodup : cfg.pools.Nodup)
    (hc : c ∈ cfg.caches) {fuel size : ℕ} {obj : Word}
    (hrun : h.cacheMalloc fuel c = some (obj, h')) (hne : obj ≠ 0#64)
    (hsize : size ≤ (cfg.objSz c).toNat) : HeapInv cfg h' (⟨obj, size, some c⟩ :: live) := by
  rcases hinv.cacheMalloc hnodup hc hrun with ⟨hzero, _⟩ | ⟨_, hserved⟩
  · exact absurd hzero hne
  · exact hserved size hsize

/-- Two rounds are always enough. -/
theorem HeapInv.cacheMalloc_returns (hinv : HeapInv cfg h live) (hnodup : cfg.pools.Nodup)
    (hc : c ∈ cfg.caches) (fuel : ℕ) : ∃ r, h.cacheMalloc (fuel + 2) c = some r := by
  rw [HeapState.cacheMalloc]
  by_cases hne : (h.caches c).freelist ≠ 0#64
  · obtain ⟨p, hcur, _⟩ := hinv.served_pop hc hne
    exact ⟨_, internalObjAlloc_pop (fuel + 1) hne hcur⟩
  · have hzero := not_not.mp hne
    obtain ⟨hretired, hnone⟩ := hinv.retire hc hzero
    obtain ⟨_, hrefill⟩ := hretired.refill hnodup hc hnone
    have hround := @internalObjAlloc_refill h c (fuel + 1) hzero (hinv.cache c hc).noPartial
    rcases hrefill with ⟨p, h₁, heq, _, hadopt⟩ | ⟨heq, _⟩
    · obtain ⟨q, hcur, _⟩ := hadopt.inv.served_pop hc hadopt.freelist
      exact ⟨_, (hround heq).trans (internalObjAlloc_pop fuel hadopt.freelist hcur)⟩
    · exact ⟨_, hround heq⟩

/-! ### KMemCache::Free -/

theorem SlabInv.objNr_succ (hslab : SlabInv h live c b) (ha : a ∈ live)
    (hon : virtToPage a.ptr ∈ b) : ((h.pool.pgdb b.start).objNr + 1#64).toNat =
      (h.pool.pgdb b.start).objNr.toNat + 1 ∧
      (h.pool.pgdb b.start).objNr.toNat < (h.caches c).pageObjNr.toNat := by
  have hcount := hslab.count
  have hpos := liveIn_pos ha hon
  rw [BitVec.toNat_add]
  simp only [BitVec.toNat_ofNat]
  omega

theorem distinct_erase (hinv : HeapInv cfg h live) (ha : a ∈ live) :
    ∀ x ∈ live.erase a, x.ptr ≠ a.ptr := by
  have hpair := (List.perm_cons_erase ha).pairwise_iff
    (R := fun x y : Allocation => x.ptr ≠ y.ptr) (fun hxy => Ne.symm hxy)
  exact fun x hx => Ne.symm ((List.pairwise_cons.mp (hpair.mp hinv.distinct)).1 x hx)

/-- Free puts an object of the current slab back on the chain. -/
theorem HeapInv.push (hinv : HeapInv cfg h live) (ha : a ∈ live) (hback : Backed h a b)
    (hkc : (h.pool.pgdb b.start).kc = some c) (hcur : (h.caches c).current = some b.start)
    {pg : Page} (hpg : pg = { h.pool.pgdb b.start with
      objNr := (h.pool.pgdb b.start).objNr + 1#64 })
    (hpgdb : h'.pool = h.pool.setPage b.start pg)
    (hmem : h'.mem = store64 h.mem a.ptr (h.caches c).freelist)
    (hupd : CacheUpdate cfg h h' c (h.caches c).current a.ptr (h.caches c).fullPages)
    (hout : h'.handedOut = h.handedOut) : HeapInv cfg h' (live.erase a) := by
  have hb := hback.mem
  obtain ⟨hc, hslab⟩ := hinv.slab b hb c hkc
  obtain ⟨href, l, hchain, hnodup, hlen, hmeml⟩ := hslab.current hcur
  have hcache := hinv.cache c hc
  have hfits := hinv.fits hb hkc
  have hsized := hinv.sized hb hkc
  have hon := hinv.virtToPage_mem hback
  have hptr := (hback.object c (hback.kc.symm.trans hkc)).2
  obtain ⟨i, hi, hslot⟩ := mem_slots.mp hptr
  have hentry : h'.pool.pgdb b.start = pg := by
    rw [hpgdb]
    exact Function.update_self ..
  have hchange : LocalChange cfg h h' live (live.erase a) b := by
    refine ⟨by rw [hpgdb]; rfl, hout, ?_, by rw [hentry, hpg], by rw [hentry, hpg], ?_,
      fun x hx => Or.inl (List.mem_of_mem_erase hx),
      fun d happ => liveIn_erase_of_apart hon happ,
      hupd.sameFor (fun _ _ => Iff.rfl) ?_ fun _ _ => id⟩
    · intro q hq
      rw [hpgdb]
      exact Function.update_of_ne hq ..
    · intro x hx
      rw [hmem, hslot]
      exact store64_of_not_inRange fun hr => hx (hfits.virtToPage_mem hi hsized.word_le hr)
    · intro p hp hpc
      exact absurd (Option.some.inj (hpc.symm.trans hcur)) hp
  obtain ⟨hsucc, hlt⟩ := hslab.objNr_succ ha hon
  have hobjNr : (h'.pool.pgdb b.start).objNr.toNat = (h.pool.pgdb b.start).objNr.toNat + 1 := by
    rw [hentry, hpg]
    exact hsucc
  refine hupd.heapInv hinv hb hkc (by rw [hentry, hpg]; exact hkc) hchange hcache.current
    (fun hnone => absurd (hnone.symm.trans hcur) (by simp)) hcache.full hcache.nodup
    (hupd.slabInv (l := a.ptr :: l) hcur hslab.order (by rw [hentry, hpg]; exact href)
      (by rw [hobjNr, List.length_cons, hlen]) ?_ ?_ ?_ ?_)
    (fun x hx => Or.inl (List.mem_of_mem_erase hx)) (hinv.distinct.sublist List.erase_sublist)
  · have hcount := hslab.count
    rw [List.length_cons, liveIn_erase_of_mem ha hon]
    omega
  · rw [hmem]
    refine Chain.push ?_ ?_ (load64_store64_same _ _ _)
    · refine hchain.congr fun x hx => ?_
      obtain ⟨hxslot, hxdead⟩ := hmeml x hx
      obtain ⟨j, hj, rfl⟩ := mem_slots.mp hxslot
      rw [hslot]
      refine (hfits.load64_store64 hsized.word_le hj hi ?_ _ _).symm
      rintro rfl
      exact hxdead a ha hslot
    · rw [hslot]
      exact hfits.slotAddr_ne_zero hi
  · exact List.nodup_cons.mpr ⟨fun hmem => (hmeml _ hmem).2 a ha rfl, hnodup⟩
  · intro x hx
    rcases List.mem_cons.mp hx with rfl | hx
    · exact ⟨hptr, distinct_erase hinv ha⟩
    · exact ⟨(hmeml x hx).1, fun y hy => (hmeml x hx).2 y (List.mem_of_mem_erase hy)⟩

/-- Free of an object of another slab only moves the slab on the full list. -/
theorem HeapInv.freeOther (hinv : HeapInv cfg h live) (ha : a ∈ live) (hback : Backed h a b)
    (hkc : (h.pool.pgdb b.start).kc = some c) (hcur : (h.caches c).current ≠ some b.start)
    (pg : Page) (full : List ℕ) (hpgdb : h'.pool.pgdb = Function.update h.pool.pgdb b.start pg)
    (hpgkc : pg.kc = some c) (hpgorder : pg.order = (h.pool.pgdb b.start).order)
    (hpghead : pg.isHead = (h.pool.pgdb b.start).isHead)
    (hobjNr : pg.objNr = (h.pool.pgdb b.start).objNr + 1#64)
    (hfree : h'.pool.freeBlocksOf cfg.pools = h.pool.freeBlocksOf cfg.pools)
    (hmem : h'.mem = h.mem)
    (hupd : CacheUpdate cfg h h' c (h.caches c).current (h.caches c).freelist full)
    (hout : h'.handedOut = h.handedOut)
    (hlisted : pg.objNr.toNat < (h.caches c).pageObjNr.toNat →
      b.start ∈ full ∧ pg.refCount = 0#32)
    (hfull : ∀ p ∈ full, p ∈ (h.caches c).fullPages)
    (hfull' : ∀ p ∈ (h.caches c).fullPages, p ≠ b.start → p ∈ full) (hnodup : full.Nodup) :
    HeapInv cfg h' (live.erase a) := by
  have hb := hback.mem
  obtain ⟨hc, hslab⟩ := hinv.slab b hb c hkc
  have hcache := hinv.cache c hc
  have hon := hinv.virtToPage_mem hback
  have hentry : h'.pool.pgdb b.start = pg := by
    rw [hpgdb]
    exact Function.update_self ..
  have hchange : LocalChange cfg h h' live (live.erase a) b := by
    refine ⟨hfree, hout, ?_, by rw [hentry, hpgorder], by rw [hentry, hpghead],
      fun x _ => by rw [hmem], fun x hx => Or.inl (List.mem_of_mem_erase hx),
      fun d happ => liveIn_erase_of_apart hon happ,
      hupd.sameFor (fun _ _ => Iff.rfl) (fun _ _ _ => rfl) fun p hp hpf => hfull' p hpf hp⟩
    intro q hq
    rw [hpgdb]
    exact Function.update_of_ne hq ..
  obtain ⟨hsucc, hlt⟩ := hslab.objNr_succ ha hon
  refine hupd.heapInv hinv hb hkc (by rw [hentry]; exact hpgkc) hchange hcache.current hcache.idle
    (fun p hp => hcache.full p (hfull p hp)) hnodup ⟨?_, ?_, ?_, ?_⟩
    (fun x hx => Or.inl (List.mem_of_mem_erase hx)) (hinv.distinct.sublist List.erase_sublist)
  · rw [hupd.self]
    exact hslab.order
  · have hcount := hslab.count
    rw [hupd.self, hentry, hobjNr, hsucc, liveIn_erase_of_mem ha hon]
    simp only
    omega
  · intro hcur'
    rw [hupd.self] at hcur'
    exact absurd hcur' hcur
  · intro _ hlt'
    rw [hupd.self, hentry] at hlt' ⊢
    exact hlisted hlt'

theorem KMemCache.listDel_of_not_mem {kc : KMemCache} (hpart : p ∉ kc.partialPages)
    (hfull : p ∉ kc.fullPages) : kc.listDel p = kc := by
  rw [KMemCache.listDel, List.erase_of_not_mem hpart, List.erase_of_not_mem hfull]

/-- Unlinking the head page of a slab of c leaves the other caches as they are. -/
theorem HeapInv.listDel_other (hinv : HeapInv cfg h live) {e : ℕ} (he : e ∈ cfg.caches)
    (hkc : (h.pool.pgdb p).kc = some c) (hne : e ≠ c) :
    (h.caches e).listDel p = h.caches e := by
  have hcache := hinv.cache e he
  apply KMemCache.listDel_of_not_mem
  · rw [hcache.noPartial]
    exact List.not_mem_nil
  · intro hp
    obtain ⟨_, _, _, hkce⟩ := (hcache.full p hp).2
    exact hne (Option.some.inj (hkce.symm.trans hkc))

theorem CacheInv.listDel_self (hcache : CacheInv cfg h c) :
    (h.caches c).listDel p = { h.caches c with fullPages := (h.caches c).fullPages.erase p } := by
  rw [KMemCache.listDel, hcache.noPartial, List.erase_nil, ← hcache.noPartial]

theorem freeBlocksOf_setPage_listDel (hinv : HeapInv cfg h live) (hb : b ∈ h.handedOut)
    (pg : Page) :
    ((h.pool.setPage b.start pg).listDel b.start).freeBlocksOf cfg.pools =
      h.pool.freeBlocksOf cfg.pools :=
  freeBlocksOf_listDel (s := h.pool.setPage b.start pg) (hinv.not_mem_free hb b.start_mem)

theorem HeapState.putPage_of_isHead (hhead : (h.pool.pgdb p).isHead = true)
    (href : (h.pool.pgdb p).refCount = 0#32) :
    h.putPage p = some (h.setPage p { h.pool.pgdb p with refCount := -1#32 }) := by
  rw [HeapState.putPage, PoolState.putPage_of_isHead hhead href]
  rfl

/-- The first object freed of another slab: the page leaves the full list and joins it
again. -/
theorem HeapInv.freeFirst (hinv : HeapInv cfg h live) (ha : a ∈ live) (hback : Backed h a b)
    (hkc : (h.pool.pgdb b.start).kc = some c) (hcur : (h.caches c).current ≠ some b.start)
    (hlisted : b.start ∈ (h.caches c).fullPages) (href : (h.pool.pgdb b.start).refCount = 0#32) :
    HeapInv cfg (((h.setPage b.start { h.pool.pgdb b.start with
        objNr := (h.pool.pgdb b.start).objNr + 1#64 }).listDel b.start).setCache c
      (((h.caches c).listDel b.start).addFull b.start)) (live.erase a) := by
  have hcache := hinv.cache c (hinv.slab b hback.mem c hkc).1
  have hgone : b.start ∉ (h.caches c).fullPages.erase b.start := hcache.nodup.not_mem_erase
  refine hinv.freeOther ha hback hkc hcur _ (b.start :: (h.caches c).fullPages.erase b.start) rfl
    hkc rfl rfl rfl (freeBlocksOf_setPage_listDel hinv hback.mem _) rfl ⟨?_, ?_⟩ rfl ?_ ?_ ?_ ?_
  · rw [setCache_caches_self, hcache.listDel_self, KMemCache.addFull]
  · intro e he hne
    rw [setCache_caches_of_ne _ _ hne]
    exact hinv.listDel_other he hkc hne
  · exact fun _ => ⟨List.mem_cons_self, href⟩
  · intro p hp
    rcases List.mem_cons.mp hp with rfl | hp
    · exact hlisted
    · exact List.mem_of_mem_erase hp
  · exact fun p hp hne => List.mem_cons_of_mem _ ((List.mem_erase_of_ne hne).mpr hp)
  · exact List.nodup_cons.mpr ⟨hgone, hcache.nodup.erase b.start⟩

/-- The last object freed of another slab: the page leaves the list and put_page drops the
count to -1. -/
theorem HeapInv.freeLast (hinv : HeapInv cfg h live) (ha : a ∈ live) (hback : Backed h a b)
    (hkc : (h.pool.pgdb b.start).kc = some c) (hcur : (h.caches c).current ≠ some b.start)
    (href : (h.pool.pgdb b.start).refCount = 0#32)
    (hall : (h.pool.pgdb b.start).objNr + 1#64 = (h.caches c).pageObjNr) :
    ∃ h', ((h.setPage b.start { h.pool.pgdb b.start with
        objNr := (h.pool.pgdb b.start).objNr + 1#64 }).listDel b.start).putPage b.start = some h' ∧
      HeapInv cfg h' (live.erase a) := by
  have hcache := hinv.cache c (hinv.slab b hback.mem c hkc).1
  generalize hstate : (h.setPage b.start { h.pool.pgdb b.start with
    objNr := (h.pool.pgdb b.start).objNr + 1#64 }).listDel b.start = h₁
  have hentry : h₁.pool.pgdb = Function.update h.pool.pgdb b.start { h.pool.pgdb b.start with
      objNr := (h.pool.pgdb b.start).objNr + 1#64 } := by rw [← hstate]; rfl
  have hself : h₁.pool.pgdb b.start = { h.pool.pgdb b.start with
      objNr := (h.pool.pgdb b.start).objNr + 1#64 } := by rw [hentry, Function.update_self]
  have hput := HeapState.putPage_of_isHead (h := h₁) (p := b.start)
    (by rw [hself]; exact hinv.isHead hback.mem) (by rw [hself]; exact href)
  refine ⟨_, hput, hinv.freeOther ha hback hkc hcur
    { h₁.pool.pgdb b.start with refCount := -1#32 } ((h.caches c).fullPages.erase b.start) ?_
    (by rw [hself]; exact hkc) (by rw [hself]) (by rw [hself]) (by rw [hself]) ?_ ?_ ⟨?_, ?_⟩ ?_ ?_
    (fun p hp => List.mem_of_mem_erase hp) ?_ (hcache.nodup.erase b.start)⟩
  · simp only [HeapState.setPage, PoolState.setPage, hentry, Function.update_idem]
  · rw [← freeBlocksOf_setPage_listDel hinv hback.mem, ← hstate]
    rfl
  · rw [← hstate]
    rfl
  · rw [← hstate]
    exact hcache.listDel_self
  · intro e he hne
    rw [← hstate]
    exact hinv.listDel_other he hkc hne
  · rw [← hstate]
    rfl
  · intro hless
    simp only [hself, hall] at hless
    exact absurd hless (Nat.lt_irrefl _)
  · exact fun p hp hne => (List.mem_erase_of_ne hne).mpr hp

/-- Any other object freed of another slab: only its page counts it. -/
theorem HeapInv.freeCounted (hinv : HeapInv cfg h live) (ha : a ∈ live) (hback : Backed h a b)
    (hkc : (h.pool.pgdb b.start).kc = some c) (hcur : (h.caches c).current ≠ some b.start)
    (hlisted : b.start ∈ (h.caches c).fullPages) (href : (h.pool.pgdb b.start).refCount = 0#32) :
    HeapInv cfg (h.setPage b.start { h.pool.pgdb b.start with
      objNr := (h.pool.pgdb b.start).objNr + 1#64 }) (live.erase a) :=
  hinv.freeOther ha hback hkc hcur _ _ rfl hkc rfl rfl rfl rfl rfl ⟨rfl, fun _ _ _ => rfl⟩ rfl
    (fun _ => ⟨hlisted, href⟩) (fun _ hp => hp) (fun _ hp _ => hp)
    (hinv.cache c (hinv.slab b hback.mem c hkc).1).nodup

/-- Free of a live object returns and keeps the invariant of the other allocations. -/
theorem HeapInv.cacheFree (hinv : HeapInv cfg h live) (ha : a ∈ live) (hback : Backed h a b)
    (hsource : a.source = some c) :
    ∃ h', h.cacheFree c b.start a.ptr = some h' ∧ HeapInv cfg h' (live.erase a) := by
  have hkc := hback.kc.trans hsource
  have hslab := (hinv.slab b hback.mem c hkc).2
  obtain ⟨_, hlt⟩ := hslab.objNr_succ ha (hinv.virtToPage_mem hback)
  simp only [HeapState.cacheFree, internalObjFree]
  by_cases hcur : (h.caches c).current = some b.start
  · rw [if_pos hcur]
    refine ⟨_, rfl, hinv.push ha hback hkc hcur rfl rfl rfl ⟨?_, fun e _ he => ?_⟩ rfl⟩
    · rw [setCache_caches_self]
    · exact setCache_caches_of_ne _ _ he
  rw [if_neg hcur]
  obtain ⟨hlisted, href⟩ := hslab.listed hcur hlt
  by_cases hone : (h.pool.pgdb b.start).objNr + 1#64 = 1#64
  · rw [if_pos hone]
    exact ⟨_, rfl, hinv.freeFirst ha hback hkc hcur hlisted href⟩
  rw [if_neg hone]
  by_cases hall : (h.pool.pgdb b.start).objNr + 1#64 = (h.caches c).pageObjNr
  · rw [if_pos hall]
    exact hinv.freeLast ha hback hkc hcur href hall
  · rw [if_neg hall]
    exact ⟨_, rfl, hinv.freeCounted ha hback hkc hcur hlisted href⟩

end ClosureOS
