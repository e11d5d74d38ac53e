import ClosureOS.PoolPartition
import Mathlib.Tactic.IntervalCases

/-!
Reference counts of page blocks: get_page and put_page in mm/page_mm.cppm. The head
page of a block carries the count, which is -1 when nobody holds the block. put_page
compares the count before its decrement, since the atomic returns the old value.
-/
namespace ClosureOS

open DyadicBlocks WordAlign

/-! ### Finding the head page -/

/-- The number of 64-byte entries a 64-bit address space can tell apart. -/
def pgdbCapacity : ℕ := 2 ^ 58

theorem headMask_eq {k : ℕ} (hk : k < maxPageOrder) :
    ~~~(sizeofPage * BitVec.ofNat 64 (1 <<< k) - 1#64) = highMask 64 (6 + k) := by
  unfold maxPageOrder at hk
  interval_cases k <;> decide

/-- Masking the address of an entry gives the first entry of its aligned block. -/
theorem pageIndex_pageAddr_mask {k q : ℕ} (hk : k < maxPageOrder) (hq : q < pgdbCapacity) :
    pageIndex (pageAddr q &&& ~~~(sizeofPage * BitVec.ofNat 64 (1 <<< k) - 1#64)) =
      q / 2 ^ k * 2 ^ k := by
  rw [headMask_eq hk, pageIndex, BitVec.toNat_sub, toNat_and_highMask, toNat_pageAddr]
  simp only [pgdbBase, kernPageDatabaseRegionBase, BitVec.toNat_ofNat]
  unfold maxPageOrder at hk
  unfold pgdbCapacity at hq
  interval_cases k <;> simp only [Nat.reducePow, Nat.reduceAdd, Nat.reduceMod, Nat.reduceSub] <;>
    omega

/-- The entries of a block that was initialised with order k: its head page is found
from each of them. -/
theorem getHeadPage_eq {g : Pgdb} {p k q : ℕ} (hk : k < maxPageOrder)
    (halign : Block.Aligned ⟨p, k⟩) (hcap : Block.stop ⟨p, k⟩ ≤ pgdbCapacity)
    (hq : q ∈ (⟨p, k⟩ : Block)) (horder : (g q).order = k) (hhead : (g q).isHead = (q == p)) :
    getHeadPage g q = p := by
  rw [getHeadPage, hhead]
  by_cases hqp : q = p
  · simp [hqp]
  · have hne : (q == p) = false := by simpa using hqp
    rw [hne, horder, if_neg (by simp), pageIndex_pageAddr_mask hk (hq.2.trans_le hcap)]
    obtain ⟨m, hm⟩ := halign
    simp only at hm
    rw [Block.mem_iff, hm] at hq
    have hdiv : q / 2 ^ k = m := by
      apply Nat.div_eq_of_lt_le
      · rw [Nat.mul_comm]
        exact hq.1
      · rw [Nat.succ_mul, Nat.mul_comm]
        exact hq.2
    rw [hdiv, hm, Nat.mul_comm]

theorem getHeadPage_of_isHead {g : Pgdb} {p : ℕ} (h : (g p).isHead = true) :
    getHeadPage g p = p := if_pos h

/-! ### get_page and put_page -/

/-- A call of FreePages: the pool, the page and the order it is given. -/
structure FreeCall where
  pool : Option ℕ
  page : ℕ
  order : ℕ
deriving DecidableEq, Repr

namespace PoolState

def getPage (s : PoolState) (p : ℕ) : PoolState :=
  let head := getHeadPage s.pgdb p
  s.setPage head { s.pgdb head with refCount := (s.pgdb head).refCount + 1#32 }

/-- The call of FreePages that put_page makes; none when it makes none. -/
def putPageCall (s : PoolState) (p : ℕ) : Option FreeCall :=
  let head := getHeadPage s.pgdb p
  if (s.pgdb head).refCount.slt 0#32 then
    some ⟨(s.pgdb head).pool, head, (s.pgdb head).order⟩
  else none

/-- put_page; none when the call goes through a null pool pointer. -/
def putPage (s : PoolState) (p : ℕ) : Option PoolState :=
  let head := getHeadPage s.pgdb p
  let s' := s.setPage head { s.pgdb head with refCount := (s.pgdb head).refCount - 1#32 }
  match s.putPageCall p with
  | none => some s'
  | some call => call.pool.map fun pid => s'.freePages pid (some call.page) call.order

/-- get_page writes nothing but a count. -/
theorem getPage_pgdb (s : PoolState) (p q : ℕ) :
    ∃ r, (s.getPage p).pgdb q = { s.pgdb q with refCount := r } := by
  simp only [getPage, setPage, Function.update_apply]
  split
  · next heq => exact ⟨_, by rw [heq]⟩
  · exact ⟨(s.pgdb q).refCount, rfl⟩

theorem getPage_of_isHead {s : PoolState} {p : ℕ} (h : (s.pgdb p).isHead = true) :
    s.getPage p = s.setPage p { s.pgdb p with refCount := (s.pgdb p).refCount + 1#32 } := by
  rw [getPage, getHeadPage_of_isHead h]

/-- put_page on a head page whose count is 0 does not call FreePages. -/
theorem putPageCall_of_isHead {s : PoolState} {p : ℕ} (h : (s.pgdb p).isHead = true)
    (href : (s.pgdb p).refCount = 0#32) : s.putPageCall p = none := by
  rw [putPageCall, getHeadPage_of_isHead h, href]
  rfl

/-- put_page on a head page whose count is 0: nothing is released. -/
theorem putPage_of_isHead {s : PoolState} {p : ℕ} (h : (s.pgdb p).isHead = true)
    (href : (s.pgdb p).refCount = 0#32) :
    s.putPage p = some (s.setPage p { s.pgdb p with refCount := -1#32 }) := by
  simp only [putPage, putPageCall_of_isHead h href, getHeadPage_of_isHead h, href]
  rfl

end PoolState

/-- A call of get_page or put_page on a page. -/
inductive RefOp
  | get (p : ℕ)
  | put (p : ℕ)
deriving DecidableEq, Repr

namespace RefOp

def page : RefOp → ℕ
  | get p => p
  | put p => p

def run (s : PoolState) : RefOp → Option PoolState
  | get p => some (s.getPage p)
  | put p => s.putPage p

def gets (ops : List RefOp) : ℕ :=
  ops.countP fun op => match op with | get _ => true | put _ => false

def puts (ops : List RefOp) : ℕ :=
  ops.countP fun op => match op with | get _ => false | put _ => true

/-- The state after a sequence of calls. -/
def runAll (s : PoolState) (ops : List RefOp) : Option PoolState := ops.foldlM run s

/-- The calls are on pages of b, and the puts never outnumber the gets. -/
structure Balanced (b : Block) (ops : List RefOp) : Prop where
  pages : ∀ op ∈ ops, op.page ∈ b
  bounded : ∀ pre, pre <+: ops → puts pre ≤ gets pre

/-- Each put_page of the sequence calls FreePages on the head of b with the order of
b when it makes the puts equal to the gets, and calls nothing otherwise. -/
def ReleasesExactly (b : Block) (s : PoolState) (ops : List RefOp) : Prop :=
  ∀ pre q post, ops = pre ++ put q :: post → ∀ s', runAll s pre = some s' →
    (s'.putPageCall q).map (fun c => (c.page, c.order)) =
      if puts pre + 1 = gets pre then some (b.start, b.order) else none

/-- No put is the last one, and none finds the 32-bit count negative. -/
def NeverLast (ops : List RefOp) : Prop :=
  ∀ pre q post, ops = pre ++ put q :: post →
    puts pre + 1 ≠ gets pre ∧ (gets pre - puts pre - 1) % 2 ^ 32 < 2 ^ 31

@[simp] theorem gets_append_get (pre : List RefOp) (p : ℕ) :
    gets (pre ++ [get p]) = gets pre + 1 := by
  simp [gets]

@[simp] theorem gets_append_put (pre : List RefOp) (p : ℕ) : gets (pre ++ [put p]) = gets pre := by
  simp [gets]

@[simp] theorem puts_append_get (pre : List RefOp) (p : ℕ) : puts (pre ++ [get p]) = puts pre := by
  simp [puts]

@[simp] theorem puts_append_put (pre : List RefOp) (p : ℕ) :
    puts (pre ++ [put p]) = puts pre + 1 := by
  simp [puts]

theorem Balanced.of_isPrefix {b : Block} {pre ops : List RefOp} (hbal : Balanced b ops)
    (hpre : pre <+: ops) : Balanced b pre :=
  ⟨fun op hop => hbal.pages op (hpre.subset hop), fun l hl => hbal.bounded l (hl.trans hpre)⟩

/-- The last call of a balanced sequence that is a put finds the page held. -/
theorem Balanced.held_of_put {b : Block} {pre : List RefOp} {q : ℕ}
    (hbal : Balanced b (pre ++ [put q])) : puts pre < gets pre := by
  have hbound := hbal.bounded _ (List.prefix_refl _)
  rw [gets_append_put, puts_append_put] at hbound
  exact hbound

theorem NeverLast.of_append {pre post : List RefOp} (hlast : NeverLast (pre ++ post)) :
    NeverLast pre := by
  intro pre' q' post' heq
  apply hlast pre' q' (post' ++ post)
  rw [heq, List.append_assoc]
  rfl

theorem runAll_append_singleton {s s' : PoolState} {ops : List RefOp}
    (hrun : runAll s ops = some s') (op : RefOp) : runAll s (ops ++ [op]) = op.run s' := by
  rw [runAll, List.foldlM_append]
  change (runAll s ops).bind _ = _
  rw [hrun]
  simp

end RefOp

open RefOp

/-- A block held outstanding times: what get_page and put_page rely on. -/
structure HeldBlock (s : PoolState) (b : Block) (outstanding : ℕ) : Prop where
  order : ∀ q ∈ b, (s.pgdb q).order = b.order
  head : ∀ q ∈ b, (s.pgdb q).isHead = (q == b.start)
  count : (s.pgdb b.start).refCount = BitVec.ofNat 32 outstanding - 1#32

section Held

variable {s : PoolState} {b : Block} {n q : ℕ}

theorem HeldBlock.getHeadPage_eq (h : HeldBlock s b n) (hk : b.order < maxPageOrder)
    (halign : b.Aligned) (hcap : b.stop ≤ pgdbCapacity) (hq : q ∈ b) :
    getHeadPage s.pgdb q = b.start :=
  ClosureOS.getHeadPage_eq (k := b.order) hk halign hcap hq (h.order q hq) (h.head q hq)

theorem HeldBlock.setRef (h : HeldBlock s b n) {c : BitVec 32} {m : ℕ}
    (hc : c = BitVec.ofNat 32 m - 1#32) :
    HeldBlock (s.setPage b.start { s.pgdb b.start with refCount := c }) b m := by
  constructor
  · intro q hq
    simp only [PoolState.setPage, Function.update_apply]
    split
    · exact h.order b.start b.start_mem
    · exact h.order q hq
  · intro q hq
    simp only [PoolState.setPage, Function.update_apply]
    split
    · next heq =>
      rw [heq]
      exact h.head b.start b.start_mem
    · exact h.head q hq
  · simp only [PoolState.setPage, Function.update_self]
    exact hc

/-- What put_page calls on a block held n times. -/
theorem HeldBlock.putPageCall (h : HeldBlock s b n) (hk : b.order < maxPageOrder)
    (halign : b.Aligned) (hcap : b.stop ≤ pgdbCapacity) (hq : q ∈ b) (hn : 0 < n) :
    s.putPageCall q =
      if 2 ^ 31 ≤ (n - 1) % 2 ^ 32 then some ⟨(s.pgdb b.start).pool, b.start, b.order⟩
      else none := by
  have hslt : (BitVec.ofNat 32 n - 1#32).slt 0#32 = decide (2 ^ 31 ≤ (n - 1) % 2 ^ 32) := by
    have hsub : BitVec.ofNat 32 n - 1#32 = BitVec.ofNat 32 (n - 1) := by
      apply BitVec.eq_of_toNat_eq
      simp only [BitVec.toNat_sub, BitVec.toNat_ofNat]
      omega
    rw [hsub, BitVec.slt_zero_eq_msb, BitVec.msb_eq_decide, BitVec.toNat_ofNat]
  rw [PoolState.putPageCall, h.getHeadPage_eq hk halign hcap hq]
  simp only [h.count, hslt, h.order _ b.start_mem, decide_eq_true_eq]

/-- get_page on a page of a held block. -/
theorem HeldBlock.getPage (h : HeldBlock s b n) (hk : b.order < maxPageOrder)
    (halign : b.Aligned) (hcap : b.stop ≤ pgdbCapacity) (hq : q ∈ b) :
    HeldBlock (s.getPage q) b (n + 1) := by
  rw [PoolState.getPage, h.getHeadPage_eq hk halign hcap hq]
  apply h.setRef
  rw [h.count, BitVec.ofNat_add]
  simp

/-- put_page where it does not call FreePages. -/
theorem HeldBlock.putPage (h : HeldBlock s b n) (hk : b.order < maxPageOrder)
    (halign : b.Aligned) (hcap : b.stop ≤ pgdbCapacity) (hq : q ∈ b) (hn : 0 < n)
    (hquiet : (n - 1) % 2 ^ 32 < 2 ^ 31) :
    ∃ s', s.putPage q = some s' ∧ HeldBlock s' b (n - 1) := by
  have hcall := h.putPageCall hk halign hcap hq hn
  rw [if_neg (Nat.not_le.mpr hquiet)] at hcall
  refine ⟨_, by rw [PoolState.putPage, hcall], ?_⟩
  rw [h.getHeadPage_eq hk halign hcap hq]
  apply h.setRef
  have hpred : n = (n - 1) + 1 := by omega
  rw [h.count]
  conv_lhs => rw [hpred, BitVec.ofNat_add]
  simp

/-- A sequence whose puts all leave the block held only moves the count. -/
theorem HeldBlock.run (h : HeldBlock s b 0) (hk : b.order < maxPageOrder)
    (halign : b.Aligned) (hcap : b.stop ≤ pgdbCapacity) :
    ∀ ops, Balanced b ops → NeverLast ops →
      ∃ s', runAll s ops = some s' ∧ HeldBlock s' b (gets ops - puts ops) := by
  intro ops
  induction ops using List.reverseRecOn with
  | nil => exact fun _ _ => ⟨s, rfl, h⟩
  | append_singleton ops op ih =>
    intro hbal hlast
    have hbefore := hbal.of_isPrefix (List.prefix_append ops [op])
    obtain ⟨s', hrun, hheld⟩ := ih hbefore hlast.of_append
    have hop : op.page ∈ b := hbal.pages op (by simp)
    have hle := hbefore.bounded ops (List.prefix_refl _)
    rw [runAll_append_singleton hrun]
    cases op with
    | get p =>
      refine ⟨_, rfl, ?_⟩
      have hnext : gets (ops ++ [get p]) - puts (ops ++ [get p]) = (gets ops - puts ops) + 1 := by
        rw [gets_append_get, puts_append_get]
        omega
      rw [hnext]
      exact hheld.getPage hk halign hcap hop
    | put p =>
      have hpos := hbal.held_of_put
      have hnext : gets (ops ++ [put p]) - puts (ops ++ [put p]) = (gets ops - puts ops) - 1 := by
        rw [gets_append_put, puts_append_put]
        omega
      rw [hnext]
      exact hheld.putPage hk halign hcap hop (by omega) (hlast ops p [] rfl).2

/-- What the next put_page calls after a sequence whose puts all left the block held. -/
theorem HeldBlock.call_after (h : HeldBlock s b 0) (hk : b.order < maxPageOrder)
    (halign : b.Aligned) (hcap : b.stop ≤ pgdbCapacity) {pre : List RefOp}
    (hbal : Balanced b (pre ++ [put q])) (hlast : NeverLast pre) :
    ∃ s', runAll s pre = some s' ∧
      (s'.putPageCall q).map (fun c => (c.page, c.order)) =
        if 2 ^ 31 ≤ (gets pre - puts pre - 1) % 2 ^ 32 then some (b.start, b.order) else none := by
  have hpre := hbal.of_isPrefix (List.prefix_append pre [put q])
  obtain ⟨s', hrun, hheld⟩ := h.run hk halign hcap pre hpre hlast
  have hq : q ∈ b := hbal.pages (put q) (by simp)
  have hpos := hbal.held_of_put
  refine ⟨s', hrun, ?_⟩
  rw [hheld.putPageCall hk halign hcap hq (by omega)]
  split <;> rfl

/-- A put that releases exactly when it should is quiet, if the puts before it were. -/
theorem HeldBlock.quiet_of_releasesExactly (h : HeldBlock s b 0) (hk : b.order < maxPageOrder)
    (halign : b.Aligned) (hcap : b.stop ≤ pgdbCapacity) {ops pre post : List RefOp}
    (hbal : Balanced b (pre ++ [put q])) (hexact : ReleasesExactly b s ops)
    (heq : ops = pre ++ put q :: post) (hlast : NeverLast pre) :
    puts pre + 1 ≠ gets pre ∧ (gets pre - puts pre - 1) % 2 ^ 32 < 2 ^ 31 := by
  obtain ⟨s', hrun, hcall⟩ := h.call_after hk halign hcap hbal hlast
  have hreq := hexact pre q post heq s' hrun
  rw [hcall] at hreq
  by_cases hone : puts pre + 1 = gets pre
  · have hzero : (gets pre - puts pre - 1) % 2 ^ 32 = 0 := by omega
    rw [if_pos hone, hzero, if_neg (by decide)] at hreq
    exact absurd hreq (by simp)
  · refine ⟨hone, ?_⟩
    by_contra hneg
    rw [if_neg hone, if_pos (Nat.le_of_not_lt hneg)] at hreq
    exact absurd hreq (by simp)

theorem HeldBlock.releasesExactly_iff (h : HeldBlock s b 0) (hk : b.order < maxPageOrder)
    (halign : b.Aligned) (hcap : b.stop ≤ pgdbCapacity) {ops : List RefOp}
    (hbal : Balanced b ops) : ReleasesExactly b s ops ↔ NeverLast ops := by
  have hpre : ∀ {pre q post}, ops = pre ++ put q :: post → Balanced b (pre ++ [put q]) :=
    fun {pre q post} heq => hbal.of_isPrefix ⟨post, by rw [heq]; simp⟩
  constructor
  · intro hexact
    -- by induction on the position of the put: the earlier puts were quiet
    have haux : ∀ n, ∀ pre q post, pre.length = n → ops = pre ++ put q :: post →
        puts pre + 1 ≠ gets pre ∧ (gets pre - puts pre - 1) % 2 ^ 32 < 2 ^ 31 := by
      intro n
      induction n using Nat.strong_induction_on with
      | h n ih =>
        intro pre q post hlen heq
        refine h.quiet_of_releasesExactly hk halign hcap (hpre heq) hexact heq ?_
        intro pre' q' post' heq'
        refine ih pre'.length ?_ pre' q' (post' ++ put q :: post) rfl ?_
        · rw [← hlen, heq']
          simp
        · rw [heq, heq']
          simp
    exact fun pre q post heq => haux pre.length pre q post rfl heq
  · intro hlast pre q post heq s' hrun
    have hquiet : NeverLast pre := NeverLast.of_append (heq ▸ hlast)
    obtain ⟨s'', hrun', hcall⟩ := h.call_after hk halign hcap (hpre heq) hquiet
    obtain rfl := Option.some.inj (hrun'.symm.trans hrun)
    obtain ⟨hne, hlt⟩ := hlast pre q post heq
    rw [hcall, if_neg hne, if_neg (Nat.not_le.mpr hlt)]

end Held

/-- A block fresh from AllocPages is held by nobody. -/
theorem heldBlock_of_allocPages {s s' : PoolState} {pid p k : ℕ}
    (hsep : Separated (s.freeBlocks pid)) (hcap : ∀ b ∈ s.freeBlocks pid, b.stop ≤ pgdbCapacity)
    (h : s.allocPages pid k = (some p, s')) :
    HeldBlock s' ⟨p, k⟩ 0 ∧ k < maxPageOrder ∧ Block.Aligned ⟨p, k⟩ ∧
      Block.stop ⟨p, k⟩ ≤ pgdbCapacity := by
  have halloc := PoolState.allocPages_some (l := []) (by rwa [List.append_nil]) h
  obtain ⟨a, ha, hsub⟩ := halloc.source
  refine ⟨⟨?_, ?_, ?_⟩, halloc.order_lt, halloc.separated.head_aligned, ?_⟩
  · intro q hq
    rw [halloc.entry q hq]
    exact orderField_of_lt halloc.order_lt
  · intro q hq
    rw [halloc.entry q hq]
    rfl
  · rw [halloc.entry p (Block.start_mem ⟨p, k⟩)]
    simp [reinitEntry]
  · exact (Block.stop_le_of_subset hsub).trans (hcap a ha)

/-- For a block just returned by AllocPages and calls on its pages whose puts never
outnumber the gets, put_page releases the block exactly at its last reference if and
only if no put is the last one and none finds the count, gets minus puts minus one
modulo 2^32, negative. In particular one get and one put release nothing. -/
theorem releasesExactly_iff_neverLast {s s' : PoolState} {pid p k : ℕ}
    (hsep : Separated (s.freeBlocks pid)) (hcap : ∀ b ∈ s.freeBlocks pid, b.stop ≤ pgdbCapacity)
    (h : s.allocPages pid k = (some p, s')) :
    (∀ ops, Balanced ⟨p, k⟩ ops → (ReleasesExactly ⟨p, k⟩ s' ops ↔ NeverLast ops)) ∧
      ∀ q r, q ∈ (⟨p, k⟩ : Block) → r ∈ (⟨p, k⟩ : Block) →
        (s'.getPage q).putPageCall r = none := by
  obtain ⟨hheld, hk, halign, hstop⟩ := heldBlock_of_allocPages hsep hcap h
  refine ⟨fun ops hbal => hheld.releasesExactly_iff hk halign hstop hbal, ?_⟩
  intro q r hq hr
  have hbal : Balanced ⟨p, k⟩ ([get q] ++ [put r]) := by
    refine ⟨by simp [RefOp.page, hq, hr], ?_⟩
    intro pre hpre
    have hle : puts pre ≤ 1 := hpre.sublist.countP_le
    rcases pre with _ | ⟨op, rest⟩
    · exact Nat.zero_le _
    · obtain rfl : op = get q := (List.cons_prefix_cons.mp hpre).1
      apply hle.trans
      simp [gets]
  have hquiet : NeverLast [get q] := by
    intro pre t post heq
    rcases pre with _ | ⟨op, rest⟩ <;> simp at heq
  obtain ⟨s'', hrun, hcall⟩ := hheld.call_after hk halign hstop hbal hquiet
  obtain rfl : s'.getPage q = s'' := by simpa [runAll, RefOp.run] using hrun
  simpa [gets, puts] using hcall

theorem fourPages_separated : Separated (fourPages.pool.freeBlocks 0) :=
  ⟨(List.pairwise_append.mp fourPages_wellFormed.disjoint).1,
    fun b hb => fourPages_wellFormed.aligned b (List.mem_append_left _ hb)⟩

theorem fourPages_stop : ∀ b ∈ fourPages.pool.freeBlocks 0, b.stop ≤ pgdbCapacity := by
  rw [fourPages_freeBlocks]
  decide

/-- Two gets and one put of a block of order 1 meet the condition. -/
theorem releasesExactly_fourPages :
    ReleasesExactly ⟨0, 1⟩ (fourPages.pool.allocPages 0 1).2 [get 0, get 1, put 1] := by
  have halloc : fourPages.pool.allocPages 0 1 = (some 0, (fourPages.pool.allocPages 0 1).2) := rfl
  refine ((releasesExactly_iff_neverLast fourPages_separated fourPages_stop halloc).1 _
    ⟨by decide, ?_⟩).mpr ?_
  · intro pre hpre
    obtain ⟨post, heq⟩ := hpre
    rcases pre with _ | ⟨a, _ | ⟨b, _ | ⟨c, rest⟩⟩⟩ <;> simp_all [gets, puts]
  · intro pre q post heq
    rcases pre with _ | ⟨a, _ | ⟨b, _ | ⟨c, rest⟩⟩⟩
    · simp at heq
    · simp at heq
    · simp only [List.cons_append, List.nil_append, List.cons.injEq] at heq
      obtain ⟨rfl, rfl, _⟩ := heq
      decide
    · simp at heq

/-- One get and one put: the put is the last one and releases nothing. -/
theorem not_releasesExactly :
    ¬ ∀ (s s' : PoolState) (pid p k : ℕ) (ops : List RefOp), Separated (s.freeBlocks pid) →
      (∀ b ∈ s.freeBlocks pid, b.stop ≤ pgdbCapacity) → s.allocPages pid k = (some p, s') →
      Balanced ⟨p, k⟩ ops → ReleasesExactly ⟨p, k⟩ s' ops := by
  intro hall
  have hbal : Balanced ⟨0, 1⟩ [get 0, put 0] := by
    refine ⟨by decide, ?_⟩
    intro pre hpre
    obtain ⟨post, heq⟩ := hpre
    rcases pre with _ | ⟨a, _ | ⟨b, rest⟩⟩ <;> simp_all [gets, puts]
  have hcall := hall fourPages.pool _ 0 0 1 [get 0, put 0] fourPages_separated fourPages_stop rfl
    hbal [get 0] 0 [] rfl _ rfl
  revert hcall
  decide

end ClosureOS
