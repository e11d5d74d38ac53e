import ClosureOS.HeapSafety

/-!
Requests that the heap serves with pages of their own, KHeapPool::__malloc_pools. The
order that is asked for comes from a loop that counts the bits of the size and from one
comparison; it is the least one that is large enough. The comparison shifts an int, and
the value of that shift is left open from 31 bits on: whatever it is, such requests fail.
-/
namespace ClosureOS

open DyadicBlocks

/-- The order that __malloc_pools asks for, with shl for the shift 1 << order. -/
def mallocPoolsOrderWith (shl : ℕ → Word) (size : Word) : ℕ :=
  let order := halvings 64 (size >>> (pageShift + 1))
  if shl order * pageSize < size then order + 1 else order

/-- __malloc_pools with shl for the shift 1 << order. -/
def HeapState.mallocPoolsWith (shl : ℕ → Word) (h : HeapState) (kp : KHeapPool) (size : Word) :
    Word × HeapState :=
  match h.tryPools (mallocPoolsOrderWith shl size) kp.pools with
  | (none, h) => (0#64, h)
  | (some p, h) => (pageToVirt p, { h with pool := h.pool.getPage p })

theorem HeapState.mallocPoolsWith_oneShl (h : HeapState) (kp : KHeapPool) (size : Word) :
    h.mallocPoolsWith oneShl kp size = h.mallocPools kp size := rfl

/-- Order k is the least one whose blocks hold n bytes. -/
def LeastOrder (n k : ℕ) : Prop := n ≤ 4096 * 2 ^ k ∧ ∀ j, n ≤ 4096 * 2 ^ j → k ≤ j

/-- What a request comes to: a block of the least order that holds it, with its order in the
head page, or nothing when it is above the largest block. -/
def ServedLeast (h : HeapState) (kp : KHeapPool) (size : Word) (r : Word × HeapState) : Prop :=
  (r.1 ≠ 0#64 → ∃ pid ∈ kp.pools, ∃ p k s,
    h.pool.allocPages pid k = (some p, s) ∧
    r = (pageToVirt p, { h with pool := s.getPage p, handedOut := ⟨p, k⟩ :: h.handedOut }) ∧
    ((s.getPage p).pgdb p).order = k ∧ LeastOrder size.toNat k) ∧
  (4096 * 2 ^ 10 < size.toNat → r = (0#64, h))

section Order

variable {shl : ℕ → Word} {size : Word} {n k : ℕ}

theorem mallocPoolsOrderWith_eq (shl : ℕ → Word) (size : Word) :
    mallocPoolsOrderWith shl size =
      if shl (Nat.size (size.toNat / 8192)) * pageSize < size then
        Nat.size (size.toNat / 8192) + 1
      else Nat.size (size.toNat / 8192) := by
  have hshift : (size >>> (pageShift + 1)).toNat = size.toNat / 8192 := by
    rw [BitVec.toNat_ushiftRight, Nat.shiftRight_eq_div_pow]
    rfl
  have hcount := halvings_eq_size (n := 64) (size >>> (pageShift + 1)).isLt
  rw [hshift] at hcount
  simp only [mallocPoolsOrderWith, hcount]

theorem shl_mul_lt_iff (hshl : ∀ k < 31, (shl k).toNat = 2 ^ k) (hk : k < 31) :
    shl k * pageSize < size ↔ 4096 * 2 ^ k < size.toNat := by
  have hpow : 2 ^ k < 2 ^ 31 := Nat.pow_lt_pow_right (by decide) hk
  have hprod : (shl k * pageSize).toNat = 4096 * 2 ^ k := by
    rw [BitVec.toNat_mul, hshl k hk, toNat_pageSize]
    omega
  rw [BitVec.lt_def, hprod]

theorem le_of_size_bits (h : Nat.size (n / 8192) = k) :
    n < 4096 * 2 ^ (k + 1) ∧ (0 < k → 4096 * 2 ^ k ≤ n) := by
  subst h
  refine ⟨?_, fun hpos => ?_⟩
  · have hlt := Nat.lt_size_self (n / 8192)
    rw [pow_succ]
    omega
  · obtain ⟨k, hk⟩ := Nat.exists_eq_succ_of_ne_zero hpos.ne'
    have hle : 2 ^ k ≤ n / 8192 := Nat.lt_size.mp (by omega)
    rw [hk, Nat.succ_eq_add_one, pow_succ]
    omega

theorem LeastOrder.of_bounds (hle : n ≤ 4096 * 2 ^ k) (hlow : 0 < k → 4096 * 2 ^ (k - 1) < n) :
    LeastOrder n k := by
  refine ⟨hle, fun j hj => ?_⟩
  by_contra hlt
  have hpow : 2 ^ j ≤ 2 ^ (k - 1) := Nat.pow_le_pow_right (by decide) (by omega)
  have hprev := hlow (by omega)
  omega

/-- The order asked for is the least one that is large enough, if the buddy system has it
at all. -/
theorem mallocPoolsOrderWith_least (hshl : ∀ k < 31, (shl k).toNat = 2 ^ k)
    (h : mallocPoolsOrderWith shl size < maxPageOrder) :
    LeastOrder size.toNat (mallocPoolsOrderWith shl size) := by
  have hmax : maxPageOrder = 11 := rfl
  rw [mallocPoolsOrderWith_eq] at h ⊢
  obtain ⟨hhigh, hlow⟩ := le_of_size_bits (n := size.toNat) rfl
  generalize Nat.size (size.toNat / 8192) = order at h hhigh hlow ⊢
  have hsmall : order < 31 := by
    split at h <;> omega
  simp only [shl_mul_lt_iff hshl hsmall]
  split
  · next hlt => exact LeastOrder.of_bounds hhigh.le fun _ => hlt
  · next hge =>
    refine LeastOrder.of_bounds (Nat.le_of_not_lt hge) fun hpos => ?_
    have hhalf : 2 ^ (order - 1) < 2 ^ order := Nat.pow_lt_pow_right (by decide) (by omega)
    have hle := hlow hpos
    omega

/-- A size above the largest block asks for an order that no pool has. -/
theorem maxPageOrder_le_of_lt (hshl : ∀ k < 31, (shl k).toNat = 2 ^ k)
    (hsize : 4096 * 2 ^ 10 < size.toNat) : maxPageOrder ≤ mallocPoolsOrderWith shl size := by
  have hbits : 9 < Nat.size (size.toNat / 8192) := Nat.lt_size.mpr (by omega)
  have hmax : maxPageOrder = 11 := rfl
  rw [mallocPoolsOrderWith_eq]
  generalize Nat.size (size.toNat / 8192) = order at hbits ⊢
  by_cases hten : order = 10
  · subst hten
    rw [if_pos ((shl_mul_lt_iff hshl (by decide)).mpr hsize)]
    omega
  · split <;> omega

end Order

/-! ### The block -/

section Block

variable {pid p k : ℕ}

theorem PoolState.allocPages_order {s s' : PoolState} (h : s.allocPages pid k = (some p, s')) :
    k < maxPageOrder ∧ (s'.pgdb p).order = k := by
  obtain ⟨hk, j, _, rfl⟩ := allocPages_eq_some h
  rw [reinit_pgdb_of_mem (Block.start_mem ⟨p, k⟩)]
  exact ⟨hk, orderField_of_lt hk⟩

theorem mallocPoolsWith_least (shl : ℕ → Word) (hshl : ∀ k < 31, (shl k).toNat = 2 ^ k)
    (h : HeapState) (kp : KHeapPool) (size : Word) :
    ServedLeast h kp size (h.mallocPoolsWith shl kp size) := by
  unfold ServedLeast HeapState.mallocPoolsWith
  rcases h.tryPools_cases (mallocPoolsOrderWith shl size) kp.pools with
    ⟨pid, hpid, p, s, halloc, heq⟩ | ⟨heq, _⟩
  · obtain ⟨hlt, horder⟩ := PoolState.allocPages_order halloc
    rw [heq]
    refine ⟨fun _ => ⟨pid, hpid, p, _, s, halloc, rfl, ?_, mallocPoolsOrderWith_least hshl hlt⟩,
      fun hsize => ?_⟩
    · obtain ⟨r, hentry⟩ := s.getPage_pgdb p p
      rw [hentry]
      exact horder
    · exact absurd (maxPageOrder_le_of_lt hshl hsize) (Nat.not_le.mpr hlt)
  · rw [heq]
    exact ⟨fun hne => absurd rfl hne, fun _ => rfl⟩

/-- A request that the pools serve gets a block of the least order that holds it, and a
request above the largest block gets nothing and changes nothing. From 31 bits on the
shift may have any value; the processor's is one of these. -/
theorem mallocPools_least (shl : ℕ → Word) (hshl : ∀ k < 31, (shl k).toNat = 2 ^ k)
    (h : HeapState) (kp : KHeapPool) (size : Word) :
    ServedLeast h kp size (h.mallocPoolsWith shl kp size) ∧
      ServedLeast h kp size (h.mallocPools kp size) := by
  refine ⟨mallocPoolsWith_least shl hshl h kp size, ?_⟩
  rw [← HeapState.mallocPoolsWith_oneShl]
  exact mallocPoolsWith_least oneShl (fun _ hk => toNat_oneShl hk) h kp size

/-- A request for three pages from a free block of four, and one for more than a block. -/
theorem mallocPools_least_fourPages :
    (∃ p k s, fourPageHeap.mallocPools ⟨[], [], [0]⟩ 12288#64 = (pageToVirt p, s) ∧
        LeastOrder 12288 k ∧ (s.pool.pgdb p).order = k) ∧
      fourPageHeap.mallocPools ⟨[], [], [0]⟩ 0x400001#64 = (0#64, fourPageHeap) := by
  constructor
  · obtain ⟨_, _, p, k, s, _, heq, horder, hleast⟩ :=
      (mallocPools_least oneShl (fun k hk => toNat_oneShl hk) fourPageHeap ⟨[], [], [0]⟩
        12288#64).2.1 (by decide)
    exact ⟨p, k, _, heq, hleast, horder⟩
  · exact (mallocPools_least oneShl (fun k hk => toNat_oneShl hk) fourPageHeap
      ⟨[], [], [0]⟩ 0x400001#64).2.2 (by decide)

end Block

end ClosureOS
