import ClosureOS.CircularList
import ClosureOS.PagePool

/-!
The intrusive lists of lib/list/list_main.cppm. Each function is its writes to prev and
next in their order, every pointer read again where the source reads it again. On
well-formed lists the writes insert a node after or before another one or take a node out,
also when prev, next and the entry coincide, and no other list changes.
-/
namespace ClosureOS

open CircularList

namespace ListHead

section Functions

variable {α : Type} [DecidableEq α] (h : LinkHeap α)

def listHeadInit (head : α) : LinkHeap α :=
  let h := h.setPrev head head
  h.setNext head head

def listAdd (node prev next : α) : LinkHeap α :=
  let h := h.setPrev node prev
  let h := h.setNext prev node
  let h := h.setNext node next
  h.setPrev next node

def listAddPrev (entry prev : α) : LinkHeap α :=
  let h := h.setNext (h.prev entry) prev
  let h := h.setPrev prev (h.prev entry)
  let h := h.setNext prev entry
  h.setPrev entry prev

def listAddNext (entry next : α) : LinkHeap α :=
  let h := h.setPrev (h.next entry) next
  let h := h.setPrev next entry
  let h := h.setNext next (h.next entry)
  h.setNext entry next

def listDel (node : α) : LinkHeap α :=
  let h := h.setNext (h.prev node) (h.next node)
  h.setPrev (h.next node) (h.prev node)

def listEmpty (entry : α) : Bool := h.next entry == entry && h.prev entry == entry

end Functions

/-! ### The writes as edits of a ring -/

section Writes

variable {α : Type} [DecidableEq α] {h : LinkHeap α} {e n p : α}

theorem listAdd_eq (hp : n ≠ p) :
    listAdd h n p (h.next p) = h.insertAfter p n := by
  ext x
  · rfl
  · simp only [listAdd, LinkHeap.setPrev, LinkHeap.setNext, LinkHeap.insertAfter]
    rw [Function.update_comm hp]

theorem listAddNext_eq (hq : n ≠ h.next e) :
    listAddNext h e n = h.insertAfter e n := by
  ext x
  · simp only [listAddNext, LinkHeap.setPrev, LinkHeap.setNext, LinkHeap.insertAfter]
    rw [Function.update_comm hq]
  · rfl

theorem listAddPrev_eq (hp : n ≠ h.prev e) (hnext : h.next (h.prev e) = e) :
    listAddPrev h e n = h.insertAfter (h.prev e) n := by
  ext x
  · simp only [listAddPrev, LinkHeap.setPrev, LinkHeap.setNext, LinkHeap.insertAfter, hnext]
  · simp only [listAddPrev, LinkHeap.setPrev, LinkHeap.setNext, LinkHeap.insertAfter, hnext]
    rw [Function.update_comm hp]

/-- The second write reads the pointers of the node again; the first one left them. -/
theorem listDel_eq (n : α) : listDel h n = h.unlink n := by
  have hkept : Function.update h.next (h.prev n) (h.next n) n = h.next n := by
    by_cases hself : n = h.prev n
    · rw [← hself, Function.update_self]
    · rw [Function.update_of_ne hself]
  ext x
  · simp only [listDel, LinkHeap.setPrev, LinkHeap.setNext, LinkHeap.unlink, hkept]
  · rfl

end Writes

/-! ### Lists of nodes under the functions -/

section Lists

variable {α ι : Type} [DecidableEq α] [DecidableEq ι] {h : LinkHeap α} {L : ι → Cycle α}
  {i : ι} {a b : List α} {e n : α}

/-- A node on no list becomes a list of its own. -/
theorem lists_listHeadInit (hL : Lists h L) (hn : ∀ j, n ∉ L j) :
    Lists (listHeadInit h n) (Function.update L i ([n] : List α)) := by
  refine hL.update ⟨List.nodup_singleton n, ?_⟩ (fun x hx => ?_) fun j _ x hx => ?_
  · rw [Cycle.chain_singleton]
    simp [LinkHeap.Linked, listHeadInit, LinkHeap.setPrev, LinkHeap.setNext]
  · rw [Cycle.mem_coe_iff, List.mem_singleton] at hx
    exact Or.inr (hx ▸ hn)
  · have hxn : x ≠ n := fun he => hn j (he ▸ hx)
    simp [listHeadInit, LinkHeap.setPrev, LinkHeap.setNext, hxn]

theorem lists_listAddNext (hL : Lists h L) (hi : L i = (a ++ e :: b : List α))
    (hn : ∀ j, n ∉ L j) :
    Lists (listAddNext h e n) (Function.update L i (a ++ e :: n :: b : List α)) := by
  have hnext : h.next e ∈ L i := (hL.ring i).next_mem (by simp [hi])
  have hq : n ≠ h.next e := fun he => hn i (he.symm ▸ hnext)
  rw [listAddNext_eq hq]
  exact hL.insertAfter hi hn

/-- list_add between a node and its successor. -/
theorem lists_listAdd (hL : Lists h L) (hi : L i = (a ++ e :: b : List α)) (hn : ∀ j, n ∉ L j) :
    Lists (listAdd h n e (h.next e)) (Function.update L i (a ++ e :: n :: b : List α)) := by
  have hmem : e ∈ L i := by simp [hi]
  have hne : n ≠ e := fun he => hn i (he.symm ▸ hmem)
  rw [listAdd_eq hne]
  exact hL.insertAfter hi hn

theorem lists_listAddPrev (hL : Lists h L) (hi : L i = (a ++ e :: b : List α))
    (hn : ∀ j, n ∉ L j) :
    Lists (listAddPrev h e n) (Function.update L i (a ++ n :: e :: b : List α)) := by
  have hprev : h.prev e ∈ L i := (hL.ring i).prev_mem (by simp [hi])
  obtain ⟨hnext, hinsert⟩ := hL.insertBefore hi hn
  have hp : n ≠ h.prev e := fun he => hn i (he.symm ▸ hprev)
  rw [listAddPrev_eq hp hnext]
  exact hinsert

theorem lists_listDel (hL : Lists h L) (hi : L i = (a ++ n :: b : List α)) :
    Lists (listDel h n) (Function.update L i (a ++ b : List α)) := by
  rw [listDel_eq]
  exact hL.unlink hi

omit [DecidableEq ι] in
theorem listEmpty_iff (hL : Lists h L) (hi : L i = (a ++ e :: b : List α)) :
    listEmpty h e = true ↔ a ++ b = [] := by
  have hring := hL.ring i
  rw [hi, coe_append_comm] at hring
  have hnodup : (e :: (b ++ a)).Nodup := hring.nodup
  have hchain := hring.chain
  simp only [listEmpty, Bool.and_eq_true, beq_iff_eq]
  have hswap : a ++ b = [] ↔ b ++ a = [] := by simp [and_comm]
  rw [hswap]
  rw [List.cons_append, Cycle.chain_coe_cons] at hchain
  cases hl : b ++ a with
  | nil =>
    rw [hl] at hchain
    exact iff_of_true hchain.rel rfl
  | cons q l =>
    rw [hl] at hchain hnodup
    have hnext : h.next e = q := hchain.rel.1
    have hqe : q ≠ e := by grind
    simp [hnext, hqe]

/-- What well-formed lists look like to a walk along next or prev: both go around once, in
opposite orders. -/
def WalksAround (h : LinkHeap α) (L : ι → Cycle α) : Prop :=
  ∀ i e l, L i = (e :: l : List α) →
    List.iterate h.next e (l.length + 1) = e :: l ∧ h.next^[l.length + 1] e = e ∧
    List.iterate h.prev e (l.length + 1) = e :: l.reverse ∧ h.prev^[l.length + 1] e = e

omit [DecidableEq α] [DecidableEq ι] in
theorem walksAround (hL : Lists h L) : WalksAround h L := by
  intro i e l hi
  have hring := hL.ring i
  rw [hi] at hring
  exact ⟨hring.iterate_next.1, hring.iterate_next.2, hring.iterate_prev⟩

/-- The heap holds the lists, and each of them can be walked around in both directions. -/
structure WellFormed (h : LinkHeap α) (L : ι → Cycle α) : Prop where
  lists : Lists h L
  walks : WalksAround h L

omit [DecidableEq α] [DecidableEq ι] in
theorem wellFormed_of_lists (hL : Lists h L) : WellFormed h L := ⟨hL, walksAround hL⟩

/-- The operations on the heap are the operations on the sequences of nodes, for whichever
node of a list they are called and however short the list is. -/
theorem listOps_refine (hL : Lists h L) (hi : L i = (a ++ e :: b : List α)) :
    (∀ n, (∀ j, n ∉ L j) →
      WellFormed (listAddNext h e n) (Function.update L i (a ++ e :: n :: b : List α)) ∧
      WellFormed (listAddPrev h e n) (Function.update L i (a ++ n :: e :: b : List α)) ∧
      WellFormed (listAdd h n e (h.next e)) (Function.update L i (a ++ e :: n :: b : List α))) ∧
    WellFormed (listDel h e) (Function.update L i (a ++ b : List α)) ∧
    (listEmpty h e = true ↔ ∀ x ∈ L i, x = e) := by
  refine ⟨fun n hn => ⟨?_, ?_, ?_⟩, ?_, ?_⟩
  · exact wellFormed_of_lists (lists_listAddNext hL hi hn)
  · exact wellFormed_of_lists (lists_listAddPrev hL hi hn)
  · exact wellFormed_of_lists (lists_listAdd hL hi hn)
  · exact wellFormed_of_lists (lists_listDel hL hi)
  · have hnodup : (a ++ e :: b).Nodup := by
      have hring := (hL.ring i).nodup
      rwa [hi] at hring
    rw [listEmpty_iff hL hi, List.append_eq_nil_iff]
    constructor
    · rintro ⟨rfl, rfl⟩ x hx
      simpa [hi] using hx
    · intro hall
      have hmem : ∀ x ∈ a ++ e :: b, x = e := fun x hx => hall x (by rwa [hi, Cycle.mem_coe_iff])
      clear hi
      cases a with
      | nil =>
        cases b with
        | nil => exact ⟨rfl, rfl⟩
        | cons y b =>
          have hye : y = e := hmem y (by simp)
          simp [hye] at hnodup
      | cons y a =>
        have hye : y = e := hmem y (by simp)
        simp [hye] at hnodup

/-- Nodes 0 to 2 form one list and nodes 3 and 4 the other. -/
def twoLists (second : Bool) : Cycle ℕ := (if second then [3, 4] else [0, 1, 2] : List ℕ)

def twoListsHeap : LinkHeap ℕ where
  prev x := if x = 0 then 2 else if x = 3 then 4 else x - 1
  next x := if x = 2 then 0 else if x = 4 then 3 else x + 1

omit [DecidableEq α] [DecidableEq ι] in
theorem lists_twoLists : Lists twoListsHeap twoLists where
  ring second := by
    cases second
    · exact ⟨by decide, (Cycle.chain_coe_cons _ _ _).mpr (by simp [LinkHeap.Linked, twoListsHeap])⟩
    · exact ⟨by decide, (Cycle.chain_coe_cons _ _ _).mpr (by simp [LinkHeap.Linked, twoListsHeap])⟩
  disjoint i j hij x hx hx' := by
    cases i <;> cases j <;> simp_all [twoLists] <;> omega

omit [DecidableEq α] [DecidableEq ι] in
/-- The operations on node 1, in the middle of a list of three. -/
theorem listOps_refine_twoLists :
    (∀ n, (∀ j, n ∉ twoLists j) →
      WellFormed (listAddNext twoListsHeap 1 n)
        (Function.update twoLists false ([0, 1, n, 2] : List ℕ)) ∧
      WellFormed (listAddPrev twoListsHeap 1 n)
        (Function.update twoLists false ([0, n, 1, 2] : List ℕ)) ∧
      WellFormed (listAdd twoListsHeap n 1 2)
        (Function.update twoLists false ([0, 1, n, 2] : List ℕ))) ∧
    WellFormed (listDel twoListsHeap 1) (Function.update twoLists false ([0, 2] : List ℕ)) ∧
    (listEmpty twoListsHeap 1 = true ↔ ∀ x ∈ twoLists false, x = 1) :=
  @listOps_refine ℕ Bool _ _ twoListsHeap twoLists false [0] [2] 1 lists_twoLists rfl

end Lists

end ListHead

/-! ### The free lists of the page pools -/

/-- The ListHead members that the pools use: the head of a free list and the list member of
an entry of the page database. -/
inductive PoolNode
  | head (pid : ℕ) (order : Fin maxPageOrder)
  | entry (p : ℕ)
deriving DecidableEq

/-- The free lists of the pools, as they lie in memory. -/
def PoolState.lists (s : PoolState) (i : ℕ × Fin maxPageOrder) : Cycle PoolNode :=
  (.head i.1 i.2 :: (s.freelist i.1 i.2).map .entry : List PoolNode)

section FreeLists

open ListHead

variable {h : LinkHeap PoolNode} {s : PoolState} {pid p : ℕ} {k : Fin maxPageOrder}

theorem entry_mem_lists {i : ℕ × Fin maxPageOrder} :
    .entry p ∈ s.lists i ↔ p ∈ s.freelist i.1 i.2 := by
  simp [PoolState.lists]

/-- Putting a page on a free list of the model is list_add_next on the head in memory. -/
theorem freelist_listAddNext (hs : Lists h s.lists) (hp : ∀ i k, p ∉ s.freelist i k) :
    Lists (listAddNext h (.head pid k) (.entry p)) (s.listAddNext pid k p).lists := by
  have hadd := @lists_listAddNext PoolNode _ _ _ h s.lists (pid, k) []
    ((s.freelist pid k).map .entry) (.head pid k) (.entry p) hs rfl
    fun j hj => hp _ _ (entry_mem_lists.mp hj)
  have hlists : (s.listAddNext pid k p).lists = Function.update s.lists (pid, k)
      ([] ++ .head pid k :: .entry p :: (s.freelist pid k).map .entry : List PoolNode) := by
    funext i
    obtain ⟨j, o⟩ := i
    by_cases hi : (j, o) = (pid, k)
    · obtain ⟨rfl, rfl⟩ := Prod.mk.inj hi
      rw [Function.update_self]
      simp [PoolState.lists, PoolState.listAddNext]
    · rw [Function.update_of_ne hi]
      by_cases hj : j = pid
      · subst hj
        have ho : (o : ℕ) ≠ k := fun ho => hi (by rw [Fin.ext ho])
        simp [PoolState.lists, PoolState.listAddNext, ho]
      · simp [PoolState.lists, PoolState.listAddNext, hj]
  rw [hlists]
  exact hadd

/-- Taking a page off its free list is list_del on the page in memory. -/
theorem freelist_listDel (hs : Lists h s.lists) (hp : p ∈ s.freelist pid k) :
    Lists (listDel h (.entry p)) (s.listDel p).lists := by
  obtain ⟨a, b, _, hab, herase⟩ := List.exists_erase_eq hp
  have hdel := @lists_listDel PoolNode _ _ _ h s.lists (pid, k) (.head pid k :: a.map .entry)
    (b.map .entry) (.entry p) hs (by simp [PoolState.lists, hab])
  have hlists : (s.listDel p).lists = Function.update s.lists (pid, k)
      (.head pid k :: a.map .entry ++ b.map .entry : List PoolNode) := by
    funext i
    obtain ⟨j, o⟩ := i
    by_cases hi : (j, o) = (pid, k)
    · obtain ⟨rfl, rfl⟩ := Prod.mk.inj hi
      rw [Function.update_self]
      simp [PoolState.lists, PoolState.listDel, herase]
    · rw [Function.update_of_ne hi]
      -- the page is on one list only, so erasing it from the others does nothing
      have hout : p ∉ s.freelist j o := fun hmem =>
        hs.disjoint (j, o) (pid, k) hi _ (entry_mem_lists.mpr hmem) (entry_mem_lists.mpr hp)
      simp [PoolState.lists, PoolState.listDel, List.erase_of_not_mem hout]
  rw [hlists]
  exact hdel

/-- The search loop of the pools tests the lists of the model and finds their first entries. -/
theorem freelist_listEmpty (hs : Lists h s.lists) :
    listEmpty h (.head pid k) = true ↔ s.freelist pid k = [] := by
  have hempty := @listEmpty_iff PoolNode _ _ h s.lists (pid, k) []
    ((s.freelist pid k).map .entry) (.head pid k) hs rfl
  rw [hempty, List.nil_append, List.map_eq_nil_iff]

theorem freelist_next (hs : Lists h s.lists) {l : List ℕ} (hl : s.freelist pid k = p :: l) :
    h.next (.head pid k) = .entry p := by
  have hring := hs.ring (pid, k)
  simp only [PoolState.lists, hl, List.map_cons] at hring
  exact hring.chain.rel.1

end FreeLists
end ClosureOS
