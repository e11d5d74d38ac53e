import Mathlib.Data.List.Cycle
import Mathlib.Data.List.Iterate
import Mathlib.Logic.Function.Basic
import Mathlib.Tactic.Common

/-!
Circular doubly linked lists whose links live in the nodes. A heap of links gives every
node a next and a previous one, whatever else the node is. A ring is a cycle of distinct
nodes in which neighbours point at each other; inserting and removing a node are edits of
four and two links, and rings that share no node with the edited one stay.
-/
namespace ClosureOS.CircularList

variable {α ι : Type}

/-- The links of all nodes. -/
@[ext] structure LinkHeap (α : Type) where
  prev : α → α
  next : α → α

namespace LinkHeap

variable (h : LinkHeap α)

/-- Neighbours that point at each other. -/
def Linked (x y : α) : Prop := h.next x = y ∧ h.prev y = x

/-- The nodes of the cycle form a list in the heap, in this order. -/
structure IsRing (c : Cycle α) : Prop where
  nodup : c.Nodup
  chain : c.Chain h.Linked

section Edits

variable [DecidableEq α]

def setPrev (x y : α) : LinkHeap α := { h with prev := Function.update h.prev x y }

def setNext (x y : α) : LinkHeap α := { h with next := Function.update h.next x y }

/-- Node n goes between p and its successor. -/
def insertAfter (p n : α) : LinkHeap α where
  prev := Function.update (Function.update h.prev n p) (h.next p) n
  next := Function.update (Function.update h.next n (h.next p)) p n

/-- The neighbours of n become neighbours of each other. -/
def unlink (n : α) : LinkHeap α where
  prev := Function.update h.prev (h.next n) (h.prev n)
  next := Function.update h.next (h.prev n) (h.next n)

end Edits

end LinkHeap

open LinkHeap

/-! ### Chains and rings in two heaps -/

/-- A chain reads its relation from elements that are not last to elements that are not
first. -/
theorem isChain_imp_of_mem {R S : α → α → Prop} {l : List α}
    (H : ∀ a ∈ l.dropLast, ∀ b ∈ l.tail, R a b → S a b) (hl : l.IsChain R) : l.IsChain S := by
  induction hl with
  | nil => exact .nil
  | singleton a => exact .singleton a
  | @cons_cons a b l hab hl ih =>
    refine .cons_cons (H a (by simp) b (by simp) hab) (ih fun x hx y hy hxy => ?_)
    exact H x (List.mem_cons_of_mem a hx) y (List.mem_of_mem_tail hy) hxy

section Rings

variable {h h' : LinkHeap α} {c : Cycle α}

/-- A ring stays in every heap with the same links at its nodes. -/
theorem LinkHeap.IsRing.congr (hc : h.IsRing c)
    (hagree : ∀ x ∈ c, h'.next x = h.next x ∧ h'.prev x = h.prev x) : h'.IsRing c := by
  refine ⟨hc.nodup, ?_⟩
  have hchain := hc.chain
  clear hc
  induction c using Cycle.induction_on with
  | nil => trivial
  | cons a l _ =>
    rw [Cycle.chain_coe_cons] at hchain ⊢
    have hmem : ∀ x ∈ a :: (l ++ [a]), x ∈ ((a :: l : List α) : Cycle α) := by
      intro x hx
      simpa [or_comm, or_left_comm] using hx
    refine hchain.imp_of_mem_imp fun x y hx hy hxy => ?_
    exact ⟨(hagree x (hmem x hx)).1.trans hxy.1, (hagree y (hmem y hy)).2.trans hxy.2⟩

/-- A cycle of nodes can be read from any of them. -/
theorem coe_append_comm (a b : List α) : ((a ++ b : List α) : Cycle α) = (b ++ a : List α) :=
  Cycle.coe_eq_coe.mpr List.isRotated_append

theorem exists_eq_coe_cons {x : α} (hx : x ∈ c) : ∃ l : List α, c = (x :: l : List α) := by
  induction c using Quotient.inductionOn' with
  | h l =>
    obtain ⟨a, b, rfl⟩ := List.append_of_mem (Cycle.mem_coe_iff.mp hx)
    exact ⟨b ++ a, coe_append_comm a (x :: b)⟩

theorem LinkHeap.IsRing.next_mem (hc : h.IsRing c) {x : α} (hx : x ∈ c) : h.next x ∈ c := by
  obtain ⟨l, rfl⟩ := exists_eq_coe_cons hx
  have hchain := hc.chain
  rw [Cycle.chain_coe_cons] at hchain
  cases l with
  | nil =>
    rw [hchain.rel.1]
    exact hx
  | cons y l =>
    rw [hchain.rel.1]
    simp

/-- The last node of a ring comes before the first one. -/
theorem LinkHeap.IsRing.linked_last {e p : α} {l : List α}
    (hc : h.IsRing (e :: (l ++ [p]) : List α)) : h.Linked p e := by
  have hchain := hc.chain
  rw [Cycle.chain_coe_cons, List.append_assoc, ← List.cons_append] at hchain
  exact (List.isChain_append_cons_cons.mp hchain).2.1

end Rings

/-! ### Walking around a ring -/

namespace LinkHeap

variable {h : LinkHeap α} {e : α} {l : List α}

/-- The heap read backwards. -/
def flip (h : LinkHeap α) : LinkHeap α := ⟨h.next, h.prev⟩

theorem IsRing.flip {c : Cycle α} (hc : h.IsRing c) : h.flip.IsRing c.reverse := by
  refine ⟨Cycle.nodup_reverse_iff.mpr hc.nodup, ?_⟩
  have hchain := hc.chain
  clear hc
  induction c using Cycle.induction_on with
  | nil => trivial
  | cons a l _ =>
    rw [Cycle.chain_coe_cons] at hchain
    have hreverse : ((a :: l : List α) : Cycle α).reverse = (a :: l.reverse : List α) := by
      rw [Cycle.reverse_coe, List.reverse_cons, Cycle.coe_cons_eq_coe_append]
    rw [hreverse, Cycle.chain_coe_cons]
    have hflip : (a :: (l.reverse ++ [a])) = (a :: (l ++ [a])).reverse := by simp
    rw [hflip, List.isChain_reverse]
    exact hchain.imp fun x y hxy => ⟨hxy.2, hxy.1⟩

theorem IsRing.prev_mem {c : Cycle α} (hc : h.IsRing c) {x : α} (hx : x ∈ c) : h.prev x ∈ c := by
  have hnext := hc.flip.next_mem (Cycle.mem_reverse_iff.mpr hx)
  exact Cycle.mem_reverse_iff.mp hnext

theorem iterate_next_of_isChain {z : α} (hchain : (e :: (l ++ [z])).IsChain h.Linked) :
    List.iterate h.next e (l.length + 1) = e :: l ∧ h.next^[l.length + 1] e = z := by
  induction l generalizing e with
  | nil => exact ⟨rfl, hchain.rel.1⟩
  | cons x l ih =>
    obtain ⟨hex, hrest⟩ := List.isChain_cons_cons.mp hchain
    obtain ⟨hlist, hlast⟩ := ih hrest
    rw [List.length_cons, List.iterate, Function.iterate_succ_apply, hex.1, hlist]
    exact ⟨rfl, hlast⟩

/-- Following next from a node lists the ring from there and ends where it began. -/
theorem IsRing.iterate_next (hc : h.IsRing (e :: l : List α)) :
    List.iterate h.next e (l.length + 1) = e :: l ∧ h.next^[l.length + 1] e = e := by
  have hchain := hc.chain
  rw [Cycle.chain_coe_cons] at hchain
  exact iterate_next_of_isChain hchain

/-- Following prev lists it in the reverse order. -/
theorem IsRing.iterate_prev (hc : h.IsRing (e :: l : List α)) :
    List.iterate h.prev e (l.length + 1) = e :: l.reverse ∧ h.prev^[l.length + 1] e = e := by
  have hflip := hc.flip
  rw [Cycle.reverse_coe, List.reverse_cons, ← Cycle.coe_cons_eq_coe_append] at hflip
  have hwalk := hflip.iterate_next
  rw [List.length_reverse] at hwalk
  exact hwalk

end LinkHeap

/-! ### Editing one ring -/

section Edits

variable [DecidableEq α] {h : LinkHeap α} {p n : α} {l : List α}

theorem LinkHeap.IsRing.insertAfter (hc : h.IsRing (p :: l : List α)) (hn : n ∉ p :: l) :
    (h.insertAfter p n).IsRing (p :: n :: l : List α) := by
  have hnodup : (p :: l).Nodup := hc.nodup
  have hchain := hc.chain
  rw [Cycle.chain_coe_cons] at hchain
  have hnp : n ≠ p := fun he => hn (by simp [he])
  refine ⟨?_, ?_⟩
  · rw [Cycle.nodup_coe_iff]
    grind
  rw [Cycle.chain_coe_cons]
  cases l with
  | nil =>
    -- The only node is its own successor, so it becomes both neighbours of n.
    have hnext : h.next p = p := hchain.rel.1
    simp [Linked, LinkHeap.insertAfter, hnext, hnp]
  | cons q l =>
    obtain ⟨hpq, hrest⟩ := List.isChain_cons_cons.mp hchain
    have hnq : n ≠ q := fun he => hn (by simp [he])
    have hnext : h.next p = q := hpq.1
    change ((q :: l) ++ [p]).IsChain h.Linked at hrest
    refine .cons_cons ?_ (.cons_cons ?_ (isChain_imp_of_mem ?_ hrest))
    · simp [Linked, LinkHeap.insertAfter, hnext, hnq]
    · simp [Linked, LinkHeap.insertAfter, hnext, hnp]
    · intro x hx y hy hxy
      have hx : x ∈ ((q :: l) ++ [p]).dropLast := hx
      rw [List.dropLast_concat] at hx
      have hy : y ∈ l ∨ y = p := by simpa using hy
      have hxp : x ≠ p := by grind
      have hxn : x ≠ n := by grind
      have hyq : y ≠ q := by grind
      have hyn : y ≠ n := by grind
      simpa [Linked, LinkHeap.insertAfter, hnext, hxp, hxn, hyq, hyn] using hxy

theorem LinkHeap.IsRing.unlink (hc : h.IsRing (n :: l : List α)) :
    (h.unlink n).IsRing (l : List α) := by
  have hnodup : (n :: l).Nodup := hc.nodup
  have hchain := hc.chain
  rw [Cycle.chain_coe_cons] at hchain
  refine ⟨hnodup.of_cons, ?_⟩
  cases l with
  | nil => trivial
  | cons q l =>
    obtain ⟨hnq, hrest⟩ := List.isChain_cons_cons.mp hchain
    obtain ⟨r, p, hrp⟩ : ∃ r p, q :: l = r ++ [p] :=
      ⟨_, _, (List.dropLast_append_getLast (List.cons_ne_nil q l)).symm⟩
    change ((q :: l) ++ [n]).IsChain h.Linked at hrest
    have hsplit := hrest
    rw [hrp, List.append_assoc] at hsplit
    obtain ⟨hkept, hpn, _⟩ := List.isChain_append_cons_cons.mp hsplit
    have hnext : h.next n = q := hnq.1
    have hprev : h.prev n = p := hpn.2
    rw [Cycle.chain_coe_cons, ← List.cons_append, hrp, List.append_assoc]
    refine List.isChain_append_cons_cons.mpr ⟨isChain_imp_of_mem ?_ hkept, ?_, .singleton q⟩
    · intro x hx y hy hxy
      rw [List.dropLast_concat] at hx
      rw [← hrp] at hy
      have hxp : x ≠ p := by
        rw [hrp] at hnodup
        grind
      have hyq : y ≠ q := by grind
      simpa [Linked, LinkHeap.unlink, hnext, hprev, hxp, hyq] using hxy
    · simp [Linked, LinkHeap.unlink, hnext, hprev]

/-- Outside p, n and the successor of p nothing is written. -/
theorem LinkHeap.insertAfter_of_ne {x : α} (hp : x ≠ p) (hn : x ≠ n) (hq : x ≠ h.next p) :
    (h.insertAfter p n).next x = h.next x ∧ (h.insertAfter p n).prev x = h.prev x := by
  simp [LinkHeap.insertAfter, hp, hn, hq]

theorem LinkHeap.unlink_of_ne {x : α} (hp : x ≠ h.prev n) (hq : x ≠ h.next n) :
    (h.unlink n).next x = h.next x ∧ (h.unlink n).prev x = h.prev x := by
  simp [LinkHeap.unlink, hp, hq]

end Edits

/-! ### Families of rings -/

/-- Lists of nodes in a heap, indexed in any way; no node is on two of them. -/
structure Lists (h : LinkHeap α) (L : ι → Cycle α) : Prop where
  ring : ∀ i, h.IsRing (L i)
  disjoint : ∀ i j, i ≠ j → ∀ x ∈ L i, x ∉ L j

section Families

variable [DecidableEq ι] {h h' : LinkHeap α} {L : ι → Cycle α} {i : ι} {c : Cycle α}

/-- Only list i is edited, by nodes of its own or on no list. -/
theorem Lists.update (hL : Lists h L) (hc : h'.IsRing c)
    (hnodes : ∀ x ∈ c, x ∈ L i ∨ ∀ j, x ∉ L j)
    (hagree : ∀ j, j ≠ i → ∀ x ∈ L j, h'.next x = h.next x ∧ h'.prev x = h.prev x) :
    Lists h' (Function.update L i c) where
  ring j := by
    by_cases hj : j = i
    · subst hj
      rwa [Function.update_self]
    · rw [Function.update_of_ne hj]
      exact (hL.ring j).congr (hagree j hj)
  disjoint j k hjk x hx hx' := by
    have hout : ∀ j, j ≠ i → x ∈ L j → x ∉ c := by
      intro j hj hxj hxc
      rcases hnodes x hxc with hxi | hnone
      · exact hL.disjoint j i hj x hxj hxi
      · exact hnone j hxj
    by_cases hj : j = i
    · subst hj
      rw [Function.update_self] at hx
      rw [Function.update_of_ne (Ne.symm hjk)] at hx'
      exact hout k (Ne.symm hjk) hx' hx
    · rw [Function.update_of_ne hj] at hx
      by_cases hk : k = i
      · subst hk
        rw [Function.update_self] at hx'
        exact hout j hj hx hx'
      · rw [Function.update_of_ne hk] at hx'
        exact hL.disjoint j k hjk x hx hx'

variable [DecidableEq α] {p n : α} {a b : List α}

/-- Insertion after p in the order of the list, wherever p stands in it. -/
theorem Lists.insertAfter (hL : Lists h L) (hi : L i = (a ++ p :: b : List α))
    (hn : ∀ j, n ∉ L j) :
    Lists (h.insertAfter p n) (Function.update L i (a ++ p :: n :: b : List α)) := by
  have hring := hL.ring i
  have hmem : ∀ x, x ∈ L i ↔ x ∈ a ++ p :: b := fun x => by rw [hi, Cycle.mem_coe_iff]
  have hp : p ∈ L i := by simp [hmem]
  have hnext := hring.next_mem hp
  rw [hi, coe_append_comm] at hring
  refine hL.update ?_ ?_ fun j hj x hx => ?_
  · rw [coe_append_comm]
    refine hring.insertAfter fun hmem' => hn i ?_
    rw [hmem]
    simpa [or_comm, or_left_comm, or_assoc] using hmem'
  · intro x hx
    rw [Cycle.mem_coe_iff] at hx
    rw [hmem]
    by_cases hxn : x = n
    · exact Or.inr (hxn ▸ hn)
    · left
      simpa [hxn] using hx
  · have hout : x ∉ L i := hL.disjoint j i hj x hx
    refine LinkHeap.insertAfter_of_ne ?_ ?_ ?_
    · rintro rfl
      exact hout hp
    · rintro rfl
      exact hn j hx
    · rintro rfl
      exact hout hnext

/-- Insertion before e is insertion after the node before e. -/
theorem Lists.insertBefore {e : α} (hL : Lists h L) (hi : L i = (a ++ e :: b : List α))
    (hn : ∀ j, n ∉ L j) :
    h.next (h.prev e) = e ∧
      Lists (h.insertAfter (h.prev e) n) (Function.update L i (a ++ n :: e :: b : List α)) := by
  have hring := hL.ring i
  have hgoal : ((a ++ n :: e :: b : List α) : Cycle α) = (e :: (b ++ a) ++ [n] : List α) := by
    rw [coe_append_comm, ← Cycle.coe_cons_eq_coe_append]
    rfl
  rw [coe_append_comm] at hi
  rw [hgoal]
  rcases List.eq_nil_or_concat (b ++ a) with hnil | ⟨r, p, hr⟩
  · -- Alone on its list, e is the node before itself.
    simp only [List.cons_append, hnil] at hi ⊢
    have hlast : h.Linked e e := by
      rw [hi] at hring
      exact (Cycle.chain_singleton h.Linked e).mp hring.chain
    rw [hlast.2]
    exact ⟨hlast.1, @Lists.insertAfter α ι _ h L i _ e n [] [] hL hi hn⟩
  · rw [List.concat_eq_append] at hr
    simp only [List.cons_append, hr] at hi ⊢
    have hlast : h.Linked p e := by
      rw [hi] at hring
      exact hring.linked_last
    rw [hlast.2]
    have hinsert := @Lists.insertAfter α ι _ h L i _ p n (e :: r) [] hL hi hn
    simp only [List.cons_append, List.append_assoc, List.nil_append] at hinsert ⊢
    exact ⟨hlast.1, hinsert⟩

theorem Lists.unlink (hL : Lists h L) (hi : L i = (a ++ n :: b : List α)) :
    Lists (h.unlink n) (Function.update L i (a ++ b : List α)) := by
  have hring := hL.ring i
  have hn : n ∈ L i := by simp [hi]
  have hnext := hring.next_mem hn
  have hprev := hring.prev_mem hn
  rw [hi, coe_append_comm] at hring
  refine hL.update ?_ ?_ fun j hj x hx => ?_
  · rw [coe_append_comm]
    exact hring.unlink
  · intro x hx
    rw [Cycle.mem_coe_iff, List.mem_append] at hx
    left
    rw [hi, Cycle.mem_coe_iff, List.mem_append, List.mem_cons]
    exact hx.imp_right Or.inr
  · have hout : x ∉ L i := hL.disjoint j i hj x hx
    refine LinkHeap.unlink_of_ne ?_ ?_
    · rintro rfl
      exact hout hprev
    · rintro rfl
      exact hout hnext

end Families

end ClosureOS.CircularList
