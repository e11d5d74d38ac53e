import ClosureOS.CircularList
import ClosureOS.PageTypes
import ClosureOS.PointerWalk
import ClosureOS.StatusLoops

/-!
Iteration over the entries of an intrusive list: the macros at the end of
lib/list/list_main.cppm. Entries are containers with the list node as a member, so the
macros move between the address of an entry and the address of its node. First entry,
next entry and the test for the head are right. The loop goes on while the test says that
it is at the head: on a list with entries it does nothing, on an empty list it never ends.
-/
namespace ClosureOS

open CircularList StatusLoops

section Macros

/-- container_of; offset is the offset_of of the member in its container. -/
def containerOf (memberPtr offset : Word) : Word := memberPtr - offset

def listEntry (ptr offset : Word) : Word := containerOf ptr offset

variable (h : LinkHeap Word) (offset : Word)

def listHeadFirstEntry (ptr : Word) : Word := listEntry (h.next ptr) offset

def listNextEntry (ptr : Word) : Word := containerOf (h.next (ptr + offset)) offset

def listEntryIsHead (ptr head : Word) : Bool := ptr + offset == head

/-- The for statement of list_head_for_each_entry with a body, for a number of rounds. -/
def listHeadForEachEntry {τ : Type} (head : Word) (body : Word → Step τ) (rounds : ℕ) : Step τ :=
  whileRounds (fun pos => listEntryIsHead offset pos head) (listNextEntry h offset) body rounds
    (listHeadFirstEntry h offset head)

end Macros

/-- A list of entries in memory: the head and the nodes are on one ring, and each node is
the member of a container. -/
structure EntryList where
  h : LinkHeap Word
  head : Word
  nodes : List Word
  offset : Word
  ring : h.IsRing (head :: nodes : List Word)

namespace EntryList

variable (a : EntryList)

/-- The entry that a node is a member of. -/
def entry (node : Word) : Word := containerOf node a.offset

def isHead (pos : Word) : Bool := listEntryIsHead a.offset pos a.head

/-- The positions for which the body of the loop runs in a number of rounds. -/
def bodyRuns (rounds : ℕ) : List Word :=
  visited a.isHead (listNextEntry a.h a.offset) rounds (listHeadFirstEntry a.h a.offset a.head)

/-- The loop, with a body that does its work and goes on. -/
def forEachEntry {τ : Type} (work : τ → Word → τ) (rounds : ℕ) : Step τ :=
  listHeadForEachEntry a.h a.offset a.head (fun pos t => some (0, work t pos)) rounds

/-- The loop ends, after its body has run for each entry once in the order of the list; it
never runs for the container that the head would be in. -/
structure VisitsEachEntry : Prop where
  visits : ∀ {τ : Type} (work : τ → Word → τ) (t : τ),
    ∃ rounds, a.forEachEntry work rounds t = some (0, (a.nodes.map a.entry).foldl work t)
  not_head : ∀ rounds, a.entry a.head ∉ a.bodyRuns rounds

variable {a}

@[simp] theorem entry_add_offset (node : Word) : a.entry node + a.offset = node :=
  BitVec.sub_add_cancel node a.offset

theorem isHead_entry (node : Word) : a.isHead (a.entry node) = (node == a.head) := by
  rw [isHead, listEntryIsHead, entry_add_offset]

theorem listNextEntry_entry (node : Word) :
    listNextEntry a.h a.offset (a.entry node) = a.entry (a.h.next node) := by
  rw [listNextEntry, entry_add_offset]
  rfl

/-- From the entry after x on, the macros pass the entries up to the head. -/
theorem path_of_isChain {x : Word} {l : List Word}
    (hchain : (x :: (l ++ [a.head])).IsChain a.h.Linked) (hhead : a.head ∉ l) :
    PointerWalk.Path a.isHead (listNextEntry a.h a.offset) (a.entry (a.h.next x)) (l.map a.entry)
      (a.entry a.head) := by
  induction l generalizing x with
  | nil =>
    have hnext : a.h.next x = a.head := hchain.rel.1
    rw [hnext]
    exact .stop (by rw [isHead_entry, beq_self_eq_true])
  | cons y l ih =>
    obtain ⟨hxy, hrest⟩ := List.isChain_cons_cons.mp hchain
    obtain ⟨hy, hl⟩ := not_or.mp (mt List.mem_cons.mpr hhead)
    have hstop : a.isHead (a.entry y) = false := by
      rw [isHead_entry]
      exact beq_false_of_ne (Ne.symm hy)
    have hpath := ih hrest hl
    rw [← listNextEntry_entry] at hpath
    rw [hxy.1]
    exact .pass hstop hpath

/-- The macros lead from the first entry through all entries in order to the head. -/
theorem path_entries :
    PointerWalk.Path a.isHead (listNextEntry a.h a.offset)
      (listHeadFirstEntry a.h a.offset a.head) (a.nodes.map a.entry) (a.entry a.head) := by
  have hnodup : (a.head :: a.nodes).Nodup := a.ring.nodup
  have hchain := a.ring.chain
  rw [Cycle.chain_coe_cons] at hchain
  exact path_of_isChain hchain hnodup.notMem

/-- Without entries the macros stay at the container of the head. -/
theorem first_of_nil (hnil : a.nodes = []) :
    a.isHead (a.entry a.head) = true ∧
    listHeadFirstEntry a.h a.offset a.head = a.entry a.head ∧
    listNextEntry a.h a.offset (a.entry a.head) = a.entry a.head := by
  have hpath := a.path_entries
  rw [hnil, List.map_nil, PointerWalk.path_nil_iff] at hpath
  obtain ⟨hhead, hfirst⟩ := hpath
  rw [listNextEntry_entry]
  exact ⟨hfirst ▸ hhead, hfirst.symm, hfirst.symm⟩

theorem first_of_ne_nil (hne : a.nodes ≠ []) :
    a.isHead (listHeadFirstEntry a.h a.offset a.head) = false := by
  obtain ⟨x, l, hnodes⟩ := List.exists_cons_of_ne_nil hne
  have hpath := a.path_entries
  rw [hnodes, List.map_cons, PointerWalk.path_cons_iff] at hpath
  exact hpath.2.1

/-- The body runs for no entry at all. On an empty list it runs for the container of the
head, in every round. -/
theorem bodyRuns_eq (rounds : ℕ) :
    a.bodyRuns rounds = if a.nodes = [] then List.replicate rounds (a.entry a.head) else [] := by
  split
  · next hnil =>
    obtain ⟨hhead, hfirst, hnext⟩ := first_of_nil hnil
    rw [bodyRuns, hfirst]
    exact visited_of_fixed hhead hnext
  · next hne =>
    have hhead := first_of_ne_nil hne
    cases rounds with
    | zero => rfl
    | succ n => rw [bodyRuns, visited, if_neg (by rw [hhead]; exact Bool.false_ne_true)]

theorem forEachEntry_eq {τ : Type} (work : τ → Word → τ) (rounds : ℕ) (t : τ) :
    a.forEachEntry work (rounds + 1) t = if a.nodes = [] then none else some (0, t) := by
  rw [forEachEntry, listHeadForEachEntry]
  split
  · next hnil =>
    obtain ⟨hhead, hfirst, hnext⟩ := first_of_nil hnil
    rw [hfirst]
    exact whileRounds_of_fixed hhead hnext (fun t => ⟨_, rfl⟩) t
  · next hne =>
    have hhead := first_of_ne_nil hne
    rw [isHead] at hhead
    rw [whileRounds, if_neg (by rw [hhead]; exact Bool.false_ne_true)]

/-- The end test has the wrong sense: no list is visited. -/
theorem never_visitsEachEntry (a : EntryList) :
    ¬ a.VisitsEachEntry ∧
    (∀ rounds, a.bodyRuns rounds =
      if a.nodes = [] then List.replicate rounds (a.entry a.head) else []) ∧
    ∀ {τ : Type} (work : τ → Word → τ) (rounds : ℕ) (t : τ),
      a.forEachEntry work (rounds + 1) t = if a.nodes = [] then none else some (0, t) := by
  refine ⟨fun hvisits => ?_, bodyRuns_eq, fun work rounds t => forEachEntry_eq work rounds t⟩
  by_cases hnil : a.nodes = []
  · have hout := hvisits.not_head 1
    rw [bodyRuns_eq, if_pos hnil] at hout
    exact hout List.mem_cons_self
  · -- a body that counts its runs is left at its first count
    obtain ⟨rounds, hrun⟩ := hvisits.visits (fun count _ => count + 1) 0
    cases rounds with
    | zero => exact absurd hrun.symm (Option.some_ne_none _)
    | succ n =>
      rw [forEachEntry_eq, if_neg hnil] at hrun
      have hcount : 0 = a.nodes.length := by simpa using hrun
      exact hnil (List.eq_nil_of_length_eq_zero hcount.symm)

/-- Two nodes that point at each other. -/
def pairLinks (x y : Word) : LinkHeap Word :=
  ⟨fun z => if z = x then y else x, fun z => if z = x then y else x⟩

theorem isRing_pairLinks {x y : Word} (hxy : y ≠ x) :
    (pairLinks x y).IsRing ([x, y] : List Word) := by
  refine ⟨by simp [Ne.symm hxy], ?_⟩
  rw [Cycle.chain_coe_cons]
  have hto : (pairLinks x y).Linked x y := ⟨if_pos rfl, if_neg hxy⟩
  have hfrom : (pairLinks x y).Linked y x := ⟨if_neg hxy, if_pos rfl⟩
  exact .cons_cons hto (.cons_cons hfrom (.singleton x))

/-- A head at 0x1000 and one entry at 0x2000, whose node is its third word. -/
def oneEntry : EntryList where
  h := pairLinks 0x1000#64 0x2010#64
  head := 0x1000#64
  nodes := [0x2010#64]
  offset := 0x10#64
  ring := isRing_pairLinks (by decide)

theorem not_visitsEachEntry_oneEntry : ¬ oneEntry.VisitsEachEntry := by
  intro hvisits
  obtain ⟨rounds, hrun⟩ := hvisits.visits (fun _ pos => pos) 0#64
  cases rounds with
  | zero => exact absurd hrun.symm (Option.some_ne_none _)
  | succ n =>
    have hkept : oneEntry.forEachEntry (fun _ pos => pos) (n + 1) 0#64 = some (0, 0#64) := rfl
    exact absurd (hkept.symm.trans hrun) (by decide)

end EntryList

end ClosureOS
