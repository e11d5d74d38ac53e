import ClosureOS.PageTypes
import Mathlib.Data.List.Nodup
import Mathlib.Logic.Function.Basic

/-!
The registry of destructors of the C++ runtime, kernel/cxx_base_abi.cpp: __cxa_atexit
pushes a node on a singly linked list, __cxa_finalize walks the list through a pointer to
the link it came by, unlinks and frees the nodes of one handle and calls their
destructors. The purpose of the two functions is a list of entries, newest first, from
which a finalize call takes those of its handle; the linked list is proved to stand for
this list over whole runs. Destructors called here touch the registry in no way.
-/
namespace ClosureOS

/-- struct dtor_info. -/
structure DtorInfo where
  next : Word
  destructor : Word
  arg : Word
  dsoHandle : Word
deriving DecidableEq, Repr

/-- A call of a destructor with its argument. -/
structure DtorCall where
  destructor : Word
  arg : Word
deriving DecidableEq, Repr

/-- global_dtors, the nodes that are allocated, and the calls made so far. -/
structure DtorState where
  globalDtors : Word
  nodes : Word → Option DtorInfo
  calls : List DtorCall

namespace DtorState

def start : DtorState := ⟨0#64, fun _ => none, []⟩

/-- __cxa_atexit; new is what operator new returned. The result is its return value. -/
def cxaAtexit (s : DtorState) (new destructor arg dsoHandle : Word) : Int × DtorState :=
  if new = 0#64 then (-(enomem : Int), s)
  else
    (0, { s with
      nodes := Function.update s.nodes new (some ⟨s.globalDtors, destructor, arg, dsoHandle⟩)
      globalDtors := new })

/-- The value of *pdtor. The pointer is &global_dtors when it is none, and &p->next
when it is some p; nothing can be read through it when p is no allocated node. -/
def readLink (s : DtorState) : Option Word → Option Word
  | none => some s.globalDtors
  | some p => (s.nodes p).map DtorInfo.next

/-- The assignment *pdtor = v. -/
def writeLink (s : DtorState) (v : Word) : Option Word → Option DtorState
  | none => some { s with globalDtors := v }
  | some p => (s.nodes p).map fun info =>
      { s with nodes := Function.update s.nodes p (some { info with next := v }) }

/-- The call of the destructor of a node and the delete of the node. -/
def callAndDelete (s : DtorState) (dtor : Word) (info : DtorInfo) : DtorState :=
  { s with
    calls := s.calls ++ [⟨info.destructor, info.arg⟩]
    nodes := Function.update s.nodes dtor none }

/-- The loop of __cxa_finalize; none when it has not ended after the given number of
rounds or reads a node that is not allocated. -/
def finalizeLoop (dsoHandle : Word) : ℕ → Option Word → DtorState → Option DtorState
  | 0, _, _ => none
  | fuel + 1, pdtor, s =>
    match s.readLink pdtor with
    | none => none
    | some dtor =>
      if dtor = 0#64 then some s
      else
        match s.nodes dtor with
        | none => none
        | some info =>
          if dsoHandle = 0#64 ∨ info.dsoHandle = dsoHandle then
            match s.writeLink info.next pdtor with
            | none => none
            | some s => finalizeLoop dsoHandle fuel pdtor (s.callAndDelete dtor info)
          else finalizeLoop dsoHandle fuel (some dtor) s

def cxaFinalize (fuel : ℕ) (s : DtorState) (dsoHandle : Word) : Option DtorState :=
  finalizeLoop dsoHandle fuel none s

end DtorState

/-- A call of __cxa_atexit, with the result of operator new, or of __cxa_finalize. -/
inductive DtorOp
  | atexit (new destructor arg dsoHandle : Word)
  | finalize (dsoHandle : Word)
deriving DecidableEq, Repr

namespace DtorState

def step (fuel : ℕ) (s : DtorState) : DtorOp → Option DtorState
  | .atexit new destructor arg dsoHandle => some (s.cxaAtexit new destructor arg dsoHandle).2
  | .finalize dsoHandle => s.cxaFinalize fuel dsoHandle

def run (fuel : ℕ) (s : DtorState) (ops : List DtorOp) : Option DtorState :=
  ops.foldlM (step fuel) s

/-- A registration succeeds when operator new gives memory that is not in use. -/
def Succeeds (s : DtorState) : DtorOp → Prop
  | .atexit new _ _ _ => new ≠ 0#64 ∧ s.nodes new = none
  | .finalize _ => True

instance (s : DtorState) : ∀ op, Decidable (s.Succeeds op)
  | .atexit _ _ _ _ => inferInstanceAs (Decidable (_ ∧ _))
  | .finalize _ => isTrue trivial

/-- Every registration of a run succeeds. -/
def AllSucceed (fuel : ℕ) : DtorState → List DtorOp → Prop
  | _, [] => True
  | s, op :: ops => s.Succeeds op ∧ ∀ s' ∈ s.step fuel op, s'.AllSucceed fuel ops

instance decidableAllSucceed (fuel : ℕ) : ∀ s ops, Decidable (AllSucceed fuel s ops)
  | _, [] => isTrue trivial
  | _, _ :: ops =>
    have := fun s' => decidableAllSucceed fuel s' ops
    inferInstanceAs (Decidable (_ ∧ ∀ s' ∈ _, _))

end DtorState

/-! ### The registry as a list -/

/-- A registered destructor. The serial number tells registrations apart. -/
structure DtorEntry where
  serial : ℕ
  destructor : Word
  arg : Word
  dsoHandle : Word
deriving DecidableEq, Repr

namespace DtorEntry

/-- The entries a finalize call with this handle is about. -/
def Selected (dsoHandle : Word) (e : DtorEntry) : Prop :=
  dsoHandle = 0#64 ∨ e.dsoHandle = dsoHandle

instance (dsoHandle : Word) (e : DtorEntry) : Decidable (e.Selected dsoHandle) :=
  inferInstanceAs (Decidable (_ ∨ _))

def call (e : DtorEntry) : DtorCall := ⟨e.destructor, e.arg⟩

end DtorEntry

/-- The entries that wait to be called, newest first, and those called, oldest call first. -/
structure Registry where
  count : ℕ
  waiting : List DtorEntry
  called : List DtorEntry

namespace Registry

def empty : Registry := ⟨0, [], []⟩

def register (r : Registry) (destructor arg dsoHandle : Word) : Registry :=
  { r with
    count := r.count + 1
    waiting := ⟨r.count, destructor, arg, dsoHandle⟩ :: r.waiting }

def finalize (r : Registry) (dsoHandle : Word) : Registry :=
  { r with
    waiting := r.waiting.filter fun e => ¬ e.Selected dsoHandle
    called := r.called ++ r.waiting.filter fun e => e.Selected dsoHandle }

def step (r : Registry) : DtorOp → Registry
  | .atexit _ destructor arg dsoHandle => r.register destructor arg dsoHandle
  | .finalize dsoHandle => r.finalize dsoHandle

def run (r : Registry) (ops : List DtorOp) : Registry := ops.foldl step r

end Registry

/-- All registrations of a run, oldest first, numbered from n. -/
def registrations : ℕ → List DtorOp → List DtorEntry
  | _, [] => []
  | n, .atexit _ destructor arg dsoHandle :: ops =>
    ⟨n, destructor, arg, dsoHandle⟩ :: registrations (n + 1) ops
  | n, .finalize _ :: ops => registrations n ops

/-! ### The list in memory -/

/-- The nodes reached from the address p, with the entries they hold. -/
def DtorChain (nodes : Word → Option DtorInfo) : Word → List (Word × DtorEntry) → Prop
  | p, [] => p = 0#64
  | p, (a, e) :: l => p = a ∧ a ≠ 0#64 ∧
    ∃ next, nodes a = some ⟨next, e.destructor, e.arg, e.dsoHandle⟩ ∧ DtorChain nodes next l

/-- The linked list holds the entries that wait, and the log has the calls made. -/
def Represents (s : DtorState) (r : Registry) : Prop :=
  ∃ l : List (Word × DtorEntry), DtorChain s.nodes s.globalDtors l ∧ (l.map Prod.fst).Nodup ∧
    l.map Prod.snd = r.waiting ∧ s.calls = r.called.map DtorEntry.call

section Lists

variable {nodes nodes' : Word → Option DtorInfo} {p a v : Word} {pdtor : Option Word}
  {l : List (Word × DtorEntry)} {s s' : DtorState} {r : Registry}
  {regs : List DtorEntry} {dsoHandle : Word} {fuel : ℕ}

theorem DtorChain.congr (h : DtorChain nodes p l)
    (hsame : ∀ a ∈ l.map Prod.fst, nodes' a = nodes a) :
    DtorChain nodes' p l := by
  induction l generalizing p with
  | nil => exact h
  | cons x l ih =>
    obtain ⟨rfl, hne, next, hnode, hrest⟩ := h
    refine ⟨rfl, hne, next, ?_, ih hrest fun a ha => hsame a (List.mem_cons_of_mem _ ha)⟩
    rw [hsame _ List.mem_cons_self, hnode]

theorem DtorChain.allocated (h : DtorChain nodes p l) (ha : a ∈ l.map Prod.fst) :
    nodes a ≠ none := by
  induction l generalizing p with
  | nil => simp at ha
  | cons x l ih =>
    obtain ⟨_, _, next, hnode, hrest⟩ := h
    rcases List.mem_cons.mp ha with rfl | ha
    · simp [hnode]
    · exact ih hrest ha

/-- What a write through pdtor does. -/
structure LinkWritten (s : DtorState) (pdtor : Option Word) (v : Word) (s' : DtorState) : Prop where
  read : s'.readLink pdtor = some v
  calls : s'.calls = s.calls
  frame : ∀ a, pdtor ≠ some a → s'.nodes a = s.nodes a
  head : pdtor ≠ none → s'.globalDtors = s.globalDtors
  node : ∀ p info, pdtor = some p → s.nodes p = some info →
    s'.nodes p = some { info with next := v }

theorem writeLink_eq_some (hread : s.readLink pdtor = some p) (v : Word) :
    ∃ s', s.writeLink v pdtor = some s' ∧ LinkWritten s pdtor v s' := by
  cases pdtor with
  | none =>
    exact ⟨_, rfl, rfl, rfl, fun _ _ => rfl, fun h => absurd rfl h, fun _ _ h => by simp at h⟩
  | some q =>
    obtain ⟨info, hinfo, _⟩ := Option.map_eq_some_iff.mp hread
    refine ⟨{ s with nodes := Function.update s.nodes q (some { info with next := v }) },
      by rw [DtorState.writeLink, hinfo, Option.map_some], ?_, rfl, ?_, fun _ => rfl, ?_⟩
    · simp [DtorState.readLink]
    · intro a ha
      exact Function.update_of_ne (fun h => ha (congrArg some h).symm) _ _
    · intro p info' hp hinfo'
      obtain rfl := Option.some.inj hp
      obtain rfl := Option.some.inj (hinfo.symm.trans hinfo')
      exact Function.update_self ..

/-- What the loop does when it starts at the link pdtor, from which the nodes of l are
reached. -/
structure Finalized (dsoHandle : Word) (s : DtorState) (pdtor : Option Word)
    (l : List (Word × DtorEntry)) (s' : DtorState) : Prop where
  chain : ∃ p, s'.readLink pdtor = some p ∧
    DtorChain s'.nodes p (l.filter fun x => ¬ x.2.Selected dsoHandle)
  calls : s'.calls =
    s.calls ++ ((l.map Prod.snd).filter fun e => e.Selected dsoHandle).map DtorEntry.call
  frame : ∀ a, a ∉ l.map Prod.fst → pdtor ≠ some a → s'.nodes a = s.nodes a
  head : pdtor ≠ none → s'.globalDtors = s.globalDtors
  node : ∀ p info, pdtor = some p → s.nodes p = some info →
    ∃ next, s'.nodes p = some { info with next := next }

theorem callAndDelete_nodes_of_ne {info : DtorInfo} {b : Word} (hb : b ≠ a) :
    (s.callAndDelete a info).nodes b = s.nodes b :=
  Function.update_of_ne hb _ _

/-- A selected node is unlinked and freed, and the loop goes on at the same link. -/
theorem Finalized.of_unlinked {e : DtorEntry} {s₁ : DtorState} (hw : LinkWritten s pdtor v s₁)
    (hlink : pdtor ≠ some a) (hsel : e.Selected dsoHandle)
    (hf : Finalized dsoHandle
      (s₁.callAndDelete a ⟨v, e.destructor, e.arg, e.dsoHandle⟩) pdtor l s') :
    Finalized dsoHandle s pdtor ((a, e) :: l) s' where
  chain := by
    rw [List.filter_cons_of_neg (by simpa using hsel)]
    exact hf.chain
  calls := by
    rw [hf.calls, List.map_cons, List.filter_cons_of_pos (by simpa using hsel),
      DtorState.callAndDelete, hw.calls]
    simp [DtorEntry.call]
  frame b hb hlinkb := by
    rw [List.map_cons, List.mem_cons, not_or] at hb
    rw [hf.frame b hb.2 hlinkb, callAndDelete_nodes_of_ne hb.1, hw.frame b hlinkb]
  head h := (hf.head h).trans (hw.head h)
  node q info hq hinfo := by
    have hqa : q ≠ a := fun h => hlink (hq.trans (congrArg some h))
    apply hf.node q { info with next := v } hq
    rw [callAndDelete_nodes_of_ne hqa, hw.node q info hq hinfo]

/-- A node that is not selected stays, and the loop goes on at its own link. -/
theorem Finalized.of_kept {e : DtorEntry} (hread : s.readLink pdtor = some a) (hne : a ≠ 0#64)
    (hnode : s.nodes a = some ⟨v, e.destructor, e.arg, e.dsoHandle⟩)
    (hlink : ∀ b, pdtor = some b → b ∉ ((a, e) :: l).map Prod.fst) (hsel : ¬ e.Selected dsoHandle)
    (hf : Finalized dsoHandle s (some a) l s') : Finalized dsoHandle s pdtor ((a, e) :: l) s' where
  chain := by
    refine ⟨a, ?_, ?_⟩
    · rw [← hread]
      cases pdtor with
      | none => exact congrArg some (hf.head (by simp))
      | some q =>
        have hq := hlink q rfl
        rw [List.map_cons, List.mem_cons, not_or] at hq
        rw [DtorState.readLink, DtorState.readLink,
          hf.frame q hq.2 fun h => hq.1 (Option.some.inj h).symm]
    · rw [List.filter_cons_of_pos (by simpa using hsel)]
      obtain ⟨q, hq, hkept⟩ := hf.chain
      obtain ⟨next, hnext⟩ := hf.node a _ rfl hnode
      rw [DtorState.readLink, hnext, Option.map_some] at hq
      obtain rfl : next = q := Option.some.inj hq
      exact ⟨rfl, hne, next, hnext, hkept⟩
  calls := by rw [hf.calls, List.map_cons, List.filter_cons_of_neg (by simpa using hsel)]
  frame b hb _ := by
    rw [List.map_cons, List.mem_cons, not_or] at hb
    exact hf.frame b hb.2 fun h => hb.1 (Option.some.inj h).symm
  head _ := hf.head (by simp)
  node q info hq hinfo := by
    have hb := hlink q hq
    rw [List.map_cons, List.mem_cons, not_or] at hb
    rw [hf.frame q hb.2 fun h => hb.1 (Option.some.inj h).symm, hinfo]
    exact ⟨info.next, rfl⟩

/-- Unlinking and freeing the first node leaves the rest reachable from the link. -/
theorem DtorChain.unlinked {s₁ : DtorState} (info : DtorInfo) (hw : LinkWritten s pdtor v s₁)
    (hrest : DtorChain s.nodes v l) (ha : a ∉ l.map Prod.fst)
    (hlink : ∀ b, pdtor = some b → b ≠ a ∧ b ∉ l.map Prod.fst) :
    (s₁.callAndDelete a info).readLink pdtor = some v ∧
      DtorChain (s₁.callAndDelete a info).nodes v l := by
  constructor
  · rw [← hw.read]
    cases pdtor with
    | none => rfl
    | some q =>
      rw [DtorState.readLink, DtorState.readLink, callAndDelete_nodes_of_ne (hlink q rfl).1]
  · refine hrest.congr fun b hb => ?_
    rw [callAndDelete_nodes_of_ne (fun h : b = a => ha (h ▸ hb)),
      hw.frame b fun h => (hlink b h).2 hb]

/-- The loop on the nodes reached from a link, which none of these nodes owns. -/
theorem finalizeLoop_eq_some (hread : s.readLink pdtor = some p) (hchain : DtorChain s.nodes p l)
    (hnodup : (l.map Prod.fst).Nodup) (hlink : ∀ b, pdtor = some b → b ∉ l.map Prod.fst)
    (hfuel : l.length < fuel) :
    ∃ s', DtorState.finalizeLoop dsoHandle fuel pdtor s = some s' ∧
      Finalized dsoHandle s pdtor l s' := by
  induction l generalizing pdtor p s fuel with
  | nil =>
    obtain ⟨fuel, rfl⟩ := Nat.exists_eq_add_of_lt hfuel
    obtain rfl : p = 0#64 := hchain
    refine ⟨s, by simp [DtorState.finalizeLoop, hread], ⟨0#64, hread, rfl⟩, by simp,
      fun _ _ _ => rfl,
      fun _ => rfl, fun p info _ hinfo => ⟨info.next, hinfo⟩⟩
  | cons x l ih =>
    obtain ⟨a, e⟩ := x
    obtain ⟨rfl, hne, next, hnode, hrest⟩ := hchain
    obtain ⟨ha, hnodup⟩ := List.nodup_cons.mp hnodup
    cases fuel with
    | zero => exact absurd hfuel (Nat.not_lt_zero _)
    | succ fuel =>
      have hfuel : l.length < fuel := Nat.lt_of_succ_lt_succ hfuel
      have hlink' : ∀ b, pdtor = some b → b ≠ p ∧ b ∉ l.map Prod.fst := by
        intro b hb
        have hb := hlink b hb
        rwa [List.map_cons, List.mem_cons, not_or] at hb
      simp only [DtorState.finalizeLoop, hread, if_neg hne, hnode]
      by_cases hsel : e.Selected dsoHandle
      · obtain ⟨s₁, hwrite, hw⟩ := writeLink_eq_some hread next
        obtain ⟨hread₁, hrest₁⟩ :=
          hrest.unlinked ⟨next, e.destructor, e.arg, e.dsoHandle⟩ hw ha hlink'
        obtain ⟨s', hrun, hf⟩ := ih hread₁ hrest₁ hnodup (fun b hb => (hlink' b hb).2) hfuel
        refine ⟨s', (if_pos hsel).trans ?_, hf.of_unlinked hw (fun h => (hlink' p h).1 rfl) hsel⟩
        rw [hwrite]
        exact hrun
      · have hread₁ : s.readLink (some p) = some next := by
          rw [DtorState.readLink, hnode, Option.map_some]
        obtain ⟨s', hrun, hf⟩ := ih hread₁ hrest hnodup
          (fun b hb => Option.some.inj hb ▸ ha) hfuel
        exact ⟨s', (if_neg hsel).trans hrun, hf.of_kept hread hne hnode hlink hsel⟩

/-! ### Runs -/

theorem Represents.start : Represents .start .empty := ⟨[], rfl, List.nodup_nil, rfl, rfl⟩

theorem Represents.register (h : Represents s r) {new destructor arg : Word} (hne : new ≠ 0#64)
    (hfresh : s.nodes new = none) :
    Represents (s.cxaAtexit new destructor arg dsoHandle).2
      (r.register destructor arg dsoHandle) := by
  obtain ⟨l, hchain, hnodup, hwaiting, hcalls⟩ := h
  have hnew : new ∉ l.map Prod.fst := fun hmem => hchain.allocated hmem hfresh
  rw [DtorState.cxaAtexit, if_neg hne]
  refine ⟨(new, ⟨r.count, destructor, arg, dsoHandle⟩) :: l, ⟨rfl, hne, s.globalDtors, ?_, ?_⟩,
    List.nodup_cons.mpr ⟨hnew, hnodup⟩, ?_, hcalls⟩
  · exact Function.update_self ..
  · exact hchain.congr fun a ha => Function.update_of_ne (fun he : a = new => hnew (he ▸ ha)) _ _
  · rw [List.map_cons, hwaiting]
    rfl

/-- A finalize call ends and does to the list what it is for. -/
theorem Represents.finalize (h : Represents s r) (hfuel : r.waiting.length < fuel)
    (dsoHandle : Word) :
    ∃ s', s.cxaFinalize fuel dsoHandle = some s' ∧
      s'.calls = s.calls ++
        (r.waiting.filter fun e => e.Selected dsoHandle).map DtorEntry.call ∧
      Represents s' (r.finalize dsoHandle) := by
  obtain ⟨l, hchain, hnodup, hwaiting, hcalls⟩ := h
  rw [← hwaiting, List.length_map] at hfuel
  obtain ⟨s', hrun, hf⟩ : ∃ s', DtorState.finalizeLoop dsoHandle fuel none s = some s' ∧
      Finalized dsoHandle s none l s' :=
    finalizeLoop_eq_some rfl hchain hnodup (by simp) hfuel
  have hlog := hf.calls
  rw [hwaiting] at hlog
  refine ⟨s', hrun, hlog, l.filter fun x => ¬ x.2.Selected dsoHandle, ?_, ?_, ?_, ?_⟩
  · obtain ⟨p, hp, hkept⟩ := hf.chain
    obtain rfl := Option.some.inj hp
    exact hkept
  · exact hnodup.sublist (List.filter_sublist.map _)
  · rw [Registry.finalize, ← hwaiting, List.filter_map]
    rfl
  · rw [hlog, hcalls, Registry.finalize, List.map_append]

theorem Represents.run (h : Represents s r) (ops : List DtorOp)
    (hfuel : r.waiting.length + ops.length < fuel) (hok : s.AllSucceed fuel ops) :
    ∃ s', s.run fuel ops = some s' ∧ Represents s' (r.run ops) := by
  induction ops generalizing s r with
  | nil => exact ⟨s, rfl, h⟩
  | cons op ops ih =>
    obtain ⟨hop, hrest⟩ := hok
    rw [List.length_cons] at hfuel
    obtain ⟨s₁, hstep, h₁, hlen⟩ : ∃ s₁, s.step fuel op = some s₁ ∧ Represents s₁ (r.step op) ∧
        (r.step op).waiting.length ≤ r.waiting.length + 1 := by
      cases op with
      | atexit new destructor arg dsoHandle =>
        exact ⟨_, rfl, h.register hop.1 hop.2, Nat.le_refl _⟩
      | finalize dsoHandle =>
        have hlt : r.waiting.length < fuel := by omega
        obtain ⟨s₁, hrun, _, h₁⟩ := h.finalize hlt dsoHandle
        exact ⟨s₁, hrun, h₁, (List.length_filter_le _ _).trans (Nat.le_succ _)⟩
    obtain ⟨s', hrun, h'⟩ := ih h₁ (by omega) (hrest s₁ hstep)
    refine ⟨s', ?_, h'⟩
    rw [DtorState.run, List.foldlM_cons, hstep]
    exact hrun

/-- Every registration waits or was called, and never both; those that wait are kept in
the order opposite to that of registration. -/
structure Accounts (r : Registry) (regs : List DtorEntry) : Prop where
  serials : regs.map DtorEntry.serial = List.range r.count
  perm : (r.called ++ r.waiting).Perm regs
  newest_first : r.waiting.Sublist regs.reverse

theorem Accounts.step (h : Accounts r regs) (op : DtorOp) :
    Accounts (r.step op) (regs ++ registrations r.count [op]) := by
  cases op with
  | atexit new destructor arg dsoHandle =>
    refine ⟨?_, ?_, ?_⟩
    · rw [List.map_append, h.serials]
      exact List.range_succ.symm
    · exact List.perm_middle.trans ((h.perm.cons _).trans (List.perm_append_singleton _ _).symm)
    · rw [List.reverse_append]
      exact h.newest_first.cons_cons _
  | finalize dsoHandle =>
    have hregs : regs ++ registrations r.count [.finalize dsoHandle] = regs := List.append_nil regs
    rw [hregs]
    refine ⟨h.serials, ?_, List.filter_sublist.trans h.newest_first⟩
    refine List.Perm.trans ?_ h.perm
    rw [Registry.step, Registry.finalize, List.append_assoc]
    apply List.Perm.append_left _
    simpa only [decide_not] using
      List.filter_append_perm (fun e => decide (e.Selected dsoHandle)) r.waiting

theorem Accounts.run (h : Accounts r regs) (ops : List DtorOp) :
    Accounts (r.run ops) (regs ++ registrations r.count ops) := by
  induction ops generalizing r regs with
  | nil =>
    rw [registrations, List.append_nil]
    exact h
  | cons op ops ih =>
    have hsplit : regs ++ registrations r.count (op :: ops) =
        regs ++ registrations r.count [op] ++ registrations (r.step op).count ops := by
      cases op <;> simp [registrations, Registry.step, Registry.register, Registry.finalize]
    rw [hsplit]
    exact ih (h.step op)

theorem registrations_length_le (n : ℕ) (ops : List DtorOp) :
    (registrations n ops).length ≤ ops.length := by
  induction ops generalizing n with
  | nil => exact Nat.le_refl _
  | cons op ops ih =>
    cases op with
    | atexit new destructor arg dsoHandle => exact Nat.succ_le_succ (ih (n + 1))
    | finalize dsoHandle => exact (ih n).trans (Nat.le_succ _)

/-- After any run of successful calls, a finalize call makes exactly the calls of the
entries of its handle that wait, newest registration first, and leaves the others in
order; with a null handle nothing is left. Over the run no entry is called twice. -/
theorem cxaFinalize_run {ops : List DtorOp} (hfuel : ops.length < fuel)
    (hok : DtorState.start.AllSucceed fuel ops) :
    ∃ s, DtorState.start.run fuel ops = some s ∧ Represents s (Registry.empty.run ops) ∧
      Accounts (Registry.empty.run ops) (registrations 0 ops) ∧
      (Registry.empty.run ops).called.Nodup ∧
      ∀ dsoHandle, ∃ s', s.cxaFinalize fuel dsoHandle = some s' ∧
        s'.calls = s.calls ++ ((Registry.empty.run ops).waiting.filter
          fun e => e.Selected dsoHandle).map DtorEntry.call ∧
        Represents s' ((Registry.empty.run ops).finalize dsoHandle) ∧
        (dsoHandle = 0#64 → s'.globalDtors = 0#64) := by
  obtain ⟨s, hrun, hrep⟩ := Represents.start.run ops (by simpa [Registry.empty] using hfuel) hok
  have hacc : Accounts (Registry.empty.run ops) (registrations 0 ops) :=
    Accounts.run ⟨rfl, List.Perm.refl _, List.Sublist.refl _⟩ ops
  have hregs : (registrations 0 ops).Nodup := by
    apply List.Nodup.of_map DtorEntry.serial
    rw [hacc.serials]
    exact List.nodup_range
  have hcalled := (List.nodup_append.mp (hacc.perm.nodup_iff.mpr hregs)).1
  refine ⟨s, hrun, hrep, hacc, hcalled, fun dsoHandle => ?_⟩
  have hlen : (Registry.empty.run ops).waiting.length ≤ ops.length := by
    have hle := hacc.newest_first.length_le
    rw [List.length_reverse] at hle
    exact hle.trans (registrations_length_le 0 ops)
  obtain ⟨s', hfin, hcalls, hrep'⟩ := hrep.finalize (hlen.trans_lt hfuel) dsoHandle
  refine ⟨s', hfin, hcalls, hrep', fun hnull => ?_⟩
  obtain ⟨l, hchain, _, hwaiting, _⟩ := hrep'
  have hempty : ((Registry.empty.run ops).finalize dsoHandle).waiting = [] := by
    simp [Registry.finalize, DtorEntry.Selected, hnull]
  rw [hempty, List.map_eq_nil_iff] at hwaiting
  subst hwaiting
  exact hchain

/-- Two handles, a finalize call for one of them, and a node whose memory is used again. -/
theorem cxaFinalize_run_twoHandles :
    (Registry.empty.run [.atexit 0x1000#64 1#64 2#64 7#64, .atexit 0x2000#64 3#64 4#64 8#64,
      .finalize 7#64, .atexit 0x1000#64 5#64 6#64 7#64]).called.Nodup := by
  obtain ⟨_, _, _, _, hnodup, _⟩ := @cxaFinalize_run 5
    [.atexit 0x1000#64 1#64 2#64 7#64, .atexit 0x2000#64 3#64 4#64 8#64,
      .finalize 7#64, .atexit 0x1000#64 5#64 6#64 7#64] (by decide) (by decide)
  exact hnodup

end Lists

end ClosureOS
