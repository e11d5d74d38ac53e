import ClosureOS.PageRefs

/-!
The head page of a block after __reinit_page. The entries of the block get its order and
only the first one is marked as head, whatever they held before, so get_head_page masks
the address of each of them to the first one; calls on other blocks do not touch them.
-/
namespace ClosureOS

open DyadicBlocks

/-- A call of __reinit_page. -/
structure ReinitCall where
  page : ℕ
  order : ℕ
  free : Bool
deriving DecidableEq

namespace ReinitCall

def block (c : ReinitCall) : Block := ⟨c.page, c.order⟩

def run (g : Pgdb) (c : ReinitCall) : Pgdb := reinitPage g c.page c.order c.free

end ReinitCall

def runReinitCalls (g : Pgdb) (calls : List ReinitCall) : Pgdb := calls.foldl ReinitCall.run g

/-- What get_head_page reads of the entries of a block. -/
def MarksHead (g : Pgdb) (b : Block) : Prop :=
  ∀ q ∈ b, (g q).order = b.order ∧ (g q).isHead = (q == b.start)

section Calls

variable {g : Pgdb} {b : Block} {c : ReinitCall} {calls : List ReinitCall}

/-- The call writes the order and the mark of each entry, over any previous value. -/
theorem marksHead_run (horder : c.order < maxPageOrder) (g : Pgdb) :
    MarksHead (c.run g) c.block := by
  intro q hq
  rw [ReinitCall.run, reinitPage_of_mem hq]
  exact ⟨orderField_of_lt horder, rfl⟩

theorem MarksHead.run (h : MarksHead g b) (hapart : b.Apart c.block) : MarksHead (c.run g) b := by
  intro q hq
  rw [ReinitCall.run, reinitPage_of_not_mem (hapart.not_mem hq)]
  exact h q hq

theorem MarksHead.runReinitCalls (h : MarksHead g b) (hapart : ∀ c ∈ calls, b.Apart c.block) :
    MarksHead (runReinitCalls g calls) b := by
  induction calls generalizing g with
  | nil => exact h
  | cons c calls ih =>
    have hfirst := h.run (hapart c List.mem_cons_self)
    exact ih hfirst fun c' hc' => hapart c' (List.mem_cons_of_mem c hc')

theorem MarksHead.getHeadPage (h : MarksHead g b) (horder : b.order < maxPageOrder)
    (halign : b.Aligned) (hcap : b.stop ≤ pgdbCapacity) {q : ℕ} (hq : q ∈ b) :
    getHeadPage g q = b.start :=
  getHeadPage_eq (k := b.order) horder halign hcap hq (h q hq).1 (h q hq).2

/-- After __reinit_page the head is found from every page of the block, and it is still found
after any later calls on blocks disjoint from it. -/
theorem getHeadPage_reinitPage {k p : ℕ} (hk : k ≤ 10) (halign : 2 ^ k ∣ p)
    (hcap : p + 2 ^ k ≤ pgdbCapacity) (g : Pgdb) (free : Bool)
    (hcalls : ∀ c ∈ calls, Block.Apart ⟨p, k⟩ c.block) {q : ℕ} (hlo : p ≤ q)
    (hhi : q < p + 2 ^ k) :
    getHeadPage (reinitPage g p k free) q = p ∧
      getHeadPage (runReinitCalls (reinitPage g p k free) calls) q = p := by
  have horder : k < maxPageOrder := Nat.lt_succ_of_le hk
  have hmarks : MarksHead (reinitPage g p k free) ⟨p, k⟩ :=
    @marksHead_run ⟨p, k, free⟩ horder g
  have hq : q ∈ (⟨p, k⟩ : Block) := ⟨hlo, hhi⟩
  constructor
  · exact hmarks.getHeadPage horder halign hcap hq
  · exact (hmarks.runReinitCalls hcalls).getHeadPage horder halign hcap hq

/-- A block of order 10 and, after it, a later call on its buddy. -/
theorem getHeadPage_reinitPage_buddy :
    let g := reinitPage (fun _ => Page.zero) 1024 10 true
    getHeadPage g 1999 = 1024 ∧ getHeadPage (runReinitCalls g [⟨0, 10, false⟩]) 1999 = 1024 := by
  refine getHeadPage_reinitPage (k := 10) (p := 1024) (q := 1999) (by norm_num) (by norm_num) ?_
    (fun _ => Page.zero) true ?_ (by norm_num) (by norm_num)
  · norm_num [pgdbCapacity]
  · intro c hc
    rw [List.mem_singleton.mp hc]
    exact Or.inr (by norm_num [Block.stop, ReinitCall.block])

end Calls
end ClosureOS
