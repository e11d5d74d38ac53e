import ClosureOS.BootRounds

/-!
The answers of boot_mm_page_alloc over any number of calls. They are the whole frames
of the available entries that are in no used range, entry by entry in table order and
upwards inside an entry, each once; and then -ENOMEM for ever.
-/
namespace ClosureOS

/-- The answers of n calls made one after the other, each within a number of rounds. -/
def allocCalls (entries : List MmapEntry) (used : Word → Bool) (rounds : ℕ) : ℕ → BootCursor →
    Option (List Word × BootCursor)
  | 0, s => some ([], s)
  | n + 1, s =>
    match bootMmPageAlloc entries used rounds s with
    | none => none
    | some (res, s) => (allocCalls entries used rounds n s).map fun (rest, s) => (res :: rest, s)

/-- The page at f is aligned and lies inside the entry as a whole. -/
def MmapEntry.WholeFrame (e : MmapEntry) (f : Word) : Prop :=
  4096 ∣ f.toNat ∧ e.addr.toNat ≤ f.toNat ∧ f.toNat + 4096 ≤ e.stop

/-- The frames of an entry that are in no used range. -/
def MmapEntry.unusedFrames (used : Word → Bool) (e : MmapEntry) : List Word :=
  e.frames.filter fun f => !used f

section Enumerate

variable {entries : List MmapEntry} {used : Word → Bool} {s : BootCursor} {e : MmapEntry} {f : Word}
  {rounds : ℕ}

/-- The calls return: the first one, and the others after it. -/
theorem allocCalls_succ_eq_some {n : ℕ} {r : List Word × BootCursor} :
    allocCalls entries used rounds (n + 1) s = some r ↔
      ∃ res u rest, bootMmPageAlloc entries used rounds s = some (res, u) ∧
        allocCalls entries used rounds n u = some rest ∧ (res :: rest.1, rest.2) = r := by
  rw [allocCalls]
  cases hcall : bootMmPageAlloc entries used rounds s with
  | none => simp
  | some out =>
    constructor
    · intro h
      obtain ⟨rest, hrest, rfl⟩ := Option.map_eq_some_iff.mp h
      exact ⟨out.1, out.2, rest, rfl, hrest, rfl⟩
    · rintro ⟨res, u, rest, heq, hrest, rfl⟩
      obtain rfl := Option.some.inj heq
      exact Option.map_eq_some_iff.mpr ⟨rest, hrest, rfl⟩

/-- A run of calls that return gives the same answers with frameRounds rounds for each call, on
any memory map. -/
theorem allocCalls_frameRounds {n : ℕ} {r : List Word × BootCursor} (hs : s.Reached entries)
    (h : allocCalls entries used rounds n s = some r) :
    allocCalls entries used (frameRounds entries) n s = some r := by
  induction n generalizing s r with
  | zero => exact h
  | succ n ih =>
    obtain ⟨res, u, rest, hcall, hrest, rfl⟩ := allocCalls_succ_eq_some.mp h
    exact allocCalls_succ_eq_some.mpr ⟨res, u, rest,
      (bootMmPageAlloc_frameRounds hs).mpr ⟨rounds, hcall⟩, ih (hs.alloc hcall) hrest, rfl⟩

/-- The frames left come first, whatever their number, and errors after them. -/
theorem allocCalls_eq (hsafe : ∀ e ∈ entries, e.AlignSafe)
    (hstop : ∀ e ∈ entries, e.Available → e.stop < 2 ^ 64) (herr : used (errPtr enomem) = false)
    (hplaced : Placed entries s) (hrounds : frameRounds entries ≤ rounds) (n : ℕ) :
    ∃ s', allocCalls entries used rounds n s = some ((s.free entries used).take n ++
      List.replicate (n - (s.free entries used).length) (errPtr enomem), s') := by
  induction n generalizing s with
  | zero => exact ⟨s, by simp [allocCalls]⟩
  | succ n ih =>
    obtain ⟨res, u, hcall⟩ := bootMmPageAlloc_returns hsafe hstop herr hplaced
      ((hplaced.length_pending_lt hsafe).trans_le hrounds)
    simp only [allocCalls, hcall]
    cases bootMmPageAlloc_answer hsafe hplaced hcall with
    | frame hplaced' hunused hfree =>
      obtain ⟨s', hrest⟩ := ih hplaced'
      refine ⟨s', ?_⟩
      rw [hrest, hfree]
      simp
    | empty hplaced' hunused hfree hfree' =>
      obtain ⟨s', hrest⟩ := ih hplaced'
      refine ⟨s', ?_⟩
      rw [hrest, hfree, hfree']
      simp [List.replicate_succ]

theorem MmapEntry.mem_frames_iff (hstop : e.stop < 2 ^ 64) :
    f ∈ e.frames ↔ e.Available ∧ e.WholeFrame f := by
  rw [mem_frames, and_iff_right hstop]
  refine and_congr_right fun _ => ?_
  constructor
  · rintro ⟨n, hfirst, hn, rfl⟩
    rw [WholeFrame, toNat_frame (endPfn_lt hstop hn.le)]
    unfold firstPfn at hfirst
    unfold endPfn at hn
    omega
  · rintro ⟨⟨n, hn⟩, hlow, hhigh⟩
    refine ⟨n, by rw [firstPfn]; omega, by rw [endPfn]; omega, ?_⟩
    apply BitVec.eq_of_toNat_eq
    rw [hn, toNat_frame (by omega)]

theorem MmapEntry.frames_ascend (e : MmapEntry) : e.frames.Pairwise (· < ·) := by
  unfold frames
  split
  · next h =>
    rw [framesBetween, List.pairwise_map]
    refine List.Pairwise.imp_of_mem (fun {a b} ha hb hab => ?_) List.pairwise_lt_range'
    obtain ⟨hlow, hhigh⟩ := List.mem_range'_1.mp hb
    have hstop : b ≤ e.endPfn := by omega
    rw [BitVec.lt_def, toNat_frame (endPfn_lt h.2 (by omega)), toNat_frame (endPfn_lt h.2 hstop)]
    omega
  · exact List.Pairwise.nil

theorem filter_allFrames (entries : List MmapEntry) (used : Word → Bool) :
    (allFrames entries).filter (fun f => !used f) = entries.flatMap (MmapEntry.unusedFrames used) :=
  List.filter_flatMap

/-- Frames of entries without a common byte are different. -/
theorem nodup_unusedFrames (hstop : ∀ e ∈ entries, e.stop < 2 ^ 64)
    (hdisj : entries.Pairwise MmapEntry.Apart) :
    (entries.flatMap (MmapEntry.unusedFrames used)).Nodup := by
  refine List.nodup_flatMap.mpr ⟨fun e _ => ?_, ?_⟩
  · exact (e.frames_ascend.imp fun hlt => (BitVec.ne_of_lt hlt)).filter _
  · refine hdisj.imp_of_mem fun {d e} hd he hapart f hfd hfe => ?_
    have hfd := ((MmapEntry.mem_frames_iff (hstop d hd)).mp (List.mem_of_mem_filter hfd)).2
    have hfe := ((MmapEntry.mem_frames_iff (hstop e he)).mp (List.mem_of_mem_filter hfe)).2
    have hdhigh := hfd.2.2
    have hehigh := hfe.2.2
    exact hapart f.toNat ⟨hfd.2.1, by omega⟩ ⟨hfe.2.1, by omega⟩

/-- All calls return, within frameRounds rounds each. Their answers are the frames, entry by
entry in the order of the table, as far as they go, and then errors, in however many rounds
they return. The frames of an entry ascend and are its whole frames outside the used ranges, if
it is available; no frame comes twice. -/
theorem bootMmPageAlloc_enumerates (hdisj : entries.Pairwise MmapEntry.Apart)
    (hend : ∀ e ∈ entries, e.stop ≤ 2 ^ 52) (herr : used (errPtr enomem) = false) :
    ∃ part : MmapEntry → List Word,
      (∀ e ∈ entries, (part e).Pairwise (· < ·) ∧
        ∀ f, f ∈ part e ↔ e.Available ∧ e.WholeFrame f ∧ used f = false) ∧
      (entries.flatMap part).Nodup ∧
      ∀ rounds n, (frameRounds entries ≤ rounds → ∃ r, allocCalls entries used rounds n .start =
          some r) ∧
        ∀ r, allocCalls entries used rounds n .start = some r →
          r.1 = (entries.flatMap part).take n ++
            List.replicate (n - (entries.flatMap part).length) (errPtr enomem) := by
  have hstop : ∀ e ∈ entries, e.stop < 2 ^ 64 := fun e he => (hend e he).trans_lt (by decide)
  have hsafe : ∀ e ∈ entries, e.AlignSafe := by
    intro e he _
    have hlow : e.addr.toNat ≤ e.stop := Nat.le_add_right _ _
    have hhigh := hend e he
    omega
  refine ⟨MmapEntry.unusedFrames used, fun e he => ⟨e.frames_ascend.filter _, fun f => ?_⟩,
    nodup_unusedFrames hstop hdisj, fun rounds n => ⟨fun hrounds => ?_, fun r hr => ?_⟩⟩
  · rw [MmapEntry.unusedFrames, List.mem_filter, MmapEntry.mem_frames_iff (hstop e he),
      Bool.not_eq_true', and_assoc]
  · obtain ⟨s, hcalls⟩ := allocCalls_eq hsafe (fun e he _ => hstop e he) herr .start hrounds n
    exact ⟨_, hcalls⟩
  · obtain ⟨s, hcalls⟩ := allocCalls_eq hsafe (fun e he _ => hstop e he) herr .start le_rfl n
    have hsame := allocCalls_frameRounds BootCursor.Reached.start hr
    rw [← filter_allFrames, ← Option.some.inj (hcalls.symm.trans hsame)]
    rfl

/-- A map with an entry below a page, a reserved one and two available ones. -/
theorem bootMmPageAlloc_enumerates_fourEntries :
    ∃ fs : List Word, fs.Nodup ∧
      ∀ n, (∃ r, allocCalls [⟨0x100#64, 0x800#64, multibootMemoryAvailable⟩,
        ⟨0x1000#64, 0x2800#64, multibootMemoryAvailable⟩,
        ⟨0x4000#64, 0x1000#64, multibootMemoryReserved⟩,
        ⟨0x5000#64, 0x1000#64, multibootMemoryAvailable⟩] (fun f => f == 0x1000#64) 10 n .start =
      some r ∧ r.1 = fs.take n ++ List.replicate (n - fs.length) (errPtr enomem)) := by
  obtain ⟨part, _, hnodup, hcalls⟩ := @bootMmPageAlloc_enumerates
    [⟨0x100#64, 0x800#64, multibootMemoryAvailable⟩,
      ⟨0x1000#64, 0x2800#64, multibootMemoryAvailable⟩,
      ⟨0x4000#64, 0x1000#64, multibootMemoryReserved⟩,
      ⟨0x5000#64, 0x1000#64, multibootMemoryAvailable⟩] (fun f => f == 0x1000#64)
    (MmapEntry.pairwise_apart_of_bounds (by decide)) (by decide) (by decide)
  refine ⟨_, hnodup, fun n => ?_⟩
  obtain ⟨hreturns, hanswers⟩ := hcalls 10 n
  obtain ⟨r, hr⟩ := hreturns (by decide)
  exact ⟨r, hr, hanswers r hr⟩

end Enumerate

end ClosureOS
