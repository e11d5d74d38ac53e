import ClosureOS.MultibootTags

/-!
Which bytes the tag loops read when the multiboot information is arbitrary. Neither loop
looks at total_size, and a size that rounds to 0 in 32 bits keeps a loop at its tag, so
the loops end inside the buffer exactly when the tags up to the stop are well formed.
-/
namespace ClosureOS

open ByteMemory PointerWalk

/-- The bytes that a loop which has come to a tag reads from there on: the type of every
tag it comes to and the size of every tag it leaves. -/
inductive TagLoopReads (m : Memory) (stop : Word → Bool) : Word → Word → Prop
  | type {tag x : Word} (hx : InRange tag 4 x) : TagLoopReads m stop tag x
  | size {tag x : Word} (hstop : stop tag = false) (hx : InRange (tag + 4#64) 4 x) :
    TagLoopReads m stop tag x
  | later {tag x : Word} (hstop : stop tag = false) (hx : TagLoopReads m stop (nextTag m tag) x) :
    TagLoopReads m stop tag x

/-- From an offset on, the headers lie in the first total bytes, up to the tag where the loop
stops, and the size of every tag before that one rounds to a positive number. -/
inductive TagsInside (m : Memory) (stop : Word → Bool) (mbi : Word) (total : ℕ) : ℕ → Prop
  | stop {off : ℕ} (hstop : stop (mbi + BitVec.ofNat 64 off) = true) (hoff : off + 4 ≤ total) :
    TagsInside m stop mbi total off
  | pass {off : ℕ} {size : BitVec 32} (hsize : tagSize m (mbi + BitVec.ofNat 64 off) = size)
    (hstop : stop (mbi + BitVec.ofNat 64 off) = false) (hoff : off + 8 ≤ total)
    (hpos : 1 ≤ size.toNat) (hround : size.toNat ≤ 2 ^ 32 - 8)
    (rest : TagsInside m stop mbi total (off + (size.toNat + 7) / 8 * 8)) :
    TagsInside m stop mbi total off

section Bounds

variable {m : Memory} {stop : Word → Bool} {mbi p e : Word} {l : List Word} {total off : ℕ}

theorem inRange_offset {i : ℕ} (hlt : off + i < 2 ^ 64) :
    InRange mbi total (mbi + BitVec.ofNat 64 off + BitVec.ofNat 64 i) ↔ off + i < total := by
  have heq : mbi + BitVec.ofNat 64 off + BitVec.ofNat 64 i - mbi = BitVec.ofNat 64 (off + i) := by
    rw [BitVec.add_assoc, ← BitVec.ofNat_add, BitVec.add_comm, BitVec.add_sub_cancel]
  rw [InRange, heq, BitVec.toNat_ofNat, Nat.mod_eq_of_lt hlt]

/-- The bytes of a range that starts at an offset. -/
theorem inRange_of_inRange {n i : ℕ} {x : Word} (hlt : total < 2 ^ 64) (hle : off + i + n ≤ total)
    (hx : InRange (mbi + BitVec.ofNat 64 off + BitVec.ofNat 64 i) n x) : InRange mbi total x := by
  have heq : x = mbi + BitVec.ofNat 64 off + BitVec.ofNat 64 (i +
      (x - (mbi + BitVec.ofNat 64 off + BitVec.ofNat 64 i)).toNat) := by
    rw [BitVec.ofNat_add, BitVec.ofNat_toNat, BitVec.setWidth_eq, ← BitVec.add_assoc,
      BitVec.add_comm, BitVec.sub_add_cancel]
  rw [InRange] at hx
  rw [heq, inRange_offset (by omega)]
  omega

/-- A size that is positive and does not wrap moves the loop by the rounded size. -/
theorem nextTag_eq {size : BitVec 32} (hsize : tagSize m (mbi + BitVec.ofNat 64 off) = size)
    (hround : size.toNat ≤ 2 ^ 32 - 8) :
    nextTag m (mbi + BitVec.ofNat 64 off) =
      mbi + BitVec.ofNat 64 (off + (size.toNat + 7) / 8 * 8) := by
  have hstride : (tagStride size).setWidth 64 = BitVec.ofNat 64 ((size.toNat + 7) / 8 * 8) := by
    apply BitVec.eq_of_toNat_eq
    rw [BitVec.toNat_setWidth, toNat_tagStride, BitVec.toNat_ofNat]
    omega
  rw [nextTag, hsize, hstride, BitVec.ofNat_add, BitVec.add_assoc]

/-- The sizes that round to 0. -/
theorem nextTag_ne_iff : nextTag m p ≠ p ↔
    1 ≤ (tagSize m p).toNat ∧ (tagSize m p).toNat ≤ 2 ^ 32 - 8 := by
  have hlt := (tagSize m p).isLt
  have hzero : nextTag m p = p ↔ (tagStride (tagSize m p)).toNat = 0 := by
    have hstride := (tagStride (tagSize m p)).isLt
    rw [nextTag, add_eq_left, ← BitVec.toNat_inj, BitVec.toNat_setWidth,
      Nat.mod_eq_of_lt (by omega)]
    rfl
  rw [Ne, hzero, toNat_tagStride]
  omega

theorem tagsInside_of_path (htotal : total < 2 ^ 32) (h : Path stop (nextTag m) p l e)
    (hp : p = mbi + BitVec.ofNat 64 off) (hoff : off < 2 ^ 33)
    (hreads : ∀ x, TagLoopReads m stop p x → InRange mbi total x) :
    TagsInside m stop mbi total off := by
  induction h generalizing off with
  | stop hstop =>
    subst hp
    have hlast := hreads _ (.type (inRange_add (show 3 < 4 by decide) (by decide)))
    rw [inRange_offset (by omega)] at hlast
    exact .stop hstop hlast
  | pass hstop rest ih =>
    subst hp
    obtain ⟨hpos, hround⟩ := nextTag_ne_iff.mp ((Path.pass hstop rest).next_ne hstop)
    have hlast := hreads _ (.size hstop (inRange_add (show 3 < 4 by decide) (by decide)))
    have hseven : 4#64 + BitVec.ofNat 64 3 = BitVec.ofNat 64 7 := rfl
    rw [BitVec.add_assoc _ 4#64, hseven, inRange_offset (by omega)] at hlast
    refine .pass rfl hstop hlast hpos hround
      (ih (nextTag_eq rfl hround) (by omega) fun x hx => hreads x (.later hstop hx))

theorem TagsInside.path (h : TagsInside m stop mbi total off) :
    ∃ l e, Path stop (nextTag m) (mbi + BitVec.ofNat 64 off) l e := by
  induction h with
  | stop hstop _ => exact ⟨[], _, .stop hstop⟩
  | pass hsize hstop _ _ hround _ ih =>
    obtain ⟨l, e, hrest⟩ := ih
    rw [← nextTag_eq hsize hround] at hrest
    exact ⟨_ :: l, e, .pass hstop hrest⟩

theorem TagsInside.reads (h : TagsInside m stop mbi total off) (htotal : total < 2 ^ 32) {x : Word}
    (hx : TagLoopReads m stop (mbi + BitVec.ofNat 64 off) x) : InRange mbi total x := by
  induction h with
  | @stop off hstop hoff =>
    cases hx with
    | type hx =>
      rw [← BitVec.add_zero (mbi + _)] at hx
      exact inRange_of_inRange (by omega) (show off + 0 + 4 ≤ total by omega) hx
    | size hpass _ => exact absurd (hstop.symm.trans hpass) (by decide)
    | later hpass _ => exact absurd (hstop.symm.trans hpass) (by decide)
  | @pass off _ hsize hstop hoff _ hround _ ih =>
    cases hx with
    | type hx =>
      rw [← BitVec.add_zero (mbi + _)] at hx
      exact inRange_of_inRange (by omega) (show off + 0 + 4 ≤ total by omega) hx
    | size _ hx => exact inRange_of_inRange (by omega) (show off + 4 + 4 ≤ total by omega) hx
    | later _ hx =>
      rw [nextTag_eq hsize hround] at hx
      exact ih hx

/-- A loop ends and reads only the first total bytes exactly when its tags are inside. -/
theorem tagLoop_inside_iff (htotal : total < 2 ^ 32) :
    ((∃ l e, Path stop (nextTag m) (mbi + 8#64) l e) ∧
      ∀ x, TagLoopReads m stop (mbi + 8#64) x → InRange mbi total x) ↔
    TagsInside m stop mbi total 8 := by
  constructor
  · rintro ⟨⟨l, e, hpath⟩, hreads⟩
    exact tagsInside_of_path htotal hpath rfl (by decide) hreads
  · intro h
    exact ⟨h.path, fun x hx => h.reads htotal hx⟩

theorem bootMmInitTags_ends_iff : (∃ fuel, (bootMmInitTags m mbi fuel).isSome) ↔
    ∃ l e, Path (isEndTag m) (nextTag m) (mbi + 8#64) l e := by
  constructor
  · rintro ⟨fuel, hsome⟩
    obtain ⟨_, hres⟩ := Option.isSome_iff_exists.mp hsome
    obtain ⟨⟨s, tag⟩, hwalk, _⟩ := Option.bind_eq_some_iff.mp hres
    obtain ⟨l, hpath⟩ := path_of_walk hwalk
    exact ⟨l, tag, hpath⟩
  · rintro ⟨l, e, hpath⟩
    refine ⟨l.length + 1, ?_⟩
    rw [bootMmInitTags, hpath.walk_eq _ _ (Nat.lt_succ_self _),
      hpath.walk_eq _ _ (Nat.lt_succ_self _), Option.bind_some]
    dsimp only
    split
    · rfl
    · split
      · rfl
      · rfl

theorem findFramebufferTag_ends_iff (hmbi : mbi + 8#64 ≠ 0#64) :
    (∃ fuel, (findFramebufferTag m mbi fuel).isSome) ↔
      ∃ l e, Path (isEndOrFramebufferTag m) (nextTag m) (mbi + 8#64) l e := by
  constructor
  · rintro ⟨fuel, hsome⟩
    rw [findFramebufferTag, if_neg hmbi, Option.isSome_map] at hsome
    obtain ⟨⟨_, tag⟩, hwalk⟩ := Option.isSome_iff_exists.mp hsome
    obtain ⟨l, hpath⟩ := path_of_walk hwalk
    exact ⟨l, tag, hpath⟩
  · rintro ⟨l, e, hpath⟩
    refine ⟨l.length + 1, ?_⟩
    rw [findFramebufferTag, if_neg hmbi, hpath.walk_eq _ _ (Nat.lt_succ_self _)]
    rfl

end Bounds

/-- The loops of boot_mm_init, and the one of boot_get_frame_buffer, end and read only
inside the total_size bytes from mbi on if and only if the tags that they come to are well
formed: headers inside, and sizes from 1 to 2^32 - 8 up to the tag at which they stop. -/
theorem tagLoops_inside_iff (m : Memory) (mbi : Word) :
    let total := (load32 m mbi).toNat
    (((∃ fuel, (bootMmInitTags m mbi fuel).isSome) ∧
        ∀ x, TagLoopReads m (isEndTag m) (mbi + 8#64) x → InRange mbi total x) ↔
      TagsInside m (isEndTag m) mbi total 8) ∧
    (mbi + 8#64 ≠ 0#64 → (((∃ fuel, (findFramebufferTag m mbi fuel).isSome) ∧
        ∀ x, TagLoopReads m (isEndOrFramebufferTag m) (mbi + 8#64) x → InRange mbi total x) ↔
      TagsInside m (isEndOrFramebufferTag m) mbi total 8)) := by
  intro total
  have htotal : total < 2 ^ 32 := (load32 m mbi).isLt
  constructor
  · rw [bootMmInitTags_ends_iff, tagLoop_inside_iff htotal]
  · intro hmbi
    rw [findFramebufferTag_ends_iff hmbi, tagLoop_inside_iff htotal]

/-- One empty tag of 8 bytes and the END tag in a buffer of 24 bytes. -/
theorem tagLoops_inside_iff_empty :
    let m := ofBytes 0x10000#64 (le32 24#32 ++ le32 0#32 ++ le32 1#32 ++ le32 8#32 ++ le32 0#32 ++
      le32 8#32)
    (∃ fuel, (bootMmInitTags m 0x10000#64 fuel).isSome) ∧
      (∃ fuel, (findFramebufferTag m 0x10000#64 fuel).isSome) := by
  intro m
  have htotal : (load32 m 0x10000#64).toNat = 24 := rfl
  have hsize : tagSize m (0x10000#64 + BitVec.ofNat 64 8) = 8#32 := rfl
  obtain ⟨hinit, hfb⟩ := tagLoops_inside_iff m 0x10000#64
  rw [htotal] at hinit hfb
  refine ⟨(hinit.mpr ?_).1, ((hfb (by decide)).mpr ?_).1⟩
  · have hend : TagsInside m (isEndTag m) 0x10000#64 24 16 := .stop rfl (by decide)
    exact .pass hsize rfl (by decide) (by decide) (by decide) hend
  · have hend : TagsInside m (isEndOrFramebufferTag m) 0x10000#64 24 16 := .stop rfl (by decide)
    exact .pass hsize rfl (by decide) (by decide) (by decide) hend

/-- A tag of size 0 keeps every loop, and a buffer without an END tag is left. -/
theorem tagLoops_not_inside :
    (let m := ofBytes 0x10000#64 (le32 16#32 ++ le32 0#32 ++ le32 1#32 ++ le32 0#32)
      ∀ fuel, bootMmInitTags m 0x10000#64 fuel = none ∧
        findFramebufferTag m 0x10000#64 fuel = none) ∧
    let m := ofBytes 0x10000#64 (le32 16#32 ++ le32 0#32 ++ le32 1#32 ++ le32 8#32)
    ∃ x, TagLoopReads m (isEndTag m) (0x10000#64 + 8#64) x ∧
      ¬ InRange 0x10000#64 (load32 m 0x10000#64).toNat x := by
  refine ⟨fun fuel => ⟨?_, ?_⟩, 0x10010#64, .later rfl (.type (by decide)), by decide⟩
  · rw [bootMmInitTags, walk_of_fixed rfl rfl]
    rfl
  · rw [findFramebufferTag, if_neg (by decide), walk_of_fixed rfl rfl]
    rfl

end ClosureOS
