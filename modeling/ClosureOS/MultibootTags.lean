import ClosureOS.BootInfo
import ClosureOS.ByteMemory
import ClosureOS.PointerWalk
import Mathlib.Data.List.TakeWhile

/-!
The multiboot information as boot_mm_init and boot_get_frame_buffer read it: tags laid
out one after the other from mbi + 8 on, walked by three loops that share one step. The
walks find the tags of a list that was laid out as the multiboot specification says.
-/
namespace ClosureOS

open ByteMemory PointerWalk WordAlign

def multibootTagTypeEnd : BitVec 32 := 0#32

def multibootTagTypeMmap : BitVec 32 := 6#32

def multibootTagTypeFramebuffer : BitVec 32 := 8#32

def multibootTagTypeElfSections : BitVec 32 := 9#32

/-! ### The loops -/

/-- tag->type. -/
def tagType (m : Memory) (tag : Word) : BitVec 32 := load32 m tag

/-- tag->size. -/
def tagSize (m : Memory) (tag : Word) : BitVec 32 := load32 m (tag + 4#64)

/-- (size + 7) & ~7, computed in 32 bits. -/
def tagStride (size : BitVec 32) : BitVec 32 := (size + 7#32) &&& ~~~7#32

def nextTag (m : Memory) (tag : Word) : Word := tag + (tagStride (tagSize m tag)).setWidth 64

/-- The loops of boot_mm_init run while the type is not END. -/
def isEndTag (m : Memory) (tag : Word) : Bool := tagType m tag == multibootTagTypeEnd

/-- The loop of boot_get_frame_buffer also breaks at a FRAMEBUFFER tag. -/
def isEndOrFramebufferTag (m : Memory) (tag : Word) : Bool :=
  isEndTag m tag || tagType m tag == multibootTagTypeFramebuffer

/-- The static pointers mmap_tag and elf_info_tag. -/
structure TagPointers where
  mmapTag : Word
  elfInfoTag : Word
deriving DecidableEq, Repr

/-- The body of the first loop of boot_mm_init. -/
def selectTag (m : Memory) (s : TagPointers) (tag : Word) : TagPointers :=
  if tagType m tag = multibootTagTypeMmap then { s with mmapTag := tag }
  else if tagType m tag = multibootTagTypeElfSections then { s with elfInfoTag := tag }
  else s

/-- (mmap_tag->size - sizeof(*mmap_tag)) / sizeof(*mmap_entry), assigned to 32 bits. -/
def mmapEntryNr (m : Memory) (mmapTag : Word) : BitVec 32 :=
  (((tagSize m mmapTag).setWidth 64 - 16#64) / 24#64).setWidth 32

/-- What boot_mm_init has computed before it sets up the page table. -/
structure TagInfo where
  mmapTag : Word
  elfInfoTag : Word
  mmapEntryNr : BitVec 32
  multibootTagStart : Word
  multibootTagEnd : Word
deriving DecidableEq, Repr

/-- boot_mm_init up to the page table. Without the MMAP tag or the ELF tag it returns -1,
the inner none; the outer one is a loop that needs more rounds. -/
def bootMmInitTags (m : Memory) (mbi : Word) (fuel : ℕ) : Option (Option TagInfo) :=
  (walk (isEndTag m) (nextTag m) (selectTag m) fuel ⟨0#64, 0#64⟩ (mbi + 8#64)).bind fun (s, _) =>
    if s.mmapTag = 0#64 then some none
    else if s.elfInfoTag = 0#64 then some none
    else
      (walk (isEndTag m) (nextTag m) (fun _ _ => ()) fuel () (mbi + 8#64)).map fun (_, tag) =>
        some ⟨s.mmapTag, s.elfInfoTag, mmapEntryNr m s.mmapTag, mbi &&& pageMask, pageAlign tag⟩

/-- fb_info of boot_get_frame_buffer; the inner none is its return of -1. -/
def findFramebufferTag (m : Memory) (mbi : Word) (fuel : ℕ) : Option (Option Word) :=
  if mbi + 8#64 = 0#64 then some none
  else
    (walk (isEndOrFramebufferTag m) (nextTag m) (fun _ _ => ()) fuel () (mbi + 8#64)).map
      fun (_, tag) => if isEndTag m tag then none else some tag

/-! ### The layout -/

/-- A tag as it stands in memory: the header, the payload and the padding up to the next
multiple of 8. -/
structure MultibootTag where
  type : BitVec 32
  payload : List (BitVec 8)
  padding : List (BitVec 8)
  type_ne : type ≠ multibootTagTypeEnd
  size_lt : 8 + payload.length < 2 ^ 32 - 8
  padding_lt : padding.length < 8
  aligned : 8 ∣ 8 + payload.length + padding.length

namespace MultibootTag

def size (tag : MultibootTag) : BitVec 32 := BitVec.ofNat 32 (8 + tag.payload.length)

def bytes (tag : MultibootTag) : List (BitVec 8) :=
  le32 tag.type ++ (le32 tag.size ++ (tag.payload ++ tag.padding))

/-- A tag with the least padding. -/
def padded (type : BitVec 32) (payload : List (BitVec 8))
    (h : type ≠ multibootTagTypeEnd ∧ 8 + payload.length < 2 ^ 32 - 8) : MultibootTag where
  type := type
  payload := payload
  padding := List.replicate ((8 - payload.length % 8) % 8) 0#8
  type_ne := h.1
  size_lt := h.2
  padding_lt := by
    rw [List.length_replicate]
    exact Nat.mod_lt _ (by decide)
  aligned := by
    rw [List.length_replicate]
    omega

/-- The END tag is a header alone. -/
def endBytes : List (BitVec 8) := le32 multibootTagTypeEnd ++ le32 8#32

/-- The bytes from mbi + 8 on. -/
def serialise (tags : List MultibootTag) : List (BitVec 8) := tags.flatMap bytes ++ endBytes

/-- Every tag of the list with its address. -/
def place : Word → List MultibootTag → List (Word × MultibootTag)
  | _, [] => []
  | a, tag :: tags => (a, tag) :: place (a + BitVec.ofNat 64 tag.bytes.length) tags

/-- The address of the END tag. -/
def endAddr (a : Word) (tags : List MultibootTag) : Word :=
  a + BitVec.ofNat 64 (tags.flatMap bytes).length

/-- The address of the last tag of a type. -/
def lastOf (type : BitVec 32) (placed : List (Word × MultibootTag)) : Option Word :=
  (placed.filter fun p => p.2.type == type).getLast?.map Prod.fst

/-- The address of the first tag of a type. -/
def firstOf (type : BitVec 32) (placed : List (Word × MultibootTag)) : Option Word :=
  (placed.find? fun p => p.2.type == type).map Prod.fst

end MultibootTag

section Layout

open MultibootTag

variable {m : Memory} {mbi a : Word} {tag : MultibootTag} {tags : List MultibootTag}
  {p : Word × MultibootTag}

theorem toNat_tagStride (size : BitVec 32) :
    (tagStride size).toNat = (size.toNat + 7) % 2 ^ 32 / 8 * 8 :=
  toNat_and_highMask (size + 7#32) 3

theorem MultibootTag.length_bytes (tag : MultibootTag) :
    tag.bytes.length = 8 + tag.payload.length + tag.padding.length := by
  simp only [bytes, List.length_append, length_le32]
  omega

/-- The step covers the tag with its padding, whatever its size leaves modulo 8. -/
theorem MultibootTag.tagStride_size (tag : MultibootTag) :
    (tagStride tag.size).setWidth 64 = BitVec.ofNat 64 tag.bytes.length := by
  have hsize := tag.size_lt
  have hpad := tag.padding_lt
  obtain ⟨k, hk⟩ := tag.aligned
  apply BitVec.eq_of_toNat_eq
  rw [BitVec.toNat_setWidth, toNat_tagStride, tag.length_bytes, size, BitVec.toNat_ofNat,
    BitVec.toNat_ofNat]
  omega

theorem tagType_of_holds {l : List (BitVec 8)} (h : Holds m a (tag.bytes ++ l)) :
    tagType m a = tag.type :=
  load32_of_holds (holds_append.mp (holds_append.mp h).1).1

theorem tagSize_of_holds {l : List (BitVec 8)} (h : Holds m a (tag.bytes ++ l)) :
    tagSize m a = tag.size :=
  load32_of_holds (holds_append.mp (holds_append.mp (holds_append.mp h).1).2).1

theorem nextTag_of_holds {l : List (BitVec 8)} (h : Holds m a (tag.bytes ++ l)) :
    nextTag m a = a + BitVec.ofNat 64 tag.bytes.length := by
  rw [nextTag, tagSize_of_holds h, tag.tagStride_size]

theorem holds_serialise_cons (h : Holds m a (serialise (tag :: tags))) :
    Holds m a (tag.bytes ++ serialise tags) := by
  rw [serialise, List.flatMap_cons, List.append_assoc] at h
  exact h

/-- A loop that breaks at the types of a test passes the tags before the first of these,
in order, and without one it stops at END. -/
theorem path_of_serialise (break' : BitVec 32 → Bool) (h : Holds m a (serialise tags)) :
    Path (fun tag => isEndTag m tag || break' (tagType m tag)) (nextTag m) a
      (((place a tags).takeWhile fun p => !break' p.2.type).map Prod.fst)
      ((((place a tags).find? fun p => break' p.2.type).map Prod.fst).getD (endAddr a tags)) := by
  induction tags generalizing a with
  | nil =>
    have hheader : Holds m a (le32 multibootTagTypeEnd ++ le32 8#32) := h
    have htype : tagType m a = multibootTagTypeEnd := load32_of_holds (holds_append.mp hheader).1
    have hend : endAddr a [] = a := BitVec.add_zero a
    rw [place, List.find?_nil, Option.map_none, Option.getD_none, hend]
    exact .stop (by rw [isEndTag, htype]; rfl)
  | cons tag tags ih =>
    have htag := holds_serialise_cons h
    have htype := tagType_of_holds htag
    have hpass : isEndTag m a = false := by
      rw [isEndTag, htype]
      exact beq_false_of_ne tag.type_ne
    rw [place, List.takeWhile_cons, List.find?_cons]
    cases hbreak : break' tag.type with
    | true => exact .stop (by rw [htype, hbreak, Bool.or_true])
    | false =>
      have hend : endAddr a (tag :: tags) = endAddr (nextTag m a) tags := by
        rw [nextTag_of_holds htag, endAddr, endAddr, List.flatMap_cons, List.length_append,
          BitVec.ofNat_add, BitVec.add_assoc]
      rw [hend, ← nextTag_of_holds htag]
      refine .pass (by rw [hpass, htype, hbreak]; rfl) (ih ?_)
      rw [nextTag_of_holds htag]
      exact (holds_append.mp htag).2

/-- The loops of boot_mm_init pass all tags. -/
theorem endPath_of_serialise (h : Holds m a (serialise tags)) :
    Path (isEndTag m) (nextTag m) a ((place a tags).map Prod.fst) (endAddr a tags) := by
  have hpath := path_of_serialise (fun _ => false) h
  have hall : (place a tags).takeWhile (fun _ => !false) = place a tags :=
    List.takeWhile_eq_self_iff.mpr fun _ _ => rfl
  have hnone : (place a tags).find? (fun _ => false) = none :=
    List.find?_eq_none.mpr fun _ _ => Bool.false_ne_true
  simp only [Bool.or_false] at hpath
  rw [hall, hnone] at hpath
  exact hpath

theorem length_place (a : Word) (tags : List MultibootTag) :
    (place a tags).length = tags.length := by
  induction tags generalizing a with
  | nil => rfl
  | cons tag tags ih => rw [place, List.length_cons, ih, List.length_cons]

/-- Every address of the layout is that of a tag with the type it was given. -/
theorem tagType_of_mem_place (h : Holds m a (serialise tags)) (hp : p ∈ place a tags) :
    tagType m p.1 = p.2.type := by
  induction tags generalizing a with
  | nil => exact absurd hp List.not_mem_nil
  | cons tag tags ih =>
    have htag := holds_serialise_cons h
    rcases List.mem_cons.mp hp with rfl | hp
    · exact tagType_of_holds htag
    · exact ih (holds_append.mp htag).2 hp

theorem le_toNat_of_mem_place (hroom : a.toNat + (tags.flatMap bytes).length < 2 ^ 64)
    (hp : p ∈ place a tags) : a.toNat ≤ p.1.toNat := by
  induction tags generalizing a with
  | nil => exact absurd hp List.not_mem_nil
  | cons tag tags ih =>
    rcases List.mem_cons.mp hp with rfl | hp'
    · exact Nat.le_refl _
    · rw [List.flatMap_cons, List.length_append] at hroom
      have hnext : (a + BitVec.ofNat 64 tag.bytes.length).toNat = a.toNat + tag.bytes.length := by
        rw [BitVec.toNat_add, BitVec.toNat_ofNat, Nat.mod_eq_of_lt (by omega),
          Nat.mod_eq_of_lt (by omega)]
      have hle := ih (by omega) hp'
      omega

theorem lastOf_concat (type : BitVec 32) (l : List (Word × MultibootTag)) :
    lastOf type (l ++ [p]) = if p.2.type = type then some p.1 else lastOf type l := by
  rw [lastOf, List.filter_append, List.filter_singleton]
  split
  · next htype =>
    rw [beq_iff_eq.mpr htype, cond_true, List.getLast?_concat]
    rfl
  · next htype =>
    rw [beq_false_of_ne htype, cond_false, List.append_nil]
    rfl

/-- The body of the first loop keeps the last tag of each of the two types. -/
theorem foldl_selectTag (l : List (Word × MultibootTag))
    (htype : ∀ p ∈ l, tagType m p.1 = p.2.type) :
    (l.map Prod.fst).foldl (selectTag m) ⟨0#64, 0#64⟩ =
      ⟨(lastOf multibootTagTypeMmap l).getD 0#64,
        (lastOf multibootTagTypeElfSections l).getD 0#64⟩ := by
  induction l using List.reverseRecOn with
  | nil => rfl
  | append_singleton l p ih =>
    have hp : tagType m p.1 = p.2.type := htype p (by simp)
    rw [List.map_append, List.foldl_append, ih fun q hq => htype q (List.mem_append_left _ hq),
      lastOf_concat, lastOf_concat, List.map_singleton, List.foldl_cons, List.foldl_nil, selectTag,
      hp]
    by_cases hmmap : p.2.type = multibootTagTypeMmap
    · have helf : p.2.type ≠ multibootTagTypeElfSections := by
        rw [hmmap]
        decide
      rw [if_pos hmmap, if_pos hmmap, if_neg helf]
      rfl
    · rw [if_neg hmmap, if_neg hmmap]
      split
      · rfl
      · rfl

theorem ne_zero_of_lastOf {type : BitVec 32} {x : Word} (hpos : 0 < a.toNat)
    (hroom : a.toNat + (tags.flatMap bytes).length < 2 ^ 64)
    (h : lastOf type (place a tags) = some x) : x ≠ 0#64 := by
  obtain ⟨p, hlast, rfl⟩ := Option.map_eq_some_iff.mp h
  have hp := (List.mem_filter.mp (List.mem_of_getLast? hlast)).1
  have hle := le_toNat_of_mem_place hroom hp
  intro hzero
  rw [hzero] at hle
  exact absurd hle (Nat.not_le.mpr hpos)

section Walks

variable {fuel : ℕ} {σ : Type}

theorem walk_endTag (h : Holds m a (serialise tags)) (hfuel : tags.length < fuel)
    (body : σ → Word → σ) (s : σ) :
    walk (isEndTag m) (nextTag m) body fuel s a =
      some (((place a tags).map Prod.fst).foldl body s, endAddr a tags) :=
  (endPath_of_serialise h).walk_eq body s (by rw [List.length_map, length_place]; exact hfuel)

theorem walk_framebufferTag (h : Holds m a (serialise tags)) (hfuel : tags.length < fuel)
    (body : σ → Word → σ) (s : σ) :
    walk (isEndOrFramebufferTag m) (nextTag m) body fuel s a =
      some ((((place a tags).takeWhile fun p => p.2.type != multibootTagTypeFramebuffer).map
        Prod.fst).foldl body s,
        (firstOf multibootTagTypeFramebuffer (place a tags)).getD (endAddr a tags)) := by
  have hpath := path_of_serialise (fun type => type == multibootTagTypeFramebuffer) h
  refine hpath.walk_eq body s ?_
  rw [List.length_map]
  exact ((List.takeWhile_sublist _).length_le.trans_eq (length_place _ _)).trans_lt hfuel

/-- The stop of the third loop tells whether a FRAMEBUFFER tag was found. -/
theorem isEndTag_firstOf (h : Holds m a (serialise tags)) (type : BitVec 32) :
    isEndTag m ((firstOf type (place a tags)).getD (endAddr a tags)) =
      (firstOf type (place a tags)).isNone := by
  cases hfirst : firstOf type (place a tags) with
  | none => exact (endPath_of_serialise h).stop_end
  | some tag =>
    obtain ⟨p, hp, rfl⟩ := Option.map_eq_some_iff.mp hfirst
    rw [Option.getD_some, isEndTag, tagType_of_mem_place h (List.mem_of_find?_eq_some hp)]
    exact beq_false_of_ne p.2.type_ne

end Walks

/-- The first tag is behind the header of the information. -/
theorem toNat_tagStart (hroom : mbi.toNat + 8 < 2 ^ 64) :
    (mbi + 8#64).toNat = mbi.toNat + 8 := by
  rw [BitVec.toNat_add]
  exact Nat.mod_eq_of_lt hroom

/-- The three walks over a list of tags that was laid out from mbi + 8 on. They end, and
pass the start of every tag in order, that of boot_get_frame_buffer up to the first
FRAMEBUFFER tag. The pointers they leave are those of the last MMAP and ELF tags and of the
first FRAMEBUFFER tag, and the tag range ends at the page boundary after the END tag. -/
theorem tagWalks_of_serialise {fuel : ℕ} (hbytes : Holds m (mbi + 8#64) (serialise tags))
    (hroom : mbi.toNat + 8 + (serialise tags).length ≤ 2 ^ 64) (hfuel : tags.length < fuel) :
    let placed := place (mbi + 8#64) tags
    let t := endAddr (mbi + 8#64) tags
    (∀ {σ : Type} (body : σ → Word → σ) (s : σ),
      walk (isEndTag m) (nextTag m) body fuel s (mbi + 8#64) =
        some ((placed.map Prod.fst).foldl body s, t)) ∧
    bootMmInitTags m mbi fuel =
      some (match lastOf multibootTagTypeMmap placed, lastOf multibootTagTypeElfSections placed with
        | some mmap, some elf =>
          some ⟨mmap, elf, mmapEntryNr m mmap, mbi &&& pageMask, pageAlign t⟩
        | _, _ => none) ∧
    (∀ {σ : Type} (body : σ → Word → σ) (s : σ),
      walk (isEndOrFramebufferTag m) (nextTag m) body fuel s (mbi + 8#64) =
        some (((placed.takeWhile fun p => p.2.type != multibootTagTypeFramebuffer).map
          Prod.fst).foldl body s, (firstOf multibootTagTypeFramebuffer placed).getD t)) ∧
    findFramebufferTag m mbi fuel = some (firstOf multibootTagTypeFramebuffer placed) := by
  intro placed t
  have hlen : (serialise tags).length = (tags.flatMap bytes).length + 8 := List.length_append
  have hstart : (mbi + 8#64).toNat = mbi.toNat + 8 := toNat_tagStart (by omega)
  have hroom' : (mbi + 8#64).toNat + (tags.flatMap bytes).length < 2 ^ 64 := by omega
  refine ⟨walk_endTag hbytes hfuel, ?_, walk_framebufferTag hbytes hfuel, ?_⟩
  · rw [bootMmInitTags, walk_endTag hbytes hfuel, walk_endTag hbytes hfuel,
      foldl_selectTag placed fun p hp => tagType_of_mem_place hbytes hp]
    cases hmmap : lastOf multibootTagTypeMmap placed with
    | none => rfl
    | some mmap =>
      have hmmap0 := ne_zero_of_lastOf (by omega) hroom' hmmap
      cases helf : lastOf multibootTagTypeElfSections placed with
      | none => simp [hmmap0]
      | some elf => simp [t, hmmap0, ne_zero_of_lastOf (by omega) hroom' helf]
  · have hstart0 : mbi + 8#64 ≠ 0#64 := by
      intro hzero
      rw [hzero] at hstart
      exact absurd hstart (by simp)
    rw [findFramebufferTag, if_neg hstart0, walk_framebufferTag hbytes hfuel, Option.map_some]
    dsimp only
    rw [isEndTag_firstOf hbytes]
    cases firstOf multibootTagTypeFramebuffer (place (mbi + 8#64) tags) with
    | none => rfl
    | some tag => rfl

/-- A command line of one byte, a memory map without entries, a frame buffer and an ELF tag. -/
def fourTags : List MultibootTag :=
  [padded 1#32 [0#8] (by decide), padded 6#32 (le32 24#32 ++ le32 0#32) (by decide),
    padded 8#32 (List.replicate 7 2#8) (by decide), padded 9#32 (le32 0#32) (by decide)]

theorem tagWalks_of_serialise_fourTags :
    let m := ofBytes (0x10000#64 + 8#64) (serialise fourTags)
    bootMmInitTags m 0x10000#64 5 =
        some (some ⟨0x10018#64, 0x10038#64, mmapEntryNr m 0x10018#64, 0x10000#64, 0x11000#64⟩) ∧
      findFramebufferTag m 0x10000#64 5 = some (some 0x10028#64) := by
  intro m
  have hlen : (serialise fourTags).length = 72 := by rfl
  have hbytes : Holds m (0x10000#64 + 8#64) (serialise fourTags) :=
    holds_ofBytes (by rw [hlen]; decide)
  have hwalks := tagWalks_of_serialise hbytes (by rw [hlen]; decide)
    (show fourTags.length < 5 by decide)
  exact ⟨hwalks.2.1, hwalks.2.2.2⟩

end Layout

end ClosureOS
