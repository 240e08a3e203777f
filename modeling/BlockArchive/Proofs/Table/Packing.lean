import BlockArchive.Proofs.Table.Appending
import BlockArchive.Proofs.Table.Cutting

/-! # The packed form of a table

Items that are appended to an empty table one after the other are packed: each goes to the end of
the head if it fits there, and else begins a new head.

* **`Packing`** is what the files of a table hold, as data, and `packed` the packing of a list of
  items.
* **Beginnings.** The packing of the first items is the beginning of the packing of all
  (`Begins`, `begins_packed_take`), because what is packed later changes nothing before it but the
  length of the head.
* **`IsPacked`**: the files of a table are the packed form of its items.  An append preserves it
  (`IsPacked.appending`), and so does a cut (`IsPacked.cutting`); there is a place for an item just
  if it can be packed with the others (`IsPacked.hasRoom_iff`). -/

namespace BlockArchive.Table

open IndexEntry

/-- What the files of a table hold: the entries of the index, and the bytes of the segments from
zero on, the last of which is the head. -/
structure Packing where
  entries : List IndexEntry
  full : List Bytes
  head : Bytes

namespace Packing

/-- A table without items. -/
def empty : Packing := ⟨[.sentinel], [], []⟩

/-- The segments in the order of their ids. -/
def segments (packing : Packing) : List Bytes :=
  packing.full ++ [packing.head]

/-- Whether the head has a place for `len` more bytes. -/
def Fits (packing : Packing) (cap len : Nat) : Prop :=
  packing.head.length + len < offsetLimit ∧ packing.head.length + len ≤ cap

instance (packing : Packing) (cap len : Nat) : Decidable (packing.Fits cap len) :=
  inferInstanceAs (Decidable (_ ∧ _))

/-- A new head is begun if `len` more bytes do not fit in the old one. -/
def rotated (packing : Packing) (cap len : Nat) : Packing :=
  if packing.Fits cap len then packing
  else { packing with full := packing.full ++ [packing.head], head := [] }

/-- An item goes to the end of the head. -/
def push (packing : Packing) (item : Bytes) : Packing where
  entries := packing.entries ++
    [⟨.ofNat packing.full.length, .ofNat (packing.head.length + item.length)⟩]
  full := packing.full
  head := packing.head ++ item

/-- One more item is packed. -/
def add (cap : Nat) (packing : Packing) (item : Bytes) : Packing :=
  (packing.rotated cap item.length).push item

end Packing

/-- The packing of items that are appended to an empty table. -/
def packed (cap : Nat) (items : List Bytes) : Packing :=
  items.foldl (Packing.add cap) .empty

variable {cap : Nat} {items : List Bytes} {item : Bytes} {packing packing' : Packing}

theorem packed_concat (cap : Nat) (items : List Bytes) (item : Bytes) :
    packed cap (items ++ [item]) = (packed cap items).add cap item := by
  simp [packed, List.foldl_append]

namespace Packing

@[simp] theorem rotated_entries (packing : Packing) (cap len : Nat) :
    (packing.rotated cap len).entries = packing.entries := by
  unfold rotated
  split <;> rfl

@[simp] theorem add_full (packing : Packing) (cap : Nat) (item : Bytes) :
    (packing.add cap item).full = (packing.rotated cap item.length).full := rfl

theorem add_entries (packing : Packing) (cap : Nat) (item : Bytes) :
    (packing.add cap item).entries = packing.entries ++
      [⟨.ofNat (packing.rotated cap item.length).full.length,
        .ofNat ((packing.rotated cap item.length).head.length + item.length)⟩] := by
  rw [add, push, rotated_entries]

theorem length_full_le_rotated (packing : Packing) (cap len : Nat) :
    packing.full.length ≤ (packing.rotated cap len).full.length := by
  unfold rotated
  split
  · exact Nat.le_refl _
  · simp

theorem getElem?_segments (packing : Packing) (id : Nat) :
    packing.segments[id]? =
      if id = packing.full.length then some packing.head else packing.full[id]? := by
  unfold segments
  split
  · next h => rw [h, List.getElem?_concat_length]
  · next h =>
      rcases Nat.lt_or_gt_of_ne h with hlt | hgt
      · rw [List.getElem?_append_left hlt]
      · rw [List.getElem?_eq_none (by simp; omega), List.getElem?_eq_none (by omega)]

theorem getElem?_segments_of_lt {id : Nat} (h : packing.full.length < id) :
    packing.segments[id]? = none := by
  rw [getElem?_segments, if_neg (Nat.ne_of_gt h), List.getElem?_eq_none (Nat.le_of_lt h)]

/-- One more item changes the segment it goes to, and no other. -/
theorem getElem?_segments_add (packing : Packing) (cap : Nat) (item : Bytes) (id : Nat) :
    (packing.add cap item).segments[id]? =
      if id = (packing.rotated cap item.length).full.length then
        some ((packing.rotated cap item.length).head ++ item)
      else packing.segments[id]? := by
  rw [getElem?_segments, add, push]
  simp only
  split
  · rfl
  · next h =>
      unfold rotated at h ⊢
      split
      · next hfits =>
          rw [if_pos hfits] at h
          rw [getElem?_segments, if_neg h]
      · rfl

/-! ### Beginnings -/

/-- A packing is the beginning of another: this one has its entries and more, its segments, and a
segment that starts as its head. -/
structure Begins (packing packing' : Packing) : Prop where
  entries : packing.entries <+: packing'.entries
  earlier : ∀ id < packing.full.length, packing'.segments[id]? = packing.segments[id]?
  head : ∃ more, packing'.segments[packing.full.length]? = some (packing.head ++ more)

theorem Begins.refl (packing : Packing) : packing.Begins packing :=
  ⟨List.prefix_rfl, fun _ _ => rfl, [], by simp [getElem?_segments]⟩

theorem Begins.length_full_le (h : packing.Begins packing') :
    packing.full.length ≤ packing'.full.length := by
  obtain ⟨more, hhead⟩ := h.head
  refine Nat.le_of_not_lt fun hlt => ?_
  rw [getElem?_segments_of_lt hlt] at hhead
  simp at hhead

theorem Begins.add (h : packing.Begins packing') (cap : Nat) (item : Bytes) :
    packing.Begins (packing'.add cap item) := by
  have hle := h.length_full_le
  have hrotated := packing'.length_full_le_rotated cap item.length
  refine ⟨h.entries.trans ?_, fun id hid => ?_, ?_⟩
  · rw [add_entries]
    exact List.prefix_append _ _
  · rw [getElem?_segments_add, if_neg (by omega), h.earlier id hid]
  · obtain ⟨more, hhead⟩ := h.head
    rw [getElem?_segments_add]
    split
    · next heq =>
        -- the segment that was the head is still the head
        have hfits : packing'.Fits cap item.length := by
          by_contra hfull
          rw [rotated, if_neg hfull] at heq
          simp only [List.length_append, List.length_singleton] at heq
          omega
        rw [rotated, if_pos hfits] at heq ⊢
        rw [getElem?_segments, if_pos heq, Option.some.injEq] at hhead
        exact ⟨more ++ item, by rw [hhead, List.append_assoc]⟩
    · exact ⟨more, hhead⟩

end Packing

open Packing

theorem begins_packed_append (cap : Nat) (items more : List Bytes) :
    (packed cap items).Begins (packed cap (items ++ more)) := by
  induction more using List.reverseRecOn with
  | nil =>
      rw [List.append_nil]
      exact .refl _
  | append_singleton more item ih =>
      rw [← List.append_assoc, packed_concat]
      exact ih.add cap item

/-- The packing of the first items is the beginning of the packing of all. -/
theorem begins_packed_take (cap : Nat) (items : List Bytes) (n : Nat) :
    (packed cap (items.take n)).Begins (packed cap items) := by
  have h := begins_packed_append cap (items.take n) (items.drop n)
  rwa [List.take_append_drop] at h

/-! ### The entries of a packing -/

theorem length_entries_packed (cap : Nat) (items : List Bytes) :
    (packed cap items).entries.length = items.length + 1 := by
  induction items using List.reverseRecOn with
  | nil => rfl
  | append_singleton items item ih =>
      rw [packed_concat, add_entries, List.length_append, ih, List.length_append]
      rfl

theorem entries_packed_take {n : Nat} (h : n ≤ items.length) :
    (packed cap (items.take n)).entries = (packed cap items).entries.take (n + 1) := by
  have hbegins := (begins_packed_take cap items n).entries
  rw [List.prefix_iff_eq_take, length_entries_packed, List.length_take, Nat.min_eq_left h]
    at hbegins
  exact hbegins

theorem lastOf_entries_packed (cap : Nat) (items : List Bytes) :
    lastOf (packed cap items).entries =
      ⟨.ofNat (packed cap items).full.length, .ofNat (packed cap items).head.length⟩ := by
  induction items using List.reverseRecOn with
  | nil => rfl
  | append_singleton items item _ =>
      rw [packed_concat, add_entries, lastOf_concat, add_full]
      rw [add, push, List.length_append]

theorem segment_le_of_mem_packed {entry : IndexEntry}
    (h : entry ∈ (packed cap items).entries) :
    entry.segment.toNat ≤ (packed cap items).full.length := by
  induction items using List.reverseRecOn with
  | nil =>
      rw [List.mem_singleton.1 h]
      exact Nat.zero_le _
  | append_singleton items item ih =>
      rw [packed_concat] at h ⊢
      rw [add_entries] at h
      rcases List.mem_append.1 h with h | h
      · exact Nat.le_trans (ih h) (length_full_le_rotated _ _ _)
      · rw [List.mem_singleton.1 h, add_full, UInt32.toNat_ofNat']
        exact Nat.mod_le _ _

/-! ### Items that can be packed -/

/-- No item is too long for the offsets of an index, and there are ids for all segments. -/
structure IsPackable (cap : Nat) (items : List Bytes) : Prop where
  short : ∀ item ∈ items, item.length < offsetLimit
  enough : (packed cap items).full.length ≤ lastSegmentId

theorem isPackable_nil (cap : Nat) : IsPackable cap [] :=
  ⟨by simp, Nat.zero_le _⟩

theorem IsPackable.take (h : IsPackable cap items) (n : Nat) : IsPackable cap (items.take n) where
  short item hitem := h.short item (List.mem_of_mem_take hitem)
  enough := Nat.le_trans (begins_packed_take cap items n).length_full_le h.enough

theorem IsPackable.head_lt (h : IsPackable cap items) :
    (packed cap items).head.length < offsetLimit := by
  obtain ⟨hshort, -⟩ := h
  induction items using List.reverseRecOn with
  | nil => exact (by decide : 0 < offsetLimit)
  | append_singleton items item ih =>
      rw [packed_concat, add, push, List.length_append, rotated]
      split
      · next hfits => exact hfits.1
      · simpa using hshort item (by simp)

theorem IsPackable.lastOf_segment (h : IsPackable cap items) :
    (lastOf (packed cap items).entries).segment.toNat = (packed cap items).full.length := by
  have hle : (packed cap items).full.length ≤ 65535 := h.enough
  rw [lastOf_entries_packed, UInt32.toNat_ofNat']
  exact Nat.mod_eq_of_lt (by omega)

theorem IsPackable.lastOf_offset (h : IsPackable cap items) :
    (lastOf (packed cap items).entries).offset.toNat = (packed cap items).head.length := by
  rw [lastOf_entries_packed, UInt32.toNat_ofNat']
  exact Nat.mod_eq_of_lt h.head_lt

theorem IsPackable.isStorable (h : IsPackable cap items) :
    ∀ entry ∈ (packed cap items).entries, entry.IsStorable := fun _ hmem =>
  Nat.le_trans (segment_le_of_mem_packed hmem) h.enough

/-! ### Files in the packed form -/

/-- The files of a table are the packed form of these items. -/
structure IsPacked (folder : Folder) (name : String) (cap : Nat) (items : List Bytes) : Prop where
  packable : IsPackable cap items
  index : folder (indexFileName name) = some (encodeAll (packed cap items).entries)
  segment : ∀ id, folder (segmentFileName name id) = (packed cap items).segments[id]?

variable {folder folder' : Folder} {name : String} {entries : List IndexEntry} {table : Table}
  {files : FileSystem} {place : Location} {root : Path}

/-- A table without items, and without segments above the first one. -/
theorem isPacked_nil (h : Whole folder name [.sentinel])
    (hothers : ∀ id, 0 < id → folder (segmentFileName name id) = none) (cap : Nat) :
    IsPacked folder name cap [] where
  packable := isPackable_nil cap
  index := h.index
  segment id := by
    cases id with
    | zero =>
        obtain ⟨content, hcontent⟩ := Option.ne_none_iff_exists'.1 h.headThere
        have hlength := h.headLength
        rw [segmentBytes, hcontent, Option.getD_some] at hlength
        rw [List.length_eq_zero_iff.1 hlength] at hcontent
        exact hcontent
    | succ id => exact hothers _ (Nat.succ_pos id)

namespace IsPacked

theorem congr (h : IsPacked folder name cap items) (hsame : SameFiles folder folder' name) :
    IsPacked folder' name cap items :=
  ⟨h.packable, hsame.index.trans h.index, fun id => (hsame.segment id).trans (h.segment id)⟩

/-- Two tables that are the packed form of the same items have the same files. -/
theorem sameFiles (h : IsPacked folder name cap items) (h' : IsPacked folder' name cap items) :
    SameFiles folder folder' name :=
  ⟨h'.index.trans h.index.symm, fun id => (h'.segment id).trans (h.segment id).symm⟩

/-- The entries of a table at rest are those of the packing. -/
theorem entries_eq (h : IsPacked folder name cap items) (hwhole : Whole folder name entries) :
    entries = (packed cap items).entries := by
  have hne : (packed cap items).entries ≠ [] := by
    refine List.ne_nil_of_length_pos ?_
    rw [length_entries_packed]
    exact Nat.succ_pos _
  rw [← written_of_index hwhole.ne_nil hwhole.storable hwhole.index,
    written_of_index hne h.packable.isStorable h.index]

section appending

variable (h : IsPacked (files.folder place) name cap items)
  (hwhole : Whole (files.folder place) name entries)
  (htable : table = opened files place root name cap entries)
include h hwhole htable

/-- An item goes where it is packed. -/
theorem slot_eq (len : Nat) :
    table.slot len = (((packed cap items).rotated cap len).full.length,
        ((packed cap items).rotated cap len).head.length) ∧
      baseOf (files.folder place) table len = ((packed cap items).rotated cap len).head := by
  obtain rfl := h.entries_eq hwhole
  have hhead : table.headId = (packed cap items).full.length := by
    rw [htable, opened_headId, h.packable.lastOf_segment]
  have hbytes : segmentBytes (files.folder place) table.name table.headId =
      (packed cap items).head := by
    rw [hhead, htable, opened_name, segmentBytes, h.segment, getElem?_segments, if_pos rfl,
      Option.getD_some]
  have hlength : table.headBytes = (packed cap items).head.length := by
    rw [← hbytes, htable, opened_headBytes, opened_name, opened_headId]
  have hcap : table.cap = cap := by rw [htable, opened_cap]
  have hfits : table.overflows len = true ↔ ¬(packed cap items).Fits cap len := by
    unfold overflows Fits
    rw [hlength, hcap, Bool.or_eq_true, decide_eq_true_eq, decide_eq_true_eq]
    omega
  unfold slot baseOf rotated
  by_cases hover : (packed cap items).Fits cap len
  · rw [if_neg (not_not.2 hover ∘ hfits.1), if_neg (not_not.2 hover ∘ hfits.1), if_pos hover,
      hbytes, hhead, hlength]
    exact ⟨rfl, rfl⟩
  · rw [if_pos (hfits.2 hover), if_pos (hfits.2 hover), if_neg hover, hhead]
    simp

/-- There is a place for an item just if it can be packed with the others. -/
theorem hasRoom_iff (item : Bytes) :
    table.HasRoom item.length ↔ IsPackable cap (items ++ [item]) := by
  have hslot : (table.slot item.length).1 =
      ((packed cap items).rotated cap item.length).full.length := by
    rw [(h.slot_eq hwhole htable item.length).1]
  have hhead : table.headId ≤ lastSegmentId := by
    rw [htable, opened_headId]
    exact hwhole.head_le
  constructor
  · intro hroom
    refine ⟨fun other hother => ?_, ?_⟩
    · rcases List.mem_append.1 hother with hother | hother
      · exact h.packable.short other hother
      · rw [List.mem_singleton.1 hother]
        exact hroom.1
    · rw [packed_concat, add_full, ← hslot]
      exact hroom.slot_le hhead
  · intro hpackable
    refine ⟨hpackable.short item (by simp), fun hover => ?_⟩
    have henough := hpackable.enough
    rw [packed_concat, add_full, ← hslot, slot, if_pos hover] at henough
    exact henough

/-- After an append the files are the packed form again. -/
theorem appending (hroom : table.HasRoom item.length) :
    IsPacked ((files.folder place).after (Table.appending (files.folder place) table item)) name
      cap (items ++ [item]) := by
  obtain ⟨hslot, hbase⟩ := h.slot_eq hwhole htable item.length
  refine ⟨(h.hasRoom_iff hwhole htable item).1 hroom, ?_, fun id => ?_⟩
  · rw [(after_appending htable hwhole.indexed item).2, Function.update_self, packed_concat, add_entries,
      entryFor, hslot, h.entries_eq hwhole]
  · rw [(after_appending htable hwhole.indexed item).2,
      Function.update_of_ne (Ne.symm (indexFileName_ne_segmentFileName _ _ _)), packed_concat,
      getElem?_segments_add, hslot, hbase]
    by_cases hid : id = ((packed cap items).rotated cap item.length).full.length
    · rw [if_pos hid, hid, Function.update_self]
    · rw [if_neg hid, Function.update_of_ne (segmentFileName_ne hid),
        h.segment]

end appending

/-- After a cut the files are the packed form again. -/
theorem cutting (h : IsPacked folder name cap items) (hwhole : Whole folder name entries) {n : Nat}
    (hn : n < items.length) :
    IsPacked (folder.after (Table.cutting name entries n)) name cap (items.take n) := by
  have hbegins := begins_packed_take cap items n
  have hpackable := h.packable.take n
  obtain rfl := h.entries_eq hwhole
  have hlong : n + 1 < (packed cap items).entries.length := by
    rw [length_entries_packed]
    omega
  have htake := @entries_packed_take cap items n (Nat.le_of_lt hn)
  refine ⟨hpackable, ?_, fun id => ?_⟩
  · rw [(hwhole.cutting hlong).1.index, htake]
  · rw [after_cutting_segment, ← htake, hpackable.lastOf_segment, hpackable.lastOf_offset,
      h.packable.lastOf_segment, h.segment]
    by_cases hid : id = (packed cap (items.take n)).full.length
    · obtain ⟨more, hhead⟩ := hbegins.head
      rw [if_pos hid, hid, hhead, getElem?_segments, if_pos rfl, Option.map_some,
        Bytes.resize_of_le (by simp), List.take_left]
    · rw [if_neg hid]
      rcases Nat.lt_or_gt_of_ne hid with hlt | hgt
      · rw [if_neg (by omega), hbegins.earlier id hlt]
      · rw [getElem?_segments_of_lt hgt]
        split
        · rfl
        · exact getElem?_segments_of_lt (by omega)

end IsPacked

end BlockArchive.Table
