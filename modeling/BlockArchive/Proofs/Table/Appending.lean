import BlockArchive.Proofs.Interruption
import BlockArchive.Proofs.Table.Intact
import BlockArchive.Table.Appending

/-! # Appending to a table at rest

* **Where an item goes.** `slot` is the segment and the byte at which the next item starts, and
  `entryFor` the entry that bounds it.
* **Pure form.** `appending` lists the changes of an append; `after_appending` says what the folder
  holds then, and `Indexed.appending` that the table is intact then, with one item more.  Bytes that
  the head has behind the last item come to be a part of it; a table at rest has none
  (`Whole.appending`).
* **Cut short.** `AppendCut` is what a crash leaves of an append: a repair keeps all of the item or
  nothing of it (`AppendCut.recovers`, `Whole.appendCut_of_cutShort`).
* **Run.** Behind the rotation, `writeItem` is what is left to do (`outcome_append_next`).
  `outcome_append_ok` says that `append` makes just these changes, and
  `outcome_append_error` when it refuses, without any change. -/

namespace BlockArchive.Table

open IndexEntry

/-- The segment and the byte at which an item of `len` bytes would start. -/
def slot (table : Table) (len : Nat) : Nat × Nat :=
  if table.overflows len then (table.headId + 1, 0) else (table.headId, table.headBytes)

/-- The entry that would bound an item of `len` bytes. -/
def entryFor (table : Table) (len : Nat) : IndexEntry :=
  ⟨.ofNat (table.slot len).1, .ofNat ((table.slot len).2 + len)⟩

/-- Whether there is a place for an item of `len` bytes. -/
def HasRoom (table : Table) (len : Nat) : Prop :=
  len < offsetLimit ∧ (table.overflows len = true → table.headId < lastSegmentId)

/-- Why there is no place for an item of `len` bytes. -/
def refusal (table : Table) (len : Nat) : Error :=
  if offsetLimit ≤ len then .itemTooLarge len else .segmentsExhausted table.name

/-- The changes with which a head for an item of `len` bytes is begun, if one has to be. -/
def rotating (folder : Folder) (table : Table) (len : Nat) : List Change :=
  if table.overflows len then folder.renewing (segmentFileName table.name (table.headId + 1))
  else []

/-- The changes of an append. -/
def appending (folder : Folder) (table : Table) (blob : Bytes) : List Change :=
  rotating folder table blob.length ++
  (Folder.writing (segmentFileName table.name (table.slot blob.length).1)
      (table.slot blob.length).2 blob ++
    Folder.writing (indexFileName table.name)
      (position (table.items - table.itemOffset + 1)) (table.entryFor blob.length).encode)

section slot

variable {table : Table} {len : Nat}

theorem HasRoom.slot_le (h : table.HasRoom len) (hhead : table.headId ≤ lastSegmentId) :
    (table.slot len).1 ≤ lastSegmentId := by
  unfold slot
  split
  · exact h.2 ‹_›
  · exact hhead

theorem HasRoom.slot_add_lt (h : table.HasRoom len) : (table.slot len).2 + len < offsetLimit := by
  unfold slot
  split
  · simpa using h.1
  · next hover =>
    simp only [overflows, Bool.or_eq_true, decide_eq_true_eq, not_or] at hover
    exact Nat.lt_of_not_le hover.1

theorem HasRoom.entryFor_segment (h : table.HasRoom len) (hhead : table.headId ≤ lastSegmentId) :
    (table.entryFor len).segment.toNat = (table.slot len).1 := by
  have hle : (table.slot len).1 ≤ 65535 := h.slot_le hhead
  have hlt : (table.slot len).1 < 2 ^ 32 := by omega
  change (UInt32.ofNat (table.slot len).1).toNat = _
  rw [UInt32.toNat_ofNat', Nat.mod_eq_of_lt hlt]

theorem HasRoom.entryFor_offset (h : table.HasRoom len) :
    (table.entryFor len).offset.toNat = (table.slot len).2 + len := by
  have hlt : (table.slot len).2 + len < 2 ^ 32 := h.slot_add_lt
  change (UInt32.ofNat ((table.slot len).2 + len)).toNat = _
  rw [UInt32.toNat_ofNat', Nat.mod_eq_of_lt hlt]

end slot

variable {names : String → Prop} {place : Location} {root : Path} {name : String} {cap : Nat}
  {entries : List IndexEntry} {disk : Disk} {blob : Bytes}

/-! ### What the folder holds then -/

theorem name_of_mem_rotating {folder : Folder} {table : Table} {len : Nat} {change : Change}
    (h : change ∈ rotating folder table len) :
    change.name = segmentFileName table.name (table.slot len).1 ∧ table.overflows len = true := by
  unfold rotating at h
  split at h
  · next hover =>
    rw [Folder.name_of_mem_renewing h]
    simp [slot, hover]
  · simp at h

theorem name_of_mem_appending {folder : Folder} {table : Table} {change : Change}
    (h : change ∈ appending folder table blob) :
    change.name = indexFileName table.name ∨
      change.name = segmentFileName table.name (table.slot blob.length).1 := by
  unfold appending at h
  rcases List.mem_append.1 h with h | h
  · exact .inr (name_of_mem_rotating h).1
  · rcases List.mem_append.1 h with h | h
    · exact .inr (Folder.name_of_mem_writing h)
    · exact .inl (Folder.name_of_mem_writing h)

theorem headId_le_slot (table : Table) (len : Nat) : table.headId ≤ (table.slot len).1 := by
  unfold slot
  split
  · exact Nat.le_succ _
  · exact Nat.le_refl _

theorem isFileWithin_of_mem_appending {folder : Folder} {table : Table} {change : Change}
    (h : change ∈ appending folder table blob) :
    IsFileWithin table.name table.headId (table.slot blob.length).1 change.name := by
  rcases name_of_mem_appending h with h | h
  · exact h ▸ isFileWithin_index _ _ _
  · exact h ▸ isFileWithin_segment _ (headId_le_slot _ _) (Nat.le_refl _)

/-- The bytes that the target of an append holds before: those of the head, or none. -/
def baseOf (folder : Folder) (table : Table) (len : Nat) : Bytes :=
  if table.overflows len then [] else segmentBytes folder table.name table.headId

section target

variable {files : FileSystem} {folder : Folder} {table : Table}
  (htable : table = opened files place root name cap entries)
include htable

theorem length_baseOf (len : Nat) :
    (baseOf (files.folder place) table len).length = (table.slot len).2 := by
  subst htable
  unfold baseOf slot
  split <;> rfl

theorem after_rotating (h : Indexed (files.folder place) name entries) (len : Nat) :
    (files.folder place).Fits (rotating (files.folder place) table len) ∧
      (files.folder place).after (rotating (files.folder place) table len) =
        Function.update (files.folder place) (segmentFileName name (table.slot len).1)
          (some (baseOf (files.folder place) table len)) := by
  have hname : table.name = name := by rw [htable, opened_name]
  by_cases hover : table.overflows len = true
  · simp only [rotating, hover, if_true, slot, baseOf, hname]
    exact ⟨Folder.fits_renewing, Folder.after_renewing _ _⟩
  · simp only [rotating, hover, slot, baseOf]
    refine ⟨trivial, ?_⟩
    obtain ⟨content, hcontent⟩ := Option.ne_none_iff_exists'.1 h.headThere
    have hsame : some (segmentBytes (files.folder place) name (lastOf entries).segment.toNat) =
        files.folder place (segmentFileName name (lastOf entries).segment.toNat) := by
      rw [segmentBytes, hcontent, Option.getD_some]
    simp only [Bool.false_eq_true, if_false, htable, opened_headId, opened_name, hsame,
      Function.update_eq_self, Folder.after_nil]

theorem after_rotating_writing (h : Indexed (files.folder place) name entries) (len : Nat)
    (data form : Bytes) :
    (files.folder place).Fits (rotating (files.folder place) table len ++
        (Folder.writing (segmentFileName table.name (table.slot len).1) (table.slot len).2 data ++
          Folder.writing (indexFileName table.name)
            (position (table.items - table.itemOffset + 1)) form)) ∧
      (files.folder place).after (rotating (files.folder place) table len ++
        (Folder.writing (segmentFileName table.name (table.slot len).1) (table.slot len).2 data ++
          Folder.writing (indexFileName table.name)
            (position (table.items - table.itemOffset + 1)) form)) =
        Function.update
          (Function.update (files.folder place) (segmentFileName name (table.slot len).1)
            (some (baseOf (files.folder place) table len ++ data)))
          (indexFileName name) (some (encodeAll entries ++ form)) := by
  have hname : table.name = name := by rw [htable, opened_name]
  have hpos : position (table.items - table.itemOffset + 1) = (encodeAll entries).length := by
    have hlen := List.length_pos_iff.2 h.ne_nil
    have hcount : table.items - table.itemOffset + 1 = entries.length := by
      simp only [htable, opened_items, opened_itemOffset]
      omega
    rw [hcount, length_encodeAll, position, Nat.mul_comm]
  obtain ⟨hfits, hbase⟩ := after_rotating htable h len
  have hne : indexFileName name ≠ segmentFileName name (table.slot len).1 :=
    indexFileName_ne_segmentFileName _ _ _
  have hlen := length_baseOf htable len
  rw [Folder.Fits, Folder.each_append, Folder.each_append, Folder.after_append,
    Folder.after_append, hbase, Folder.after_writing, Folder.after_writing, hname]
  refine ⟨⟨hfits, Folder.fits_writing ?_ _ _, Folder.fits_writing ?_ _ _⟩, ?_⟩
  · simp
  · simp [hne, h.index]
  · simp only [Function.update_self, Option.map_some, Function.update_idem,
      Function.update_of_ne hne, h.index]
    rw [← hlen, Bytes.overwrite_length, hpos, Bytes.overwrite_length]

/-- The target of an append gets the item at its end, and the index gets the entry. -/
theorem after_appending (h : Indexed (files.folder place) name entries) (blob : Bytes) :
    (files.folder place).Fits (appending (files.folder place) table blob) ∧
      (files.folder place).after (appending (files.folder place) table blob) =
        Function.update
          (Function.update (files.folder place)
            (segmentFileName name (table.slot blob.length).1)
            (some (baseOf (files.folder place) table blob.length ++ blob)))
          (indexFileName name)
          (some (encodeAll (entries ++ [table.entryFor blob.length]))) := by
  rw [encodeAll_append, encodeAll_singleton]
  exact after_rotating_writing htable h blob.length blob _

theorem slot_eq (len : Nat) :
    table.overflows len = false ∧ table.slot len = (table.headId, table.headBytes) ∧
        baseOf (files.folder place) table len =
          segmentBytes (files.folder place) name (lastOf entries).segment.toNat ∨
      table.overflows len = true ∧ table.slot len = (table.headId + 1, 0) ∧
        baseOf (files.folder place) table len = [] := by
  subst htable
  cases hover : (opened files place root name cap entries).overflows len with
  | false => exact .inl ⟨rfl, by simp [slot, hover], by simp [baseOf, hover]⟩
  | true => exact .inr ⟨rfl, by simp [slot, hover], by simp [baseOf, hover]⟩

theorem Indexed.agrees_appending (h : Indexed (files.folder place) name entries) {len : Nat}
    (hothers : ∀ id ≤ lastSegmentId, id ≠ (table.slot len).1 →
      folder (segmentFileName name id) = files.folder place (segmentFileName name id))
    (htarget : table.overflows len = false →
      baseOf (files.folder place) table len <+: segmentBytes folder name (table.slot len).1) :
    Agrees (files.folder place) folder name (grounded entries) := by
  have hhead := h.head_le
  have hend := h.end_le
  rcases slot_eq htable len with ⟨hover, hslot, hbase⟩ | ⟨-, hslot, -⟩
  · subst htable
    rw [hslot] at hothers htarget
    obtain ⟨more, hmore⟩ := htarget hover
    rw [hbase] at hmore
    simp only [opened_headId] at hothers hmore
    refine ⟨fun id _ hlt => ?_, ?_⟩
    · rw [lastOf_grounded_segment] at hlt
      exact hothers id (by omega) (Nat.ne_of_lt hlt)
    · rw [lastOf_grounded_segment, ← hmore, List.take_append_of_le_length hend]
  · subst htable
    rw [hslot] at hothers
    simp only [opened_headId] at hothers
    refine ⟨fun id _ hlt => ?_, ?_⟩
    · rw [lastOf_grounded_segment] at hlt
      exact hothers id (by omega) (by omega)
    · unfold segmentBytes
      rw [lastOf_grounded_segment, hothers _ hhead (by omega)]

theorem Whole.agrees_appending (h : Whole (files.folder place) name entries) {len : Nat}
    (hothers : ∀ id ≤ lastSegmentId, id ≠ (table.slot len).1 →
      folder (segmentFileName name id) = files.folder place (segmentFileName name id))
    (htarget : table.overflows len = false →
      baseOf (files.folder place) table len <+: segmentBytes folder name (table.slot len).1) :
    Agrees (files.folder place) folder name entries := by
  have hagree := h.indexed.agrees_appending htable hothers htarget
  rwa [grounded_eq_self h.unpruned] at hagree

theorem Indexed.start_appending (h : Indexed (files.folder place) name entries) {len : Nat}
    (hroom : table.HasRoom len) :
    (lastOf (grounded entries)).Precedes (table.entryFor len) ∧
      (baseOf (files.folder place) table len).drop
          (Extent.between (lastOf (grounded entries)) (table.entryFor len)).start =
        (if table.overflows len then [] else leftIn (files.folder place) name entries) ∧
      (Extent.between (lastOf (grounded entries)) (table.entryFor len)).start ≤
        (baseOf (files.folder place) table len).length := by
  have hhead : table.headId = (lastOf entries).segment.toNat := by rw [htable, opened_headId]
  have hsegment := hroom.entryFor_segment (hhead ▸ h.head_le)
  have hoffset := hroom.entryFor_offset
  have hend := h.end_le
  have hlength := length_baseOf htable len
  rw [← lastOf_grounded_segment] at hhead
  rcases slot_eq htable len with ⟨hover, hslot, hbase⟩ | ⟨hover, hslot, hbase⟩
  · rw [hslot] at hsegment hoffset hlength
    have hsame : (lastOf (grounded entries)).segment = (table.entryFor len).segment :=
      UInt32.toNat_inj.1 (hhead.symm.trans hsegment.symm)
    have hstart : (Extent.between (lastOf (grounded entries)) (table.entryFor len)).start =
        (lastOf (grounded entries)).offset.toNat := by
      rw [Extent.between, if_pos hsame]
    rw [hbase] at hlength
    rw [hstart, hbase, hover]
    exact ⟨.inr ⟨hsame, by omega⟩, rfl, hend⟩
  · rw [hslot] at hsegment
    have hne : (lastOf (grounded entries)).segment ≠ (table.entryFor len).segment := by
      intro heq
      rw [← heq, ← hhead] at hsegment
      exact absurd hsegment (Nat.ne_of_lt (Nat.lt_succ_self _))
    have hstart : (Extent.between (lastOf (grounded entries)) (table.entryFor len)).start = 0 := by
      rw [Extent.between, if_neg hne]
    rw [hstart, hbase, hover]
    refine ⟨.inl ?_, rfl, Nat.zero_le _⟩
    rw [← hhead, hsegment]
    exact Nat.lt_succ_self _

theorem Indexed.backed_appending (h : Indexed (files.folder place) name entries) {blob : Bytes}
    (hroom : table.HasRoom blob.length)
    (hothers : ∀ id ≤ lastSegmentId, id ≠ (table.slot blob.length).1 →
      folder (segmentFileName name id) = files.folder place (segmentFileName name id))
    (htarget : segmentBytes folder name (table.slot blob.length).1 =
      baseOf (files.folder place) table blob.length ++ blob) :
    Backed folder name (grounded entries ++ [table.entryFor blob.length]) ∧
      storedItems folder name (grounded entries ++ [table.entryFor blob.length]) =
        storedItems (files.folder place) name entries ++
          [(if table.overflows blob.length then [] else leftIn (files.folder place) name entries) ++
            blob] := by
  have hagree := h.agrees_appending htable hothers fun _ => by
    rw [htarget]
    exact List.prefix_append _ _
  have hhead : table.headId = (lastOf entries).segment.toNat := by rw [htable, opened_headId]
  have hheadLe : table.headId ≤ lastSegmentId := hhead ▸ h.head_le
  have hsegment := hroom.entryFor_segment hheadLe
  have hoffset := hroom.entryFor_offset
  have hlength := length_baseOf htable blob.length
  have hbacked := h.backed.of_agrees hagree
  obtain ⟨hprecedes, hdrop, hstart⟩ := h.start_appending htable hroom
  refine ⟨hbacked.concat ?_ hprecedes ?_ ?_, ?_⟩
  · exact Nat.le_trans (Nat.le_of_eq hsegment) (hroom.slot_le hheadLe)
  · rw [hsegment, htarget, hoffset, List.length_append, hlength]
  · -- the only segment from the last entry's to the new one's is the head of before
    intro id hle hlt
    rw [lastOf_grounded_segment, ← hhead] at hle
    rw [hsegment] at hlt
    rcases slot_eq htable blob.length with ⟨-, hslot, -⟩ | ⟨-, hslot, -⟩
    · rw [hslot] at hlt
      omega
    · rw [hslot] at hlt hothers
      obtain rfl : id = table.headId := by
        simp only at hlt
        omega
      rw [hothers _ hheadLe (Nat.ne_of_lt (Nat.lt_succ_self _)), hhead]
      exact h.headThere
  · rw [storedItems_concat h.backed.ne_nil h.backed.unpruned, h.backed.storedItems_eq hagree,
      storedItems_grounded, between]
    congr 2
    change ((segmentBytes folder name (table.entryFor blob.length).segment.toNat).take
      (table.entryFor blob.length).offset.toNat).drop _ = _
    rw [hsegment, htarget, hoffset, ← hlength, List.take_length_add_append, List.take_length,
      List.drop_append_of_le_length hstart, hdrop]

theorem Whole.backed_appending (h : Whole (files.folder place) name entries) {blob : Bytes}
    (hroom : table.HasRoom blob.length)
    (hothers : ∀ id ≤ lastSegmentId, id ≠ (table.slot blob.length).1 →
      folder (segmentFileName name id) = files.folder place (segmentFileName name id))
    (htarget : segmentBytes folder name (table.slot blob.length).1 =
      baseOf (files.folder place) table blob.length ++ blob) :
    Backed folder name (entries ++ [table.entryFor blob.length]) ∧
      storedItems folder name (entries ++ [table.entryFor blob.length]) =
        storedItems (files.folder place) name entries ++ [blob] := by
  have hbacked := h.indexed.backed_appending htable hroom hothers htarget
  rwa [h.leftIn_eq_nil, ite_self, List.nil_append, grounded_eq_self h.unpruned] at hbacked

/-- An append begins one segment at most. -/
theorem Indexed.climbs_appending (h : Indexed (files.folder place) name entries)
    (hclimbs : Climbs entries) {len : Nat} (hroom : table.HasRoom len) :
    Climbs (entries ++ [table.entryFor len]) := by
  have hlt := hclimbs.lastOf_lt h.ne_nil
  have hhead : table.headId = (lastOf entries).segment.toNat := by rw [htable, opened_headId]
  refine hclimbs.concat ?_
  rw [hroom.entryFor_segment (hhead ▸ h.head_le)]
  rcases slot_eq htable len with ⟨-, hslot, -⟩ | ⟨-, hslot, -⟩
  · rw [hslot, hhead]
    exact Nat.le_of_lt hlt
  · rw [hslot, hhead]
    exact hlt

theorem Indexed.lastSegmentId_le (h : Indexed (files.folder place) name entries)
    (hclimbs : Climbs entries) {len : Nat} (hlen : len < offsetLimit) (hroom : ¬table.HasRoom len) :
    lastSegmentId ≤ entries.length - 1 := by
  have hlt := hclimbs.lastOf_lt h.ne_nil
  have hhead : table.headId = (lastOf entries).segment.toNat := by rw [htable, opened_headId]
  unfold HasRoom at hroom
  simp only [not_and, Classical.not_imp, Nat.not_lt] at hroom
  obtain ⟨-, hlast⟩ := hroom hlen
  omega

/-- After an append a table is intact, with one item more. -/
theorem Indexed.appending (h : Indexed (files.folder place) name entries) {blob : Bytes}
    (hroom : table.HasRoom blob.length) :
    Intact ((files.folder place).after (Table.appending (files.folder place) table blob)) name
        (entries ++ [table.entryFor blob.length]) ∧
      storedItems ((files.folder place).after (Table.appending (files.folder place) table blob))
          name (entries ++ [table.entryFor blob.length]) =
        storedItems (files.folder place) name entries ++
          [(if table.overflows blob.length then [] else leftIn (files.folder place) name entries) ++
            blob] := by
  have hhead : table.headId ≤ lastSegmentId := by
    subst htable
    exact h.head_le
  have hne : segmentFileName name (table.slot blob.length).1 ≠ indexFileName name :=
    Ne.symm (indexFileName_ne_segmentFileName _ _ _)
  rw [(after_appending htable h blob).2]
  generalize hafter : Function.update (Function.update (files.folder place) _ _) _ _ = folder
  have htarget : folder (segmentFileName name (table.slot blob.length).1) =
      some (baseOf (files.folder place) table blob.length ++ blob) := by
    rw [← hafter, Function.update_of_ne hne, Function.update_self]
  have hbytes : segmentBytes folder name (table.slot blob.length).1 =
      baseOf (files.folder place) table blob.length ++ blob := by
    rw [segmentBytes, htarget, Option.getD_some]
  have hothers : ∀ id ≤ lastSegmentId, id ≠ (table.slot blob.length).1 →
      folder (segmentFileName name id) = files.folder place (segmentFileName name id) := by
    intro id _ hid
    rw [← hafter, Function.update_of_ne (Ne.symm (indexFileName_ne_segmentFileName _ _ _)),
      Function.update_of_ne (segmentFileName_ne hid)]
  obtain ⟨hbacked, hitems⟩ := h.backed_appending htable hroom hothers hbytes
  rw [← grounded_concat h.ne_nil] at hbacked hitems
  rw [storedItems_grounded] at hitems
  refine ⟨⟨⟨?_, ?_, ?_⟩, hbacked⟩, hitems⟩
  · rw [← hafter, Function.update_self]
  · rw [lastOf_concat, hroom.entryFor_segment hhead, htarget]
    simp
  · rw [lastOf_concat, hroom.entryFor_segment hhead, hbytes, hroom.entryFor_offset,
      List.length_append, length_baseOf htable]

/-- After an append a table is at rest again, with the item at its end. -/
theorem Whole.appending (h : Whole (files.folder place) name entries) {blob : Bytes}
    (hroom : table.HasRoom blob.length) :
    Whole ((files.folder place).after (Table.appending (files.folder place) table blob)) name
        (entries ++ [table.entryFor blob.length]) ∧
      storedItems ((files.folder place).after (Table.appending (files.folder place) table blob))
          name (entries ++ [table.entryFor blob.length]) =
        storedItems (files.folder place) name entries ++ [blob] := by
  obtain ⟨hintact, hitems⟩ := h.indexed.appending htable hroom
  rw [h.leftIn_eq_nil, ite_self, List.nil_append] at hitems
  exact ⟨hintact.whole (by rw [firstOf_append h.ne_nil, h.unpruned]), hitems⟩

/-! ### Appends that were cut short -/

/-- What a crash leaves of the files of a table in the middle of an append: the first `bytes` bytes
of the item behind the base of the target, and the first `part` bytes of the entry behind the index.
A target that had to be begun may also be missing, if it holds none of the item. -/
structure AppendCut (before after : Folder) (table : Table) (blob : Bytes) (bytes part : Nat) :
    Prop where
  index : after (indexFileName table.name) = (before (indexFileName table.name)).map fun data =>
    data ++ (table.entryFor blob.length).encode.take part
  target :
    after (segmentFileName table.name (table.slot blob.length).1) =
        some (baseOf before table blob.length ++ blob.take bytes) ∨
      table.overflows blob.length = true ∧ blob.take bytes = [] ∧
        after (segmentFileName table.name (table.slot blob.length).1) = none
  others : ∀ id ≤ lastSegmentId, id ≠ (table.slot blob.length).1 →
    after (segmentFileName table.name id) = before (segmentFileName table.name id)

theorem Whole.appendCut (h : Whole (files.folder place) name entries) {blob : Bytes}
    {bytes part : Nat}
    (hfolder : folder = Function.update
      (Function.update (files.folder place) (segmentFileName name (table.slot blob.length).1)
        (some (baseOf (files.folder place) table blob.length ++ blob.take bytes)))
      (indexFileName name)
      (some (encodeAll entries ++ (table.entryFor blob.length).encode.take part))) :
    AppendCut (files.folder place) folder table blob bytes part := by
  have hname : table.name = name := by rw [htable, opened_name]
  subst hfolder
  refine ⟨?_, .inl ?_, fun id _ hid => ?_⟩
  · rw [hname, Function.update_self, h.index, Option.map_some]
  · rw [hname, Function.update_of_ne (Ne.symm (indexFileName_ne_segmentFileName _ _ _)),
      Function.update_self]
  · rw [hname, Function.update_of_ne (Ne.symm (indexFileName_ne_segmentFileName _ _ _)),
      Function.update_of_ne (segmentFileName_ne hid)]

/-- The files of an append that was cut short are such as a crash may leave, unless it was cut short
before its first change. -/
theorem Whole.appendCut_of_cutShort (h : Whole (files.folder place) name entries) {blob : Bytes}
    {cut : List Change}
    (hcut : Change.CutShort (Table.appending (files.folder place) table blob) cut) :
    cut = [] ∨ ∃ bytes part,
      AppendCut (files.folder place) ((files.folder place).after cut) table blob bytes part := by
  have hparts := after_rotating_writing htable h.indexed blob.length
  unfold Table.appending at hcut
  rcases Change.cutShort_append hcut with hfirst | ⟨more, hmore, rfl⟩
  · -- before the item there is only the rotation, if there is one
    unfold rotating at hfirst
    split at hfirst
    · next hover =>
      rcases Folder.eq_of_cutShort_renewing hfirst with rfl | rfl
      · exact .inl rfl
      · refine .inr ⟨0, 0, h.appendCut htable ?_⟩
        rw [List.take_zero, List.take_zero, ← (hparts [] []).2]
        simp [rotating, hover, Folder.writing]
    · exact .inl (Change.cutShort_nil.1 hfirst)
  · right
    rcases Change.cutShort_append hmore with hitem | ⟨last, hlast, rfl⟩
    · obtain ⟨bytes, hbytes⟩ := Folder.exists_after_cutShort_writing hitem
        ((files.folder place).after (rotating (files.folder place) table blob.length))
      refine ⟨bytes, 0, h.appendCut htable ?_⟩
      rw [List.take_zero, ← (hparts (blob.take bytes) []).2, Folder.after_append, hbytes,
        ← Folder.after_append]
      simp [Folder.writing]
    · obtain ⟨part, hpart⟩ := Folder.exists_after_cutShort_writing hlast
        (((files.folder place).after (rotating (files.folder place) table blob.length)).after
          (Folder.writing (segmentFileName table.name (table.slot blob.length).1)
            (table.slot blob.length).2 blob))
      refine ⟨blob.length, part, h.appendCut htable ?_⟩
      rw [List.take_length, ← (hparts blob _).2, Folder.after_append, Folder.after_append, hpart,
        ← Folder.after_append, ← Folder.after_append]

/-- Of an append that was cut short a repair keeps the item if all of it and of its entry is there,
and else just the items before. -/
theorem AppendCut.recovers {before after : Folder} {bytes part : Nat}
    (hcut : AppendCut before after table blob bytes part)
    (hbefore : before = files.folder place) (h : Whole before name entries)
    (hroom : table.HasRoom blob.length) :
    (blob.length ≤ bytes ∧ width ≤ part →
      Recovers after name (entries ++ [table.entryFor blob.length]) ∧
        storedItems after name (entries ++ [table.entryFor blob.length]) =
          storedItems before name entries ++ [blob]) ∧
    (¬(blob.length ≤ bytes ∧ width ≤ part) →
      Recovers after name entries ∧
        storedItems after name entries = storedItems before name entries) := by
  subst hbefore
  have hname : table.name = name := by rw [htable, opened_name]
  have hhead : table.headId ≤ lastSegmentId := by
    rw [htable]
    exact h.head_le
  obtain ⟨hindex, htarget, hothers⟩ := hcut
  rw [hname] at hindex htarget hothers
  rw [h.index, Option.map_some] at hindex
  have hentry : (table.entryFor blob.length).IsStorable :=
    Nat.le_trans (Nat.le_of_eq (hroom.entryFor_segment hhead)) (hroom.slot_le hhead)
  have hwritten := written_cut h.ne_nil h.storable hentry hindex
  have hagree := h.agrees_appending htable hothers fun hover => by
    rcases htarget with htarget | ⟨hover', -⟩
    · rw [segmentBytes, htarget]
      exact List.prefix_append _ _
    · rw [hover] at hover'
      simp at hover'
  have hbacked := h.toBacked.of_agrees hagree
  have hreaches := hbacked.reaches _ (lastOf_mem h.ne_nil)
  constructor
  · rintro ⟨hbytes, hpart⟩
    rw [List.take_of_length_le hbytes] at htarget
    rw [if_pos hpart] at hwritten
    have hbytes' : segmentBytes after name (table.slot blob.length).1 =
        baseOf (files.folder place) table blob.length ++ blob := by
      rcases htarget with htarget | ⟨hover, hnil, htarget⟩
      · rw [segmentBytes, htarget, Option.getD_some]
      · rw [segmentBytes, htarget, baseOf, if_pos hover, hnil]
        rfl
    obtain ⟨hbacked', hitems⟩ := h.backed_appending htable hroom hothers hbytes'
    have hreaches' := hbacked'.reaches _ (List.mem_append_right _ (List.mem_singleton_self _))
    refine ⟨⟨hbacked', ?_⟩, hitems⟩
    rw [kept, hwritten]
    refine keep_of_not_dangles ?_
    rw [lastOf_concat]
    simpa [dangles] using hreaches'
  · intro hpartial
    refine ⟨⟨hbacked, ?_⟩, h.toBacked.storedItems_eq hagree⟩
    have hkeep : keep after name entries = entries :=
      keep_of_not_dangles (by simpa [dangles] using hreaches)
    rw [kept, hwritten]
    by_cases hpart : width ≤ part
    · -- the entry is there, but its item is not
      have hbytes : bytes < blob.length := Nat.lt_of_not_le fun hbytes => hpartial ⟨hbytes, hpart⟩
      rw [if_pos hpart, keep_concat_of_dangles h.ne_nil, hkeep]
      rw [dangles, hroom.entryFor_segment hhead, hroom.entryFor_offset, decide_eq_true_eq]
      rcases htarget with htarget | ⟨-, -, htarget⟩
      · rw [segmentBytes, htarget, Option.getD_some, List.length_append, length_baseOf htable,
          List.length_take]
        omega
      · rw [segmentBytes, htarget]
        simp
        omega
    · rw [if_neg hpart, hkeep]

end target

/-- What a crash leaves of a table is told by the files of that table. -/
theorem AppendCut.congr {before after after' : Folder} {table : Table} {bytes part : Nat}
    (h : AppendCut before after table blob bytes part) (hsame : SameFiles after after' table.name) :
    AppendCut before after' table blob bytes part := by
  refine ⟨hsame.index.trans h.index, ?_, fun id hid hne => ?_⟩
  · rw [hsame.segment]
    exact h.target
  · exact (hsame.segment id).trans (h.others id hid hne)

theorem appending_ne_nil (folder : Folder) (table : Table) (blob : Bytes) :
    appending folder table blob ≠ [] := by
  have hentry : (table.entryFor blob.length).encode ≠ [] := List.ne_nil_of_length_pos (by
    rw [length_encode]
    decide)
  simp [appending, Folder.writing, hentry]

theorem appending_congr {before after : Folder} {table : Table}
    (hsame : SameFiles before after table.name) (blob : Bytes) :
    appending after table blob = appending before table blob := by
  unfold appending rotating Folder.renewing
  rw [hsame.segment]

/-! ### What an append does -/

/-- The part of an append in which the item and its entry are written. -/
def writeItem (index : Handle) (item : Nat) (blob : Bytes) : Action (Table × Disk) Unit := do
  let table ← Attempt.current
  let head ← openSegment table.headId
  let stop := table.headBytes + blob.length
  if offsetLimit ≤ stop then throw (.itemTooLarge blob.length)
  Attempt.onSecond (head.write table.headBytes blob)
  let entry : IndexEntry := ⟨.ofNat table.headId, .ofNat stop⟩
  Attempt.onSecond (index.write (position (item - table.itemOffset + 1)) entry.encode)
  Attempt.update fun table => { table with headBytes := stop, items := table.items + 1 }

section parts

variable {table : Table} {index head : Handle}

theorem lt_of_not_overflows {len : Nat} (h : table.overflows len = false) :
    table.headBytes + len < offsetLimit := by
  simp only [overflows, Bool.or_eq_false_iff, decide_eq_false_iff_not] at h
  omega

/-- A blob that is too large is refused by any table. -/
theorem outcome_append_tooLarge (h : offsetLimit ≤ blob.length) (item : Nat)
    (state : Table × Disk) :
    (append item blob).outcome state = (.error (.itemTooLarge blob.length), state) := by
  unfold append
  rw [if_pos h, Attempt.outcome_bind_error (Attempt.outcome_throw _ _)]

theorem outcome_append_of_closed (h : table.index = none) (hblob : blob.length < offsetLimit)
    (item : Nat) (disk : Disk) :
    (append item blob).outcome (table, disk) = (.error .closed, (table, disk)) := by
  unfold append
  rw [if_neg (Nat.not_le.2 hblob), Attempt.outcome_bind_error (outcome_openIndex_of_closed h disk)]

/-- A blob under another number than the next one is refused. -/
theorem outcome_append_of_ne (hindex : table.index = some index) {item : Nat}
    (hblob : blob.length < offsetLimit) (hitem : item ≠ table.items) (disk : Disk) :
    (append item blob).outcome (table, disk) =
      (.error (.sequence table.items item), (table, disk)) := by
  unfold append
  rw [if_neg (Nat.not_le.2 hblob), Attempt.outcome_bind_ok (outcome_openIndex hindex disk),
    Attempt.outcome_bind_ok (Attempt.outcome_current _ _), if_pos (Ne.symm hitem),
    Attempt.outcome_bind_error (Attempt.outcome_throw _ _)]

/-- An append under the next number begins a head, if it has to, and writes the item. -/
theorem outcome_append_next (hindex : table.index = some index) (hblob : blob.length < offsetLimit)
    (disk : Disk) :
    (append table.items blob).outcome (table, disk) =
      (if table.overflows blob.length = true then
          rotate >>= fun _ => writeItem index table.items blob
        else writeItem index table.items blob).outcome (table, disk) := by
  unfold append
  rw [if_neg (Nat.not_le.2 hblob), Attempt.outcome_bind_ok (outcome_openIndex hindex disk),
    Attempt.outcome_bind_ok (Attempt.outcome_current _ _), if_neg (not_not.2 rfl)]
  rfl

theorem outcome_writeItem (hhead : table.segments.get? table.headId = some head)
    (hroom : table.headBytes + blob.length < offsetLimit) {item : Nat} {disk disk₁ disk₂ : Disk}
    (hdata : (head.write table.headBytes blob).outcome disk = (.ok (), disk₁))
    (hentry : (index.write (position (item - table.itemOffset + 1))
      (⟨.ofNat table.headId, .ofNat (table.headBytes + blob.length)⟩ : IndexEntry).encode).outcome
        disk₁ = (.ok (), disk₂)) :
    (writeItem index item blob).outcome (table, disk) =
      (.ok (), ({ table with
        headBytes := table.headBytes + blob.length
        items := table.items + 1 }, disk₂)) := by
  unfold writeItem
  rw [Attempt.outcome_bind_ok (Attempt.outcome_current _ _),
    Attempt.outcome_bind_ok (outcome_openSegment hhead disk)]
  simp only
  rw [if_neg (Nat.not_le.2 hroom), Attempt.outcome_bind_ok (Attempt.outcome_onSecond_of hdata _),
    Attempt.outcome_bind_ok (Attempt.outcome_onSecond_of hentry _), Attempt.outcome_update]

theorem outcome_append_missing (hindex : table.index ≠ none)
    (hmissing : table.segments.get? table.headId = none)
    (hover : table.overflows blob.length = false) (disk : Disk) :
    (append table.items blob).outcome (table, disk) =
      (.error (.missingSegment table.name table.headId), (table, disk)) := by
  obtain ⟨index, hindex⟩ := Option.ne_none_iff_exists'.1 hindex
  have hroom := lt_of_not_overflows hover
  rw [outcome_append_next hindex (by omega), hover, if_neg (by decide), writeItem,
    Attempt.outcome_bind_ok (Attempt.outcome_current _ _),
    Attempt.outcome_bind_error (outcome_openSegment_missing hmissing disk)]

end parts

section run

variable {table : Table} {disk' : Disk}

theorem after_renewing {file : String} (hhouses : disk.files.Houses names root place)
    (hfile : names file)
    (hdisk' : disk' = disk.after place ((disk.files.folder place).renewing file)) :
    disk'.files.Houses names root place ∧
      disk'.files.folder place = Function.update (disk.files.folder place) file (some []) ∧
      ∀ other ≠ file, disk'.files.number place other = disk.files.number place other := by
  have hrenewed : ∀ change ∈ (disk.files.folder place).renewing file, names change.name := by
    intro change hmem
    rwa [Folder.name_of_mem_renewing hmem]
  obtain ⟨hhouses', hfolder⟩ := Disk.houses_and_folder_after hhouses hrenewed Folder.fits_renewing
  refine ⟨hdisk' ▸ hhouses', ?_, fun other hother => ?_⟩
  · rw [hdisk', hfolder, Folder.after_renewing]
  · rw [hdisk']
    refine Disk.number_after fun change hmem => ?_
    have hne : change.name ≠ other := by
      rw [Folder.name_of_mem_renewing hmem]
      exact Ne.symm hother
    exact ⟨fun heq => hne (heq ▸ rfl), fun heq => hne (heq ▸ rfl)⟩

theorem outcome_rotate (htable : table = opened disk.files place root name cap entries)
    (hhouses : disk.files.Houses names root place)
    (hnames : ∀ file, IsFileWithin name table.headId (table.headId + 1) file → names file)
    (h : Indexed (disk.files.folder place) name entries) (hlast : table.headId < lastSegmentId)
    (hdisk' : disk' = disk.after place
      ((disk.files.folder place).renewing (segmentFileName name (table.headId + 1)))) :
    rotate.outcome (table, disk) =
      (.ok (), (headed disk'.files place table (table.headId + 1) 0, disk')) := by
  have hname : table.name = name := by rw [htable, opened_name]
  have hdir : table.dir = root := by rw [htable, opened_dir]
  have htail : table.tailId ≤ table.headId := by
    rw [htable]
    exact h.tail_le_head
  have hsegments : table.segments =
      openSegments disk.files place name table.tailId table.headId := by
    rw [htable]
    rfl
  have hthere : disk.files.folder place (segmentFileName name table.headId) ≠ none := by
    rw [htable]
    exact h.headThere
  have hnew : names (segmentFileName name (table.headId + 1)) :=
    hnames _ (isFileWithin_segment name (Nat.le_succ _) (Nat.le_refl _))
  have hapart : ∀ id ≤ table.headId,
      segmentFileName name id ≠ segmentFileName name (table.headId + 1) := fun id hid =>
    segmentFileName_ne (Nat.ne_of_lt (Nat.lt_succ_of_le hid))
  obtain ⟨hhouses', hfolder, hnumber⟩ := after_renewing hhouses hnew hdisk'
  have hfresh := Disk.outcome_openFile_fresh hhouses hnew
  rw [← hdisk'] at hfresh
  have hold := Disk.outcome_openFile_readOnly_of_some hhouses'
    (hnames _ (isFileWithin_segment name (Nat.le_refl _) (Nat.le_succ _)))
    (by rwa [hfolder, Function.update_of_ne (hapart _ (Nat.le_refl _))])
  unfold rotate
  rw [Attempt.outcome_bind_ok (Attempt.outcome_current table disk)]
  simp only
  rw [if_neg (Nat.not_lt.2 hlast)]
  rw [Attempt.outcome_bind_ok (outcome_reopenSegment (by rw [segmentPath, hname, hdir, hfresh])),
    Attempt.outcome_bind_ok (outcome_reopenSegment (by
      rw [segmentPath]
      simp only
      rw [hname, hdir, hold])),
    Attempt.outcome_update]
  simp only [headed, hsegments, hname,
    openSegments_rotate htail fun id hid => hnumber _ (hapart id hid)]

theorem number_rotating {file : String} {len : Nat}
    (hfile : table.overflows len = true → file ≠ segmentFileName table.name (table.slot len).1)
    (folder : Folder) :
    (disk.after place (rotating folder table len)).files.number place file =
      disk.files.number place file := by
  refine Disk.number_after fun change hmem => ?_
  obtain ⟨hname, hover⟩ := name_of_mem_rotating hmem
  have hne : change.name ≠ file := by
    rw [hname]
    exact Ne.symm (hfile hover)
  exact ⟨fun heq => hne (heq ▸ rfl), fun heq => hne (heq ▸ rfl)⟩

theorem number_appending {file : String}
    (hfile : table.overflows blob.length = true →
      file ≠ segmentFileName table.name (table.slot blob.length).1) {folder : Folder} :
    (disk.after place (appending folder table blob)).files.number place file =
      disk.files.number place file := by
  rw [appending, Disk.after_append, Disk.after_append, Disk.number_after_writing,
    Disk.number_after_writing, number_rotating hfile]

theorem outcome_rotate_when (htable : table = opened disk.files place root name cap entries)
    (hhouses : disk.files.Houses names root place) {len : Nat}
    (hnames : ∀ file, IsFileWithin name table.headId (table.slot len).1 file → names file)
    (h : Indexed (disk.files.folder place) name entries) (hroom : table.HasRoom len)
    (hdisk' : disk' = disk.after place (rotating (disk.files.folder place) table len)) :
    (table.overflows len = true →
        rotate.outcome (table, disk) =
          (.ok (), (headed disk'.files place table (table.slot len).1 (table.slot len).2, disk'))) ∧
      (¬table.overflows len = true →
        (table, disk) =
          (headed disk'.files place table (table.slot len).1 (table.slot len).2, disk')) := by
  constructor
  · intro hover
    rw [rotating, if_pos hover] at hdisk'
    have hname : table.name = name := by rw [htable, opened_name]
    rw [hname] at hdisk'
    rw [slot, if_pos hover] at hnames ⊢
    rw [outcome_rotate htable hhouses hnames h (hroom.2 hover) hdisk']
  · intro hover
    rw [rotating, if_neg hover, Disk.after_nil] at hdisk'
    rw [slot, if_neg hover, hdisk', headed, htable]
    rfl

theorem houses_and_folder_appending (htable : table = opened disk.files place root name cap entries)
    (hhouses : disk.files.Houses names root place)
    (hnames : ∀ file, IsFileWithin name table.headId (table.slot blob.length).1 file → names file)
    (h : Indexed (disk.files.folder place) name entries)
    (hdisk' : disk' = disk.after place (appending (disk.files.folder place) table blob)) :
    disk'.files.Houses names root place ∧
      disk'.files.folder place =
        (disk.files.folder place).after (appending (disk.files.folder place) table blob) := by
  rw [hdisk']
  refine Disk.houses_and_folder_after hhouses (fun change hmem => hnames _ ?_)
    (after_appending htable h blob).1
  rw [← show table.name = name by rw [htable, opened_name]]
  exact isFileWithin_of_mem_appending hmem

theorem opened_appending (htable : table = opened disk.files place root name cap entries)
    (hhouses : disk.files.Houses names root place)
    (hnames : ∀ file, IsFileWithin name table.headId (table.slot blob.length).1 file → names file)
    (h : Indexed (disk.files.folder place) name entries) (hroom : table.HasRoom blob.length)
    (hdisk' : disk' = disk.after place (appending (disk.files.folder place) table blob)) :
    opened disk'.files place root name cap (entries ++ [table.entryFor blob.length]) =
      { headed disk'.files place table (table.slot blob.length).1
          ((table.slot blob.length).2 + blob.length) with items := table.items + 1 } := by
  have hhead : table.headId ≤ lastSegmentId := by
    rw [htable]
    exact h.head_le
  obtain ⟨-, hfolder⟩ := houses_and_folder_appending htable hhouses hnames h hdisk'
  have hlength := (h.appending htable hroom).1.headLength
  rw [← hfolder, lastOf_concat, hroom.entryFor_segment hhead, hroom.entryFor_offset] at hlength
  have hindex : disk'.files.number place (indexFileName name) =
      disk.files.number place (indexFileName name) := by
    rw [hdisk']
    exact number_appending fun _ => indexFileName_ne_segmentFileName _ _ _
  have hcount := List.length_pos_iff.2 h.ne_nil
  unfold opened headed
  rw [firstOf_append h.ne_nil, lastOf_concat, hroom.entryFor_segment hhead, hlength, hindex]
  subst htable
  simp only [List.length_append, List.length_singleton, opened_items, opened_dir, opened_name,
    opened_cap, opened_tailId, opened_itemOffset, opened_index]
  congr 1
  omega

/-- An append under the next number adds the item. -/
theorem outcome_append_ok (htable : table = opened disk.files place root name cap entries)
    (hhouses : disk.files.Houses names root place)
    (hnames : ∀ file, IsFileWithin name table.headId (table.slot blob.length).1 file → names file)
    (h : Indexed (disk.files.folder place) name entries) (hroom : table.HasRoom blob.length)
    (hdisk' : disk' = disk.after place (appending (disk.files.folder place) table blob)) :
    (append table.items blob).outcome (table, disk) =
      (.ok (), (opened disk'.files place root name cap
        (entries ++ [table.entryFor blob.length]), disk')) := by
  have hindex : table.index = some (.file (disk.files.number place (indexFileName name)) true) := by
    rw [htable, opened_index]
  have hname : table.name = name := by rw [htable, opened_name]
  have htable' := opened_appending htable hhouses hnames h hroom hdisk'
  generalize hdisk₁ : disk.after place
    (rotating (disk.files.folder place) table blob.length) = disk₁
  generalize hstart : headed disk₁.files place table (table.slot blob.length).1
    (table.slot blob.length).2 = start
  obtain ⟨hthen, helse⟩ := outcome_rotate_when htable hhouses hnames h hroom hdisk₁.symm
  rw [hstart] at hthen helse
  have hhead : start.headId = (table.slot blob.length).1 := by rw [← hstart, headed]
  have hbytes : start.headBytes = (table.slot blob.length).2 := by rw [← hstart, headed]
  have hoffset : start.itemOffset = table.itemOffset := by rw [← hstart, headed]
  have hget : start.segments.get? (table.slot blob.length).1 =
      some (.file (disk₁.files.number place
        (segmentFileName table.name (table.slot blob.length).1)) true) := by
    rw [← hstart]
    exact get?_openSegments_head _ _ _ _ _
  -- a rotation does not change the number of the index, and writing changes none
  have hnumber : disk.files.number place (indexFileName name) =
      (disk₁.after place (Folder.writing (segmentFileName table.name (table.slot blob.length).1)
        (table.slot blob.length).2 blob)).files.number place (indexFileName name) := by
    rw [Disk.number_after_writing, ← hdisk₁,
      number_rotating fun _ => indexFileName_ne_segmentFileName _ _ _]
  have hlast : disk' = (disk₁.after place (Folder.writing
      (segmentFileName table.name (table.slot blob.length).1) (table.slot blob.length).2
      blob)).after place (Folder.writing (indexFileName name)
        (position (table.items - table.itemOffset + 1))
        (table.entryFor blob.length).encode) := by
    rw [hdisk', appending, Disk.after_append, Disk.after_append, hdisk₁, hname]
  have hsegments : openSegments disk'.files place table.name table.tailId
      (table.slot blob.length).1 = start.segments := by
    rw [← hstart]
    refine openSegments_congr fun id _ _ => ?_
    rw [hlast, Disk.number_after_writing, Disk.number_after_writing]
  have hwritten : (writeItem (.file (disk.files.number place (indexFileName name)) true) table.items
      blob).outcome (start, disk₁) = (.ok (), ({ start with
        headBytes := start.headBytes + blob.length
        items := start.items + 1 }, disk')) := by
    rw [← hhead] at hget
    refine outcome_writeItem hget (by rw [hbytes]; exact hroom.slot_add_lt)
      (Handle.outcome_write _ _ _ _ _) ?_
    rw [hnumber, hoffset, hhead, hbytes, hlast]
    exact Handle.outcome_write _ _ _ _ _
  rw [outcome_append_next hindex hroom.1]
  refine (Attempt.outcome_ite (fun hover => Attempt.outcome_bind_ok (hthen hover) _) helse).trans ?_
  rw [hwritten, htable', hbytes]
  simp only [headed, hsegments]
  rw [← hstart]
  rfl

/-- Where there is no place for an item, an append refuses it before anything is changed. -/
theorem outcome_append_error {handle : Handle} (hindex : table.index = some handle)
    (hroom : ¬table.HasRoom blob.length) :
    (append table.items blob).outcome (table, disk) =
      (.error (table.refusal blob.length), (table, disk)) := by
  by_cases hlen : offsetLimit ≤ blob.length
  · rw [outcome_append_tooLarge hlen, refusal, if_pos hlen]
  · have hover : table.overflows blob.length = true ∧ lastSegmentId < table.headId + 1 := by
      unfold HasRoom at hroom
      simp only [not_and, Classical.not_imp, Nat.not_lt] at hroom
      obtain ⟨hover, hlast⟩ := hroom (Nat.lt_of_not_le hlen)
      exact ⟨hover, Nat.lt_succ_of_le hlast⟩
    have hrotate : rotate.outcome (table, disk) =
        (.error (.segmentsExhausted table.name), (table, disk)) := by
      unfold rotate
      rw [Attempt.outcome_bind_ok (Attempt.outcome_current table disk)]
      simp only
      rw [if_pos hover.2, Attempt.outcome_bind_error (Attempt.outcome_throw _ _)]
    rw [outcome_append_next hindex (Nat.lt_of_not_le hlen), refusal, if_neg hlen, if_pos hover.1,
      Attempt.outcome_bind_error hrotate]

theorem overflows_of_directory (htable : table = opened disk.files place root name cap entries)
    (h : Indexed (disk.files.folder place) name entries) {len : Nat}
    (hnode : disk.files.node? (place ++ [segmentFileName name (table.slot len).1]) =
      some .directory) : table.overflows len = true := by
  by_contra hover
  rw [slot, if_neg hover, htable, opened_headId] at hnode
  obtain ⟨content, hcontent⟩ := Option.ne_none_iff_exists'.1 h.headThere
  simp [FileSystem.node?_of_folder hcontent] at hnode

theorem outcome_append_obstructed (htable : table = opened disk.files place root name cap entries)
    (hhouses : disk.files.Houses names root place)
    (h : Indexed (disk.files.folder place) name entries) (hroom : table.HasRoom blob.length)
    (hname : FileSystem.IsEntryName (segmentFileName name (table.slot blob.length).1))
    (hfits : root.text.utf8ByteSize +
      (segmentFileName name (table.slot blob.length).1).utf8ByteSize < FileSystem.maxPathBytes)
    (hnode : disk.files.node? (place ++ [segmentFileName name (table.slot blob.length).1]) =
      some .directory) :
    (append table.items blob).outcome (table, disk) =
      (.error (.io .isADirectory), (table, disk)) := by
  have hindex : table.index = some (.file (disk.files.number place (indexFileName name)) true) := by
    rw [htable, opened_index]
  have hover : table.overflows blob.length = true := overflows_of_directory htable h hnode
  rw [slot, if_pos hover] at hname hfits hnode
  have hdir : segmentPath table.dir table.name (table.headId + 1) =
      root.join (segmentFileName name (table.headId + 1)) := by
    rw [segmentPath, htable, opened_dir, opened_name]
  have hclosed : ∀ segment ∈ table.segments, segment.1 ≠ table.headId + 1 := by
    intro segment hmem
    have hle : segment.1 ≤ table.headId := by
      rw [htable, opened_segments] at hmem
      rw [htable, opened_headId]
      exact (le_of_mem_openSegments h.tail_le_head hmem).2
    omega
  have hrotate : rotate.outcome (table, disk) = (.error (.io .isADirectory), (table, disk)) := by
    unfold rotate
    rw [Attempt.outcome_bind_ok (Attempt.outcome_current table disk)]
    simp only
    rw [if_neg (Nat.not_lt.2 (hroom.2 hover)),
      Attempt.outcome_bind_error (outcome_reopenSegment_error hclosed (by
        rw [hdir, Disk.outcome_openFile_of_directory hhouses hname hfits hnode,
          if_neg (by decide)]))]
  rw [outcome_append_next hindex hroom.1, if_pos hover, Attempt.outcome_bind_error hrotate]

end run

end BlockArchive.Table
