import BlockArchive.Proofs.Table.Appending
import BlockArchive.Proofs.Table.Cutting

/-! # What operations leave of a table

Whatever is appended to a table, or cut off its end, the entries that it had and keeps say what they
said before, and their files have the numbers that they had (`Stays`).

* **Steps.** Appending leaves all entries (`stays_appending`), and cutting those that are kept
  (`stays_cutting`).
* **There and back.** A table that is intact before and after with the same entries has the same
  files (`Stays.folder_eq`), and the same table is open on them (`Stays.opened_eq`). -/

namespace BlockArchive.Table

open IndexEntry

/-- What the entries of a table say stays, and so do the numbers of its files. -/
structure Stays (place : Location) (name : String) (entries : List IndexEntry)
    (disk disk' : Disk) : Prop where
  agrees : Agrees (disk.files.folder place) (disk'.files.folder place) name (grounded entries)
  number : ∀ file,
    IsFileWithin name (firstOf entries).segment.toNat (lastOf entries).segment.toNat file →
      disk'.files.number place file = disk.files.number place file

variable {names : String → Prop} {place : Location} {root : Path} {name : String} {cap : Nat}
  {entries : List IndexEntry} {disk disk' disk'' : Disk} {blob : Bytes} {items : Nat}

theorem Untouched.stays (h : Untouched place name disk disk') (entries : List IndexEntry) :
    Stays place name entries disk disk' where
  agrees := h.files.agrees _
  number file hfile := by
    rcases hfile with rfl | ⟨id, -, -, rfl⟩
    · exact h.number _ (.inl rfl)
    · exact h.number _ (.inr ⟨id, rfl⟩)

namespace Stays

theorem trans (h : Stays place name entries disk disk')
    (h' : Stays place name entries disk' disk'') : Stays place name entries disk disk'' :=
  ⟨h.agrees.trans h'.agrees, fun file hfile => (h'.number file hfile).trans (h.number file hfile)⟩

theorem storedItems_eq (h : Stays place name entries disk disk')
    (hintact : Intact (disk.files.folder place) name entries) :
    storedItems (disk'.files.folder place) name entries =
      storedItems (disk.files.folder place) name entries := by
  rw [← storedItems_grounded, hintact.backed.storedItems_eq h.agrees, storedItems_grounded]

section same

variable (h : Stays place name entries disk disk')
  (hintact : Intact (disk.files.folder place) name entries)
  (hintact' : Intact (disk'.files.folder place) name entries)
  (hfirst : (firstOf entries).offset = 0)
include h hintact hintact' hfirst

/-- A table with the same entries as before has the same files. -/
theorem folder_eq {file : String}
    (hfile : IsFileWithin name (firstOf entries).segment.toNat (lastOf entries).segment.toNat
      file) : disk'.files.folder place file = disk.files.folder place file := by
  rcases hfile with rfl | ⟨id, hlow, hhigh, rfl⟩
  · rw [hintact.index, hintact'.index]
  rcases Nat.lt_or_eq_of_le hhigh with hlt | rfl
  · refine h.agrees.history id ?_ ?_
    · rwa [firstOf_grounded_segment]
    · rwa [lastOf_grounded_segment]
  -- both heads end where the last entry says
  obtain ⟨content, hcontent⟩ := Option.ne_none_iff_exists'.1 hintact.headThere
  obtain ⟨content', hcontent'⟩ := Option.ne_none_iff_exists'.1 hintact'.headThere
  have hbytes : segmentBytes (disk.files.folder place) name (lastOf entries).segment.toNat =
      content := by
    rw [segmentBytes, hcontent, Option.getD_some]
  have hbytes' : segmentBytes (disk'.files.folder place) name (lastOf entries).segment.toNat =
      content' := by
    rw [segmentBytes, hcontent', Option.getD_some]
  have hhead := h.agrees.head
  rw [grounded_eq_self hfirst, ← hintact.headLength, List.take_length, hintact.headLength,
    ← hintact'.headLength, List.take_length, hbytes, hbytes'] at hhead
  rw [hcontent, hcontent', hhead]

/-- The same table is open on files that stay. -/
theorem opened_eq (root : Path) (cap : Nat) :
    opened disk'.files place root name cap entries =
      opened disk.files place root name cap entries := by
  have htail := hintact.le_segment (lastOf_mem hintact.ne_nil)
  have hhead := h.folder_eq hintact hintact' hfirst
    (isFileWithin_segment name htail (Nat.le_refl _))
  have hsegments : openSegments disk'.files place name (firstOf entries).segment.toNat
      (lastOf entries).segment.toNat = openSegments disk.files place name
        (firstOf entries).segment.toNat (lastOf entries).segment.toNat := by
    refine openSegments_congr fun id hid hhigh => h.number _ (isFileWithin_segment name ?_ hhigh)
    rcases hid with hid | rfl
    · exact hid
    · exact htail
  unfold opened segmentBytes
  rw [h.number _ (isFileWithin_index _ _ _), hsegments, hhead]

end same

end Stays

/-! ### Steps -/

theorem stays_appending {table : Table}
    (htable : table = opened disk.files place root name cap entries)
    (hhouses : disk.files.Houses names root place)
    (hnames : ∀ file, IsFileWithin name table.headId (table.slot blob.length).1 file → names file)
    (h : Whole (disk.files.folder place) name entries)
    (hdisk' : disk' = disk.after place (appending (disk.files.folder place) table blob)) :
    Stays place name entries disk disk' := by
  have hfolder := (houses_and_folder_appending htable hhouses hnames h.indexed hdisk').2
  rw [(after_appending htable h.indexed blob).2] at hfolder
  have hsegment : ∀ id, id ≠ (table.slot blob.length).1 →
      disk'.files.folder place (segmentFileName name id) =
        disk.files.folder place (segmentFileName name id) := fun id hid => by
    rw [hfolder, Function.update_of_ne (Ne.symm (indexFileName_ne_segmentFileName _ _ _)),
      Function.update_of_ne (segmentFileName_ne hid)]
  have hagree := h.agrees_appending htable (fun id _ => hsegment id) fun _ => by
    rw [segmentBytes, hfolder,
      Function.update_of_ne (Ne.symm (indexFileName_ne_segmentFileName _ _ _)),
      Function.update_self, Option.getD_some]
    exact List.prefix_append _ _
  refine ⟨by rwa [grounded_eq_self h.unpruned], fun file hfile => ?_⟩
  have hname : table.name = name := by rw [htable, opened_name]
  have hhead : table.headId = (lastOf entries).segment.toNat := by rw [htable, opened_headId]
  rw [hdisk']
  refine number_appending fun hover => ?_
  -- a rotation makes a segment behind the head
  rcases hfile with rfl | ⟨id, -, hid, rfl⟩
  · exact indexFileName_ne_segmentFileName _ _ _
  · rw [slot, if_pos hover]
    exact segmentFileName_ne (by omega)

theorem stays_cutting (hhouses : disk.files.Houses names root place)
    (hnames : ∀ file,
      IsFileWithin name (firstOf entries).segment.toNat (lastOf entries).segment.toNat file →
        names file)
    (h : Intact (disk.files.folder place) name entries) (hitems : items + 1 < entries.length)
    (hdisk' : disk' = disk.after place (cutting name entries items)) :
    Stays place name (entries.take (items + 1)) disk disk' := by
  have hfolder : disk'.files.folder place =
      (disk.files.folder place).after (cutting name entries items) := by
    rw [hdisk', folder_after_cutting hhouses hnames h hitems]
  refine ⟨by rw [hfolder]; exact (h.cutting hitems).2, fun file hfile => ?_⟩
  rw [hdisk']
  refine number_cutting (fun id hid => ?_) (List.Subset.refl _)
  rcases hfile with rfl | ⟨other, -, hother, rfl⟩
  · exact indexFileName_ne_segmentFileName _ _ _
  · exact segmentFileName_ne (by omega)

end BlockArchive.Table
