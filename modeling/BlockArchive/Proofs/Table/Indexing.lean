import BlockArchive.Proofs.Table.Storing
import BlockArchive.Proofs.Table.Tallying

/-! # What becomes of an index

Whatever is asked of a table, and whether or not it succeeds, its index is changed in one of three
ways: it stays, an entry is put behind that of the last item counted, or it is cut to some of its
entries.

* **`AtHome`**: what a table has open are the files of its names.  This is kept by opening a segment
  (`AtHome.of_openFile`), by letting go of some (`AtHome.of_segments`) and deleting those
  (`AtHome.of_deleteSegments`), and by any change that no file is lost in (`AtHome.of_keeps`).
* **`Moves`**: the three ways.  A cut is one of them wherever it fails (`AtHome.truncate`).
* **Opening** a table again cuts the index, also where it fails (`exists_reopens`). -/

namespace BlockArchive.Table

open IndexEntry FileSystem Attempt

variable {names : String → Prop} {place : Location} {root : Path} {name : String} {cap : Nat}
  {table table' : Table} {disk disk' : Disk} {data data' : Bytes} {item : Nat} {blob : Bytes}

/-! ### Files that are open -/

/-- The index holds `data`, and what the table has open are the files of its names. -/
structure AtHome (names : String → Prop) (place : Location) (root : Path) (name : String)
    (data : Bytes) (table : Table) (disk : Disk) : Prop where
  lodges : disk.files.Lodges names (IsFileOf name) root place
  dir : table.dir = root
  named : table.name = name
  indexed : disk.files.folder place (indexFileName name) = some data
  index : ∀ index, table.index = some index →
    index = .file (disk.files.number place (indexFileName name)) true
  segments : ∀ id segment, table.segments.get? id = some segment →
    id ≤ lastSegmentId ∧ disk.files.Opens place (segmentFileName name id) segment

namespace AtHome

theorem names_index (h : AtHome names place root name data table disk) :
    names (indexFileName name) :=
  h.lodges.names_of_folder (isFileOf_index name) (by simp [h.indexed])

/-- The files that are open remain. -/
theorem of_remains (h : AtHome names place root name data table disk)
    (hlodges : disk'.files.Lodges names (IsFileOf name) root place)
    (hindex : Remains place (indexFileName name) disk disk')
    (hsegments : ∀ id segment, table.segments.get? id = some segment →
      Remains place (segmentFileName name id) disk disk')
    (hdata : disk'.files.folder place (indexFileName name) = some data') :
    AtHome names place root name data' table disk' where
  lodges := hlodges
  dir := h.dir
  named := h.named
  indexed := hdata
  index index hopen := by rw [hindex.number (by simp [h.indexed]), h.index index hopen]
  segments id segment hopen :=
    ⟨(h.segments id segment hopen).1, (h.segments id segment hopen).2.of_remains
      (hsegments id segment hopen)⟩

theorem of_keeps (h : AtHome names place root name data table disk)
    (hkeeps : Disk.Keeps names (IsFileOf name) root place disk disk')
    (hdata : disk'.files.folder place (indexFileName name) = some data') :
    AtHome names place root name data' table disk' :=
  h.of_remains hkeeps.lodges (hkeeps.remains _) (fun _ _ _ => hkeeps.remains _) hdata

theorem of_sets_segment (h : AtHome names place root name data table disk) {id : Nat}
    {content : Bytes} (hsets : Disk.Sets names (IsFileOf name) root place (segmentFileName name id)
      (some content) disk disk') : AtHome names place root name data table disk' :=
  h.of_keeps hsets.keeps
    ((hsets.folder_of_ne (indexFileName_ne_segmentFileName _ _ _)).trans h.indexed)

/-- Of what is open some is let go. -/
theorem of_segments (h : AtHome names place root name data table disk) {segments : Segments}
    (hsub : ∀ id segment, segments.get? id = some segment → table.segments.get? id = some segment) :
    AtHome names place root name data { table with segments } disk :=
  { h with segments := fun id segment hopen => h.segments id segment (hsub id segment hopen) }

theorem erase (h : AtHome names place root name data table disk) (id : Nat) :
    AtHome names place root name data { table with segments := table.segments.erase id } disk := by
  refine h.of_segments fun other segment hopen => ?_
  rw [Segments.get?_erase] at hopen
  split at hopen
  · simp at hopen
  · exact hopen

/-- A segment is opened, in place of what was open under its id. -/
theorem of_openFile (h : AtHome names place root name data table disk) {id : Nat}
    (hid : id ≤ lastSegmentId) {mode : OpenMode} (hmode : mode ≠ .existing) {handle : Handle}
    (hopen : (Disk.openFile (segmentPath table.dir table.name id) mode).outcome disk =
      (.ok handle, disk')) :
    AtHome names place root name data
      { table with segments := (table.segments.erase id).insert id handle } disk' := by
  rw [h.dir, h.named] at hopen
  obtain ⟨hkeeps, hopens, hothers⟩ :=
    Disk.keeps_of_openFile h.lodges (isFileOf_segment name hid) hmode hopen
  have hhome : AtHome names place root name data table disk' :=
    h.of_keeps hkeeps ((hothers _ (indexFileName_ne_segmentFileName _ _ _)).trans h.indexed)
  refine { hhome with segments := fun other segment hget => ?_ }
  rw [get?_reopened] at hget
  split at hget
  · next heq =>
    subst heq
    obtain rfl := Option.some.inj hget
    exact ⟨hid, hopens⟩
  · exact hhome.segments other segment hget

/-- Segments that are not open are deleted, or some of them. -/
theorem of_deleteSegments (h : AtHome names place root name data table disk) {ids : List Nat}
    (hids : ∀ id ∈ ids, id ≤ lastSegmentId ∧ table.segments.get? id = none)
    {answer : Except Error Unit}
    (hrun : (deleteSegments root name ids).outcome disk = (answer, disk')) :
    AtHome names place root name data table disk' := by
  obtain ⟨hlodges, hsame⟩ := lodges_of_deleteSegments h.lodges (fun id hid => (hids id hid).1) hrun
  obtain ⟨hfolder, hnumber⟩ := hsame _ fun id _ => indexFileName_ne_segmentFileName name name id
  refine h.of_remains hlodges (.of_eq hfolder hnumber) (fun id segment hopen => ?_)
    (hfolder.trans h.indexed)
  obtain ⟨hfolder, hnumber⟩ := hsame (segmentFileName name id) fun other hother heq => by
    obtain ⟨-, rfl⟩ := segmentFileName_injective heq
    rw [(hids id hother).2] at hopen
    simp at hopen
  exact .of_eq hfolder hnumber

theorem exists_of_isWritable (h : AtHome names place root name data table disk) {id : Nat}
    {segment : Handle} (hget : table.segments.get? id = some segment)
    (hwritable : segment.IsWritable) :
    segment = .file (disk.files.number place (segmentFileName name id)) true ∧
      names (segmentFileName name id) ∧
        ∃ content, disk.files.folder place (segmentFileName name id) = some content := by
  obtain ⟨hid, hopens⟩ := h.segments id segment hget
  obtain ⟨file, rfl⟩ := hwritable
  cases hopens with
  | file _ hthere =>
      exact ⟨rfl, h.lodges.names_of_folder (isFileOf_segment name hid) hthere,
        Option.ne_none_iff_exists'.1 hthere⟩

theorem of_write (h : AtHome names place root name data table disk) {id : Nat} {segment : Handle}
    (hget : table.segments.get? id = some segment) (hwritable : segment.IsWritable) {start : Nat}
    (hrun : (segment.write start blob).outcome disk = (.ok (), disk')) :
    AtHome names place root name data table disk' := by
  obtain ⟨rfl, hname, content, hcontent⟩ := h.exists_of_isWritable hget hwritable
  rw [Handle.outcome_write] at hrun
  obtain rfl := (Prod.mk.inj hrun).2
  exact h.of_sets_segment (Disk.sets_write h.lodges hname hcontent start blob)

theorem of_setLength (h : AtHome names place root name data table disk) {id : Nat}
    {segment : Handle} (hget : table.segments.get? id = some segment)
    (hwritable : segment.IsWritable) {length : Nat}
    (hrun : (segment.setLength length).outcome disk = (.ok (), disk')) :
    AtHome names place root name data table disk' := by
  obtain ⟨rfl, hname, content, hcontent⟩ := h.exists_of_isWritable hget hwritable
  rw [Handle.outcome_setLength] at hrun
  obtain rfl := (Prod.mk.inj hrun).2
  exact h.of_sets_segment (Disk.sets_setLength h.lodges hname hcontent length)

end AtHome

/-! ### Appending and cutting -/

theorem Rotates.counts {answer : Except Error Unit}
    (h : Rotates table disk answer table' disk') :
    table'.items = table.items ∧ table'.itemOffset = table.itemOffset := by
  cases h <;> exact ⟨rfl, rfl⟩

theorem Switches.counts {new : Nat} {answer : Except Error Unit}
    (h : Switches table disk new answer table' disk') :
    table'.items = table.items ∧ table'.itemOffset = table.itemOffset := by
  cases h <;> exact ⟨rfl, rfl⟩

theorem GoesOn.counts {new : Nat} (h : GoesOn table disk new table' disk') :
    table'.items = table.items ∧ table'.itemOffset = table.itemOffset := by
  cases h with
  | same => exact ⟨rfl, rfl⟩
  | switched hne hswitches => exact hswitches.counts

namespace AtHome

theorem rotates (h : AtHome names place root name data table disk)
    (hheadId : table.headId ≤ lastSegmentId) {answer : Except Error Unit}
    (hrotates : Rotates table disk answer table' disk') :
    AtHome names place root name data table' disk' := by
  cases hrotates with
  | exhausted => exact h
  | blocked => exact h.erase _
  | lost hnext hold hlast => exact (h.of_openFile hlast (by decide) hnext).erase _
  | done hnext hold hlast =>
      have hhome := (h.of_openFile hlast (by decide) hnext).of_openFile hheadId (by decide) hold
      exact { hhome with }

theorem switches (h : AtHome names place root name data table disk) {new : Nat}
    (hnew : new ≤ lastSegmentId) {answer : Except Error Unit}
    (hswitches : Switches table disk new answer table' disk') :
    AtHome names place root name data table' disk' := by
  -- the segments that are deleted were open, and are so no more
  have hswitched : ∀ {handle : Handle} {disk₁ disk' : Disk} {deleted : Except Error Unit},
      (Disk.openFile (segmentPath table.dir table.name new) .update).outcome disk =
        (.ok handle, disk₁) →
      (deleteSegments table.dir table.name ((table.segments.above new).map Prod.fst)).outcome
        disk₁ = (deleted, disk') →
      AtHome names place root name data { table with segments := switched table new handle }
        disk' := by
    intro handle disk₁ disk' deleted hopen hdelete
    have hget := get?_switched table new handle
    have hhome : AtHome names place root name data
        { table with segments := switched table new handle } disk₁ := by
      refine (h.of_openFile hnew (by decide) hopen).of_segments fun id segment hsegment => ?_
      rw [Segments.get?_upTo] at hsegment
      split at hsegment
      · exact hsegment
      · simp at hsegment
    rw [h.dir, h.named] at hdelete
    refine hhome.of_deleteSegments (fun id hid => ?_) hdelete
    obtain ⟨segment, hmem, rfl⟩ := List.mem_map.1 hid
    obtain ⟨hmem, habove⟩ := List.mem_filter.1 hmem
    have hlt : new < segment.1 := by simpa using habove
    refine ⟨?_, by rw [hget, if_neg (Nat.not_le.2 hlt)]⟩
    cases hsegment : table.segments.get? segment.1 with
    | some handle => exact (h.segments _ handle hsegment).1
    | none => simpa using List.lookup_eq_none_iff.1 hsegment segment hmem
  cases hswitches with
  | blocked => exact h.erase _
  | held hopen hdelete => exact hswitched hopen hdelete
  | done hopen hdelete => exact { hswitched hopen hdelete with }

theorem goesOn (h : AtHome names place root name data table disk) {new : Nat}
    (hnew : new ≤ lastSegmentId) (hgoes : GoesOn table disk new table' disk') :
    AtHome names place root name data table' disk' := by
  cases hgoes with
  | same => exact h
  | switched hne hswitches => exact h.switches hnew hswitches

theorem writes (h : AtHome names place root name data table disk) (hequipped : Equipped table)
    (hwrites : Writes table blob disk disk') :
    AtHome names place root name (data.overwrite (position (table.items - table.itemOffset + 1))
      (table.headEntry blob.length).encode) table disk' := by
  obtain ⟨-, index, head, disk₁, hindex, hhead, hblob, hentry⟩ := hwrites
  have hhome := h.of_write hhead (hequipped.head head hhead) hblob
  obtain rfl := hhome.index index hindex
  rw [Handle.outcome_write] at hentry
  obtain rfl := (Prod.mk.inj hentry).2
  have hsets := Disk.sets_write hhome.lodges hhome.names_index hhome.indexed
    (position (table.items - table.itemOffset + 1)) (table.headEntry blob.length).encode
  exact hhome.of_keeps hsets.keeps hsets.folder_self

/-- An append that succeeds puts its entry in the place behind that of the last item counted; one
that fails leaves the index. -/
theorem append (h : AtHome names place root name data table disk) (huse : InUse root name table)
    {answer : Except Error Unit}
    (hrun : (Table.append item blob).outcome (table, disk) = (answer, (table', disk'))) :
    table'.itemOffset = table.itemOffset ∧
      ((∃ e, answer = .error e) ∧ table'.items = table.items ∧
          AtHome names place root name data table' disk' ∨
        answer = .ok () ∧ item = table.items ∧ table'.items = table.items + 1 ∧
          AtHome names place root name (data.overwrite
            (position (table.items - table.itemOffset + 1)) table'.headEnd.encode) table' disk') := by
  have hequipped := huse.equipped
  cases hequipped.appends hrun with
  | refused e => exact ⟨rfl, .inl ⟨⟨e, rfl⟩, rfl, h⟩⟩
  | @unrotated e _ _ hindex hrotate =>
      have hrotates := rotates_of_outcome hrotate
      obtain ⟨hitems, hoffset⟩ := hrotates.counts
      exact ⟨hoffset, .inl ⟨⟨e, rfl⟩, hitems, h.rotates huse.headId_le hrotates⟩⟩
  | fitted hitem hover hwrites =>
      exact ⟨rfl, .inr ⟨rfl, hitem, rfl, { h.writes hequipped hwrites with }⟩⟩
  | rotated hitem hover hrotate hwrites =>
      have hrotates := rotates_of_outcome hrotate
      obtain ⟨hitems, hoffset⟩ := hrotates.counts
      have hhome := (h.rotates huse.headId_le hrotates).writes (hequipped.rotates hrotates) hwrites
      rw [hitems, hoffset] at hhome
      exact ⟨hoffset, .inr ⟨rfl, hitem, congrArg (· + 1) hitems, { hhome with }⟩⟩

theorem shortens (h : AtHome names place root name data table disk) {items : Nat} {index : Handle}
    (hshort : Shortens table items index disk disk') :
    AtHome names place root name (data.resize (position (items - table.itemOffset + 1))) table
      disk' := by
  obtain ⟨-, -, hindex, hcut⟩ := hshort
  obtain rfl := h.index index hindex
  rw [Handle.outcome_setLength] at hcut
  obtain rfl := (Prod.mk.inj hcut).2
  have hsets := Disk.sets_setLength h.lodges h.names_index h.indexed
    (position (items - table.itemOffset + 1))
  exact h.of_keeps hsets.keeps hsets.folder_self

end AtHome

/-- What happens to an index: it stays, an entry is put behind that of the last item counted, or it
is cut, or filled up with zeros, to the entries of `n` items.  A cut that fails may be counted or
not. -/
inductive Moves (table : Table) (data : Bytes) (table' : Table) : Bytes → Prop where
  | stays : table'.items = table.items → Moves table data table' data
  | puts (entry : IndexEntry) : table'.items = table.items + 1 → Moves table data table'
      (data.overwrite (position (table.items - table.itemOffset + 1)) entry.encode)
  | cuts (n : Nat) : table'.items = table.items ∨ table'.items = table.itemOffset + n →
      Moves table data table' (data.resize (position (n + 1)))

theorem AtHome.truncate (h : AtHome names place root name data table disk)
    (hequipped : Equipped table) {items : Nat} {answer : Except Error Unit}
    (hrun : (Table.truncate items).outcome (table, disk) = (answer, (table', disk'))) :
    ∃ data', AtHome names place root name data' table' disk' ∧
      table'.itemOffset = table.itemOffset ∧ Moves table data table' data' := by
  cases hequipped.cuts hrun with
  | kept => exact ⟨data, h, rfl, .stays rfl⟩
  | unread hshort hread => exact ⟨_, h.shortens hshort, rfl, .cuts _ (.inl rfl)⟩
  | unswitched hshort hread hne hswitches =>
      obtain ⟨hitems, hoffset⟩ := hswitches.counts
      have hstorable := (isStorable_of_readEntry hread).1
      exact ⟨_, (h.shortens hshort).switches hstorable hswitches, hoffset, .cuts _ (.inl hitems)⟩
  | missing hshort hread hgoes hlost =>
      obtain ⟨hitems, hoffset⟩ := hgoes.counts
      have hstorable := (isStorable_of_readEntry hread).1
      exact ⟨_, (h.shortens hshort).goesOn hstorable hgoes, hoffset, .cuts _ (.inl hitems)⟩
  | done hshort hread hgoes hhead hcut =>
      obtain ⟨hstart, hheadId⟩ := hequipped.goesOn hgoes
      have hstorable := (isStorable_of_readEntry hread).1
      have hhome := ((h.shortens hshort).goesOn hstorable hgoes).of_setLength hhead
        (hstart.head _ (hheadId ▸ hhead)) hcut
      exact ⟨_, { hhome with }, hgoes.counts.2, .cuts _ (.inr
        (Nat.add_sub_cancel' hshort.itemOffset_le).symm)⟩

/-! ### Opening -/

theorem openHead_cases (hlodges : disk.files.Lodges names (IsFileOf name) root place) {id : Nat}
    (hid : id ≤ lastSegmentId) {answer : Except Error (Handle × Nat)}
    (hrun : (openHead root name id).outcome disk = (answer, disk')) :
    (∃ e, answer = .error e) ∧ disk' = disk ∨
      ∃ content, answer = .ok (.file (disk'.files.number place (segmentFileName name id)) true,
          content.length) ∧ names (segmentFileName name id) ∧
        Disk.Sets names (IsFileOf name) root place (segmentFileName name id) (some content) disk
          disk' := by
  unfold openHead at hrun
  rcases hopen : (Disk.openFile (segmentPath root name id) .update).outcome disk with
    ⟨opened, disk₁⟩
  cases opened with
  | error e =>
      obtain rfl := Disk.eq_of_openFile_error hopen
      rw [outcome_bind_error hopen] at hrun
      obtain ⟨rfl, rfl⟩ := by simpa using hrun
      exact .inl ⟨⟨e, rfl⟩, rfl⟩
  | ok handle =>
      have hname := Disk.names_of_openFile hlodges (isFileOf_segment name hid) (by decide) hopen
      obtain ⟨disk₂, hsets, hopen'⟩ := Disk.exists_openFile_update hlodges hname
      rw [segmentPath, hopen'] at hopen
      obtain ⟨rfl, rfl⟩ := by simpa using hopen
      rw [segmentPath, outcome_bind_ok hopen', outcome_bind_ok
        (Handle.outcome_length hsets.folder_self true), outcome_pure] at hrun
      obtain ⟨rfl, rfl⟩ := by simpa using hrun
      exact .inr ⟨_, rfl, hname, hsets⟩

/-- The index is cut to its first entries, and every file keeps its number. -/
theorem exists_cutIndex (hlodges : disk.files.Lodges names (IsFileOf name) root place)
    (hfile : names (indexFileName name))
    (hindex : disk.files.folder place (indexFileName name) = some data) {count : Nat}
    (hle : position count ≤ data.length) :
    ∃ disk', (Handle.setLength (.file (disk.files.number place (indexFileName name)) true)
        (position count)).outcome disk = (.ok (), disk') ∧
      Disk.Sets names (IsFileOf name) root place (indexFileName name)
        (some (data.take (position count))) disk disk' ∧
      ∀ file, disk'.files.number place file = disk.files.number place file := by
  have hsets := Disk.sets_setLength hlodges hfile hindex (position count)
  rw [Bytes.resize_of_le hle] at hsets
  exact ⟨_, Handle.outcome_setLength _ _ _ _, hsets, fun file => Change.number_effect (by simp)⟩

/-- Of the index, the entries of `n` items are left, and no file is lost.  If settling succeeds, its
last entry is that of item `n`, in a segment that is there. -/
structure Drops (names : String → Prop) (place : Location) (root : Path) (name : String)
    (data : Bytes) (n : Nat) (answer : Except Error Settled) (disk disk' : Disk) : Prop where
  keeps : Disk.Keeps names (IsFileOf name) root place disk disk'
  indexed : disk'.files.folder place (indexFileName name) = some (data.take (position (n + 1)))
  settled : ∀ settled, answer = .ok settled → settled.before = n ∧ settled.last.IsStorable ∧
    disk'.files.folder place (segmentFileName name settled.last.segment.toNat) ≠ none

/-- After entries were dropped, more may be. -/
theorem Drops.after {disk'' : Disk} {n count : Nat} {answer : Except Error Settled}
    (hkeeps : Disk.Keeps names (IsFileOf name) root place disk disk')
    (h : Drops names place root name (data.take (position count)) n answer disk' disk'')
    (hle : n + 1 ≤ count) : Drops names place root name data n answer disk disk'' where
  keeps := hkeeps.trans h.keeps
  indexed := by
    rw [h.indexed, List.take_take, Nat.min_eq_left (position_le_position hle)]
  settled := h.settled

section settle

variable {last : IndexEntry} {before length : Nat} {answer : Except Error Settled}
  (hlodges : disk.files.Lodges names (IsFileOf name) root place)
  (hlast : names (segmentFileName name last.segment.toNat)) (hstorable : last.IsStorable)
  (hindex : disk.files.folder place (indexFileName name) = some data)
  (hlength : data.length = position (before + 1))
  (hthere : disk.files.folder place (segmentFileName name last.segment.toNat) ≠ none)
include hlodges hlast hstorable hindex hlength hthere

theorem drops_setLength (length : Nat) :
    Drops names place root name data before (.ok ⟨before, last, length⟩) disk
      (disk.change place (.setLength (segmentFileName name last.segment.toNat) length)) := by
  obtain ⟨content, hcontent⟩ := Option.ne_none_iff_exists'.1 hthere
  have hsets := Disk.sets_setLength hlodges hlast hcontent length
  refine ⟨hsets.keeps, ?_, ?_⟩
  · rw [hsets.folder_of_ne (indexFileName_ne_segmentFileName _ _ _), hindex, ← hlength,
      List.take_length]
  · rintro _ ⟨⟩
    exact ⟨rfl, hstorable, by simp [hsets.folder_self]⟩

omit hlast in
theorem drops_nothing (length : Nat) :
    Drops names place root name data before (.ok ⟨before, last, length⟩) disk disk := by
  refine ⟨.refl hlodges, by rw [hindex, ← hlength, List.take_length], ?_⟩
  rintro _ ⟨⟩
  exact ⟨rfl, hstorable, hthere⟩

theorem drops_of_settle_of_le (hle : last.offset.toNat ≤ length)
    (hrun : (settle root name (.file (disk.files.number place (indexFileName name)) true) before
      last (.file (disk.files.number place (segmentFileName name last.segment.toNat)) true)
      length).outcome disk = (answer, disk')) :
    Drops names place root name data before answer disk disk' := by
  rw [settle_of_le _ _ _ _ hle] at hrun
  split at hrun
  · rw [outcome_bind_ok (Handle.outcome_setLength _ _ _ _)] at hrun
    obtain ⟨rfl, rfl⟩ := by simpa [outcome_pure] using hrun
    exact drops_setLength hlodges hlast hstorable hindex hlength hthere _
  · obtain ⟨rfl, rfl⟩ := by simpa [outcome_pure] using hrun
    exact drops_nothing hlodges hstorable hindex hlength hthere _

theorem exists_drops_of_settle (hfile : names (indexFileName name))
    (hrun : (settle root name (.file (disk.files.number place (indexFileName name)) true) before
      last (.file (disk.files.number place (segmentFileName name last.segment.toNat)) true)
      length).outcome disk = (answer, disk')) :
    ∃ n ≤ before, Drops names place root name data n answer disk disk' := by
  induction before generalizing disk last data length with
  | zero =>
      refine ⟨0, Nat.le_refl _, ?_⟩
      by_cases hle : last.offset.toNat ≤ length
      · exact drops_of_settle_of_le hlodges hlast hstorable hindex hlength hthere hle hrun
      rw [settle_zero_of_lt _ _ _ _ (Nat.lt_of_not_le hle)] at hrun
      split at hrun
      · rw [outcome_bind_ok (Handle.outcome_setLength _ _ _ _)] at hrun
        obtain ⟨rfl, rfl⟩ := by simpa [outcome_pure] using hrun
        exact drops_setLength hlodges hlast hstorable hindex hlength hthere 0
      · obtain ⟨rfl, rfl⟩ := by simpa [outcome_pure] using hrun
        exact drops_nothing hlodges hstorable hindex hlength hthere 0
  | succ before ih =>
      by_cases hle : last.offset.toNat ≤ length
      · exact ⟨_, Nat.le_refl _,
          drops_of_settle_of_le hlodges hlast hstorable hindex hlength hthere hle hrun⟩
      rw [settle_succ_of_lt _ _ _ _ (Nat.lt_of_not_le hle)] at hrun
      -- the last entry is dropped
      have hfits : position (before + 1) ≤ data.length := by
        rw [hlength]
        exact position_le_position (Nat.le_succ _)
      obtain ⟨disk₁, hcut, hsets, hnumber⟩ := exists_cutIndex hlodges hfile hindex hfits
      rw [outcome_bind_ok hcut] at hrun
      have hlength₁ : (data.take (position (before + 1))).length = position (before + 1) := by
        rw [List.length_take, Nat.min_eq_left hfits]
      have hfailed : ∀ e, Drops names place root name data before (.error e) disk disk₁ := fun e =>
        ⟨hsets.keeps, hsets.folder_self, fun _ h => by simp at h⟩
      rcases hread : (readEntry (.file (disk.files.number place (indexFileName name)) true)
        before).outcome disk₁ with ⟨previous, disk₂⟩
      obtain rfl := (onlyReads_readEntry _ _).of_outcome hread
      cases previous with
      | error e =>
          rw [outcome_bind_error hread] at hrun
          obtain ⟨rfl, rfl⟩ := by simpa using hrun
          exact ⟨before, Nat.le_succ _, hfailed e⟩
      | ok previous =>
          have hprevious := (isStorable_of_readEntry hread).1
          rw [outcome_bind_ok hread, ← hnumber (indexFileName name)] at hrun
          split at hrun
          · next hsegment =>
            rw [← hnumber, ← hsegment] at hrun
            obtain ⟨n, hn, hdrops⟩ := ih hsets.lodges (hsegment ▸ hlast) hprevious
              hsets.folder_self hlength₁ (hsegment ▸ (hsets.keeps.remains _).there hthere) hrun
            exact ⟨n, Nat.le_succ_of_le hn,
              .after hsets.keeps hdrops (Nat.succ_le_succ hn)⟩
          · rcases hopen : (openHead root name previous.segment.toNat).outcome disk₂ with
              ⟨opened, disk₃⟩
            rcases openHead_cases hsets.lodges hprevious hopen with
              ⟨⟨e, rfl⟩, rfl⟩ | ⟨content, rfl, hname, hsets'⟩
            · rw [outcome_bind_error hopen] at hrun
              obtain ⟨rfl, rfl⟩ := by simpa using hrun
              exact ⟨before, Nat.le_succ _, hfailed e⟩
            · have hne := indexFileName_ne_segmentFileName name name previous.segment.toNat
              rw [outcome_bind_ok hopen, ← hsets'.number_of_ne hne] at hrun
              obtain ⟨n, hn, hdrops⟩ := ih hsets'.lodges hname hprevious
                ((hsets'.folder_of_ne hne).trans hsets.folder_self) hlength₁
                (by simp [hsets'.folder_self]) hrun
              exact ⟨n, Nat.le_succ_of_le hn,
                .after (hsets.keeps.trans hsets'.keeps) hdrops (Nat.succ_le_succ hn)⟩

end settle

/-- What opening a table leaves, whether or not it succeeds: no file is lost, and of the entries
that were written those of `n` items are in the index.  If it succeeds, the table counts these. -/
structure Reopens (names : String → Prop) (place : Location) (root : Path) (name : String)
    (all : List IndexEntry) (n : Nat) (answer : Except Error Table) (disk disk' : Disk) : Prop where
  keeps : Disk.Keeps names (IsFileOf name) root place disk disk'
  indexed : disk'.files.folder place (indexFileName name) = some (encodeAll (all.take (n + 1)))
  opened : ∀ table, answer = .ok table →
    AtHome names place root name (encodeAll (all.take (n + 1))) table disk' ∧
      table.itemOffset = (firstOf all).offset.toNat ∧ table.items = table.itemOffset + n

theorem reopens_of_settled {all : List IndexEntry} {settled : Settled} {index : Handle}
    {disk₁ : Disk} (hkeeps : Disk.Keeps names (IsFileOf name) root place disk disk₁)
    (hindexed : disk₁.files.folder place (indexFileName name) =
      some (encodeAll (all.take (settled.before + 1))))
    (hstorable : settled.last.IsStorable)
    (hthere : disk₁.files.folder place (segmentFileName name settled.last.segment.toNat) ≠ none)
    (hindex : index = .file (disk₁.files.number place (indexFileName name)) true)
    {answer : Except Error Table}
    (hrun : (reopening {
        dir := root, name, cap
        tailId := (firstOf all).segment.toNat
        headId := settled.last.segment.toNat
        items := (firstOf all).offset.toNat + settled.before
        headBytes := settled.length
        itemOffset := (firstOf all).offset.toNat
        index := some index
        segments := [] }).outcome disk₁ = (answer, disk')) :
    Reopens names place root name all settled.before answer disk disk' := by
  have hfailed : ∀ e, Reopens names place root name all settled.before (.error e) disk disk₁ :=
    fun e => ⟨hkeeps, hindexed, fun _ h => by simp at h⟩
  unfold reopening at hrun
  simp only at hrun
  rcases hhistory : (openHistory root name (List.range' (firstOf all).segment.toNat
    (settled.last.segment.toNat - (firstOf all).segment.toNat))).outcome disk₁ with
    ⟨history, disk₂⟩
  obtain rfl := (onlyReads_openHistory _ _ _).of_outcome hhistory
  cases history with
  | error e =>
      rw [outcome_bind_error hhistory] at hrun
      obtain ⟨rfl, rfl⟩ := by simpa using hrun
      exact hfailed e
  | ok history =>
      rw [outcome_bind_ok hhistory] at hrun
      rcases hhead : (Disk.openFile (segmentPath root name settled.last.segment.toNat)
        .update).outcome disk₂ with ⟨head, disk₃⟩
      cases head with
      | error e =>
          obtain rfl := Disk.eq_of_openFile_error hhead
          rw [outcome_bind_error hhead] at hrun
          obtain ⟨rfl, rfl⟩ := by simpa using hrun
          exact hfailed e
      | ok head =>
          obtain ⟨rfl, -, hsegments⟩ :=
            segments_of_openHistory hkeeps.lodges hstorable hthere hhistory hhead
          rw [outcome_bind_ok hhead, outcome_pure] at hrun
          obtain ⟨rfl, rfl⟩ := by simpa using hrun
          refine ⟨hkeeps, hindexed, ?_⟩
          rintro _ ⟨⟩
          refine ⟨⟨hkeeps.lodges, rfl, rfl, hindexed, ?_, fun id segment hget => ?_⟩, rfl, rfl⟩
          · rintro _ ⟨⟩
            exact hindex
          · obtain ⟨hid, hopens⟩ := hsegments id segment hget
            exact ⟨Nat.le_trans hid hstorable, hopens⟩

/-- Opening cuts the index to some of the entries that were written, also if it fails. -/
theorem exists_reopens (hlodges : disk.files.Lodges names (IsFileOf name) root place)
    (hfile : names (indexFileName name)) {all : List IndexEntry}
    (hall : all = written (disk.files.folder place) name) {answer : Except Error Table}
    (hrun : (openIn root name cap).outcome disk = (answer, disk')) :
    ∃ n < all.length, Reopens names place root name all n answer disk disk' := by
  have hne : all ≠ [] := hall ▸ written_ne_nil (disk.files.folder place) name
  have hpos := List.length_pos_iff.2 hne
  have hlast : (lastOf all).IsStorable := by
    have hmem := lastOf_mem hne
    rw [hall] at hmem ⊢
    exact isStorable_of_mem_written hmem
  have hfirst : all[0]? = some (firstOf all) := getElem?_eq_firstOf hne
  obtain ⟨disk₀, disk₁, htidied, hfolder, hnumber, hopen, htrim, hread⟩ :=
    exists_openIndex hlodges.toHouses hfile
  rw [← hall] at hfolder htrim hread
  have hindexed : disk₁.files.folder place (indexFileName name) = some (encodeAll all) := by
    rw [hfolder, Function.update_self]
  have hkeeps : Disk.Keeps names (IsFileOf name) root place disk disk₁ := by
    refine ⟨htidied.lodges hlodges, fun file => ⟨fun hthere => ?_, hnumber file⟩⟩
    by_cases hindex : file = indexFileName name
    · rw [hindex, hindexed]
      simp
    · rwa [hfolder, Function.update_of_ne hindex]
  unfold openIn at hrun
  rw [outcome_bind_ok (Disk.outcome_makeDirectories hlodges.toHouses), outcome_bind_ok hopen,
    outcome_bind_ok htrim, outcome_bind_ok (hread _ _ hfirst),
    outcome_bind_ok (hread _ _ (getElem?_eq_lastOf hne))] at hrun
  rcases hhead : (openHead root name (lastOf all).segment.toNat).outcome disk₁ with ⟨opened, disk₂⟩
  rcases openHead_cases hkeeps.lodges hlast hhead with
    ⟨⟨e, rfl⟩, rfl⟩ | ⟨content, rfl, hname, hsets⟩
  · rw [outcome_bind_error hhead] at hrun
    obtain ⟨rfl, rfl⟩ := by simpa using hrun
    refine ⟨all.length - 1, Nat.sub_lt hpos Nat.one_pos, hkeeps, ?_, fun _ h => by simp at h⟩
    rw [Nat.sub_add_cancel hpos, List.take_length, hindexed]
  have hindex := indexFileName_ne_segmentFileName name name (lastOf all).segment.toNat
  rw [outcome_bind_ok hhead, ← hsets.number_of_ne hindex] at hrun
  rcases hsettle : (settle root name (.file (disk₂.files.number place (indexFileName name)) true)
    (all.length - 1) (lastOf all) (.file (disk₂.files.number place
      (segmentFileName name (lastOf all).segment.toNat)) true) content.length).outcome disk₂ with
    ⟨settled, disk₃⟩
  obtain ⟨n, hn, hdrops⟩ := exists_drops_of_settle hsets.lodges hname hlast
    ((hsets.folder_of_ne hindex).trans hindexed)
    (by rw [length_encodeAll, position, Nat.sub_add_cancel hpos, Nat.mul_comm])
    (by simp [hsets.folder_self]) hfile hsettle
  have hkeeps₃ := (hkeeps.trans hsets.keeps).trans hdrops.keeps
  have hindexed₃ := hdrops.indexed
  rw [take_encodeAll] at hindexed₃
  refine ⟨n, Nat.lt_of_le_of_lt hn (Nat.sub_lt hpos Nat.one_pos), ?_⟩
  cases settled with
  | error e =>
      rw [outcome_bind_error hsettle] at hrun
      obtain ⟨rfl, rfl⟩ := by simpa using hrun
      exact ⟨hkeeps₃, hindexed₃, fun _ h => by simp at h⟩
  | ok settled =>
      obtain ⟨rfl, hstorable, hthere⟩ := hdrops.settled settled rfl
      rw [outcome_bind_ok hsettle] at hrun
      refine reopens_of_settled hkeeps₃ hindexed₃ hstorable hthere ?_ hrun
      rw [(hdrops.keeps.remains _).number (by simp [hsets.folder_of_ne hindex, hindexed])]

end BlockArchive.Table
