import BlockArchive.Proofs.Table.Intact
import BlockArchive.Proofs.Table.Tidying
import BlockArchive.Table.Cutting

/-! # Cutting a table at rest

* **Pure form.** `cutting` lists the changes of a cut; `after_cutting_index` and
  `after_cutting_segment` say what the files hold then.
* **Result.** An intact table is intact again after a cut, with the first of its items
  (`Intact.cutting`, `Whole.cutting`).
* **First step.** Once the index is cut, the files recover to the first items
  (`Whole.recovers_cutIndex`); all further changes only tidy up behind it (`Whole.each_trimming`).
* **Run.** `switchHead` is the part of a cut in which another segment becomes the head.
  `outcome_truncate` says that `truncate` makes just these changes; a cut into the items
  that were pruned is refused (`outcome_truncate_of_lt`). -/

namespace BlockArchive.Table

open IndexEntry

/-- The changes with which the segments above `low` are deleted, up to `high`. -/
def releasing (name : String) (low high : Nat) : List Change :=
  (List.range' (low + 1) (high - low)).map fun id => .remove (segmentFileName name id)

/-- The changes that follow when the index of a table with head `head` was cut to these entries. -/
def trimming (name : String) (entries : List IndexEntry) (head : Nat) : List Change :=
  releasing name (lastOf entries).segment.toNat head ++
    [.setLength (segmentFileName name (lastOf entries).segment.toNat)
      (lastOf entries).offset.toNat]

/-- The changes of a cut to `items` items. -/
def cutting (name : String) (entries : List IndexEntry) (items : Nat) : List Change :=
  .setLength (indexFileName name) (position (items + 1)) ::
    trimming name (entries.take (items + 1)) (lastOf entries).segment.toNat

variable {folder : Folder} {names : String → Prop} {place : Location} {root : Path}
  {name : String} {cap : Nat} {entries : List IndexEntry} {disk disk' : Disk} {items : Nat}

/-! ### What the folder holds after a cut -/

theorem fits_releasing {ids : List Nat} {last length : Nat}
    (hnodup : ids.Nodup) (hids : ∀ id ∈ ids, id ≠ last ∧ folder (segmentFileName name id) ≠ none)
    (hlast : folder (segmentFileName name last) ≠ none) :
    folder.Fits (ids.map (fun id => .remove (segmentFileName name id)) ++
      [.setLength (segmentFileName name last) length]) := by
  induction ids generalizing folder with
  | nil => exact ⟨hlast, trivial⟩
  | cons id ids ih =>
      obtain ⟨hne, hthere⟩ := hids id List.mem_cons_self
      have hleft : ∀ other ≠ id, Change.apply folder (.remove (segmentFileName name id))
          (segmentFileName name other) = folder (segmentFileName name other) := fun other hother =>
        Change.apply_ne _ _ (segmentFileName_ne hother)
      refine ⟨hthere, ih (List.nodup_cons.1 hnodup).2 (fun other hother => ?_) ?_⟩
      · obtain ⟨hne', hthere'⟩ := hids other (List.mem_cons_of_mem _ hother)
        refine ⟨hne', ?_⟩
        rwa [hleft other fun heq => (List.nodup_cons.1 hnodup).1 (heq ▸ hother)]
      · rwa [hleft last (Ne.symm hne)]

theorem after_releasing (folder : Folder) (ids : List Nat) (id : Nat) :
    folder.after (ids.map fun id => .remove (segmentFileName name id)) (segmentFileName name id) =
      if id ∈ ids then none else folder (segmentFileName name id) := by
  induction ids generalizing folder with
  | nil => simp
  | cons other ids ih =>
      rw [List.map_cons, Folder.after_cons, ih]
      by_cases h : id ∈ ids
      · rw [if_pos h, if_pos (List.mem_cons_of_mem _ h)]
      · rw [if_neg h]
        by_cases heq : id = other
        · subst heq
          rw [if_pos List.mem_cons_self, Change.apply, Function.update_self]
        · rw [if_neg (by simp [heq, h]),
            Change.apply_ne _ _ (segmentFileName_ne heq)]

theorem after_cutting_index (folder : Folder) (name : String) (entries : List IndexEntry)
    (items : Nat) :
    folder.after (cutting name entries items) (indexFileName name) =
      (folder (indexFileName name)).map fun content => content.resize (position (items + 1)) := by
  rw [cutting, Folder.after_cons, Folder.after_ne]
  · rw [Change.apply, Function.update_self]
  · intro change hmem
    rcases List.mem_append.1 hmem with hmem | hmem
    · obtain ⟨id, -, rfl⟩ := List.mem_map.1 hmem
      exact indexFileName_ne_segmentFileName _ _ _
    · rw [List.mem_singleton.1 hmem]
      exact indexFileName_ne_segmentFileName _ _ _

/-- The segment of the last entry kept is cut, the ones above it are gone up to the head, and all
others stay. -/
theorem after_cutting_segment (folder : Folder) (name : String) (entries : List IndexEntry)
    (items id : Nat) :
    folder.after (cutting name entries items) (segmentFileName name id) =
      if id = (lastOf (entries.take (items + 1))).segment.toNat then
        (folder (segmentFileName name id)).map fun content =>
          content.resize (lastOf (entries.take (items + 1))).offset.toNat
      else if (lastOf (entries.take (items + 1))).segment.toNat < id ∧
          id ≤ (lastOf entries).segment.toNat then none
      else folder (segmentFileName name id) := by
  unfold cutting trimming releasing
  generalize lastOf (entries.take (items + 1)) = last
  rw [Folder.after_cons, Folder.after_append, Folder.after_cons, Folder.after_nil]
  have hcut : Change.apply folder (.setLength (indexFileName name) (position (items + 1)))
      (segmentFileName name id) = folder (segmentFileName name id) :=
    Change.apply_ne _ _ (Ne.symm (indexFileName_ne_segmentFileName _ _ _))
  have hmem : id ∈ List.range' (last.segment.toNat + 1)
      ((lastOf entries).segment.toNat - last.segment.toNat) ↔
        last.segment.toNat < id ∧ id ≤ (lastOf entries).segment.toNat := by
    rw [List.mem_range'_1]
    omega
  by_cases hid : id = last.segment.toNat
  · subst hid
    rw [if_pos rfl, Change.apply, Function.update_self, after_releasing, if_neg, hcut]
    rw [hmem]
    omega
  · rw [if_neg hid, Change.apply_ne _ _ (segmentFileName_ne hid),
      after_releasing, hcut]
    simp only [hmem]

section intact

variable (h : Intact folder name entries) (hitems : items + 1 < entries.length)
include h hitems

omit h in
theorem lastOf_take_mem : lastOf (entries.take (items + 1)) ∈ entries := by
  refine List.mem_of_mem_take (lastOf_mem (List.ne_nil_of_length_pos ?_))
  rw [List.length_take]
  omega

theorem fits_cutting : folder.Fits (cutting name entries items) := by
  have hmem := lastOf_take_mem hitems
  have hlow := h.le_segment hmem
  refine ⟨by simp [Change.Fits, h.index], ?_⟩
  have hsame : ∀ id, Change.apply folder (.setLength (indexFileName name) (position (items + 1)))
      (segmentFileName name id) = folder (segmentFileName name id) := fun id =>
    Change.apply_ne _ _ (Ne.symm (indexFileName_ne_segmentFileName _ _ _))
  refine fits_releasing List.nodup_range' (fun id hid => ?_) ?_
  · obtain ⟨hlow', hhigh⟩ := List.mem_range'_1.1 hid
    rw [hsame]
    exact ⟨by omega, h.there (by omega) (by omega)⟩
  · rw [hsame]
    exact h.there hlow (h.segment_le hmem)

theorem Intact.apply_cutIndex :
    Change.apply folder (.setLength (indexFileName name) (position (items + 1)))
      (indexFileName name) = some (encodeAll (entries.take (items + 1))) := by
  rw [Change.apply, Function.update_self, h.index, Option.map_some,
    resize_encodeAll_of_le (Nat.le_of_lt hitems)]

theorem isFileWithin_of_mem_cutting {change : Change}
    (hchange : change ∈ cutting name entries items) :
    IsFileWithin name (firstOf entries).segment.toNat (lastOf entries).segment.toNat
      change.name := by
  have hmem := lastOf_take_mem hitems
  have hlow := h.le_segment hmem
  rcases List.mem_cons.1 hchange with rfl | hchange
  · exact isFileWithin_index _ _ _
  · rcases List.mem_append.1 hchange with hchange | hchange
    · obtain ⟨id, hid, rfl⟩ := List.mem_map.1 hchange
      obtain ⟨hlow', hhigh⟩ := List.mem_range'_1.1 hid
      exact isFileWithin_segment name (by omega) (by omega)
    · rw [List.mem_singleton.1 hchange]
      exact isFileWithin_segment name hlow (h.segment_le hmem)

/-- After a cut a table is intact again, with the first of its items. -/
theorem Intact.cutting :
    Intact (folder.after (Table.cutting name entries items)) name (entries.take (items + 1)) ∧
      Agrees folder (folder.after (Table.cutting name entries items)) name
        (grounded (entries.take (items + 1))) := by
  have hmem := lastOf_take_mem hitems
  have hbacked := h.backed.take items
  rw [← grounded_take] at hbacked
  have hlast := lastOf_grounded_segment (entries.take (items + 1))
  obtain ⟨content, hcontent⟩ := Option.ne_none_iff_exists'.1
    (h.there (h.le_segment hmem) (h.segment_le hmem))
  have hhead : folder.after (Table.cutting name entries items)
      (segmentFileName name (lastOf (entries.take (items + 1))).segment.toNat) =
        some (content.resize (lastOf (entries.take (items + 1))).offset.toNat) := by
    rw [after_cutting_segment, if_pos rfl, hcontent, Option.map_some]
  have hagree : Agrees folder (folder.after (Table.cutting name entries items)) name
      (grounded (entries.take (items + 1))) := by
    refine ⟨fun id hlow hlt => ?_, ?_⟩
    · rw [hlast] at hlt
      rw [after_cutting_segment, if_neg (Nat.ne_of_lt hlt), if_neg (by omega)]
    · -- the place that the last entry names lies inside the segment, also before the cut
      have hreaches := hbacked.reaches _ (lastOf_mem hbacked.ne_nil)
      rw [hlast, segmentBytes, hcontent, Option.getD_some] at hreaches
      rw [hlast, segmentBytes, segmentBytes, hhead, hcontent, Option.getD_some, Option.getD_some]
      exact Bytes.take_resize (lastOf_grounded_offset_le _) hreaches
  refine ⟨⟨⟨?_, by simp [hhead], by rw [segmentBytes, hhead]; simp⟩, hbacked.of_agrees hagree⟩,
    hagree⟩
  rw [after_cutting_index, ← h.apply_cutIndex hitems, Change.apply, Function.update_self]

end intact

/-- After a cut a table that is not pruned is at rest again. -/
theorem Whole.cutting (h : Whole folder name entries) (hitems : items + 1 < entries.length) :
    Whole (folder.after (Table.cutting name entries items)) name (entries.take (items + 1)) ∧
      Agrees folder (folder.after (Table.cutting name entries items)) name
        (entries.take (items + 1)) := by
  obtain ⟨hintact, hagree⟩ := h.intact.cutting hitems
  have hfirst : (firstOf (entries.take (items + 1))).offset = 0 := by
    rw [firstOf_take, h.unpruned]
  rw [grounded_eq_self hfirst] at hagree
  exact ⟨hintact.whole hfirst, hagree⟩

/-! ### Cuts that were cut short -/

theorem each_tidies_remove (hne : entries ≠ []) (hstorable : ∀ entry ∈ entries, entry.IsStorable)
    (hindex : folder (indexFileName name) = some (encodeAll entries))
    (hhead : folder (segmentFileName name (lastOf entries).segment.toNat) ≠ none)
    (hreaches : dangles folder name (lastOf entries) = false) {ids : List Nat}
    (hnodup : ids.Nodup) (hids : ∀ id ∈ ids, (lastOf entries).segment.toNat < id ∧
      id ≤ lastSegmentId ∧ folder (segmentFileName name id) ≠ none) :
    Folder.Each (Tidies name) folder
      (ids.map (fun id => .remove (segmentFileName name id)) ++
        [.setLength (segmentFileName name (lastOf entries).segment.toNat)
          (lastOf entries).offset.toNat]) := by
  induction ids generalizing folder with
  | nil => exact ⟨.cutHead hne hstorable hindex hhead hreaches, trivial⟩
  | cons id ids ih =>
      obtain ⟨habove, hid, hthere⟩ := hids id (by simp)
      have hleft : ∀ other ≠ id, Function.update folder (segmentFileName name id) none
          (segmentFileName name other) = folder (segmentFileName name other) := fun other hother =>
        Function.update_of_ne (segmentFileName_ne hother) _ _
      have hlast := hleft (lastOf entries).segment.toNat (Nat.ne_of_lt habove)
      refine ⟨.release hne hstorable hindex hreaches hid habove hthere,
        ih ?_ ?_ ?_ (List.nodup_cons.1 hnodup).2 ?_⟩
      · rw [Change.apply_ne _ _ (indexFileName_ne_segmentFileName _ _ _), hindex]
      · rw [Change.apply, hlast]
        exact hhead
      · rw [← hreaches, dangles, dangles, segmentBytes, Change.apply, hlast]
        rfl
      · intro other hother
        obtain ⟨habove', hid', hthere'⟩ := hids other (by simp [hother])
        have hne : other ≠ id := fun heq => (List.nodup_cons.1 hnodup).1 (heq ▸ hother)
        refine ⟨habove', hid', ?_⟩
        rw [Change.apply, hleft other hne]
        exact hthere'

/-- Cutting the index leaves files that recover to the first entries, and holds just these. -/
theorem Whole.recovers_cutIndex (h : Whole folder name entries) (items : Nat)
    (hitems : items + 1 < entries.length) :
    let cut := Change.apply folder (.setLength (indexFileName name) (position (items + 1)))
    cut (indexFileName name) = some (encodeAll (entries.take (items + 1))) ∧
      Recovers cut name (entries.take (items + 1)) ∧ Agrees folder cut name entries := by
  intro cut
  have hindex : cut (indexFileName name) = some (encodeAll (entries.take (items + 1))) :=
    h.intact.apply_cutIndex hitems
  have hagree : Agrees folder cut name entries := agrees_update_index _ _ _ _
  have htake := h.toBacked.take items
  have hbacked := htake.of_agrees (h.toBacked.agrees_take hagree items)
  refine ⟨hindex, ⟨hbacked, kept_eq_of_index htake.ne_nil htake.storable hindex ?_⟩, hagree⟩
  have := hbacked.reaches _ (lastOf_mem htake.ne_nil)
  simp [dangles, this]

/-- After the index was cut, a cut only tidies up. -/
theorem Whole.each_trimming (h : Whole folder name entries) (items : Nat)
    (hitems : items + 1 < entries.length) :
    Folder.Each (Tidies name)
      (Change.apply folder (.setLength (indexFileName name) (position (items + 1))))
      (trimming name (entries.take (items + 1)) (lastOf entries).segment.toNat) := by
  obtain ⟨hindex, hrecovers, -⟩ := h.recovers_cutIndex items hitems
  have htake := h.toBacked.take items
  have hmem := List.mem_of_mem_take (lastOf_mem htake.ne_nil)
  have hsame : ∀ id, Change.apply folder (.setLength (indexFileName name) (position (items + 1)))
      (segmentFileName name id) = folder (segmentFileName name id) := fun id =>
    Change.apply_ne _ _ (Ne.symm (indexFileName_ne_segmentFileName _ _ _))
  have hreaches := hrecovers.reaches _ (lastOf_mem htake.ne_nil)
  refine each_tidies_remove htake.ne_nil htake.storable hindex ?_ (by simp [dangles, hreaches])
    List.nodup_range' ?_
  · rw [hsame]
    exact h.there (h.le_segment hmem) (h.segment_le hmem)
  · intro id hid
    obtain ⟨hlow, hhigh⟩ := List.mem_range'_1.1 hid
    have hle := h.segment_le hmem
    have hge := h.le_segment hmem
    have hlast := h.head_le
    refine ⟨hlow, by omega, ?_⟩
    rw [hsame]
    exact h.there (by omega) (by omega)

/-! ### What a cut does -/

theorem outcome_deleteSegments (hhouses : disk.files.Houses names root place) {ids : List Nat}
    (hnodup : ids.Nodup) (hids : ∀ id ∈ ids, names (segmentFileName name id) ∧
      disk.files.folder place (segmentFileName name id) ≠ none) :
    (deleteSegments root name ids).outcome disk =
      (.ok (), disk.after place (ids.map fun id => .remove (segmentFileName name id))) := by
  induction ids generalizing disk with
  | nil => rfl
  | cons id ids ih =>
      obtain ⟨hname, hthere⟩ := hids id (by simp)
      have hchange : names (Change.remove (segmentFileName name id)).name := hname
      have hfits : Change.Fits (disk.files.folder place) (.remove (segmentFileName name id)) :=
        hthere
      have hremove : (tryCatch (Disk.removeFile (segmentPath root name id)) fun e =>
          if e = .io .notFound then return () else throw e).outcome disk =
            (.ok (), disk.change place (.remove (segmentFileName name id))) := by
        rw [Attempt.outcome_tryCatch, segmentPath,
          Disk.outcome_removeFile_of_some hhouses hname hthere]
      rw [deleteSegments, Attempt.outcome_bind_ok hremove,
        ih (Change.houses_effect hhouses hchange hfits) (List.nodup_cons.1 hnodup).2]
      · rfl
      · intro other hother
        obtain ⟨hname', hthere'⟩ := hids other (by simp [hother])
        refine ⟨hname', ?_⟩
        rw [Disk.change, Change.folder_effect hhouses hfits, Change.apply_ne]
        · exact hthere'
        · exact segmentFileName_ne fun hsame => (List.nodup_cons.1 hnodup).1 (hsame ▸ hother)

theorem outcome_truncate_of_le {table : Table} {handle : Handle}
    (hindex : table.index = some handle) (hitems : table.items ≤ items) :
    (truncate items).outcome (table, disk) = (.ok (), (table, disk)) := by
  unfold truncate
  rw [Attempt.outcome_bind_ok (outcome_openIndex hindex disk),
    Attempt.outcome_bind_ok (Attempt.outcome_current _ _), if_pos hitems]
  rfl

/-- A cut into the items that were pruned is refused. -/
theorem outcome_truncate_of_lt {table : Table} {handle : Handle}
    (hindex : table.index = some handle) (hitems : items < table.items)
    (hoffset : items < table.itemOffset) :
    (truncate items).outcome (table, disk) =
      (.error (.outOfBounds items table.itemOffset table.items), (table, disk)) := by
  unfold truncate
  rw [Attempt.outcome_bind_ok (outcome_openIndex hindex disk),
    Attempt.outcome_bind_ok (Attempt.outcome_current _ _), if_neg (Nat.not_le.2 hitems),
    if_pos hoffset]
  rfl

theorem outcome_releaseAbove {table : Table} {id : Nat} {answer : Except Error Unit}
    (h : (deleteSegments table.dir table.name ((table.segments.above id).map Prod.fst)).outcome
      disk = (answer, disk')) :
    (releaseAbove id).outcome (table, disk) =
      (answer, ({ table with segments := table.segments.upTo id }, disk')) := by
  unfold releaseAbove
  rw [Attempt.outcome_bind_ok (Attempt.outcome_current _ _),
    Attempt.outcome_bind_ok (Attempt.outcome_update _ _ _)]
  exact Attempt.outcome_onSecond_of h _

/-- The part of a cut in which another segment becomes the head. -/
def switchHead (new : Nat) : Action (Table × Disk) Unit := do
  reopenSegment new .update
  releaseAbove new
  Attempt.update fun table => { table with headId := new }

theorem switchHead_bind (new : Nat) (next : Action (Table × Disk) Unit) :
    (do
      reopenSegment new .update
      releaseAbove new
      Attempt.update fun table => { table with headId := new }
      next : Action (Table × Disk) Unit) = switchHead new >>= fun _ => next := by
  simp only [switchHead, bind_assoc]

section switching

variable {table : Table} {new : Nat} (hname : table.name = name) (hdir : table.dir = root)
  (hsegments : table.segments = openSegments disk.files place name table.tailId table.headId)
  (hhouses : disk.files.Houses names root place)
  (hnames : ∀ id, new ≤ id → id ≤ table.headId → names (segmentFileName name id))
  (hthere : ∀ id, new ≤ id → id ≤ table.headId →
    disk.files.folder place (segmentFileName name id) ≠ none)
  (hle : table.tailId ≤ new)
include hname hdir hsegments hhouses hnames hthere hle

theorem outcome_switchHead (hlt : new < table.headId) :
    (switchHead new).outcome (table, disk) =
      (.ok (), (headed disk.files place table new table.headBytes,
        disk.after place (releasing name new table.headId))) := by
  obtain ⟨hupTo, habove⟩ := openSegments_cutBack disk.files place name hle hlt
  have hopen := Disk.outcome_openFile_update_of_some hhouses
    (hnames new (Nat.le_refl _) (Nat.le_of_lt hlt)) (hthere new (Nat.le_refl _) (Nat.le_of_lt hlt))
  have hdelete : (deleteSegments root name (List.range' (new + 1) (table.headId - new))).outcome
      disk = (.ok (), disk.after place (releasing name new table.headId)) := by
    refine outcome_deleteSegments hhouses List.nodup_range' fun id hid => ?_
    obtain ⟨hlow, hhigh⟩ := List.mem_range'_1.1 hid
    exact ⟨hnames id (by omega) (by omega), hthere id (by omega) (by omega)⟩
  unfold switchHead
  rw [Attempt.outcome_bind_ok (outcome_reopenSegment (by rw [segmentPath, hname, hdir, hopen])),
    Attempt.outcome_bind_ok (outcome_releaseAbove (by
      simp only [hsegments, hname, hdir, habove]
      exact hdelete)), Attempt.outcome_update]
  simp only [hsegments, hupTo, headed, hname]

theorem outcome_goOn (hnew : new ≤ table.headId) (next : Action (Table × Disk) Unit) :
    (if new ≠ table.headId then switchHead new >>= fun _ => next else next).outcome (table, disk) =
      next.outcome (headed disk.files place table new table.headBytes,
        disk.after place (releasing name new table.headId)) := by
  refine Attempt.outcome_ite (fun hne => ?_) fun heq => ?_
  · rw [Attempt.outcome_bind_ok (outcome_switchHead hname hdir hsegments hhouses hnames hthere hle
      (Nat.lt_of_le_of_ne hnew hne))]
  · rw [not_not] at heq
    subst hname
    rw [heq, releasing, Nat.sub_self, headed, ← hsegments]
    rfl

end switching

theorem number_cutting {file : String}
    (hfile : ∀ id, (lastOf (entries.take (items + 1))).segment.toNat < id →
      file ≠ segmentFileName name id) {changes : List Change}
    (hchanges : changes ⊆ cutting name entries items) :
    (disk.after place changes).files.number place file = disk.files.number place file := by
  refine Disk.number_after fun change hmem => ?_
  rcases List.mem_cons.1 (hchanges hmem) with rfl | hmem
  · simp
  · rcases List.mem_append.1 hmem with hmem | hmem
    · obtain ⟨id, hid, rfl⟩ := List.mem_map.1 hmem
      have := hfile id (List.mem_range'_1.1 hid).1
      simpa using Ne.symm this
    · rw [List.mem_singleton.1 hmem]
      simp

theorem folder_after_cutting (hhouses : disk.files.Houses names root place)
    (hnames : ∀ file,
      IsFileWithin name (firstOf entries).segment.toNat (lastOf entries).segment.toNat file →
        names file)
    (h : Intact (disk.files.folder place) name entries) (hitems : items + 1 < entries.length) :
    (disk.after place (cutting name entries items)).files.folder place =
      (disk.files.folder place).after (cutting name entries items) :=
  Disk.folder_after hhouses
    (fun _ hmem => hnames _ (isFileWithin_of_mem_cutting h hitems hmem)) (fits_cutting h hitems)

theorem opened_cutting (cap : Nat) (hhouses : disk.files.Houses names root place)
    (hnames : ∀ file,
      IsFileWithin name (firstOf entries).segment.toNat (lastOf entries).segment.toNat file →
        names file)
    (h : Intact (disk.files.folder place) name entries) (hitems : items + 1 < entries.length)
    (hdisk' : disk' = disk.after place (cutting name entries items)) :
    opened disk'.files place root name cap (entries.take (items + 1)) =
      { headed disk.files place (opened disk.files place root name cap entries)
          (lastOf (entries.take (items + 1))).segment.toNat
          (lastOf (entries.take (items + 1))).offset.toNat with
        items := (firstOf entries).offset.toNat + items } := by
  have hfolder : disk'.files.folder place =
      (disk.files.folder place).after (cutting name entries items) := by
    rw [hdisk', folder_after_cutting hhouses hnames h hitems]
  have hlength := (h.cutting hitems).1.headLength
  rw [← hfolder] at hlength
  have hindex : disk'.files.number place (indexFileName name) =
      disk.files.number place (indexFileName name) := by
    rw [hdisk']
    exact number_cutting (fun _ _ => indexFileName_ne_segmentFileName _ _ _) (List.Subset.refl _)
  have hsegments : openSegments disk'.files place name (firstOf entries).segment.toNat
      (lastOf (entries.take (items + 1))).segment.toNat =
        openSegments disk.files place name (firstOf entries).segment.toNat
          (lastOf (entries.take (items + 1))).segment.toNat := by
    refine openSegments_congr fun id _ hid => ?_
    rw [hdisk']
    exact number_cutting (fun other hother => segmentFileName_ne (by omega)) (List.Subset.refl _)
  have hcount : (entries.take (items + 1)).length - 1 = items := by
    rw [List.length_take]
    omega
  unfold opened headed
  rw [firstOf_take, hlength, hindex, hsegments, hcount]

theorem after_cutIndex (hhouses : disk.files.Houses names root place)
    (hnames : ∀ file,
      IsFileWithin name (firstOf entries).segment.toNat (lastOf entries).segment.toNat file →
        names file)
    (h : Intact (disk.files.folder place) name entries) (hitems : items + 1 < entries.length)
    (hdisk' : disk' = disk.change place (.setLength (indexFileName name) (position (items + 1)))) :
    disk'.files.Houses names root place ∧
      (∀ file, disk'.files.number place file = disk.files.number place file) ∧
      (∀ id, (firstOf entries).segment.toNat ≤ id → id ≤ (lastOf entries).segment.toNat →
        disk'.files.folder place (segmentFileName name id) ≠ none) ∧
      (readEntry (.file (disk.files.number place (indexFileName name)) true) items).outcome disk' =
        (.ok (lastOf (entries.take (items + 1))), disk') := by
  have hchange : names (Change.setLength (indexFileName name) (position (items + 1))).name :=
    hnames _ (isFileWithin_index _ _ _)
  have hfits : Change.Fits (disk.files.folder place)
      (.setLength (indexFileName name) (position (items + 1))) := by simp [Change.Fits, h.index]
  have hnumber : ∀ file, disk'.files.number place file = disk.files.number place file := by
    intro file
    rw [hdisk']
    exact Change.number_effect (by simp)
  have hfolder : disk'.files.folder place = Change.apply (disk.files.folder place)
      (.setLength (indexFileName name) (position (items + 1))) := by
    rw [hdisk']
    exact Change.folder_effect hhouses hfits
  refine ⟨by rw [hdisk']; exact Change.houses_effect hhouses hchange hfits, hnumber,
    fun id hlow hhigh => ?_, ?_⟩
  · have hne : segmentFileName name id ≠ indexFileName name :=
      Ne.symm (indexFileName_ne_segmentFileName _ _ _)
    rw [hfolder, Change.apply_ne _ _ hne]
    exact h.there hlow hhigh
  · have hindex := h.apply_cutIndex hitems
    rw [← hfolder] at hindex
    rw [← hnumber]
    refine outcome_readEntry_of_index hindex ?_
    have hentry := List.getElem?_eq_getElem (Nat.lt_of_succ_lt hitems)
    rw [Audit.entries_encodeAll fun entry hmem => h.storable entry (List.mem_of_mem_take hmem),
      List.getElem?_take_of_lt (Nat.lt_succ_self _), lastOf_take hentry, hentry]

/-- A cut of an intact table keeps the given number of items behind those that were pruned. -/
theorem outcome_truncate {table : Table}
    (htable : table = opened disk.files place root name cap entries)
    (hhouses : disk.files.Houses names root place)
    (hnames : ∀ file,
      IsFileWithin name (firstOf entries).segment.toNat (lastOf entries).segment.toNat file →
        names file)
    (h : Intact (disk.files.folder place) name entries) (hitems : items + 1 < entries.length)
    (hdisk' : disk' = disk.after place (cutting name entries items)) :
    (truncate ((firstOf entries).offset.toNat + items)).outcome (table, disk) =
      (.ok (), (opened disk'.files place root name cap (entries.take (items + 1)), disk')) := by
  have hname : table.name = name := by rw [htable, opened_name]
  have hdir : table.dir = root := by rw [htable, opened_dir]
  have hindex : table.index = some (.file (disk.files.number place (indexFileName name)) true) := by
    rw [htable, opened_index]
  have hoffset : table.itemOffset = (firstOf entries).offset.toNat := by
    rw [htable, opened_itemOffset]
  have hcount : ¬ table.items ≤ (firstOf entries).offset.toNat + items := by
    rw [htable, opened_items]
    omega
  have hheadId : table.headId = (lastOf entries).segment.toNat := by rw [htable, opened_headId]
  have htailId : table.tailId = (firstOf entries).segment.toNat := by rw [htable, opened_tailId]
  have htable' := opened_cutting cap hhouses hnames h hitems hdisk'
  rw [← htable] at htable'
  have hmem := lastOf_take_mem hitems
  generalize hdisk₁ : disk.change place (.setLength (indexFileName name) (position (items + 1))) =
    disk₁
  obtain ⟨hhouses₁, hnumber₁, hthere₁, hread⟩ :=
    after_cutIndex hhouses hnames h hitems hdisk₁.symm
  generalize hlast : lastOf (entries.take (items + 1)) = last at *
  have hlow : table.tailId ≤ last.segment.toNat := by
    rw [htailId]
    exact h.le_segment hmem
  have hhigh : last.segment.toNat ≤ table.headId := by
    rw [hheadId]
    exact h.segment_le hmem
  have hheaded : headed disk₁.files place table last.segment.toNat table.headBytes =
      headed disk.files place table last.segment.toNat table.headBytes := by
    rw [headed, headed, openSegments_congr fun id _ _ => hnumber₁ _]
  have hsegments : table.segments =
      openSegments disk₁.files place name table.tailId table.headId := by
    rw [hheadId, htailId, htable, opened_segments]
    exact (openSegments_congr fun id _ _ => hnumber₁ _).symm
  -- with the index cut, the head is the segment of the last entry
  have hgoOn := outcome_goOn hname hdir hsegments hhouses₁
    (fun id hid hle => hnames _ (isFileWithin_segment name (htailId ▸ Nat.le_trans hlow hid)
      (hheadId ▸ hle)))
    (fun id hid hle => hthere₁ id (htailId ▸ Nat.le_trans hlow hid) (hheadId ▸ hle)) hlow hhigh
  rw [hheaded, hheadId] at hgoOn
  generalize hdisk₂ : disk₁.after place
    (releasing name last.segment.toNat (lastOf entries).segment.toNat) = disk₂ at hgoOn
  have hget : (headed disk.files place table last.segment.toNat table.headBytes).segments.get?
      last.segment.toNat = some (.file (disk₂.files.number place
        (segmentFileName name last.segment.toNat)) true) := by
    have hreleasing : releasing name last.segment.toNat (lastOf entries).segment.toNat ⊆
        cutting name entries items := by
      rw [cutting, trimming, hlast]
      exact fun _ hmem => List.mem_cons_of_mem _ (List.mem_append_left _ hmem)
    have hnumber₂ : disk₂.files.number place (segmentFileName name last.segment.toNat) =
        disk₁.files.number place (segmentFileName name last.segment.toNat) := by
      rw [← hdisk₂]
      refine number_cutting (fun id hid => segmentFileName_ne (Nat.ne_of_lt ?_)) hreleasing
      rwa [hlast] at hid
    rw [hnumber₂, hnumber₁, ← hname]
    exact get?_openSegments_head _ _ _ _ _
  unfold truncate
  simp only [switchHead_bind]
  rw [Attempt.outcome_bind_ok (outcome_openIndex hindex disk),
    Attempt.outcome_bind_ok (Attempt.outcome_current _ _), if_neg hcount,
    if_neg (by rw [hoffset]; omega), hoffset, Nat.add_sub_cancel_left,
    Attempt.outcome_bind_ok (Attempt.outcome_onSecond_of (Handle.outcome_setLength _ _ _ _) _),
    hdisk₁, Attempt.outcome_bind_ok (Attempt.outcome_onSecond_of hread _)]
  rw [hheadId, hgoOn, Attempt.outcome_bind_ok (outcome_openSegment hget _),
    Attempt.outcome_bind_ok (Attempt.outcome_onSecond_of (Handle.outcome_setLength _ _ _ _) _),
    Attempt.outcome_update, htable', hdisk', cutting, trimming, Disk.after_cons,
    Disk.after_append, hlast, hdisk₁, hdisk₂]
  rfl

end BlockArchive.Table
