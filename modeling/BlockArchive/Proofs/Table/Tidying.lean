import BlockArchive.Proofs.Interruption
import BlockArchive.Proofs.Table.Files

/-! # Steps that leave what a repair keeps

A repair, and all of a cut but its first step, change the files of a table only where no entry that
is kept reaches.  `Tidies` lists these steps.

* **Invariant.** Such a step leaves the entries that a repair keeps, and their items
  (`Recovers.tidies`); so do all of them together (`Recovers.after`).
* **On a disk.** `Tidied` is the relation of two disks between which nothing else was done, and
  `TidiedIn` besides says to files with which names. -/

namespace BlockArchive.Table

open IndexEntry

/-- A step that leaves what a repair keeps of the table `name`. -/
inductive Tidies (name : String) (folder : Folder) : Change → Prop where
  /-- The index is made. -/
  | makeIndex (hfree : folder (indexFileName name) = none) :
      Tidies name folder (.make (indexFileName name))
  /-- Torn bytes are cut off. -/
  | cutTorn {data : Bytes} (hindex : folder (indexFileName name) = some data) :
      Tidies name folder (.setLength (indexFileName name) (position (data.length / width)))
  /-- The sentinel, or a first part of it, is written to an empty index. -/
  | writeSentinel (hindex : folder (indexFileName name) = some []) (count : Nat) :
      Tidies name folder (.write (indexFileName name) 0 (sentinel.encode.take count))
  /-- A last entry that reaches past the end of its segment is dropped. -/
  | dropEntry {entries : List IndexEntry} {last : IndexEntry} (hne : entries ≠ [])
      (hstorable : ∀ entry ∈ entries ++ [last], entry.IsStorable)
      (hindex : folder (indexFileName name) = some (encodeAll (entries ++ [last])))
      (hdangles : dangles folder name last = true) :
      Tidies name folder (.setLength (indexFileName name) (position entries.length))
  /-- A missing segment is made. -/
  | makeSegment {id : Nat} (hid : id ≤ lastSegmentId)
      (hfree : folder (segmentFileName name id) = none) :
      Tidies name folder (.make (segmentFileName name id))
  /-- The segment of the last entry is cut to where that one says. -/
  | cutHead {entries : List IndexEntry} (hne : entries ≠ [])
      (hstorable : ∀ entry ∈ entries, entry.IsStorable)
      (hindex : folder (indexFileName name) = some (encodeAll entries))
      (hthere : folder (segmentFileName name (lastOf entries).segment.toNat) ≠ none)
      (hreaches : dangles folder name (lastOf entries) = false) :
      Tidies name folder (.setLength (segmentFileName name (lastOf entries).segment.toNat)
        (lastOf entries).offset.toNat)
  /-- A segment above that of the last entry is deleted. -/
  | release {entries : List IndexEntry} (hne : entries ≠ [])
      (hstorable : ∀ entry ∈ entries, entry.IsStorable)
      (hindex : folder (indexFileName name) = some (encodeAll entries))
      (hreaches : dangles folder name (lastOf entries) = false) {id : Nat}
      (hid : id ≤ lastSegmentId) (habove : (lastOf entries).segment.toNat < id)
      (hthere : folder (segmentFileName name id) ≠ none) :
      Tidies name folder (.remove (segmentFileName name id))

variable {folder folder' : Folder} {name : String} {entries : List IndexEntry} {change : Change}

theorem Tidies.fits (h : Tidies name folder change) : change.Fits folder := by
  cases h with
  | makeIndex hfree => exact hfree
  | cutTorn hindex => simp [Change.Fits, hindex]
  | writeSentinel hindex count => simp [Change.Fits, hindex]
  | dropEntry hne hstorable hindex hdangles => simp [Change.Fits, hindex]
  | makeSegment hid hfree => exact hfree
  | cutHead hne hstorable hindex hthere hreaches => exact hthere
  | release hne hstorable hindex hreaches hid habove hthere => exact hthere

theorem Tidies.isFileOf (h : Tidies name folder change) : IsFileOf name change.name := by
  cases h with
  | makeIndex | cutTorn | writeSentinel | dropEntry => exact isFileOf_index name
  | makeSegment hid => exact isFileOf_segment name hid
  | cutHead hne hstorable => exact isFileOf_segment name (hstorable _ (lastOf_mem hne))
  | release hne hstorable hindex hreaches hid => exact isFileOf_segment name hid

theorem fits_of_each_tidies {changes : List Change}
    (h : Folder.Each (Tidies name) folder changes) : folder.Fits changes :=
  h.imp fun _ _ h => h.fits

theorem isFileOf_of_each_tidies {changes : List Change}
    (h : Folder.Each (Tidies name) folder changes) (hmem : change ∈ changes) :
    IsFileOf name change.name := by
  induction changes generalizing folder with
  | nil => simp at hmem
  | cons first changes ih =>
      rcases List.mem_cons.1 hmem with rfl | hmem
      · exact h.1.isFileOf
      · exact ih h.2 hmem

/-- Of a write that tidies, every first part does. -/
theorem Tidies.take {file : String} {start : Nat} {data : Bytes}
    (h : Tidies name folder (.write file start data)) (count : Nat) :
    Tidies name folder (.write file start (data.take count)) := by
  cases h with
  | writeSentinel hindex count' =>
      rw [List.take_take]
      exact .writeSentinel hindex _

/-! ### What a step leaves -/

/-- A step on the index leaves the segments. -/
theorem segmentBytes_update_index (folder : Folder) (name : String) (content : Option Bytes)
    (id : Nat) :
    segmentBytes (Function.update folder (indexFileName name) content) name id =
      segmentBytes folder name id := by
  unfold segmentBytes
  rw [Function.update_of_ne (Ne.symm (indexFileName_ne_segmentFileName _ _ _))]

theorem agrees_update_index (folder : Folder) (name : String) (content : Option Bytes)
    (entries : List IndexEntry) :
    Agrees folder (Function.update folder (indexFileName name) content) name entries := by
  refine ⟨fun id _ _ => ?_, ?_⟩
  · rw [Function.update_of_ne (Ne.symm (indexFileName_ne_segmentFileName _ _ _))]
  · rw [segmentBytes_update_index]

theorem kept_update_index {content : Option Bytes}
    (h : keep folder name (written (Function.update folder (indexFileName name) content) name) =
      kept folder name) :
    kept (Function.update folder (indexFileName name) content) name = kept folder name := by
  rw [← h, kept]
  refine keep_congr (fun id => ?_) _
  rw [segmentBytes_update_index]

theorem written_update_index (hne : entries ≠ [])
    (hstorable : ∀ entry ∈ entries, entry.IsStorable) :
    written (Function.update folder (indexFileName name) (some (encodeAll entries))) name =
      entries :=
  written_of_index hne hstorable (Function.update_self _ _ _)

theorem segmentBytes_update_empty {id : Nat} (hfree : folder (segmentFileName name id) = none)
    (other : Nat) :
    segmentBytes (Function.update folder (segmentFileName name id) (some [])) name other =
      segmentBytes folder name other := by
  unfold segmentBytes
  by_cases heq : segmentFileName name other = segmentFileName name id
  · rw [heq, Function.update_self, hfree]
    rfl
  · rw [Function.update_of_ne heq]

/-- When the index stays and its last entry does not dangle, before or after, all is kept. -/
theorem kept_eq_of_index (hne : entries ≠ []) (hstorable : ∀ entry ∈ entries, entry.IsStorable)
    (hindex : folder (indexFileName name) = some (encodeAll entries))
    (hreaches : dangles folder name (lastOf entries) = false) : kept folder name = entries := by
  rw [kept, written_of_index hne hstorable hindex]
  exact keep_of_not_dangles hreaches

theorem written_of_cutTorn {data : Bytes} (h : folder (indexFileName name) = some data)
    (h' : folder' (indexFileName name) =
      some (data.resize (position (data.length / width)))) :
    written folder' name = written folder name := by
  have hle : position (data.length / width) ≤ data.length := Nat.div_mul_le_self _ _
  rw [written_eq h, written_eq h', Bytes.resize_of_le hle, Audit.entries_take_whole]

theorem written_of_take_sentinel {count : Nat}
    (h : folder (indexFileName name) = some (sentinel.encode.take count)) :
    written folder name = [sentinel] := by
  rw [written_eq h]
  by_cases hcount : count < width
  · have hshort : (sentinel.encode.take count).length < width := by
      rw [List.length_take]
      omega
    rw [if_pos (Audit.entries_of_length_lt hshort)]
  · rw [List.take_of_length_le (by rw [length_encode]; omega), ← encodeAll_singleton,
      Audit.entries_encodeAll (by simp [isStorable_sentinel])]
    rfl

theorem Tidies.kept (h : Tidies name folder change) :
    Table.kept (change.apply folder) name = Table.kept folder name := by
  cases h with
  | makeIndex hfree =>
      refine kept_update_index (congrArg (keep folder name) ?_)
      rw [written_of_missing hfree, written_eq (Function.update_self _ _ _)]
      rfl
  | cutTorn hindex =>
      rw [Change.apply, hindex, Option.map_some]
      refine kept_update_index (congrArg (keep folder name) ?_)
      exact written_of_cutTorn hindex (Function.update_self _ _ _)
  | writeSentinel hindex count =>
      have hempty : Bytes.overwrite [] 0 (sentinel.encode.take count) =
          sentinel.encode.take count := Bytes.overwrite_length [] _
      rw [Change.apply, hindex, Option.map_some, hempty]
      refine kept_update_index (congrArg (keep folder name) ?_)
      rw [written_of_take_sentinel (Function.update_self _ _ _), written_eq hindex]
      rfl
  | @dropEntry entries last hne hstorable hindex hdangles =>
      have hcut : (encodeAll (entries ++ [last])).resize (position entries.length) =
          encodeAll entries := by
        rw [resize_encodeAll_of_le (List.prefix_append _ _).length_le, List.take_left]
      rw [Change.apply, hindex, Option.map_some, hcut]
      refine kept_update_index ?_
      rw [written_update_index hne fun e he => hstorable e (List.mem_append_left _ he),
        Table.kept, written_of_index (by simp) hstorable hindex,
        keep_concat_of_dangles hne hdangles]
  | @makeSegment id hid hfree =>
      have hindex : Function.update folder (segmentFileName name id) (some [])
          (indexFileName name) = folder (indexFileName name) :=
        Function.update_of_ne (indexFileName_ne_segmentFileName _ _ _) _ _
      rw [Change.apply, Table.kept, Table.kept, written, written, hindex]
      refine keep_congr (fun other => ?_) _
      rw [segmentBytes_update_empty hfree]
  | @cutHead entries hne hstorable hindex hthere hreaches =>
      rw [kept_eq_of_index hne hstorable hindex hreaches]
      refine kept_eq_of_index hne hstorable ?_ ?_
      · rw [Change.apply_ne _ _ (indexFileName_ne_segmentFileName _ _ _), hindex]
      · obtain ⟨content, hcontent⟩ := Option.ne_none_iff_exists'.1 hthere
        simp [Change.apply, dangles, segmentBytes, hcontent]
  | @release entries hne hstorable hindex hreaches id hid habove hthere =>
      rw [kept_eq_of_index hne hstorable hindex hreaches]
      refine kept_eq_of_index hne hstorable ?_ ?_
      · rw [Change.apply_ne _ _ (indexFileName_ne_segmentFileName _ _ _), hindex]
      · rw [← hreaches, dangles, segmentBytes, Change.apply_ne _ _ ?_]
        · rfl
        · exact segmentFileName_ne (Nat.ne_of_lt habove)

/-- The segments of backed entries stay as far as the entries reach. -/
theorem Tidies.agrees (h : Tidies name folder change)
    (hbacked : Backed folder name (Table.kept folder name)) :
    Agrees folder (change.apply folder) name (Table.kept folder name) := by
  cases h with
  | makeIndex | cutTorn | writeSentinel | dropEntry => exact agrees_update_index _ _ _ _
  | @makeSegment id hid hfree =>
      refine ⟨fun other hle hlt => Change.apply_ne _ _ ?_, ?_⟩
      · intro heq
        exact hbacked.history other hle hlt (heq ▸ hfree)
      · rw [Change.apply, segmentBytes_update_empty hfree]
  | @cutHead entries hne hstorable hindex hthere hreaches =>
      rw [kept_eq_of_index hne hstorable hindex hreaches]
      refine ⟨fun other _ hlt => Change.apply_ne _ _ ?_, ?_⟩
      · exact segmentFileName_ne (Nat.ne_of_lt hlt)
      · obtain ⟨content, hcontent⟩ := Option.ne_none_iff_exists'.1 hthere
        simp only [dangles, segmentBytes, hcontent, Option.getD_some, decide_eq_false_iff_not,
          Nat.not_lt] at hreaches
        simp only [Change.apply, segmentBytes, Function.update_self, hcontent, Option.map_some,
          Option.getD_some, Bytes.resize_of_le hreaches, List.take_take, Nat.min_self]
  | @release entries hne hstorable hindex hreaches id hid habove hthere =>
      rw [kept_eq_of_index hne hstorable hindex hreaches]
      refine ⟨fun other _ hlt => Change.apply_ne _ _ ?_, ?_⟩
      · exact segmentFileName_ne (by omega)
      · rw [segmentBytes, Change.apply_ne _ _ ?_]
        · rfl
        · exact segmentFileName_ne (Nat.ne_of_lt habove)

/-- A tidying step leaves what a repair keeps, and the items of it. -/
theorem Recovers.tidies (h : Recovers folder name entries) (hstep : Tidies name folder change) :
    Recovers (change.apply folder) name entries ∧
      Agrees folder (change.apply folder) name entries := by
  have hagree := hstep.agrees (h.kept.symm ▸ h.toBacked)
  rw [h.kept] at hagree
  exact ⟨⟨h.toBacked.of_agrees hagree, hstep.kept.trans h.kept⟩, hagree⟩

/-- Tidying steps, one after the other, leave what a repair keeps. -/
theorem Recovers.after {changes : List Change} (h : Recovers folder name entries)
    (hsteps : Folder.Each (Tidies name) folder changes) :
    Recovers (folder.after changes) name entries ∧
      Agrees folder (folder.after changes) name entries := by
  have hkeep : ∀ folder' change,
      Recovers folder' name entries ∧ Agrees folder folder' name entries →
        Tidies name folder' change →
          Recovers (change.apply folder') name entries ∧
            Agrees folder (change.apply folder') name entries := by
    intro folder' change ⟨h, hagree⟩ hstep
    obtain ⟨h', hagree'⟩ := h.tidies hstep
    exact ⟨h', hagree.trans hagree'⟩
  exact hsteps.preserves hkeep ⟨h, Agrees.refl _ _ _⟩

/-! ### On a disk -/

/-- Nothing but tidying up a table was done between the one disk and the other. -/
def Tidied (name : String) (place : Location) (disk disk' : Disk) : Prop :=
  ∃ changes, Folder.Each (Tidies name) (disk.files.folder place) changes ∧
    disk' = disk.after place changes

section disk

variable {names : String → Prop} {root : Path} {place : Location} {disk disk' disk'' : Disk}

/-- Nothing but tidying up a table was done, and only to files with these names. -/
def TidiedIn (names : String → Prop) (name : String) (place : Location)
    (disk disk' : Disk) : Prop :=
  ∃ changes, Folder.Each (Tidies name) (disk.files.folder place) changes ∧
    (∀ change ∈ changes, names change.name) ∧ disk' = disk.after place changes

namespace TidiedIn

theorem refl (names : String → Prop) (name : String) (place : Location) (disk : Disk) :
    TidiedIn names name place disk disk :=
  ⟨[], trivial, by simp, rfl⟩

theorem of_change (h : Tidies name (disk.files.folder place) change) (hname : names change.name) :
    TidiedIn names name place disk (disk.change place change) :=
  ⟨[change], ⟨h, trivial⟩, by simpa using hname, rfl⟩

theorem tidied (h : TidiedIn names name place disk disk') : Tidied name place disk disk' := by
  obtain ⟨changes, hchanges, -, hdisk'⟩ := h
  exact ⟨changes, hchanges, hdisk'⟩

theorem houses_and_folder (h : TidiedIn names name place disk disk')
    (hhouses : disk.files.Houses names root place) :
    disk'.files.Houses names root place ∧
      ∃ changes, Folder.Each (Tidies name) (disk.files.folder place) changes ∧
        disk'.files.folder place = (disk.files.folder place).after changes := by
  obtain ⟨changes, hchanges, hnames, rfl⟩ := h
  obtain ⟨hhouses', hfolder⟩ :=
    Disk.houses_and_folder_after hhouses hnames (fits_of_each_tidies hchanges)
  exact ⟨hhouses', changes, hchanges, hfolder⟩

theorem houses (h : TidiedIn names name place disk disk')
    (hhouses : disk.files.Houses names root place) : disk'.files.Houses names root place :=
  (h.houses_and_folder hhouses).1

theorem trans (h : TidiedIn names name place disk disk')
    (h' : TidiedIn names name place disk' disk'')
    (hhouses : disk.files.Houses names root place) : TidiedIn names name place disk disk'' := by
  obtain ⟨changes, hchanges, hnames, rfl⟩ := h
  obtain ⟨changes', hchanges', hnames', rfl⟩ := h'
  rw [Disk.folder_after hhouses hnames (fits_of_each_tidies hchanges)] at hchanges'
  refine ⟨changes ++ changes', (Folder.each_append _ _ _).2 ⟨hchanges, hchanges'⟩,
    fun change hmem => ?_, (Disk.after_append _ _ _ _).symm⟩
  rcases List.mem_append.1 hmem with hmem | hmem
  · exact hnames change hmem
  · exact hnames' change hmem

end TidiedIn

theorem Tidied.tidiedIn (h : Tidied name place disk disk')
    (hnames : ∀ file, IsFileOf name file → names file) : TidiedIn names name place disk disk' := by
  obtain ⟨changes, hchanges, hdisk'⟩ := h
  exact ⟨changes, hchanges, fun change hmem => hnames _ (isFileOf_of_each_tidies hchanges hmem),
    hdisk'⟩

theorem Tidied.houses_and_folder (h : Tidied name place disk disk')
    (hhouses : disk.files.Houses names root place)
    (hnames : ∀ file, IsFileOf name file → names file) :
    disk'.files.Houses names root place ∧
      ∃ changes, Folder.Each (Tidies name) (disk.files.folder place) changes ∧
        disk'.files.folder place = (disk.files.folder place).after changes :=
  (h.tidiedIn hnames).houses_and_folder hhouses

/-- Tidying up leaves what a repair keeps. -/
theorem Recovers.tidied (h : Recovers (disk.files.folder place) name entries)
    (htidied : Tidied name place disk disk') (hhouses : disk.files.Houses names root place)
    (hnames : ∀ file, IsFileOf name file → names file) :
    Recovers (disk'.files.folder place) name entries ∧
      Agrees (disk.files.folder place) (disk'.files.folder place) name entries := by
  obtain ⟨-, changes, hchanges, hfolder⟩ := htidied.houses_and_folder hhouses hnames
  rw [hfolder]
  exact h.after hchanges

end disk

end BlockArchive.Table
