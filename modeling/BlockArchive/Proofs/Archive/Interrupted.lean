import BlockArchive.Proofs.Archive.Serving
import BlockArchive.Proofs.Interruption

/-! # What a crash leaves of an archive

Whatever is interrupted, the files that are left keep rows (`Keeps`), and so can be opened.

* **Append.** `AppendCrash` are the files of a crash in the middle of an append.  They keep the new
  row if it is there as a whole, in all columns (`Stores.keeps_of_appendCrash`).  Every append that
  is cut short leaves such files (`Stores.exists_appendCrash`), or, if the row was refused, others
  that keep the rows of before (`Stores.keeps_of_append_cutShort`).
* **Cut.** A cut that was begun is as good as done (`Stores.keeps_of_truncate_cutShort`).
* **Opening.** Of an opening that was cut short the next one sees nothing
  (`Restores.of_openAt_cutShort`). -/

namespace BlockArchive.Archive

open IndexEntry Table

variable {archive : Archive} {disk disk' : Disk} {root : Path} {place : Location} {cap : Nat}
  {entries : ByColumn (List IndexEntry)} {items : ByColumn (List Bytes)} {rows : List Row}
  {row : Row} {c : Column} {files : FileSystem} {cut : List Effect} {blocks : Nat}
  {settings : Settings}

/-- The effects that an action performs. -/
def performs {α : Type} (action : Action (Archive × Disk) α) (archive : Archive) (disk : Disk) :
    List Effect :=
  (action.outcome (archive, disk)).2.2.effects.drop disk.effects.length

theorem performs_eq {α : Type} {action : Action (Archive × Disk) α} {answer : Except Error α}
    {archive' : Archive} {changes : List Change}
    (hrun : action.outcome (archive, disk) = (answer, (archive', disk.after place changes))) :
    performs action archive disk = disk.effectsOf place changes := by
  rw [performs, hrun, Disk.effects_after, List.drop_left]

theorem performs_of_unchanged {α : Type} {action : Action (Archive × Disk) α}
    (h : (action.outcome (archive, disk)).2.2 = disk) : performs action archive disk = [] := by
  rw [performs, h, List.drop_length]

theorem Restores.after_changes (h : Restores (disk.files.folder place) entries rows)
    (hhouses : disk.files.Houses IsFile root place) {changes : List Change}
    (heach : Folder.Each (Mends rows.length) (disk.files.folder place) changes) :
    (disk.after place changes).files.Houses IsFile root place ∧
      Restores ((disk.after place changes).files.folder place) entries rows := by
  obtain ⟨hhouses', hfolder⟩ := Disk.houses_and_folder_after hhouses
    (fun change hmem => isFile_of_each_mends heach hmem) (fits_of_each_mends heach)
  rw [hfolder]
  exact ⟨hhouses', h.after heach⟩

/-! ### In the middle of an append -/

/-- What a crash leaves of the files of one table, when the append did not come to it, or when it
wrote the first bytes of the item and the first bytes of the entry, as many as `progress` tells. -/
def TableLeft (before after : Folder) (table : Table) (blob : Bytes) : Option (Nat × Nat) → Prop
  | none => SameFiles before after table.name
  | some (bytes, part) => table.HasRoom blob.length ∧ AppendCut before after table blob bytes part

/-- Whether an append got as far as to have written all of the item and all of the entry. -/
def isWhole (blob : Bytes) : Option (Nat × Nat) → Bool
  | none => false
  | some (bytes, part) => blob.length ≤ bytes && width ≤ part

/-- The files that a crash leaves in the middle of appending `row`, after `progress` in the table of
each column. -/
structure AppendCrash (archive : Archive) (disk : Disk) (root : Path) (place : Location) (row : Row)
    (progress : Column → Option (Nat × Nat)) (files : FileSystem) : Prop where
  houses : files.Houses IsFile root place
  left : ∀ c : Column, TableLeft (disk.files.folder place) (files.folder place)
    (archive.tables.get c) (row.get c) (progress c)

/-- The rows that are left when appending `row` was interrupted. -/
def rowsLeft (rows : List Row) (row : Row) (progress : Column → Option (Nat × Nat)) : List Row :=
  if Column.all.all fun c => isWhole (row.get c) (progress c) then rows ++ [row] else rows

theorem TableLeft.congr {before after after' : Folder} {table : Table} {blob : Bytes}
    {progress : Option (Nat × Nat)} (h : TableLeft before after table blob progress)
    (hsame : SameFiles after after' table.name) : TableLeft before after' table blob progress := by
  cases progress with
  | none => exact SameFiles.trans h hsame
  | some progress => exact ⟨h.1, h.2.congr hsame⟩

theorem IsOpen.left_of_cutShort (h : archive.IsOpen disk root place cap entries items)
    (hroom : (archive.tables.get c).HasRoom (row.get c).length) {folder : Folder}
    (hsame : SameFiles (disk.files.folder place) folder c.name) {left : List Change}
    (hleft : Change.CutShort
      (appending (disk.files.folder place) (archive.tables.get c) (row.get c)) left) :
    folder.Fits left ∧ (∀ change ∈ left, IsFileOf c.name change.name) ∧
      ∃ progress, TableLeft (disk.files.folder place) (folder.after left) (archive.tables.get c)
        (row.get c) progress := by
  have htable := h.table_eq c
  have hwhole := h.whole c
  have hname : (archive.tables.get c).name = c.name := by rw [htable, opened_name]
  have hfile : ∀ change ∈ left, IsFileOf c.name change.name := by
    intro change hmem
    obtain ⟨original, horiginal, heq⟩ := hleft.name_mem hmem
    rw [← heq]
    exact (h.isOpenOn.isFileWithin_of_mem_appending horiginal).isFileOf
      (hroom.slot_le (h.isOpenOn.headId_le c))
  have hfits : (disk.files.folder place).Fits left :=
    Folder.fits_cutShort (after_appending htable hwhole.indexed (row.get c)).1 hleft
  refine ⟨hfits.congr fun change hmem => (hsame.of_isFileOf (hfile change hmem)).symm, hfile, ?_⟩
  rcases hwhole.appendCut_of_cutShort htable hleft with rfl | ⟨bytes, part, hcut⟩
  · refine ⟨none, ?_⟩
    rwa [TableLeft, hname]
  · refine ⟨some (bytes, part), hroom, hcut.congr ?_⟩
    rw [hname]
    exact hsame.after left

theorem IsOpen.exists_left_of_cutShort
    (h : archive.IsOpen disk root place cap entries items) {columns : List Column}
    (hnodup : columns.Nodup)
    (hroom : ∀ c ∈ columns, (archive.tables.get c).HasRoom (row.get c).length) {folder : Folder}
    (hsame : ∀ c ∈ columns, SameFiles (disk.files.folder place) folder c.name)
    {left : List Change}
    (hleft : Change.CutShort
      (appendingIn columns (disk.files.folder place) archive.tables row) left) :
    folder.Fits left ∧ (∀ change ∈ left, ∃ c ∈ columns, IsFileOf c.name change.name) ∧
      ∃ progress : Column → Option (Nat × Nat), (∀ c ∉ columns, progress c = none) ∧
        ∀ c ∈ columns, TableLeft (disk.files.folder place) (folder.after left)
          (archive.tables.get c) (row.get c) (progress c) := by
  induction columns generalizing folder left with
  | nil =>
      rw [Change.cutShort_nil.1 hleft]
      exact ⟨trivial, by simp, fun _ => none, fun _ _ => rfl, by simp⟩
  | cons c columns ih =>
      obtain ⟨hc, hnodup⟩ := List.nodup_cons.1 hnodup
      have hne : ∀ d ∈ columns, d ≠ c := fun d hd hdc => hc (hdc ▸ hd)
      have hhere := hroom c List.mem_cons_self
      have hsameHere := hsame c List.mem_cons_self
      have hothers : ∀ {changes : List Change}, (∀ change ∈ changes, IsFileOf c.name change.name) →
          ∀ d ∈ columns, SameFiles (disk.files.folder place) (folder.after changes) d.name :=
        fun hfile d hd => (hsame d (List.mem_cons_of_mem _ hd)).trans
          (sameFiles_after fun change hmem => .inr ⟨c, Ne.symm (hne d hd), hfile change hmem⟩)
      rw [appendingIn, List.flatMap_cons] at hleft
      rcases Change.cutShort_append hleft with hcut | ⟨more, hmore, rfl⟩
      · -- the tables after that of `c` were not come to
        obtain ⟨hfits, hfile, progress, htable⟩ := h.left_of_cutShort hhere hsameHere hcut
        refine ⟨hfits, fun change hmem => ⟨c, List.mem_cons_self, hfile change hmem⟩,
          Function.update (fun _ => none) c progress, fun d hd => ?_, fun d hd => ?_⟩
        · rw [Function.update_of_ne fun hdc : d = c => hd (hdc ▸ List.mem_cons_self)]
        · rcases List.mem_cons.1 hd with rfl | hd
          · rwa [Function.update_self]
          · rw [Function.update_of_ne (hne d hd), TableLeft, h.table_eq, opened_name]
            exact hothers hfile d hd
      · obtain ⟨hfits, hfile, progress, htable⟩ := h.left_of_cutShort hhere hsameHere (.refl _)
        obtain ⟨hfits', hfile', progress', hnone, hrest⟩ :=
          ih hnodup (fun d hd => hroom d (List.mem_cons_of_mem _ hd)) (hothers hfile) hmore
        refine ⟨(Folder.each_append _ _ _).2 ⟨hfits, hfits'⟩, fun change hmem => ?_,
          Function.update progress' c progress, fun d hd => ?_, fun d hd => ?_⟩
        · rcases List.mem_append.1 hmem with hmem | hmem
          · exact ⟨c, List.mem_cons_self, hfile change hmem⟩
          · obtain ⟨d, hd, hchange⟩ := hfile' change hmem
            exact ⟨d, List.mem_cons_of_mem _ hd, hchange⟩
        · rw [List.mem_cons, not_or] at hd
          rw [Function.update_of_ne hd.1, hnone d hd.2]
        · rw [Folder.after_append]
          rcases List.mem_cons.1 hd with rfl | hd
          · rw [Function.update_self]
            refine htable.congr ?_
            rw [h.table_eq, opened_name]
            refine sameFiles_after fun change hmem => ?_
            obtain ⟨d', hd', hchange⟩ := hfile' change hmem
            exact .inr ⟨d', hne d' hd', hchange⟩
          · rw [Function.update_of_ne (hne d hd)]
            exact hrest d hd

/-- When the changes that add a row are cut short, the files are such as a crash may leave. -/
theorem IsOpen.exists_appendCrash (h : archive.IsOpen disk root place cap entries items)
    {columns : List Column} (hnodup : columns.Nodup)
    (hroom : ∀ c ∈ columns, (archive.tables.get c).HasRoom (row.get c).length)
    {left : List Change}
    (hleft : Change.CutShort
      (appendingIn columns (disk.files.folder place) archive.tables row) left) :
    ∃ progress : Column → Option (Nat × Nat), (∀ c ∉ columns, progress c = none) ∧
      archive.AppendCrash disk root place row progress (disk.after place left).files := by
  obtain ⟨hfits, hfile, progress, hnone, hleft'⟩ :=
    h.exists_left_of_cutShort hnodup hroom (fun c _ => SameFiles.refl _ _) hleft
  obtain ⟨hhouses, hfolder⟩ := Disk.houses_and_folder_after h.houses (fun change hmem => by
    obtain ⟨c, -, hchange⟩ := hfile change hmem
    exact isFile_of_isFileOf hchange) hfits
  refine ⟨progress, hnone, hhouses, fun c => ?_⟩
  rw [hfolder]
  by_cases hc : c ∈ columns
  · exact hleft' c hc
  · rw [hnone c hc, TableLeft, h.table_eq, opened_name]
    refine sameFiles_after fun change hmem => ?_
    obtain ⟨d, hd, hchange⟩ := hfile change hmem
    exact .inr ⟨d, fun hdc => hc (hdc ▸ hd), hchange⟩

theorem IsOpen.exists_left (h : archive.IsOpen disk root place cap entries items)
    (hclimbs : Climbs (entries.get c)) {blob : Bytes} {after : Folder}
    {progress : Option (Nat × Nat)}
    (hleft : TableLeft (disk.files.folder place) after (archive.tables.get c) blob progress) :
    ∃ all, Recovers after c.name all ∧ storedItems after c.name all =
        (if isWhole blob progress then items.get c ++ [blob] else items.get c) ∧
      Climbs all := by
  have htable := h.table_eq c
  cases progress with
  | none =>
      have hname : (archive.tables.get c).name = c.name := by rw [htable, opened_name]
      have hsame : SameFiles (disk.files.folder place) after c.name := hname ▸ hleft
      refine ⟨entries.get c, (h.whole c).recovers.congr hsame, ?_, hclimbs⟩
      rw [(h.whole c).toBacked.storedItems_eq (hsame.agrees _), h.items]
      rfl
  | some progress =>
      obtain ⟨bytes, part⟩ := progress
      obtain ⟨hroom, hcut⟩ := hleft
      obtain ⟨hall, hpartial⟩ := hcut.recovers htable rfl (h.whole c) hroom
      by_cases hwhole : blob.length ≤ bytes ∧ width ≤ part
      · obtain ⟨hrecovers, hitems⟩ := hall hwhole
        refine ⟨_, hrecovers, ?_, (h.whole c).indexed.climbs_appending htable hclimbs hroom⟩
        rw [hitems, h.items]
        simp [isWhole, hwhole]
      · obtain ⟨hrecovers, hitems⟩ := hpartial hwhole
        refine ⟨_, hrecovers, ?_, hclimbs⟩
        rw [hitems, h.items, if_neg]
        simpa [isWhole] using hwhole

/-- After a crash in the middle of an append the files keep the new row if it is there as a whole,
and else the rows before. -/
theorem Stores.keeps_of_appendCrash (h : archive.Stores disk root place rows)
    {progress : Column → Option (Nat × Nat)}
    (hcrash : archive.AppendCrash disk root place row progress files) :
    Keeps (Disk.ofFiles files) root place (rowsLeft rows row progress) := by
  obtain ⟨cap, entries, hopen, -, hclimbs⟩ := h
  have hrows : ∀ c : Column, (if isWhole (row.get c) (progress c) then
      (columnsOf rows).get c ++ [row.get c] else (columnsOf rows).get c).take
        (rowsLeft rows row progress).length =
      (rowsLeft rows row progress).map fun row => row.get c := by
    intro c
    unfold rowsLeft
    split
    · next hall =>
        rw [List.all_eq_true] at hall
        rw [if_pos (hall c (Column.mem_all c)), get_columnsOf, List.map_append]
        exact List.take_of_length_le (by simp)
    · split
      · rw [get_columnsOf]
        exact List.take_left' (by simp)
      · rw [get_columnsOf]
        exact List.take_of_length_le (by simp)
  have hshort : ∃ c : Column, (if isWhole (row.get c) (progress c) then
      (columnsOf rows).get c ++ [row.get c] else (columnsOf rows).get c).length =
        (rowsLeft rows row progress).length := by
    unfold rowsLeft
    split
    · next hall =>
        rw [List.all_eq_true] at hall
        exact ⟨.hashes, by simp [hall .hashes (Column.mem_all _)]⟩
    · next hall =>
        simp only [List.all_eq_true, not_forall] at hall
        obtain ⟨c, -, hc⟩ := hall
        exact ⟨c, by simp [hc]⟩
  exact ⟨hcrash.houses, rfl, exists_restores_of_climbs
    (fun c => hopen.exists_left (hclimbs c) (hcrash.left c)) hrows hshort⟩

theorem rowsLeft_of_none {progress : Column → Option (Nat × Nat)} (h : progress c = none) :
    rowsLeft rows row progress = rows := by
  refine if_neg ?_
  rw [List.all_eq_true]
  intro hall
  simpa [h, isWhole] using hall c (Column.mem_all c)

theorem Stores.performs_append (h : archive.Stores disk root place rows)
    (hok : ((append rows.length row).outcome (archive, disk)).1 = .ok ()) :
    (∀ c : Column, (archive.tables.get c).HasRoom (row.get c).length) ∧
      performs (append rows.length row) archive disk = disk.effectsOf place
        (appendingIn Column.all (disk.files.folder place) archive.tables row) := by
  obtain ⟨cap, entries, hopen, hblocks, hclimbs⟩ := h
  by_cases hroom : ∀ c : Column, (archive.tables.get c).HasRoom (row.get c).length
  · obtain ⟨archive', disk', hrun, rfl, -, -⟩ := hopen.exists_append hblocks hroom
    exact ⟨hroom, performs_eq hrun⟩
  · obtain ⟨e, -, -, archive', disk', -, -, hrun, -⟩ := hopen.exists_refused hblocks hclimbs hroom
    rw [hrun] at hok
    simp at hok

/-- What is left when a row is being added is such as a crash may leave. -/
theorem Stores.exists_appendCrash (h : archive.Stores disk root place rows)
    (hok : ((append rows.length row).outcome (archive, disk)).1 = .ok ())
    (hcut : Effect.CutShort (performs (append rows.length row) archive disk) cut) :
    ∃ progress, archive.AppendCrash disk root place row progress
      (Effect.applyAll disk.files cut) := by
  obtain ⟨hroom, hperforms⟩ := h.performs_append hok
  obtain ⟨cap, entries, hopen, -⟩ := h
  rw [hperforms] at hcut
  obtain ⟨left, hleft, rfl⟩ := Disk.exists_changes hcut
  obtain ⟨progress, -, hcrash⟩ := hopen.exists_appendCrash (by decide) (fun c _ => hroom c) hleft
  rw [Disk.files_after] at hcrash
  exact ⟨progress, hcrash⟩

/-- Whenever an append is interrupted, the files keep the rows of before, and maybe the new one. -/
theorem Stores.keeps_of_append_cutShort (h : archive.Stores disk root place rows)
    (hcut : Effect.CutShort (performs (append rows.length row) archive disk) cut) :
    Keeps (Disk.ofFiles (Effect.applyAll disk.files cut)) root place rows ∨
      Keeps (Disk.ofFiles (Effect.applyAll disk.files cut)) root place (rows ++ [row]) := by
  obtain ⟨cap, entries, hopen, hblocks, hclimbs⟩ := id h
  by_cases hroom : ∀ c : Column, (archive.tables.get c).HasRoom (row.get c).length
  · obtain ⟨archive', disk', hrun, -⟩ := hopen.exists_append hblocks hroom
    obtain ⟨progress, hcrash⟩ := h.exists_appendCrash (by rw [hrun]) hcut
    have hkeeps := h.keeps_of_appendCrash hcrash
    unfold rowsLeft at hkeeps
    split at hkeeps
    · exact .inr hkeeps
    · exact .inl hkeeps
  · left
    obtain ⟨e, -, disk₁, archive', disk', done, c, hrun, -, ⟨hnodup, hc, hroom'⟩, hdisk₁, -,
      ⟨hdisk', heach⟩, -⟩ := hopen.exists_refused hblocks hclimbs hroom
    rw [hdisk', hdisk₁, ← Disk.after_append] at hrun
    rw [performs_eq hrun] at hcut
    obtain ⟨left, hleft, rfl⟩ := Disk.exists_changes hcut
    have hcrashed : ∀ {left : List Change}, Change.CutShort
        (appendingIn done (disk.files.folder place) archive.tables row) left →
          Keeps (Disk.ofFiles (disk.after place left).files) root place rows := by
      intro left hleft
      obtain ⟨progress, hnone, hcrash⟩ := hopen.exists_appendCrash hnodup hroom' hleft
      have hkeeps := h.keeps_of_appendCrash hcrash
      rwa [rowsLeft_of_none (hnone c hc)] at hkeeps
    rw [← Disk.files_after]
    rcases Change.cutShort_append hleft with hleft | ⟨more, hmore, rfl⟩
    · exact hcrashed hleft
    · -- the row was refused, and what was added of it was being cut away again
      obtain ⟨hhouses, -, entries', hrestores, hclimbs'⟩ := hcrashed (.refl _)
      change Restores ((disk.after place _).files.folder place) entries' rows at hrestores
      rw [← hdisk₁] at hhouses hrestores
      rw [Disk.after_append, ← hdisk₁]
      obtain ⟨hhouses', hrestores'⟩ :=
        hrestores.after_changes hhouses (each_mends_cutShort heach hmore)
      exact ⟨hhouses', rfl, entries', hrestores', hclimbs'⟩

/-! ### In the middle of opening -/

/-- Of an opening that was cut short the next one sees nothing. -/
theorem Restores.of_openAt_cutShort (h : Restores (files.folder place) entries rows)
    (hhouses : files.Houses IsFile root place)
    (hrun : (openAt root settings).outcome (Disk.ofFiles files) = (.ok archive, disk))
    (hcut : Effect.CutShort disk.effects cut) :
    (Effect.applyAll files cut).Houses IsFile root place ∧
      Restores ((Effect.applyAll files cut).folder place) entries rows := by
  have hrestores : Restores ((Disk.ofFiles files).files.folder place) entries rows := h
  obtain ⟨archive', changes, disk', hrun', hdisk', heach, -⟩ :=
    exists_openAt hhouses rfl hrestores settings
  rw [hrun] at hrun'
  obtain ⟨-, rfl⟩ := Prod.mk.inj hrun'
  have heffects : disk.effects = (Disk.ofFiles files).effectsOf place changes := by
    rw [hdisk']
    exact Disk.effects_after
  rw [heffects] at hcut
  obtain ⟨left, hleft, rfl⟩ := Disk.exists_changes hcut
  have hafter := hrestores.after_changes hhouses (each_mends_cutShort heach hleft)
  rwa [Disk.files_after] at hafter

/-! ### In the middle of a cut -/

theorem exists_cuttingAll (h : blocks + 1 < (entries.get .hashes).length) :
    ∃ others, cuttingAll entries blocks =
      .setLength (indexFileName Column.hashes.name) (position (blocks + 1)) :: others := by
  unfold cuttingAll cuttingTo
  rw [Column.all, List.flatMap_cons, if_pos h]
  exact ⟨_, rfl⟩

theorem IsOpen.exists_restores_cutIndex
    (h : archive.IsOpen disk root place cap entries (columnsOf rows))
    (hclimbs : ∀ c : Column, Climbs (entries.get c)) (hlt : blocks < rows.length) :
    ∃ entries', Restores (Change.apply (disk.files.folder place)
        (.setLength (indexFileName Column.hashes.name) (position (blocks + 1)))) entries'
          (rows.take blocks) ∧
      ∀ c : Column, Climbs (entries'.get c) := by
  have htake : (rows.take blocks).length = blocks := by
    rw [List.length_take, Nat.min_eq_left (Nat.le_of_lt hlt)]
  have hshort : ∃ c : Column, (if c = .hashes then (rows.take blocks).map fun row => row.get c
      else rows.map fun row => row.get c).length = (rows.take blocks).length :=
    ⟨.hashes, by simp⟩
  have hrows : ∀ c : Column, (if c = .hashes then (rows.take blocks).map fun row => row.get c
      else rows.map fun row => row.get c).take (rows.take blocks).length =
        (rows.take blocks).map fun row => row.get c := by
    intro c
    split
    · rw [List.take_of_length_le (by simp)]
    · rw [htake, List.map_take]
  generalize hfolder : Change.apply (disk.files.folder place)
    (.setLength (indexFileName Column.hashes.name) (position (blocks + 1))) = folder
  have hcolumn : ∀ c : Column, ∃ all, Recovers folder c.name all ∧
      storedItems folder c.name all = (if c = .hashes then
        (rows.take blocks).map fun row => row.get c else rows.map fun row => row.get c) ∧
      Climbs all := by
    intro c
    by_cases hc : c = .hashes
    · subst hc
      have hwhole := h.whole .hashes
      have hlength := h.length_entries .hashes
      rw [get_columnsOf, List.length_map] at hlength
      obtain ⟨-, hrecovers, hagree⟩ := hwhole.recovers_cutIndex blocks (by omega)
      rw [hfolder] at hrecovers hagree
      refine ⟨_, hrecovers, ?_, (hclimbs .hashes).take _⟩
      rw [(hwhole.toBacked.take blocks).storedItems_eq
        (hwhole.toBacked.agrees_take hagree blocks), storedItems_take, h.items, get_columnsOf,
        if_pos rfl, List.map_take]
    · have hsame : SameFiles (disk.files.folder place) folder c.name := by
        rw [← hfolder]
        exact sameFiles_apply (isFileOf_index Column.hashes.name) (Ne.symm hc)
      refine ⟨entries.get c, (h.whole c).recovers.congr hsame, ?_, hclimbs c⟩
      rw [(h.whole c).toBacked.storedItems_eq (hsame.agrees _), h.items, get_columnsOf, if_neg hc]
  exact exists_restores_of_climbs hcolumn hrows hshort

theorem IsOpen.exists_performs_truncate
    (h : archive.IsOpen disk root place cap entries (columnsOf rows))
    (hblocks : archive.blocks = rows.length) (hlt : blocks < rows.length) :
    ∃ others, Folder.Each (Mends blocks) (disk.files.folder place)
        (.setLength (indexFileName Column.hashes.name) (position (blocks + 1)) :: others) ∧
      performs (truncate blocks) archive disk = disk.effectsOf place
        (.setLength (indexFileName Column.hashes.name) (position (blocks + 1)) :: others) := by
  obtain ⟨archive', disk', hrun, hdisk', -, -, heach⟩ := h.exists_truncate hblocks hlt
  have hlength := h.length_entries .hashes
  rw [get_columnsOf, List.length_map] at hlength
  obtain ⟨others, hothers⟩ := exists_cuttingAll (show blocks + 1 < (entries.get .hashes).length by
    omega)
  rw [hothers] at heach hdisk'
  rw [hdisk'] at hrun
  exact ⟨others, heach, performs_eq hrun⟩

/-- A cut that was begun is as good as done; if it was not begun, all is as it was. -/
theorem Stores.keeps_of_truncate_cutShort (h : archive.Stores disk root place rows)
    (hlt : blocks < rows.length)
    (hcut : Effect.CutShort (performs (truncate blocks) archive disk) cut) :
    Keeps (Disk.ofFiles (Effect.applyAll disk.files cut)) root place
      (if cut = [] then rows else rows.take blocks) := by
  obtain ⟨cap, entries, hopen, hblocks, hclimbs⟩ := h
  obtain ⟨others, heach, hperforms⟩ := hopen.exists_performs_truncate hblocks hlt
  obtain ⟨entries', hrestores, hclimbs'⟩ := hopen.exists_restores_cutIndex hclimbs hlt
  have htake : (rows.take blocks).length = blocks := by
    rw [List.length_take, Nat.min_eq_left (Nat.le_of_lt hlt)]
  generalize hfirst : Change.setLength (indexFileName Column.hashes.name) (position (blocks + 1)) =
    first at heach hperforms hrestores
  have hhouses : (disk.change place first).files.Houses IsFile root place :=
    Change.houses_effect hopen.houses heach.1.isFile heach.1.fits
  have hfolder : (disk.change place first).files.folder place =
      first.apply (disk.files.folder place) :=
    Change.folder_effect hopen.houses heach.1.fits
  have hrest := heach.2
  rw [← hfolder] at hrestores hrest
  rw [← htake] at hrest
  rw [hperforms] at hcut
  obtain ⟨left, hleft, rfl⟩ := Disk.exists_changes hcut
  cases hleft with
  | stop =>
      rw [Disk.effectsOf, if_pos rfl]
      exact ⟨hopen.houses, rfl, entries, hopen.rests.restores, hclimbs⟩
  | partly => simp at hfirst
  | step _ hleft =>
      obtain ⟨hhouses', hrestores'⟩ :=
        hrestores.after_changes hhouses (each_mends_cutShort hrest hleft)
      rw [if_neg (by simp [Disk.effectsOf]), ← Disk.files_after, Disk.after_cons]
      exact ⟨hhouses', rfl, entries', hrestores', hclimbs'⟩

end BlockArchive.Archive
