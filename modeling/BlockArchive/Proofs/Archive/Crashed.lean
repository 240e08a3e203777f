import BlockArchive.Proofs.Archive.Ledger
import BlockArchive.Proofs.Table.Crashed
import BlockArchive.Proofs.Table.Serving

/-! # What a crash leaves of an archive at rest

* **`AtRest`**: an archive that was closed; its tables hold just its rows (`Stores.exists_atRest`).
* **A crash of one table** is the changes of `Table.crashing`, and leaves the other tables alone, so
  the rows are kept that it spares (`AtRest.keeps_crashing`).
* **A partial row** adds an item to some of the tables, one after the other, or it is refused as a
  row may be (`PartlyAdded.exists_appendSamples`).  As long as one table lacks it, the rows are
  those of before (`PartlyAdded.keeps`).

Whatever the shape, the archive can be opened again, holds the rows that were spared, and takes the
next one (`AtRest.isRecoverable_or_refused`). -/

namespace BlockArchive.Archive

open IndexEntry Table

variable {archive : Archive} {disk disk' : Disk} {root : Path} {place : Location}
  {entries : ByColumn (List IndexEntry)} {rows : List Row} {c : Column} {crash : Crash}
  {settings : Settings}

/-- Nobody works on the archive at `place`; its tables are at rest with these entries, hold just
these rows, and were made without leaving out segments. -/
structure AtRest (disk : Disk) (root : Path) (place : Location)
    (entries : ByColumn (List IndexEntry)) (rows : List Row) : Prop where
  houses : disk.files.Houses IsFile root place
  locked : disk.locked = []
  rests : Rests (disk.files.folder place) entries rows
  climbs : ∀ c : Column, Climbs (entries.get c)

/-- What is closed is at rest. -/
theorem Stores.exists_atRest (h : archive.Stores disk root place rows) :
    close.outcome (archive, disk) = (.ok (), (archive.shut, { disk with locked := [] })) ∧
      ∃ entries, AtRest { disk with locked := [] } root place entries rows := by
  obtain ⟨cap, entries, hopen, -, hclimbs⟩ := h
  exact ⟨hopen.outcome_close, entries, hopen.houses, rfl, hopen.rests, hclimbs⟩

/-- The entries of the indexes in the directory `place`. -/
def entriesAt (files : FileSystem) (place : Location) : ByColumn (List IndexEntry) :=
  .ofFn fun c => written (files.folder place) c.name

theorem AtRest.entriesAt_eq (h : AtRest disk root place entries rows) :
    entriesAt disk.files place = entries := by
  refine ByColumn.ext_get fun c => ?_
  have hwhole := h.rests.whole c
  rw [entriesAt, ByColumn.get_ofFn, written_of_index hwhole.ne_nil hwhole.storable hwhole.index]

/-! ### Crashes of one table -/

theorem AtRest.outcome_lastEntry (h : AtRest disk root place entries rows) (c : Column) :
    (Crash.lastEntry root c.name).outcome disk = (.ok (lastOf (entries.get c)), disk) := by
  have hwhole := h.rests.whole c
  have hread : disk.files.read (indexPath root c.name) = .ok (encodeAll (entries.get c)) :=
    h.houses.shows.read (isFile_of_isFileOf (isFileOf_index c.name)) hwhole.index
  have hquery : (Disk.query fun files => files.read (indexPath root c.name)).outcome disk =
      (.ok (encodeAll (entries.get c)), disk) := by
    unfold Disk.query
    rw [Attempt.outcome_bind_ok (Attempt.outcome_get disk), Action.outcome_ofIo]
    simp only [hread]
    rfl
  unfold Crash.lastEntry
  rw [Attempt.outcome_bind_ok hquery, lastEntry?_encodeAll hwhole.ne_nil hwhole.storable]
  rfl

theorem outcome_appendTo (hhouses : disk.files.Houses IsFile root place) {file : String}
    (hfile : IsFile file) {content : Bytes} (hcontent : disk.files.folder place file = some content)
    {data : Bytes} (hdata : data ≠ []) :
    (Crash.appendTo (root.join file) data).outcome disk =
      (.ok (), disk.after place [.write file content.length data]) := by
  have hopen : (Disk.openFile (root.join file) .existing).outcome disk =
      (.ok (.file (disk.files.number place file) true), disk) :=
    Disk.outcome_openFile_of_some hhouses hfile (by simp [hcontent]) (by decide)
  unfold Crash.appendTo
  rw [Attempt.outcome_bind_ok hopen, Attempt.outcome_bind_ok (Handle.outcome_length hcontent _),
    Handle.outcome_write, Folder.writing, if_neg hdata]

theorem AtRest.outcome_apply (h : AtRest disk root place entries rows)
    (hone : ∀ columns, crash ≠ .partialRow columns) (c : Column) (settings : Settings) :
    (crash.apply root c settings).outcome disk =
      (.ok (), disk.after place (crashing c.name (entries.get c) crash)) := by
  have hwhole := h.rests.whole c
  have hlast := h.outcome_lastEntry c
  have hindex : IsFile (indexFileName c.name) := isFile_of_isFileOf (isFileOf_index c.name)
  have hsegment : IsFile (segmentFileName c.name (lastOf (entries.get c)).segment.toNat) :=
    isFile_of_isFileOf (isFileOf_segment c.name hwhole.head_le)
  have hgrow : ∀ {data : Bytes}, data ≠ [] →
      (Crash.appendTo (indexPath root c.name) data).outcome disk = (.ok (), disk.after place
        [.write (indexFileName c.name) (width * (entries.get c).length) data]) := fun hdata => by
    rw [← length_encodeAll]
    exact outcome_appendTo h.houses hindex hwhole.index hdata
  obtain ⟨head, hhead⟩ := Option.ne_none_iff_exists'.1 hwhole.headThere
  have hlength : head.length = (lastOf (entries.get c)).offset.toNat := by
    rw [← hwhole.headLength, segmentBytes, hhead, Option.getD_some]
  cases crash with
  | dataLost =>
      unfold Crash.apply Crash.addDanglingEntry
      rw [Attempt.outcome_bind_ok hlast]
      refine hgrow fun hnil => ?_
      have := congrArg List.length hnil
      simp [width] at this
  | entryLost =>
      unfold Crash.apply Crash.growSegment
      rw [Attempt.outcome_bind_ok hlast, crashing, ← hlength]
      exact outcome_appendTo h.houses hsegment hhead (by simp)
  | entryTorn => exact hgrow (by simp)
  | headEmptied =>
      have hopen : (Disk.openFile (segmentPath root c.name
          (lastOf (entries.get c)).segment.toNat) .existing).outcome disk = (.ok (.file _ true), disk) :=
        Disk.outcome_openFile_of_some h.houses hsegment hwhole.headThere (by decide)
      unfold Crash.apply Crash.setSegmentLength
      rw [Attempt.outcome_bind_ok hlast]
      exact Attempt.outcome_bind_ok hopen _
  | partialRow columns => exact absurd rfl (hone columns)

/-- A crash of one table leaves files that keep the rows it spares. -/
theorem AtRest.keeps_crashing (h : AtRest disk root place entries rows)
    (hoffset : crash = .dataLost → (lastOf (entries.get c)).offset.toNat + 16 < offsetLimit)
    {count : Nat}
    (hcount : count = spared (entries.get c) (rows.map fun row => row.get c) crash) :
    Keeps (disk.after place (crashing c.name (entries.get c) crash)) root place
      (rows.take count) := by
  have hwhole := h.rests.whole c
  have hfile : ∀ change ∈ crashing c.name (entries.get c) crash, IsFileOf c.name change.name :=
    fun change hmem => hwhole.isFileOf_of_mem_crashing hmem
  obtain ⟨hhouses, hfolder⟩ := Disk.houses_and_folder_after h.houses
    (fun change hmem => isFile_of_isFileOf (hfile change hmem)) (hwhole.fits_crashing crash)
  have hle : count ≤ rows.length := by
    rw [hcount]
    exact (spared_le crash (by simp [h.rests.length_entries])).trans_eq (List.length_map _)
  have hcolumn : ∀ d : Column, ∃ all,
      Recovers ((disk.files.folder place).after (crashing c.name (entries.get c) crash)) d.name all ∧
        storedItems ((disk.files.folder place).after (crashing c.name (entries.get c) crash)) d.name
            all = (if d = c then (rows.map fun row => row.get d).take count
              else rows.map fun row => row.get d) ∧
        Climbs all := by
    intro d
    by_cases hd : d = c
    · subst hd
      rw [← h.rests.items] at hcount
      obtain ⟨hrecovers, hitems⟩ := hwhole.recovers_crashing hoffset hcount
      exact ⟨_, hrecovers, by rw [hitems, h.rests.items, if_pos rfl], (h.climbs d).take _⟩
    · have hsame : SameFiles (disk.files.folder place) _ d.name := sameFiles_after
        fun change hmem => .inr ⟨c, Ne.symm hd, hfile change hmem⟩
      refine ⟨entries.get d, (h.rests.whole d).recovers.congr hsame, ?_, h.climbs d⟩
      rw [(h.rests.whole d).toBacked.storedItems_eq (hsame.agrees _), h.rests.items, if_neg hd]
  refine ⟨hhouses, by rw [Disk.locked_after, h.locked], ?_⟩
  rw [hfolder]
  refine exists_restores_of_climbs hcolumn (fun d => ?_) ⟨c, by simp⟩
  rw [List.length_take, Nat.min_eq_left hle, List.map_take]
  split
  · rw [List.take_take, Nat.min_self]
  · rfl

/-! ### Partial rows -/

/-- From the files of `start` on, the items of `row` were added to the tables of the columns in
`done`, and nothing else was done. -/
structure PartlyAdded (start : Disk) (root : Path) (place : Location) (rows : List Row) (row : Row)
    (done : List Column) (disk : Disk) : Prop where
  changed : ∃ changes, (∀ change ∈ changes, IsFile change.name) ∧ disk = start.after place changes
  houses : disk.files.Houses IsFile root place
  column : ∀ c : Column, ∃ all, Whole (disk.files.folder place) c.name all ∧ Climbs all ∧
    storedItems (disk.files.folder place) c.name all =
      if c ∈ done then (rows.map fun row => row.get c) ++ [row.get c]
      else rows.map fun row => row.get c

theorem AtRest.partlyAdded (h : AtRest disk root place entries rows) (row : Row) :
    PartlyAdded disk root place rows row [] disk :=
  ⟨⟨[], by simp, rfl⟩, h.houses, fun c => ⟨entries.get c, h.rests.whole c, h.climbs c,
    by rw [h.rests.items, if_neg List.not_mem_nil]⟩⟩

theorem refuses_of_not_hasRoom {row : Row} {all : List IndexEntry} {cap : Nat}
    (h : Whole (disk.files.folder place) c.name all) (hclimbs : Climbs all)
    (hlength : all.length = rows.length + 1)
    (hroom : ¬(opened disk.files place root c.name cap all).HasRoom (row.get c).length) :
    Refuses rows.length row ((opened disk.files place root c.name cap all).refusal
      (row.get c).length) := by
  unfold refusal
  split
  · next hlarge => exact .tooLarge c hlarge
  · next hshort =>
      have hle := h.indexed.lastSegmentId_le rfl hclimbs (Nat.lt_of_not_le hshort) hroom
      rw [opened_name]
      exact .exhausted c (by omega)

theorem PartlyAdded.concat {start : Disk} {row : Row} {done : List Column}
    (h : PartlyAdded start root place rows row done disk) (hconfined : Confined c.name place disk disk')
    (hcolumn : ∃ all, Whole (disk'.files.folder place) c.name all ∧ Climbs all ∧
      storedItems (disk'.files.folder place) c.name all =
        (rows.map fun row => row.get c) ++ [row.get c]) :
    PartlyAdded start root place rows row (done ++ [c]) disk' := by
  obtain ⟨changes, hfile, hfits, rfl⟩ := hconfined
  have hnamed : ∀ change ∈ changes, IsFile change.name := fun change hmem =>
    isFile_of_isFileOf (hfile change hmem)
  obtain ⟨hhouses, hfolder⟩ := Disk.houses_and_folder_after h.houses hnamed hfits
  refine ⟨?_, hhouses, fun d => ?_⟩
  · obtain ⟨earlier, hearlier, hdisk⟩ := h.changed
    refine ⟨earlier ++ changes, fun change hmem => ?_, by rw [hdisk, Disk.after_append]⟩
    rcases List.mem_append.1 hmem with hmem | hmem
    · exact hearlier change hmem
    · exact hnamed change hmem
  · by_cases hd : d = c
    · subst hd
      rwa [if_pos (by simp)]
    · obtain ⟨all, hwhole, hclimbs, hitems⟩ := h.column d
      have hsame : SameFiles (disk.files.folder place)
          ((disk.after place changes).files.folder place) d.name := by
        rw [hfolder]
        exact sameFiles_after fun change hmem => .inr ⟨c, Ne.symm hd, hfile change hmem⟩
      refine ⟨all, hwhole.congr hsame, hclimbs, ?_⟩
      rw [hwhole.toBacked.storedItems_eq (hsame.agrees _), hitems]
      simp [hd]

theorem PartlyAdded.exists_appendSample {start : Disk} {done : List Column} {cap : Nat}
    (h : PartlyAdded start root place rows (Row.sample rows.length) done disk) (hc : c ∉ done) :
    (∃ disk', (Crash.appendSample root cap c).outcome disk = (.ok (), disk') ∧
        PartlyAdded start root place rows (Row.sample rows.length) (done ++ [c]) disk') ∨
      ∃ e, (Crash.appendSample root cap c).outcome disk = (.error e, disk) ∧
        Refuses rows.length (Row.sample rows.length) e := by
  obtain ⟨all, hwhole, hclimbs, hitems⟩ := h.column c
  rw [if_neg hc] at hitems
  have hlength : all.length = rows.length + 1 := by
    rw [length_of_storedItems hwhole.ne_nil hitems, List.length_map]
  generalize htable : opened disk.files place root c.name cap all = table
  have hcount : table.items = rows.length := by
    rw [← htable, opened_items, hwhole.firstOf_offset]
    omega
  have hopen : (Table.openIn root c.name cap).outcome disk = (.ok table, disk) := by
    rw [← htable, opened_eq_tableOf]
    exact hwhole.intact.outcome_openIn h.houses.shows
      (fun _ hfile => hnames_column c _ (hfile.isFileOf hwhole.head_le)) cap
  unfold Crash.appendSample
  rw [Attempt.outcome_bind_ok hopen]
  simp only [Attempt.outcome_bind, Attempt.outcome_split, Attempt.outcome_ofExcept, hcount]
  by_cases hroom : table.HasRoom ((Row.sample rows.length).get c).length
  · left
    have hrepresents : Table.Represents IsFile place root c.name 0 all
        ⟨rows.map fun row => row.get c, [], true⟩ (table, disk) :=
      ⟨h.houses, hwhole.intact.steady, hwhole.firstOf_offset, hitems.symm,
        hwhole.leftIn_eq_nil.symm, fun _ => ⟨cap, htable.symm⟩, by simp⟩
    obtain ⟨all', ⟨table', disk'⟩, happend, hreached⟩ :=
      hrepresents.exists_append (hnames_column c) hroom
    rw [List.length_map, Nat.zero_add] at happend
    obtain ⟨hrepresents', hconfined, hclimbs'⟩ := hreached
    rw [ite_self, List.nil_append] at hrepresents'
    have hwhole' : Whole (disk'.files.folder place) c.name all' :=
      hrepresents'.steady.whole (UInt32.toNat_inj.1 hrepresents'.pruned)
    have hindex : table'.index ≠ none := by
      obtain ⟨cap', rfl⟩ : ∃ cap', table' = opened disk'.files place root c.name cap' all' :=
        hrepresents'.whenOpen rfl
      simp
    refine ⟨disk', ?_, h.concat hconfined
      ⟨all', hwhole', hclimbs' hclimbs, hrepresents'.items.symm⟩⟩
    simp only [happend, Table.outcome_close hindex]
  · right
    have hindex : table.index =
        some (.file (disk.files.number place (indexFileName c.name)) true) := by
      rw [← htable, opened_index]
    have hrefuse : (Table.append table.items ((Row.sample rows.length).get c)).outcome
        (table, disk) = (.error (table.refusal _), (table, disk)) :=
      outcome_append_error hindex hroom
    have hrefuses := refuses_of_not_hasRoom hwhole hclimbs hlength (htable ▸ hroom)
    rw [hcount] at hrefuse
    rw [htable] at hrefuses
    exact ⟨_, by simp only [hrefuse], hrefuses⟩

/-- The next sample is added to the tables of a list of columns, or refused by one of them. -/
theorem PartlyAdded.exists_appendSamples {start : Disk} {done columns : List Column} {cap : Nat}
    (h : PartlyAdded start root place rows (Row.sample rows.length) done disk)
    (hnodup : (done ++ columns).Nodup) :
    (∃ disk', (columns.forM (Crash.appendSample root cap)).outcome disk = (.ok (), disk') ∧
        PartlyAdded start root place rows (Row.sample rows.length) (done ++ columns) disk') ∨
      ∃ e disk', (columns.forM (Crash.appendSample root cap)).outcome disk = (.error e, disk') ∧
        Refuses rows.length (Row.sample rows.length) e := by
  induction columns generalizing done disk with
  | nil => exact .inl ⟨disk, rfl, by rwa [List.append_nil]⟩
  | cons c columns ih =>
      have hc : c ∉ done := fun hmem =>
        (List.nodup_append.1 hnodup).2.2 c hmem c List.mem_cons_self rfl
      rw [List.forM]
      rcases h.exists_appendSample hc with ⟨disk', hrun, h'⟩ | ⟨e, hrun, hrefuses⟩
      · rw [Attempt.outcome_bind_ok hrun]
        rw [List.append_cons] at hnodup ⊢
        exact ih h' hnodup
      · exact .inr ⟨e, disk, Attempt.outcome_bind_error hrun _, hrefuses⟩

/-- As long as one table lacks its item, the rows are those of before. -/
theorem PartlyAdded.keeps {start : Disk} {row : Row} {done : List Column}
    (h : PartlyAdded start root place rows row done disk) (hlocked : start.locked = [])
    (hlacks : ∃ c : Column, c ∉ done) : Keeps disk root place rows := by
  obtain ⟨c, hc⟩ := hlacks
  have hcolumn : ∀ d : Column, ∃ all, Recovers (disk.files.folder place) d.name all ∧
      storedItems (disk.files.folder place) d.name all =
        (if d ∈ done then (rows.map fun row => row.get d) ++ [row.get d]
          else rows.map fun row => row.get d) ∧
      Climbs all := fun d => by
    obtain ⟨all, hwhole, hclimbs, hitems⟩ := h.column d
    exact ⟨all, hwhole.recovers, hitems, hclimbs⟩
  obtain ⟨changes, -, hdisk⟩ := h.changed
  refine ⟨h.houses, by rw [hdisk, Disk.locked_after, hlocked],
    exists_restores_of_climbs hcolumn (fun d => ?_) ⟨c, by simp [hc]⟩⟩
  split
  · exact List.take_left' (List.length_map _)
  · exact List.take_of_length_le (Nat.le_of_eq (List.length_map _))

/-! ### Every shape -/

/-- A crash that can be left on files at rest: a partial row lacks a column, and the offset that
dangles is one that an entry can store. -/
def CanHappen (entries : ByColumn (List IndexEntry)) (c : Column) : Crash → Prop
  | .partialRow columns => columns < Column.all.length
  | .dataLost => (lastOf (entries.get c)).offset.toNat + 16 < offsetLimit
  | _ => True

theorem AtRest.exists_apply (h : AtRest disk root place entries rows)
    (hcrash : CanHappen entries c crash) (settings : Settings) {count : Nat}
    (hcount : count = spared (entries.get c) (rows.map fun row => row.get c) crash) :
    (∃ disk', (crash.apply root c settings).outcome disk = (.ok (), disk') ∧
        Keeps disk' root place (rows.take count) ∧
        ∃ changes, (∀ change ∈ changes, IsFile change.name) ∧ disk' = disk.after place changes) ∨
      ∃ columns e disk', crash = .partialRow columns ∧
        (crash.apply root c settings).outcome disk = (.error e, disk') ∧
        Refuses rows.length (Row.sample rows.length) e := by
  by_cases hone : ∃ columns, crash = .partialRow columns
  · obtain ⟨columns, rfl⟩ := hone
    have hnodup : ([] ++ Column.all.take columns).Nodup :=
      (List.take_sublist _ _).nodup (by decide)
    have hlacks : ∀ columns < Column.all.length, Column.interchain ∉ Column.all.take columns := by
      decide
    have hall : count = rows.length := hcount.trans (List.length_map _)
    rw [hall, List.take_length]
    rcases (h.partlyAdded _).exists_appendSamples hnodup with
      ⟨disk', hrun, hadded⟩ | ⟨e, disk', hrun, hrefuses⟩
    · exact .inl ⟨disk', hrun, hadded.keeps h.locked ⟨_, hlacks columns hcrash⟩, hadded.changed⟩
    · exact .inr ⟨columns, e, disk', rfl, hrun, hrefuses⟩
  · have hone : ∀ columns, crash ≠ .partialRow columns := fun columns heq => hone ⟨columns, heq⟩
    refine .inl ⟨_, h.outcome_apply hone c settings, h.keeps_crashing (fun heq => ?_) hcount, _,
      fun change hmem => isFile_of_isFileOf ((h.rests.whole c).isFileOf_of_mem_crashing hmem), rfl⟩
    subst heq
    exact hcrash

/-! ### Recovery -/

/-- With any settings the archive can be opened and is sound with these rows.  The next row is
added, and the archive is sound with it too, unless it is refused. -/
def IsRecoverable (disk : Disk) (root : Path) (rows : List Row) : Prop :=
  ∀ settings, ∃ archive disk₁, (openAt root settings).outcome disk = (.ok archive, disk₁) ∧
    archive.IsSound disk₁ root rows ∧
    ∀ row : Row, ∃ answer archive' disk₂,
      (append rows.length row).outcome (archive, disk₁) = (answer, (archive', disk₂)) ∧
        (answer = .ok () ∧ archive'.IsSound disk₂ root (rows ++ [row]) ∨
          ∃ e, answer = .error e ∧ Refuses rows.length row e)

theorem Keeps.isRecoverable (h : Keeps disk root place rows) : IsRecoverable disk root rows := by
  intro settings
  obtain ⟨archive, disk₁, hopen, hstores⟩ := h.exists_openAt settings
  refine ⟨archive, disk₁, hopen, hstores.isSound, fun row => ?_⟩
  obtain ⟨answer, archive', disk₂, hrun, hanswer⟩ := hstores.exists_append row
  refine ⟨answer, archive', disk₂, hrun, ?_⟩
  rcases hanswer with ⟨hok, hstores'⟩ | ⟨e, herror, hrefuses, -⟩
  · exact .inl ⟨hok, hstores'.isSound⟩
  · exact .inr ⟨e, herror, hrefuses⟩

/-- Whatever the shape, an archive at rest recovers with the rows that the crash spared; a partial
row may be refused instead. -/
theorem AtRest.isRecoverable_or_refused (h : AtRest disk root place entries rows)
    (hcrash : CanHappen entries c crash) (settings : Settings) :
    (∃ disk₁, (crash.apply root c settings).outcome disk = (.ok (), disk₁) ∧
        IsRecoverable disk₁ root
          (rows.take (spared (entries.get c) (rows.map fun row => row.get c) crash))) ∨
      ∃ columns e disk₁, crash = .partialRow columns ∧
        (crash.apply root c settings).outcome disk = (.error e, disk₁) ∧
        Refuses rows.length (Row.sample rows.length) e := by
  rcases h.exists_apply hcrash settings rfl with ⟨disk₁, happly, hkeeps, -⟩ | hrefused
  · exact .inl ⟨disk₁, happly, hkeeps.isRecoverable⟩
  · exact .inr hrefused

end BlockArchive.Archive
