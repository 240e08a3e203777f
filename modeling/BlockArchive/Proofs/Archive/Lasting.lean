import BlockArchive.Proofs.Archive.Serving

/-! # What lasts in the tables of an archive

* **Column by column.** What is listed for each table is done to this one alone
  (`sameFiles_after_flatMap`).  So it is with the tables that rows are appended to or cut away from
  (`IsOpen.sameFiles_appendingIn`, `IsOpen.sameFiles_cuttingAll`).
* **`Lasts`**: what is true of a table at rest is left true by appends and cuts.
* **`StoresWith`**: the archive holds just some rows, and this is true of each of its tables.  It
  stays so when rows are appended or refused and when they are cut away, and when the archive is
  opened again after it was closed. -/

namespace BlockArchive.Archive

open IndexEntry Table

variable {archive : Archive} {disk disk' : Disk} {root : Path} {place : Location} {cap : Nat}
  {entries : ByColumn (List IndexEntry)} {items : ByColumn (List Bytes)} {rows : List Row}
  {row : Row} {columns : List Column}

/-! ### Column by column -/

section flatMap

variable {folder : Folder} {changes : Column → List Change} (hnodup : columns.Nodup)
  (hchanges : ∀ c ∈ columns, ∀ change ∈ changes c, IsFileOf c.name change.name)
include hnodup hchanges

theorem sameFiles_flatMap (c : Column) :
    SameFiles (folder.after (if c ∈ columns then changes c else []))
      (folder.after (columns.flatMap changes)) c.name := by
  induction columns generalizing folder with
  | nil => exact .refl _ _
  | cons d columns ih =>
      obtain ⟨hd, hnodup⟩ := List.nodup_cons.1 hnodup
      have hrest : ∀ e ∈ columns, ∀ change ∈ changes e, IsFileOf e.name change.name := fun e he =>
        hchanges e (List.mem_cons_of_mem _ he)
      rw [List.flatMap_cons, Folder.after_append]
      by_cases hcd : c = d
      · subst hcd
        rw [if_pos List.mem_cons_self]
        refine sameFiles_after fun change hmem => ?_
        obtain ⟨e, he, hmem⟩ := List.mem_flatMap.1 hmem
        exact .inr ⟨e, fun hec => hd (hec ▸ he), hrest e he change hmem⟩
      · have hbefore : SameFiles folder (folder.after (changes d)) c.name :=
          sameFiles_after fun change hmem =>
            .inr ⟨d, Ne.symm hcd, hchanges d List.mem_cons_self change hmem⟩
        simp only [List.mem_cons, hcd, false_or]
        exact (hbefore.after _).trans (ih hnodup hrest)

theorem fits_flatMap (hfits : ∀ c ∈ columns, folder.Fits (changes c)) :
    folder.Fits (columns.flatMap changes) := by
  induction columns generalizing folder with
  | nil => trivial
  | cons c columns ih =>
      obtain ⟨hc, hnodup⟩ := List.nodup_cons.1 hnodup
      have hhere := hchanges c List.mem_cons_self
      have hrest : ∀ d ∈ columns, ∀ change ∈ changes d, IsFileOf d.name change.name := fun d hd =>
        hchanges d (List.mem_cons_of_mem _ hd)
      rw [List.flatMap_cons, Folder.Fits, Folder.each_append]
      refine ⟨hfits c List.mem_cons_self, ih hnodup hrest fun d hd => ?_⟩
      have hsame : SameFiles folder (folder.after (changes c)) d.name :=
        sameFiles_after fun change hmem =>
          .inr ⟨c, fun hcd => hc (hcd ▸ hd), hhere change hmem⟩
      exact (hfits d (List.mem_cons_of_mem _ hd)).congr fun change hmem =>
        (hsame.of_isFileOf (hrest d hd change hmem)).symm

theorem sameFiles_after_flatMap (hhouses : disk.files.Houses IsFile root place)
    (hfits : ∀ c ∈ columns, (disk.files.folder place).Fits (changes c))
    (hdisk' : disk' = disk.after place (columns.flatMap changes)) (c : Column) :
    SameFiles ((disk.files.folder place).after (if c ∈ columns then changes c else []))
      (disk'.files.folder place) c.name := by
  have hnamed : ∀ change ∈ columns.flatMap changes, IsFile change.name := fun change hmem => by
    obtain ⟨d, hd, hmem⟩ := List.mem_flatMap.1 hmem
    exact isFile_of_isFileOf (hchanges d hd change hmem)
  rw [hdisk', Disk.folder_after hhouses hnamed (fits_flatMap hnodup hchanges hfits)]
  exact sameFiles_flatMap hnodup hchanges c

end flatMap

section opened

variable (h : archive.IsOpen disk root place cap entries items)
include h

/-- An append to the tables of a list does to each of them what it does to this one alone. -/
theorem IsOpen.sameFiles_appendingIn (hnodup : columns.Nodup)
    (hroom : ∀ c ∈ columns, (archive.tables.get c).HasRoom (row.get c).length)
    (hdisk' : disk' = disk.after place
      (appendingIn columns (disk.files.folder place) archive.tables row)) (c : Column) :
    SameFiles ((disk.files.folder place).after (if c ∈ columns then
        Table.appending (disk.files.folder place) (archive.tables.get c) (row.get c) else []))
      (disk'.files.folder place) c.name :=
  sameFiles_after_flatMap hnodup (fun d hd _ hmem =>
      (h.isOpenOn.isFileWithin_of_mem_appending hmem).isFileOf
        ((hroom d hd).slot_le (h.isOpenOn.headId_le d)))
    h.houses (fun d _ => (after_appending (h.table_eq d) (h.whole d).indexed (row.get d)).1)
    hdisk' c

theorem IsOpen.sameFiles_cuttingAll {count : Nat}
    (hdisk' : disk' = disk.after place (cuttingAll entries count)) (c : Column) :
    SameFiles ((disk.files.folder place).after (cuttingTo c.name (entries.get c) count))
      (disk'.files.folder place) c.name := by
  have hsame := sameFiles_after_flatMap (by decide) (fun d _ change hmem =>
      (isFileWithin_of_mem_cuttingTo (h.whole d).intact hmem).isFileOf (h.whole d).head_le)
    h.houses (fun d _ => fits_cuttingTo (h.whole d).intact count) hdisk' c
  rwa [if_pos (Column.mem_all c)] at hsame

end opened

/-! ### What appends and cuts leave true -/

/-- What is true of a table at rest that is opened with this cap is left true by appends and
cuts. -/
structure Lasts (cap : Nat) (holds : Folder → String → List IndexEntry → List Bytes → Prop) :
    Prop where
  congr {folder folder' : Folder} {name : String} {entries : List IndexEntry}
    {items : List Bytes} (h : holds folder name entries items)
    (hsame : SameFiles folder folder' name) : holds folder' name entries items
  appending {files : FileSystem} {place : Location} {root : Path} {name : String}
    {entries : List IndexEntry} {items : List Bytes} {table : Table} {blob : Bytes}
    (h : holds (files.folder place) name entries items)
    (hwhole : Whole (files.folder place) name entries)
    (htable : table = opened files place root name cap entries)
    (hroom : table.HasRoom blob.length) :
    holds ((files.folder place).after (Table.appending (files.folder place) table blob)) name
      (entries ++ [table.entryFor blob.length]) (items ++ [blob])
  cutting {folder : Folder} {name : String} {entries : List IndexEntry} {items : List Bytes}
    {n : Nat} (h : holds folder name entries items) (hwhole : Whole folder name entries)
    (hlength : entries.length = items.length + 1) (hn : n < items.length) :
    holds (folder.after (Table.cutting name entries n)) name (entries.take (n + 1))
      (items.take n)

variable {holds : Folder → String → List IndexEntry → List Bytes → Prop}

section lasts

variable (hlasts : Lasts cap holds) (h : archive.IsOpen disk root place cap entries items)
  (hholds : ∀ c : Column, holds (disk.files.folder place) c.name (entries.get c) (items.get c))
include hlasts h hholds

theorem IsOpen.lasts_appendingIn (hnodup : columns.Nodup)
    (hroom : ∀ c ∈ columns, (archive.tables.get c).HasRoom (row.get c).length)
    (hdisk' : disk' = disk.after place
      (appendingIn columns (disk.files.folder place) archive.tables row)) (c : Column) :
    holds (disk'.files.folder place) c.name ((addedIn archive.tables columns row entries).get c)
      ((concatIn columns row.get items).get c) := by
  refine hlasts.congr ?_ (h.sameFiles_appendingIn hnodup hroom hdisk' c)
  rw [get_addedIn, get_concatIn]
  by_cases hc : c ∈ columns
  · rw [if_pos hc, if_pos hc, if_pos hc]
    exact hlasts.appending (hholds c) (h.whole c) (h.table_eq c) (hroom c hc)
  · rw [if_neg hc, if_neg hc, if_neg hc]
    exact hholds c

theorem IsOpen.lasts_cuttingAll {count : Nat}
    (hdisk' : disk' = disk.after place (cuttingAll entries count)) (c : Column) :
    holds (disk'.files.folder place) c.name ((takeIn Column.all (count + 1) entries).get c)
      ((takeIn Column.all count items).get c) := by
  refine hlasts.congr ?_ (h.sameFiles_cuttingAll hdisk' c)
  have hlength := h.length_entries c
  rw [get_takeIn_all, get_takeIn_all, cuttingTo]
  split
  · exact hlasts.cutting (hholds c) (h.whole c) hlength (by omega)
  · rw [List.take_of_length_le (by omega), List.take_of_length_le (by omega)]
    exact hholds c

end lasts

/-! ### Archives that hold some rows -/

/-- The archive is open and holds just these rows, and this is true of each of its tables. -/
def StoresWith (archive : Archive)
    (holds : Folder → String → List IndexEntry → List Bytes → Prop) (disk : Disk) (root : Path)
    (place : Location) (cap : Nat) (rows : List Row) : Prop :=
  ∃ entries, archive.IsOpen disk root place cap entries (columnsOf rows) ∧
    archive.blocks = rows.length ∧ (∀ c : Column, Climbs (entries.get c)) ∧
      ∀ c : Column, holds (disk.files.folder place) c.name (entries.get c)
        ((columnsOf rows).get c)

namespace StoresWith

theorem stores (h : archive.StoresWith holds disk root place cap rows) :
    archive.Stores disk root place rows := by
  obtain ⟨entries, hopen, hblocks, hclimbs, -⟩ := h
  exact ⟨cap, entries, hopen, hblocks, hclimbs⟩

/-- A row is added just if each table has a place for its item. -/
theorem exists_append (h : archive.StoresWith holds disk root place cap rows)
    (hlasts : Lasts cap holds) (row : Row) :
    ∃ answer archive' disk',
      (append rows.length row).outcome (archive, disk) = (answer, (archive', disk')) ∧
      (answer = .ok () ∧ archive'.StoresWith holds disk' root place cap (rows ++ [row]) ∨
        (∃ e, answer = .error e) ∧ archive'.StoresWith holds disk' root place cap rows ∧
          ¬∀ c : Column, (archive.tables.get c).HasRoom (row.get c).length) := by
  obtain ⟨entries, hopen, hblocks, hclimbs, hholds⟩ := h
  by_cases hroom : ∀ c : Column, (archive.tables.get c).HasRoom (row.get c).length
  · obtain ⟨archive', disk', hrun, hdisk', hopen', hblocks'⟩ := hopen.exists_append hblocks hroom
    refine ⟨_, archive', disk', hrun, .inl ⟨rfl, _, hopen', hblocks', fun c => ?_, fun c => ?_⟩⟩
    · rw [get_addedIn, if_pos (Column.mem_all c)]
      exact (hopen.whole c).indexed.climbs_appending (hopen.table_eq c) (hclimbs c) (hroom c)
    · rw [← concatIn_columnsOf]
      exact hopen.lasts_appendingIn hlasts hholds (by decide) (fun c _ => hroom c) hdisk' c
  · obtain ⟨e, archive₁, disk₁, archive', disk', done, c, hrun, -, ⟨hnodup, -, hroom'⟩, hdisk₁,
      hopen₁, ⟨hdisk', -⟩, hopen', hblocks'⟩ := hopen.exists_refused hblocks hclimbs hroom
    -- what was added of the row is cut away
    have hcut := hopen₁.lasts_cuttingAll hlasts
      (hopen.lasts_appendingIn hlasts hholds hnodup hroom' hdisk₁) hdisk'
    have hentries : takeIn Column.all (rows.length + 1)
        (addedIn archive.tables done row entries) = entries := takeIn_concatIn fun d => by
      rw [hopen.length_entries, get_columnsOf, List.length_map]
    rw [hentries, takeIn_concatIn (by simp)] at hcut
    exact ⟨_, archive', disk', hrun, .inr ⟨⟨e, rfl⟩, ⟨entries, hopen', hblocks', hclimbs, hcut⟩,
      hroom⟩⟩

theorem exists_truncate (h : archive.StoresWith holds disk root place cap rows)
    (hlasts : Lasts cap holds) (blocks : Nat) :
    ∃ archive' disk', (truncate blocks).outcome (archive, disk) = (.ok (), (archive', disk')) ∧
      archive'.StoresWith holds disk' root place cap (rows.take blocks) := by
  by_cases hle : rows.length ≤ blocks
  · refine ⟨archive, disk, h.stores.outcome_truncate_of_le hle, ?_⟩
    rwa [List.take_of_length_le hle]
  · obtain ⟨entries, hopen, hblocks, hclimbs, hholds⟩ := h
    obtain ⟨archive', disk', hrun, hdisk', hopen', hblocks', -⟩ :=
      hopen.exists_truncate hblocks (Nat.lt_of_not_le hle)
    refine ⟨archive', disk', hrun, _, hopen', hblocks', climbs_takeIn hclimbs _, fun c => ?_⟩
    have hcut := hopen.lasts_cuttingAll hlasts hholds hdisk' c
    rwa [get_takeIn_all blocks, get_columnsOf, ← List.map_take, ← get_columnsOf] at hcut

theorem outcome_close (h : archive.StoresWith holds disk root place cap rows) :
    close.outcome (archive, disk) = (.ok (), (archive.shut, { disk with locked := [] })) := by
  obtain ⟨entries, hopen, -⟩ := h
  exact hopen.outcome_close

theorem exists_openAt (h : archive.StoresWith holds disk root place cap rows)
    (settings : Settings) :
    ∃ archive', (openAt root settings).outcome { disk with locked := [] } = (.ok archive', disk) ∧
      archive'.StoresWith holds disk root place settings.cap rows := by
  obtain ⟨entries, hopen, -, hclimbs, hholds⟩ := h
  have hrests : Rests (({ disk with locked := [] } : Disk).files.folder place) entries rows :=
    hopen.rests
  obtain ⟨archive', hrun, hopen', hblocks⟩ :=
    hrests.exists_openAt hopen.houses rfl hopen.lockThere settings
  rw [← hopen.locked] at hrun hopen'
  exact ⟨archive', hrun, entries, hopen', hblocks, hclimbs, hholds⟩

end StoresWith

end BlockArchive.Archive
