import BlockArchive.Proofs.Archive.Opening

/-! # Appending a row

* **Place.** The items of a row are added table by table, as long as there is a place for them
  (`IsOpen.exists_appendColumns`); `appendingIn` lists the changes.
* **Added.** If there is a place for every item, the row is added (`IsOpen.exists_append`).
* **Refused.** If not, then the first table without a place refuses the row, and the archive is
  evened out (`IsOpen.exists_refused`).  `Refuses` says when this may be: for want of ids of
  segments, of which each row uses one at most, or because an item is too long. -/

namespace BlockArchive.Archive

open IndexEntry Table

variable {names : String → Prop} {archive archive' : Archive} {disk disk' : Disk} {root : Path}
  {place : Location} {cap : Nat} {entries : ByColumn (List IndexEntry)}
  {items : ByColumn (List Bytes)} {rows : List Row} {row : Row} {number : Nat} {c : Column}

/-- Why a row may be refused that comes after `count` others. -/
inductive Refuses (count : Nat) (row : Row) : Error → Prop where
  /-- The table of a column has used up its segments, of which each row begins one at most. -/
  | exhausted (c : Column) (h : lastSegmentId ≤ count) :
      Refuses count row (.segmentsExhausted c.name)
  /-- An item is too long for the offsets of an index. -/
  | tooLarge (c : Column) (h : offsetLimit ≤ (row.get c).length) :
      Refuses count row (.itemTooLarge (row.get c).length)

/-! ### All columns in one step -/

/-- The columns of a list, with one more at the end of what each holds. -/
def concatIn {α : Type} (columns : List Column) (added : Column → α) (values : ByColumn (List α)) :
    ByColumn (List α) :=
  .ofFn fun c => if c ∈ columns then values.get c ++ [added c] else values.get c

theorem get_concatIn {α : Type} (columns : List Column) (added : Column → α)
    (values : ByColumn (List α)) (c : Column) :
    (concatIn columns added values).get c =
      if c ∈ columns then values.get c ++ [added c] else values.get c :=
  ByColumn.get_ofFn _ _

theorem concatIn_columnsOf (rows : List Row) (row : Row) :
    concatIn Column.all row.get (columnsOf rows) = columnsOf (rows ++ [row]) := by
  refine ByColumn.ext_get fun c => ?_
  rw [get_concatIn, if_pos (Column.mem_all c), get_columnsOf, get_columnsOf, List.map_append]
  rfl

theorem takeIn_concatIn {α : Type} {n : Nat} {values : ByColumn (List α)}
    (h : ∀ c : Column, (values.get c).length = n) {columns : List Column} {added : Column → α} :
    takeIn Column.all n (concatIn columns added values) = values := by
  refine ByColumn.ext_get fun c => ?_
  rw [get_takeIn_all, get_concatIn, ← h c]
  split
  · exact List.take_left
  · exact List.take_length

/-- The entries of the tables when the items of a row were added to those of a list. -/
def addedIn (tables : ByColumn Table) (columns : List Column) (row : Row)
    (entries : ByColumn (List IndexEntry)) : ByColumn (List IndexEntry) :=
  concatIn columns (fun c => (tables.get c).entryFor (row.get c).length) entries

theorem get_addedIn (tables : ByColumn Table) (columns : List Column) (row : Row)
    (entries : ByColumn (List IndexEntry)) (c : Column) :
    (addedIn tables columns row entries).get c =
      if c ∈ columns then entries.get c ++ [(tables.get c).entryFor (row.get c).length]
      else entries.get c :=
  get_concatIn _ _ _ _

theorem addedIn_set {columns : List Column} (hmem : c ∉ columns) {tables tables' : ByColumn Table}
    (htables : ∀ d ∈ columns, tables'.get d = tables.get d) (row : Row)
    (entries : ByColumn (List IndexEntry)) :
    addedIn tables' columns row
        (entries.set c (entries.get c ++ [(tables.get c).entryFor (row.get c).length])) =
      addedIn tables (c :: columns) row entries := by
  refine ByColumn.ext_get fun d => ?_
  rw [get_addedIn, get_addedIn]
  by_cases hdc : d = c
  · rw [hdc, ByColumn.get_set_same, if_neg hmem, if_pos List.mem_cons_self]
  · rw [ByColumn.get_set_ne _ _ hdc]
    by_cases hd : d ∈ columns
    · rw [if_pos hd, if_pos (List.mem_cons_of_mem _ hd), htables d hd]
    · rw [if_neg hd, if_neg (by simp [hdc, hd])]

/-- The changes with which the items of a row are added to the tables of the columns of a list. -/
def appendingIn (columns : List Column) (folder : Folder) (tables : ByColumn Table) (row : Row) :
    List Change :=
  columns.flatMap fun c => appending folder (tables.get c) (row.get c)

/-! ### One column -/

/-- There is a place for an item of `len` bytes in the table of a column, in a segment that has one
of these names. -/
structure HasPlace (names : String → Prop) (archive : Archive) (c : Column) (len : Nat) : Prop where
  room : (archive.tables.get c).HasRoom len
  named : names (segmentFileName c.name ((archive.tables.get c).slot len).1)

theorem HasPlace.congr {len : Nat} (h : archive.HasPlace names c len)
    (htable : archive'.tables.get c = archive.tables.get c) : archive'.HasPlace names c len := by
  refine ⟨?_, ?_⟩ <;> rw [htable]
  · exact h.room
  · exact h.named

theorem isFileWithin_slot {table : Table} {name file : String} {low len : Nat}
    (h : IsFileWithin name low (table.slot len).1 file) :
    IsFileWithin name low table.headId file ∨ file = segmentFileName name (table.slot len).1 := by
  rcases h with rfl | ⟨id, hlow, hhigh, rfl⟩
  · exact .inl (isFileWithin_index _ _ _)
  · rcases Nat.lt_or_eq_of_le hhigh with hlt | rfl
    · refine .inl (isFileWithin_segment _ hlow ?_)
      have hnext : (table.slot len).1 ≤ table.headId + 1 := by
        unfold slot
        split
        · exact Nat.le_refl _
        · exact Nat.le_succ _
      omega
    · exact .inr rfl

theorem IsOpenOn.named_of_hasPlace (h : archive.IsOpenOn names disk root place cap entries)
    {len : Nat} (hplace : archive.HasPlace names c len) {file : String}
    (hfile : IsFileWithin c.name (firstOf (entries.get c)).segment.toNat
      ((archive.tables.get c).slot len).1 file) : names file := by
  rcases isFileWithin_slot hfile with hfile | rfl
  · rw [h.table_eq, opened_headId] at hfile
    exact h.named c file hfile
  · exact hplace.named

theorem IsOpenOn.headId_le (h : archive.IsOpenOn names disk root place cap entries) (c : Column) :
    (archive.tables.get c).headId ≤ lastSegmentId := by
  rw [h.table_eq, opened_headId]
  exact (h.intact c).head_le

theorem IsOpenOn.isFileWithin_of_mem_appending
    (h : archive.IsOpenOn names disk root place cap entries) {folder : Folder} {blob : Bytes}
    {change : Change} (hmem : change ∈ appending folder (archive.tables.get c) blob) :
    IsFileWithin c.name (archive.tables.get c).headId
      ((archive.tables.get c).slot blob.length).1 change.name := by
  have hname : (archive.tables.get c).name = c.name := by rw [h.table_eq, opened_name]
  exact hname ▸ Table.isFileWithin_of_mem_appending hmem

theorem IsOpenOn.exists_appendColumn (h : archive.IsOpenOn names disk root place cap entries)
    (hlength : (entries.get c).length = number + 1)
    (hfirst : (firstOf (entries.get c)).offset = 0) {blob : Bytes}
    (hplace : archive.HasPlace names c blob.length) :
    ∃ archive' disk', (Archive.onTable c (Table.append number blob)).outcome (archive, disk) =
        (.ok (), (archive', disk')) ∧
      disk' = disk.after place
        (appending (disk.files.folder place) (archive.tables.get c) blob) ∧
      archive'.IsOpenOn names disk' root place cap
        (entries.set c (entries.get c ++ [(archive.tables.get c).entryFor blob.length])) ∧
      Touches names [c] place archive disk archive' disk' ∧
      Stays place c.name (entries.get c) disk disk' ∧
      storedItems (disk'.files.folder place) c.name
          (entries.get c ++ [(archive.tables.get c).entryFor blob.length]) =
        storedItems (disk.files.folder place) c.name (entries.get c) ++ [blob] := by
  have hwhole := (h.intact c).whole hfirst
  have htable := h.table_eq c
  have htail : (firstOf (entries.get c)).segment.toNat ≤ (archive.tables.get c).headId := by
    rw [htable, opened_headId]
    exact hwhole.tail_le_head
  have hnames : ∀ file, IsFileWithin c.name (archive.tables.get c).headId
      ((archive.tables.get c).slot blob.length).1 file → names file := fun file hfile =>
    h.named_of_hasPlace hplace (hfile.mono htail (Nat.le_refl _))
  obtain ⟨hwhole', hitems⟩ := hwhole.appending htable hplace.room
  generalize hdisk' : disk.after place
    (appending (disk.files.folder place) (archive.tables.get c) blob) = disk'
  have hfolder := (houses_and_folder_appending htable h.houses hnames hwhole.indexed hdisk'.symm).2
  rw [← hfolder] at hwhole' hitems
  have hrun := outcome_append_ok htable h.houses hnames hwhole.indexed hplace.room hdisk'.symm
  have hnumber : (archive.tables.get c).items = number := by
    rw [htable, opened_items, hwhole.firstOf_offset, hlength, Nat.add_sub_cancel, Nat.zero_add]
  rw [hnumber] at hrun
  obtain ⟨archive', hrun', hopen', htouches⟩ := h.onTable c
    (fun _ hmem => hnames _ (h.isFileWithin_of_mem_appending hmem))
    (fun _ hmem => (h.isFileWithin_of_mem_appending hmem).isFileOf
      (hplace.room.slot_le (h.headId_le c)))
    (after_appending htable hwhole.indexed blob).1 hdisk'.symm hrun hwhole'.intact fun file hfile => by
      rw [firstOf_append hwhole.ne_nil, lastOf_concat,
        hplace.room.entryFor_segment (h.headId_le c)] at hfile
      exact h.named_of_hasPlace hplace hfile
  exact ⟨archive', disk', hrun', rfl, hopen', htouches,
    stays_appending htable h.houses hnames hwhole hdisk'.symm, hitems⟩

theorem IsOpen.exists_refusal (h : archive.IsOpen disk root place cap entries items) {c : Column}
    (hclimbs : Climbs (entries.get c)) (hnumber : (items.get c).length = number) (row : Row)
    (hroom : ¬(archive.tables.get c).HasRoom (row.get c).length) :
    ∃ e, Refuses number row e ∧ (Archive.onTable c (Table.append number (row.get c))).outcome
      (archive, disk) = (.error e, (archive, disk)) := by
  have hlength : number = (entries.get c).length - 1 := by
    rw [h.length_entries, hnumber, Nat.add_sub_cancel]
  refine ⟨(archive.tables.get c).refusal (row.get c).length, ?_, ?_⟩
  · unfold refusal
    split
    · next hlarge => exact .tooLarge c hlarge
    · next hsmall =>
        have hlast := (h.whole c).indexed.lastSegmentId_le (h.table_eq c) hclimbs
          (Nat.lt_of_not_le hsmall) hroom
        rw [h.table_eq, opened_name]
        exact .exhausted c (hlength ▸ hlast)
  · have hitems : (archive.tables.get c).items = number := by
      rw [h.table_eq, opened_items, (h.whole c).firstOf_offset, hlength, Nat.zero_add]
    rw [Archive.onTable, Attempt.outcome_onFirst, ← hitems,
      outcome_append_error (by rw [h.table_eq, opened_index]) hroom]
    simp only [set_tables_get]

/-! ### A row -/

/-- The items of a row are added to the tables of the columns of a list, one after the other, if
there is a place for each of them; the rest of the columns come after these. -/
theorem IsOpenOn.exists_appendColumns (h : archive.IsOpenOn names disk root place cap entries)
    (row : Row) {columns : List Column} (hnodup : columns.Nodup)
    (hlength : ∀ c ∈ columns, (entries.get c).length = number + 1)
    (hfirst : ∀ c ∈ columns, (firstOf (entries.get c)).offset = 0)
    (hplace : ∀ c ∈ columns, archive.HasPlace names c (row.get c).length) :
    ∃ archive' disk',
      (∀ rest : List Column,
        ((columns ++ rest).forM fun c =>
            Archive.onTable c (Table.append number (row.get c))).outcome (archive, disk) =
          (rest.forM fun c =>
            Archive.onTable c (Table.append number (row.get c))).outcome (archive', disk')) ∧
      disk' = disk.after place
        (appendingIn columns (disk.files.folder place) archive.tables row) ∧
      archive'.IsOpenOn names disk' root place cap
        (addedIn archive.tables columns row entries) ∧
      Touches names columns place archive disk archive' disk' ∧
      (∀ c : Column, Stays place c.name (entries.get c) disk disk') ∧
      ∀ c ∈ columns, storedItems (disk'.files.folder place) c.name
          (entries.get c ++ [(archive.tables.get c).entryFor (row.get c).length]) =
        storedItems (disk.files.folder place) c.name (entries.get c) ++ [row.get c] := by
  induction columns generalizing archive disk entries with
  | nil =>
      have hentries : addedIn archive.tables [] row entries = entries :=
        ByColumn.ext_get fun d => by simp [get_addedIn]
      exact ⟨archive, disk, fun _ => rfl, rfl, hentries.symm ▸ h, .refl _ _ _ _ _,
        fun c => (Untouched.refl _ _ _).stays _, by simp⟩
  | cons c columns ih =>
      obtain ⟨hc, hnodup⟩ := List.nodup_cons.1 hnodup
      have hne : ∀ d ∈ columns, d ≠ c := fun d hd hdc => hc (hdc ▸ hd)
      obtain ⟨archive₁, disk₁, hrun₁, hdisk₁, hopen₁, htouches₁, hstays₁, hitems₁⟩ :=
        h.exists_appendColumn (hlength c List.mem_cons_self) (hfirst c List.mem_cons_self)
          (hplace c List.mem_cons_self)
      have hothers : ∀ d ≠ c, archive₁.tables.get d = archive.tables.get d ∧
          Untouched place d.name disk disk₁ := fun d hdc =>
        htouches₁.others d fun hd => hdc (List.mem_singleton.1 hd)
      have hentries : ∀ d ≠ c, (entries.set c (entries.get c ++
          [(archive.tables.get c).entryFor (row.get c).length])).get d = entries.get d :=
        fun d hdc => ByColumn.get_set_ne _ _ hdc
      obtain ⟨archive', disk', hrun', hdisk', hopen', htouches', hstays', hitems'⟩ :=
        ih hopen₁ hnodup
          (fun d hd => by
            rw [hentries d (hne d hd)]
            exact hlength d (List.mem_cons_of_mem _ hd))
          (fun d hd => by
            rw [hentries d (hne d hd)]
            exact hfirst d (List.mem_cons_of_mem _ hd))
          fun d hd =>
            (hplace d (List.mem_cons_of_mem _ hd)).congr (hothers d (hne d hd)).1
      rw [addedIn_set hc fun d hd => (hothers d (hne d hd)).1] at hopen'
      have hlater : Untouched place c.name disk₁ disk' := (htouches'.others c hc).2
      -- the changes to the other tables are told by the files and the tables of before
      have hchanges : appendingIn columns (disk₁.files.folder place) archive₁.tables row =
          appendingIn columns (disk.files.folder place) archive.tables row := by
        refine List.flatMap_congr fun d hd => ?_
        obtain ⟨htable, huntouched⟩ := hothers d (hne d hd)
        rw [htable]
        refine appending_congr ?_ _
        rw [h.table_eq, opened_name]
        exact huntouched.files
      refine ⟨archive', disk', fun rest => ?_, ?_, hopen', htouches₁.trans htouches', fun d => ?_,
        fun d hd => ?_⟩
      · rw [List.cons_append, List.forM, Attempt.outcome_bind_ok hrun₁, hrun']
      · rw [hdisk', hchanges, hdisk₁, ← Disk.after_append]
        rfl
      · by_cases hdc : d = c
        · exact hdc ▸ hstays₁.trans (hlater.stays _)
        · have hd := hstays' d
          rw [hentries d hdc] at hd
          exact ((hothers d hdc).2.stays _).trans hd
      · rcases List.mem_cons.1 hd with rfl | hd
        · have hintact₁ := hopen₁.intact d
          rw [ByColumn.get_set_same] at hintact₁
          rw [(hlater.stays _).storedItems_eq hintact₁, hitems₁]
        · have hitems := hitems' d hd
          obtain ⟨htable, huntouched⟩ := hothers d (hne d hd)
          rw [hentries d (hne d hd), htable] at hitems
          rw [hitems, (huntouched.stays _).storedItems_eq (h.intact d)]

theorem IsOpen.hasPlace (h : archive.IsOpen disk root place cap entries items) {len : Nat}
    (hroom : (archive.tables.get c).HasRoom len) : archive.HasPlace IsFile c len where
  room := hroom
  named := isFile_of_isFileOf (isFileOf_segment _ (hroom.slot_le (h.isOpenOn.headId_le c)))

theorem IsOpen.exists_appendColumns (h : archive.IsOpen disk root place cap entries items)
    (row : Row) {columns : List Column} (hnodup : columns.Nodup)
    (hnumber : ∀ c ∈ columns, (items.get c).length = number)
    (hroom : ∀ c ∈ columns, (archive.tables.get c).HasRoom (row.get c).length) :
    ∃ archive' disk',
      (∀ rest : List Column,
        ((columns ++ rest).forM fun c =>
            Archive.onTable c (Table.append number (row.get c))).outcome (archive, disk) =
          (rest.forM fun c =>
            Archive.onTable c (Table.append number (row.get c))).outcome (archive', disk')) ∧
      disk' = disk.after place
        (appendingIn columns (disk.files.folder place) archive.tables row) ∧
      archive'.IsOpen disk' root place cap
        (addedIn archive.tables columns row entries)
        (concatIn columns row.get items) ∧
      archive'.blocks = archive.blocks ∧
      ∀ d ∉ columns, archive'.tables.get d = archive.tables.get d := by
  obtain ⟨archive', disk', hrun, hdisk', hopen', htouches, hstays, hitems⟩ :=
    h.isOpenOn.exists_appendColumns row hnodup
      (fun c hc => by rw [h.length_entries, hnumber c hc]) (fun c _ => (h.whole c).unpruned)
      fun c hc => h.hasPlace (hroom c hc)
  refine ⟨archive', disk', hrun, hdisk', hopen'.isOpen (fun d => ?_) (fun d => ?_),
    htouches.blocks, fun d hd => (htouches.others d hd).1⟩
  · rw [get_addedIn]
    split
    · rw [firstOf_append (h.whole d).ne_nil]
      exact (h.whole d).unpruned
    · exact (h.whole d).unpruned
  · rw [get_addedIn, get_concatIn]
    by_cases hd : d ∈ columns
    · rw [if_pos hd, if_pos hd, hitems d hd, h.items]
    · rw [if_neg hd, if_neg hd, (hstays d).storedItems_eq (h.isOpenOn.intact d), h.items]

section run

variable {disk₁ : Disk} {archive₁ archive₂ : Archive} (hclosed : archive.closed = false)
  (hblocks : archive.blocks = number)
include hclosed hblocks

theorem outcome_append_of_ok
    (hcolumns : (appendColumns number row).outcome (archive, disk) =
      (.ok (), (archive₁, disk₁))) :
    (append number row).outcome (archive, disk) =
      (.ok (), ({ archive₁ with blocks := archive₁.blocks + 1 }, disk₁)) := by
  unfold append appendBlock
  rw [Attempt.outcome_bind_ok (outcome_ensureOpen hclosed disk),
    Attempt.outcome_bind_ok (Attempt.outcome_current _ _), if_neg (not_not.2 hblocks),
    Attempt.outcome_bind, Attempt.outcome_tryCatch, hcolumns]
  rfl

/-- What a failure to add the items left is what is evened out. -/
theorem outcome_append_of_error {e : Error} {answer : Except Error Unit} {disk₂ : Disk}
    (hcolumns : (appendColumns number row).outcome (archive, disk) =
      (.error e, (archive₁, disk₁)))
    (heven : evenOut.outcome (archive₁, disk₁) = (answer, (archive₂, disk₂))) :
    (append number row).outcome (archive, disk) = (.error e, (archive₂, disk₂)) := by
  unfold append appendBlock
  rw [Attempt.outcome_bind_ok (outcome_ensureOpen hclosed disk),
    Attempt.outcome_bind_ok (Attempt.outcome_current _ _), if_neg (not_not.2 hblocks),
    Attempt.outcome_bind, Attempt.outcome_tryCatch, hcolumns]
  simp only
  rw [Attempt.outcome_bind, Attempt.outcome_tryCatch, heven]
  cases answer <;> rfl

end run

/-- Another number than the next one is refused. -/
theorem outcome_append_of_ne (hclosed : archive.closed = false)
    (hnumber : number ≠ archive.blocks) :
    (append number row).outcome (archive, disk) =
      (.error (.sequence archive.blocks number), (archive, disk)) := by
  unfold append appendBlock
  rw [Attempt.outcome_bind_ok (outcome_ensureOpen hclosed disk),
    Attempt.outcome_bind_ok (Attempt.outcome_current _ _), if_pos (Ne.symm hnumber)]
  rfl

/-- A row is added, if there is a place for each of its items. -/
theorem IsOpen.exists_append (h : archive.IsOpen disk root place cap entries (columnsOf rows))
    (hblocks : archive.blocks = rows.length)
    (hroom : ∀ c : Column, (archive.tables.get c).HasRoom (row.get c).length) :
    ∃ archive' disk', (append rows.length row).outcome (archive, disk) =
        (.ok (), (archive', disk')) ∧
      disk' = disk.after place
        (appendingIn Column.all (disk.files.folder place) archive.tables row) ∧
      archive'.IsOpen disk' root place cap
        (addedIn archive.tables Column.all row entries)
        (columnsOf (rows ++ [row])) ∧
      archive'.blocks = (rows ++ [row]).length := by
  obtain ⟨archive₁, disk₁, hrun₁, hdisk₁, hopen₁, hblocks₁, -⟩ :=
    h.exists_appendColumns row (show Column.all.Nodup by decide)
      (fun c _ => show _ = rows.length by simp) fun c _ => hroom c
  have hcolumns := hrun₁ []
  rw [List.append_nil] at hcolumns
  rw [concatIn_columnsOf] at hopen₁
  exact ⟨{ archive₁ with blocks := archive₁.blocks + 1 }, disk₁,
    outcome_append_of_ok h.closed hblocks hcolumns, hdisk₁, hopen₁.with_blocks _,
    by simp [hblocks₁, hblocks]⟩

/-- The first column of which something does not hold. -/
theorem exists_first_not {holds : Column → Prop} (h : ¬∀ c : Column, holds c) :
    ∃ done c rest, Column.all = done ++ c :: rest ∧ done.Nodup ∧ c ∉ done ∧
      (∀ d ∈ done, holds d) ∧ ¬holds c := by
  classical
  obtain ⟨c₀, hc₀⟩ := not_forall.1 h
  have hsome : (Column.all.find? fun c => decide (¬holds c)).isSome :=
    List.find?_isSome.2 ⟨c₀, Column.mem_all c₀, by simpa using hc₀⟩
  obtain ⟨c, hfind⟩ := Option.isSome_iff_exists.1 hsome
  obtain ⟨hc, done, rest, hall, hdone⟩ := List.find?_eq_some_iff_append.1 hfind
  have hnodup : (done ++ c :: rest).Nodup := hall ▸ (by decide : Column.all.Nodup)
  obtain ⟨hnodup, -, hdisjoint⟩ := List.nodup_append.1 hnodup
  exact ⟨done, c, rest, hall, hnodup, fun hmem => hdisjoint c hmem c List.mem_cons_self rfl,
    fun d hd => by simpa using hdone d hd, by simpa using hc⟩

/-- A row is refused by the first table that has no place for its item, and what was added to the
tables before is cut away again. -/
theorem IsOpen.exists_refused (h : archive.IsOpen disk root place cap entries (columnsOf rows))
    (hblocks : archive.blocks = rows.length) (hclimbs : ∀ c : Column, Climbs (entries.get c))
    (hroom : ¬∀ c : Column, (archive.tables.get c).HasRoom (row.get c).length) :
    ∃ (e : Error) (archive₁ : Archive) (disk₁ : Disk) (archive' : Archive) (disk' : Disk)
        (done : List Column) (c : Column),
      (append rows.length row).outcome (archive, disk) = (.error e, (archive', disk')) ∧
      Refuses rows.length row e ∧
      (done.Nodup ∧ c ∉ done ∧ ∀ d ∈ done, (archive.tables.get d).HasRoom (row.get d).length) ∧
      disk₁ = disk.after place
        (appendingIn done (disk.files.folder place) archive.tables row) ∧
      archive₁.IsOpen disk₁ root place cap (addedIn archive.tables done row entries)
        (concatIn done row.get (columnsOf rows)) ∧
      (disk' = disk₁.after place
          (cuttingAll (addedIn archive.tables done row entries) rows.length) ∧
        Folder.Each (Mends rows.length) (disk₁.files.folder place)
          (cuttingAll (addedIn archive.tables done row entries) rows.length)) ∧
      archive'.IsOpen disk' root place cap entries (columnsOf rows) ∧
      archive'.blocks = rows.length := by
  have hlength : ∀ c : Column, ((columnsOf rows).get c).length = rows.length := by simp
  obtain ⟨done, c, rest, hall, hnodup, hc, hroom', hfull⟩ := exists_first_not hroom
  obtain ⟨archive₁, disk₁, hrun₁, hdisk₁, hopen₁, hblocks₁, hothers₁⟩ :=
    h.exists_appendColumns row hnodup (fun d _ => hlength d) hroom'
  have hlengths : ∀ d : Column, ((concatIn done row.get (columnsOf rows)).get d).length =
      if d ∈ done then rows.length + 1 else rows.length := by
    intro d
    rw [get_concatIn]
    split <;> simp
  have hshort : ((concatIn done row.get (columnsOf rows)).get c).length = rows.length := by
    rw [hlengths, if_neg hc]
  have hclimbs₁ : Climbs ((addedIn archive.tables done row entries).get c) := by
    rw [get_addedIn, if_neg hc]
    exact hclimbs c
  have hfull₁ : ¬(archive₁.tables.get c).HasRoom (row.get c).length := by
    rwa [hothers₁ c hc]
  obtain ⟨e, hrefuses, hrefused⟩ := hopen₁.exists_refusal hclimbs₁ hshort row hfull₁
  obtain ⟨archive₂, disk₂, hrun₂, hdisk₂, hopen₂, hblocks₂, heach⟩ :=
    hopen₁.exists_evenOut (fun d => show rows.length ≤ _ by
      rw [hlengths]
      split <;> omega) ⟨c, hshort⟩
  have hentries : takeIn Column.all (rows.length + 1) (addedIn archive.tables done row entries) =
      entries := by
    refine takeIn_concatIn fun d => ?_
    rw [h.length_entries, hlength]
  rw [hentries, takeIn_concatIn hlength] at hopen₂
  refine ⟨e, archive₁, disk₁, archive₂, disk₂, done, c,
    outcome_append_of_error h.closed hblocks ?_ hrun₂, hrefuses, ⟨hnodup, hc, hroom'⟩, hdisk₁,
    hopen₁, ⟨hdisk₂, heach⟩, hopen₂, hblocks₂⟩
  rw [appendColumns, hall, hrun₁, List.forM, Attempt.outcome_bind_error hrefused]

end BlockArchive.Archive
