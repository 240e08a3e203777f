import BlockArchive.Proofs.Archive.Accounted
import BlockArchive.Proofs.Archive.Existing
import BlockArchive.Proofs.Archive.Pruned
import BlockArchive.Proofs.Table.Audited

/-! # Reading an archive with which nothing is amiss

Every command opens the archive, and opening repairs it.  Where an audit finds nothing amiss, there
is nothing to repair, so that a command that reads changes nothing, and tells what the audit tells.

* **`InOrder`**: the tables are intact and have equally many items, of which some may have been
  pruned.  This is what a report without findings says (`exists_inOrder_of_audit`).
* **Opening** makes the lock file if it is missing and changes no other file
  (`InOrder.exists_openAt`).
* **Commands.** `withExisting` answers what the work answers, and closing gives the lock back
  (`CommandLine.outcome_withExisting_of_open`).  `TellsTruly` is what the commands then have to
  tell, and `SameButLock` what stays through any number of commands that read.

`reads_truly` puts this together. -/

namespace BlockArchive

open IndexEntry Table

/-! ### Hexadecimal text -/

namespace Text

/-- The number that a hexadecimal digit stands for. -/
def valueOfDigit (c : Char) : Nat :=
  if c.toNat < 58 then c.toNat - 48 else c.toNat - 87

/-- The bytes that hexadecimal digits stand for, two digits each. -/
def bytesOfDigits : List Char → Bytes
  | high :: low :: rest =>
      UInt8.ofNat (16 * valueOfDigit high + valueOfDigit low) :: bytesOfDigits rest
  | _ => []

theorem valueOfDigit_hexDigit : ∀ n < 16, valueOfDigit (hexDigit n) = n := by decide

theorem bytesOfDigits_hex (data : Bytes) : bytesOfDigits (hex data).toList = data := by
  rw [hex, String.toList_ofList]
  induction data with
  | nil => rfl
  | cons b data ih =>
      have hb := b.toNat_lt
      rw [List.flatMap_cons, hexByte, List.cons_append, List.cons_append, List.nil_append,
        bytesOfDigits, ih, valueOfDigit_hexDigit _ (by omega), valueOfDigit_hexDigit _ (by omega),
        Nat.div_add_mod, UInt8.ofNat_toNat]

end Text

namespace Archive

variable {names : String → Prop} {archive archive' : Archive} {disk disk' : Disk}
  {files : FileSystem} {root : Path} {place : Location} {cap blocks count : Nat}
  {entries : ByColumn (List IndexEntry)} {c : Column} {folder folder' : Folder}

/-! ### Nothing amiss -/

/-- The tables are intact and have equally many items, pruned ones included. -/
structure InOrder (folder : Folder) (entries : ByColumn (List IndexEntry)) (blocks : Nat) :
    Prop where
  intact : ∀ c : Column, Intact folder c.name (entries.get c)
  items : ∀ c : Column, itemsOf (entries.get c) = blocks

theorem InOrder.congr (h : InOrder folder entries blocks)
    (hsame : ∀ c : Column, SameFiles folder folder' c.name) : InOrder folder' entries blocks :=
  ⟨fun c => (h.intact c).congr (hsame c), h.items⟩

theorem folder_eq_seen (hhouses : files.Houses names root place) {file : String}
    (hname : names file) : files.folder place file = files.seen root file := by
  unfold FileSystem.folder FileSystem.seen FileSystem.fileAt? FileSystem.linkStatus
  rw [hhouses.resolve_join hname]
  simp only
  cases files.node? (place ++ [file]) with
  | none => rfl
  | some node => cases node <;> rfl

/-- If a report has no findings, the tables are in order and have equally many items. -/
theorem exists_inOrder_of_audit {report : ArchiveReport} (hhouses : files.Houses IsFile root place)
    (haudit : Audit.archive files root = .ok report) (hok : report.isOk = true) :
    ∃ entries blocks, InOrder (files.folder place) entries blocks ∧
      ∀ table ∈ report.tables, table.items = blocks := by
  obtain ⟨table, htable, rfl⟩ := Audit.exists_table_of_archive haudit
  have hfindings : ∀ c : Column, (table c).findings = [] := by
    intro c
    simp only [ArchiveReport.isOk, Bool.and_eq_true, List.all_eq_true] at hok
    simpa [TableReport.isOk] using hok.2 (table c) (List.mem_map_of_mem (Column.mem_all c))
  have heven : ∀ c : Column, (table c).items = (table .hashes).items := by
    simp only [ArchiveReport.isOk, ArchiveReport.isEven, Column.all, List.map,
      ArchiveReport.allEqual, Bool.and_eq_true, decide_eq_true_eq] at hok
    intro c
    cases c <;> omega
  have hintact : ∀ c : Column, ∃ entries, Intact (files.folder place) c.name entries ∧
      itemsOf entries = (table .hashes).items := by
    intro c
    obtain ⟨entries, -, hseen⟩ := exists_intact_of_audit
      (fun file hfile => hhouses.isPlain (isFile_of_isFileOf hfile)) (htable c) (hfindings c)
    have h : Intact (files.folder place) c.name entries := hseen.congr_within fun file hfile =>
      folder_eq_seen hhouses (isFile_of_isFileOf (hfile.isFileOf hseen.head_le))
    obtain ⟨dataBytes, hreport⟩ := Audit.exists_table h hhouses.shows fun file hfile =>
      isFile_of_isFileOf (hfile.isFileOf h.head_le)
    refine ⟨entries, h, ?_⟩
    rw [← heven c, Except.ok.inj ((htable c).symm.trans hreport), itemsOf]
  choose entries hentries hitems using hintact
  refine ⟨.ofFn entries, (table .hashes).items, ⟨fun c => ?_, fun c => ?_⟩, fun t ht => ?_⟩
  · rw [ByColumn.get_ofFn]
    exact hentries c
  · rw [ByColumn.get_ofFn, hitems]
  · obtain ⟨c, -, rfl⟩ := List.mem_map.1 ht
    exact heven c

/-! ### Opening -/

/-- The disk, with a lock file at `place` that nobody holds. -/
def withLockFile (place : Location) (disk : Disk) : Disk :=
  { disk.after place ((disk.files.folder place).making DirectoryLock.fileName) with locked := [] }

namespace InOrder

/-- There is nothing to cut, and so opening only makes the lock file. -/
theorem exists_openAt (h : InOrder (disk.files.folder place) entries blocks)
    (hhouses : disk.files.Houses IsFile root place) (hlocked : disk.locked = [])
    (settings : Settings) :
    ∃ archive disk₁, (openAt root settings).outcome disk = (.ok archive, disk₁) ∧
      archive.IsOpenOn IsFile disk₁ root place settings.cap entries ∧ archive.blocks = blocks ∧
      (∀ c : Column, SameFiles (disk.files.folder place) (disk₁.files.folder place) c.name) ∧
      { disk₁ with locked := [] } = withLockFile place disk := by
  obtain ⟨uneven, disk₁, hopen, hdisk₁, hsame, hrun⟩ :=
    exists_uneven hhouses hlocked h.intact settings
  have hitems : ∀ c : Column, (uneven.tables.get c).items = blocks := fun c => by
    rw [hopen.table_eq, opened_items, ← h.items c, itemsOf]
  have hcut : (cutTables blocks).outcome (uneven, disk₁) = (.ok (), (uneven, disk₁)) := by
    refine outcome_forM fun c _ => ?_
    have hindex : (uneven.tables.get c).index =
        some (.file (disk₁.files.number place (indexFileName c.name)) true) := by
      rw [hopen.table_eq, opened_index]
    rw [Archive.onTable, Attempt.outcome_onFirst,
      outcome_truncate_of_le hindex (Nat.le_of_eq (hitems c))]
    simp only [set_tables_get]
  have heven := outcome_evenOut
    (shortest_eq (fun c => Nat.le_of_eq (hitems c).symm) ⟨.hashes, hitems .hashes⟩) hcut
  refine ⟨{ uneven with blocks }, disk₁, ?_, hopen.with_blocks blocks, rfl, hsame, ?_⟩
  · rw [hrun, heven]
  · rw [hdisk₁]
    rfl

end InOrder

/-! ### What an open archive answers -/

/-- What a table with these items answers, if `offset` items were pruned before them. -/
def answerFrom (offset : Nat) (stored : List Bytes) (item : Nat) : Except Error Bytes :=
  if item < offset then .error (.outOfBounds item offset (offset + stored.length))
  else match stored[item - offset]? with
    | some data => .ok data
    | none => .error (.outOfBounds item offset (offset + stored.length))

theorem answerFrom_of_outside {offset item : Nat} {stored : List Bytes}
    (h : item < offset ∨ offset + stored.length ≤ item) :
    answerFrom offset stored item = .error (.outOfBounds item offset (offset + stored.length)) := by
  unfold answerFrom
  rcases h with h | h
  · rw [if_pos h]
  · rw [if_neg (by omega), List.getElem?_eq_none (by omega)]

theorem IsOpenOn.outcome_get_from (h : archive.IsOpenOn names disk root place cap entries)
    (c : Column) (number : Nat) :
    (get c number).outcome (archive, disk) =
      (answerFrom (firstOf (entries.get c)).offset.toNat
        (storedItems (disk.files.folder place) c.name (entries.get c)) (itemOf number),
        (archive, disk)) := by
  have hintact := h.intact c
  have hlength : (firstOf (entries.get c)).offset.toNat + (storedItems (disk.files.folder place)
      c.name (entries.get c)).length =
        (firstOf (entries.get c)).offset.toNat + ((entries.get c).length - 1) := by
    rw [length_storedItems]
  have hretrieve : (Table.retrieve (itemOf number)).outcome (archive.tables.get c, disk) =
      (answerFrom (firstOf (entries.get c)).offset.toNat
        (storedItems (disk.files.folder place) c.name (entries.get c)) (itemOf number),
        (archive.tables.get c, disk)) := by
    rw [h.table_eq, opened_eq_tableOf]
    generalize itemOf number = item
    unfold answerFrom
    rw [hlength]
    split
    · next hlt => exact outcome_retrieve_outside _ _ _ _ _ _ _ (.inr hlt)
    · next hle =>
        obtain ⟨n, rfl⟩ := Nat.exists_eq_add_of_le (Nat.le_of_not_lt hle)
        rw [Nat.add_sub_cancel_left]
        split
        next data hdata =>
            exact hintact.outcome_retrieve
              (FileSystem.holds_folder disk.files (fun _ => True) place) (fun _ _ => trivial) root
              cap hdata
        next hnone =>
            rw [List.getElem?_eq_none_iff, length_storedItems] at hnone
            exact outcome_retrieve_outside _ _ _ _ _ _ _ (.inl (Nat.add_le_add_left hnone _))
  unfold get
  rw [Attempt.outcome_bind_ok (outcome_ensureOpen h.closed disk), Archive.onTable,
    Attempt.outcome_onFirst, hretrieve]
  simp only [set_tables_get]

theorem IsOpenOn.outcome_count (h : archive.IsOpenOn names disk root place cap entries) :
    Archive.count.outcome (archive, disk) = (.ok archive.blocks, (archive, disk)) := by
  unfold Archive.count
  rw [Attempt.outcome_bind_ok (outcome_ensureOpen h.closed disk),
    Attempt.outcome_bind_ok (Attempt.outcome_current _ _)]
  rfl

theorem IsOpenOn.outcome_inspection (h : archive.IsOpenOn names disk root place cap entries) :
    (do
      let tables ← Archive.stats
      let blocks ← Archive.count
      return {
        path := (← Attempt.current).path, blocks, tables
        totalSize := (tables.map TableStats.size).foldl (· + ·) 0 } :
      Action (Archive × Disk) CommandLine.Inspection).outcome (archive, disk) =
    (.ok ⟨root, archive.blocks,
        ((Column.all.map (archive.statsIn (disk.files.folder place) entries)).map
          TableStats.size).foldl (· + ·) 0,
        Column.all.map (archive.statsIn (disk.files.folder place) entries)⟩, (archive, disk)) := by
  rw [Attempt.outcome_bind_ok h.outcome_stats, Attempt.outcome_bind_ok h.outcome_count,
    Attempt.outcome_bind_ok (Attempt.outcome_current _ _), h.path]
  rfl

/-- Cutting keeps as many blocks as there are, if no table refuses. -/
theorem IsOpenOn.exists_truncate (h : archive.IsOpenOn names disk root place cap entries)
    (hcount : ∀ c : Column, (archive.tables.get c).itemOffset ≤ count) :
    ∃ archive' disk' entries',
      (truncate count).outcome (archive, disk) = (.ok (), (archive', disk')) ∧
        archive'.IsOpenOn names disk' root place cap entries' ∧
        archive'.blocks = min count archive.blocks := by
  have hensure := outcome_ensureOpen h.closed disk
  unfold truncate
  rw [Attempt.outcome_bind_ok hensure, Attempt.outcome_bind_ok (Attempt.outcome_current _ _)]
  by_cases hle : archive.blocks ≤ count
  · refine ⟨archive, disk, entries, ?_, h, (Nat.min_eq_right hle).symm⟩
    rw [if_pos hle]
    rfl
  · obtain ⟨archive', disk', hrun, hopen, -⟩ := h.exists_cutTables hcount
    refine ⟨{ archive' with blocks := count }, disk', _, ?_, hopen.with_blocks count,
      (Nat.min_eq_left (Nat.le_of_not_le hle)).symm⟩
    rw [if_neg hle, Attempt.outcome_bind_ok hrun]
    rfl

end Archive

/-! ### Commands -/

open Attempt Archive CommandLine

variable {α : Type} {archive archive' : Archive} {disk disk' disk₁ disk₂ : Disk} {root : Path}
  {place : Location} {cap blocks : Nat} {entries entries' : ByColumn (List IndexEntry)}
  {answer : Except Error α} {names : String → Prop}

theorem CommandLine.outcome_withExisting_of_open {work : Action (Archive × Disk) α}
    (hopen : (openExisting root).outcome disk = (.ok archive, disk₁))
    (hwork : work.outcome (archive, disk₁) = (answer, (archive', disk₂)))
    (hleft : archive'.IsOpenOn names disk₂ root place cap entries') :
    (withExisting root work).outcome disk =
      (answer.mapError CommandError.refused, { disk₂ with locked := [] }) := by
  rw [outcome_withExisting hopen hwork hleft.outcome_close]
  rfl

namespace Archive.InOrder

variable (h : InOrder (disk.files.folder place) entries blocks)
  (hhouses : disk.files.Houses IsFile root place) (hlocked : disk.locked = [])
include h hhouses hlocked

theorem exists_openExisting :
    ∃ archive disk₁ cap, (openExisting root).outcome disk = (.ok archive, disk₁) ∧
      archive.IsOpenOn IsFile disk₁ root place cap entries ∧ archive.blocks = blocks ∧
      (∀ c : Column, SameFiles (disk.files.folder place) (disk₁.files.folder place) c.name) ∧
      { disk₁ with locked := [] } = withLockFile place disk := by
  obtain ⟨archive, disk₁, hrun, hopen⟩ :=
    h.exists_openAt hhouses hlocked { create := false }
  have hexists : disk.files.exists? (indexPath root Column.hashes.name) = true := by
    have hstatus := hhouses.shows.status (isFile_of_isFileOf (isFileOf_index _))
      (h.intact .hashes).index
    rw [FileSystem.exists?, indexPath, hstatus]
  refine ⟨archive, disk₁, _, ?_, hopen⟩
  rw [outcome_openExisting_of_hashes hexists, Command.outcome_ofAction, hrun]
  rfl

/-- Looking at the archive tells the number of blocks and the lengths of the files. -/
theorem exists_inspect :
    ∃ inspection, (inspect root).outcome disk = (.ok inspection, withLockFile place disk) ∧
      inspection.path = root ∧ inspection.blocks = blocks ∧
      inspection.totalSize = (Column.all.map fun c =>
        bytesIn (disk.files.folder place) c.name (entries.get c)).sum := by
  obtain ⟨archive, disk₁, cap, hrun, hopen, hblocks, hsame, hback⟩ :=
    h.exists_openExisting hhouses hlocked
  have hlook := outcome_withExisting_of_open hrun hopen.outcome_inspection hopen
  rw [hback] at hlook
  refine ⟨_, hlook, rfl, hblocks, ?_⟩
  simp only [List.map_map, ← List.sum_eq_foldl]
  congr 1
  refine List.map_congr_left fun c _ => ?_
  exact bytesIn_congr (h.intact c).indexed.tail_le_head fun id _ _ => (hsame c).segment id

theorem outcome_fetch (c : Column) (number : Nat) :
    (fetch root c.name number).outcome disk =
      (((answerFrom (firstOf (entries.get c)).offset.toNat
        (storedItems (disk.files.folder place) c.name (entries.get c)) (itemOf number)).mapError
          CommandError.refused).map Text.hex, withLockFile place disk) := by
  obtain ⟨archive, disk₁, cap, hrun, hopen, -, hsame, hback⟩ :=
    h.exists_openExisting hhouses hlocked
  have hget := (outcome_getNamed (Column.ofName?_name c) number).trans
    (hopen.outcome_get_from c number)
  have hwith := outcome_withExisting_of_open hrun hget hopen
  have hstored : storedItems (disk₁.files.folder place) c.name (entries.get c) =
      storedItems (disk.files.folder place) c.name (entries.get c) := by
    rw [← storedItems_grounded, (h.intact c).backed.storedItems_eq ((hsame c).agrees _),
      storedItems_grounded]
  rw [hback, hstored] at hwith
  unfold fetch
  rw [outcome_bind, hwith]
  cases answerFrom (firstOf (entries.get c)).offset.toNat
    (storedItems (disk.files.folder place) c.name (entries.get c)) (itemOf number) <;> rfl

theorem outcome_fetch_of_none {name : String} (hname : Column.ofName? name = none) (number : Nat) :
    (fetch root name number).outcome disk =
      (.error (.refused (.unknownTable name)), withLockFile place disk) := by
  obtain ⟨archive, disk₁, cap, hrun, hopen, -, -, hback⟩ := h.exists_openExisting hhouses hlocked
  have hwith := outcome_withExisting_of_open hrun (outcome_getNamed_of_none hname number) hopen
  rw [hback] at hwith
  unfold fetch
  rw [outcome_bind, hwith]
  rfl

/-- Dropping blocks answers how many there were and how many are left, if no table refuses. -/
theorem answer_rollBack {count : Nat}
    (hcount : ∀ c : Column, (firstOf (entries.get c)).offset.toNat ≤ count) :
    ((rollBack root count).outcome disk).1 = .ok (blocks, min count blocks) := by
  obtain ⟨archive, disk₁, cap, hrun, hopen, hblocks, -, -⟩ := h.exists_openExisting hhouses hlocked
  obtain ⟨archive', disk', entries', hcut, hopen', hblocks'⟩ := hopen.exists_truncate fun c => by
    rw [hopen.table_eq, opened_itemOffset]
    exact hcount c
  have hwork : (do
      let before ← Archive.count
      Archive.truncate count
      Archive.sync
      return (before, ← Archive.count) : Action (Archive × Disk) (Nat × Nat)).outcome
        (archive, disk₁) = (.ok (blocks, min count blocks), (archive', disk')) := by
    rw [outcome_bind_ok hopen.outcome_count, outcome_bind_ok hcut,
      outcome_bind_ok hopen'.outcome_sync, outcome_bind_ok hopen'.outcome_count, hblocks', hblocks]
    rfl
  have hwith := outcome_withExisting_of_open hrun hwork hopen'
  unfold rollBack
  rw [hwith]
  rfl

end Archive.InOrder

/-! ### One command after another -/

/-- Whether the command only looks at an archive. -/
def Maintenance.isReading : Maintenance → Bool
  | .inspect | .fetch .. => true
  | .rollBack _ => false

/-- What is left when commands were run one after another, whatever each of them answered. -/
def Maintenance.runAll (root : Path) (commands : List Maintenance) (disk : Disk) : Disk :=
  commands.foldl (fun disk command => ((command.run root).outcome disk).2) disk

/-- Everything but the lock file at `place` is the same, every name and every byte. -/
structure SameButLock (place : Location) (disk disk' : Disk) : Prop where
  node : ∀ location, location ≠ place ++ [DirectoryLock.fileName] →
    disk'.files.node? location = disk.files.node? location
  content : ∀ id, disk'.files.content id = disk.files.content id

namespace SameButLock

theorem refl (place : Location) (disk : Disk) : SameButLock place disk disk :=
  ⟨fun _ _ => rfl, fun _ => rfl⟩

theorem trans {disk'' : Disk} (h : SameButLock place disk disk')
    (h' : SameButLock place disk' disk'') : SameButLock place disk disk'' :=
  ⟨fun location hne => (h'.node location hne).trans (h.node location hne),
    fun id => (h'.content id).trans (h.content id)⟩

theorem sameFiles (h : SameButLock place disk disk') (name : String) :
    SameFiles (disk.files.folder place) (disk'.files.folder place) name := by
  have hfile : ∀ file, file ≠ DirectoryLock.fileName →
      disk'.files.folder place file = disk.files.folder place file := by
    intro file hne
    unfold FileSystem.folder
    rw [h.node _ (by simpa using hne)]
    simp only [h.content]
  exact ⟨hfile _ (indexFileName_ne_lock name), fun id => hfile _ (segmentFileName_ne_lock name id)⟩

theorem lockFileMade (place : Location) (disk : Disk) :
    SameButLock place disk (withLockFile place disk) := by
  unfold withLockFile Folder.making
  split
  · refine ⟨fun location hne => ?_, fun id => Effect.content_makeFile _ _ _⟩
    exact (Change.node?_effect disk.files place _ location).trans (if_neg hne)
  · exact ⟨fun _ _ => rfl, fun _ => rfl⟩

end SameButLock

namespace Archive.InOrder

variable (h : InOrder (disk.files.folder place) entries blocks)
  (hhouses : disk.files.Houses IsFile root place) (hlocked : disk.locked = [])

include hhouses in
theorem houses_withLockFile :
    (withLockFile place disk).files.Houses IsFile root place := by
  refine Disk.houses_after hhouses (fun change hmem => ?_) Folder.fits_making
  rw [Folder.name_of_mem_making hmem]
  exact isFile_lock

include h hhouses hlocked in
theorem disk_run {command : Maintenance} (hreading : command.isReading = true) :
    ((command.run root).outcome disk).2 = withLockFile place disk := by
  cases command with
  | inspect =>
      obtain ⟨inspection, hrun, -⟩ := h.exists_inspect hhouses hlocked
      rw [Maintenance.run, outcome_bind_ok hrun]
      rfl
  | fetch name number =>
      rw [Maintenance.run, outcome_bind]
      cases hname : Column.ofName? name with
      | none =>
          rw [h.outcome_fetch_of_none hhouses hlocked hname]
      | some c =>
          obtain rfl : c.name = name := by simpa using List.find?_some hname
          rw [h.outcome_fetch hhouses hlocked]
          cases answerFrom (firstOf (entries.get c)).offset.toNat
            (storedItems (disk.files.folder place) c.name (entries.get c)) (itemOf number) <;> rfl
  | rollBack blocks => simp [Maintenance.isReading] at hreading

include h hhouses hlocked in
theorem runAll {commands : List Maintenance}
    (hreading : ∀ command ∈ commands, command.isReading = true) :
    InOrder ((Maintenance.runAll root commands disk).files.folder place) entries blocks ∧
      (Maintenance.runAll root commands disk).files.Houses IsFile root place ∧
      (Maintenance.runAll root commands disk).locked = [] ∧
      SameButLock place disk (Maintenance.runAll root commands disk) := by
  induction commands generalizing disk with
  | nil => exact ⟨h, hhouses, hlocked, .refl place disk⟩
  | cons command commands ih =>
      rw [List.forall_mem_cons] at hreading
      have hsame := SameButLock.lockFileMade place disk
      have hrest := ih (h.congr fun c => hsame.sameFiles c.name) (houses_withLockFile hhouses) rfl
        hreading.2
      rw [Maintenance.runAll, List.foldl_cons, h.disk_run hhouses hlocked hreading.1]
      exact ⟨hrest.1, hrest.2.1, hrest.2.2.1, hsame.trans hrest.2.2.2⟩

include h in
/-- An audit says of the tables what their entries and the lengths of their segments say. -/
theorem audit_eq {files : FileSystem} (hfiles : files.Houses IsFile root place)
    (hsame : ∀ c : Column, SameFiles (disk.files.folder place) (files.folder place) c.name) :
    Audit.archive files root = .ok ⟨root, Column.all.map fun c => ⟨c.name, blocks,
      (firstOf (entries.get c)).segment.toNat, (lastOf (entries.get c)).segment.toNat,
      dataLength (disk.files.folder place) c.name (firstOf (entries.get c)).segment.toNat
        (lastOf (entries.get c)).segment.toNat, []⟩⟩ := by
  refine Audit.archive_eq fun c => ?_
  have hintact := (h.intact c).congr (hsame c)
  rw [Audit.table_eq hintact.indexed hfiles.shows fun file hfile =>
    isFile_of_isFileOf (hfile.isFileOf hintact.head_le), Audit.headFindings,
    if_pos hintact.headLength, ← h.items c, itemsOf]
  simp only [dataLength, (hsame c).segmentBytes]

end Archive.InOrder

/-! ### The whole result -/

/-- The number of items that an index says were pruned. -/
def prunedIn (index : Bytes) : Nat :=
  (firstOf (Audit.entries index)).offset.toNat

/-- The number of bytes in an index and in the segments from the tail to the head that it names. -/
def sizeBy (folder : Folder) (name : String) (index : Bytes) : Nat :=
  index.length + dataLength folder name (firstOf (Audit.entries index)).segment.toNat
    (lastOf (Audit.entries index)).segment.toNat

/-- What the commands answer on a disk, if they tell the truth about files with these indexes, which
stand for so many blocks. -/
structure TellsTruly (files : FileSystem) (root : Path) (place : Location) (index : ByColumn Bytes)
    (blocks : Nat) (disk : Disk) : Prop where
  inspected : ∃ inspection, ((inspect root).outcome disk).1 = .ok inspection ∧
    inspection.path = root ∧ inspection.blocks = blocks ∧
    inspection.totalSize = (Column.all.map fun c =>
      sizeBy (files.folder place) c.name (index.get c)).sum
  /-- A column of a block is answered with the bytes between the bounds of its item. -/
  fetched : ∀ (c : Column) (number : Nat), prunedIn (index.get c) < number → number ≤ blocks →
    ∃ data text, IsItem files root c.name (index.get c) (number - 1 - prunedIn (index.get c)) data ∧
      ((fetch root c.name number).outcome disk).1 = .ok text ∧
      Text.bytesOfDigits text.toList = data
  /-- There is no block zero, and its item is the last number there is. -/
  outside : ∀ (c : Column) (number : Nat), number ≤ prunedIn (index.get c) ∨ blocks < number →
    number ≠ 0 ∨ blocks ≤ maxNumber →
      ((fetch root c.name number).outcome disk).1 =
        .error (.refused (.outOfBounds (itemOf number) (prunedIn (index.get c)) blocks))
  unknown : ∀ name, (∀ c : Column, c.name ≠ name) → ∀ number,
    ((fetch root name number).outcome disk).1 = .error (.refused (.unknownTable name))
  /-- Blocks are dropped unless they were pruned from a table. -/
  rolledBack : ∀ count, (∀ c : Column, prunedIn (index.get c) ≤ count) →
    ((rollBack root count).outcome disk).1 = .ok (blocks, min count blocks)

theorem Archive.InOrder.tellsTruly (h : InOrder (disk.files.folder place) entries blocks)
    (hhouses : disk.files.Houses IsFile root place)
    (h' : InOrder (disk'.files.folder place) entries blocks)
    (hhouses' : disk'.files.Houses IsFile root place) (hlocked' : disk'.locked = [])
    (hsame : SameButLock place disk disk') :
    TellsTruly disk.files root place (.ofFn fun c => encodeAll (entries.get c)) blocks disk' := by
  have hentries : ∀ c : Column, Audit.entries (encodeAll (entries.get c)) = entries.get c :=
    fun c => Audit.entries_encodeAll (h.intact c).storable
  have hpruned : ∀ c : Column, prunedIn ((ByColumn.ofFn fun c => encodeAll (entries.get c)).get c) =
      (firstOf (entries.get c)).offset.toNat := fun c => by
    rw [ByColumn.get_ofFn, prunedIn, hentries]
  have hlength : ∀ c : Column, (firstOf (entries.get c)).offset.toNat +
      (storedItems (disk'.files.folder place) c.name (entries.get c)).length = blocks := fun c => by
    rw [length_storedItems, ← h.items c, itemsOf]
  refine ⟨?_, fun c number hlow hhigh => ?_, fun c number houtside hzero => ?_,
    fun name hname number => ?_, fun count hcount => ?_⟩
  · obtain ⟨inspection, hrun, hpath, hblocks, hsize⟩ := h'.exists_inspect hhouses' hlocked'
    refine ⟨inspection, by rw [hrun], hpath, hblocks, hsize.trans ?_⟩
    congr 1
    refine List.map_congr_left fun c _ => ?_
    have htail := (h.intact c).indexed.tail_le_head
    rw [ByColumn.get_ofFn, sizeBy, hentries, length_encodeAll, ← bytesIn_eq htail]
    exact bytesIn_congr htail fun id _ _ => (hsame.sameFiles c.name).segment id
  · rw [hpruned] at hlow ⊢
    rw [ByColumn.get_ofFn]
    obtain ⟨n, rfl⟩ : ∃ n, number = (firstOf (entries.get c)).offset.toNat + n + 1 :=
      ⟨number - (firstOf (entries.get c)).offset.toNat - 1, by omega⟩
    have hitem : itemOf ((firstOf (entries.get c)).offset.toNat + n + 1) =
        (firstOf (entries.get c)).offset.toNat + n := by simp [itemOf]
    have hitems := h.items c
    rw [itemsOf] at hitems
    obtain ⟨data, hdata, hisItem⟩ := (h.intact c).exists_isItem hhouses.shows
      (fun file hfile => isFile_of_isFileOf (hfile.isFileOf (h.intact c).head_le))
      (show n + 1 < (entries.get c).length by omega)
    rw [← storedItems_grounded, ← (h.intact c).backed.storedItems_eq
      ((hsame.sameFiles c.name).agrees _), storedItems_grounded] at hdata
    refine ⟨data, Text.hex data, ?_, ?_, Text.bytesOfDigits_hex data⟩
    · rwa [Nat.add_sub_cancel, Nat.add_sub_cancel_left]
    · rw [h'.outcome_fetch hhouses' hlocked', hitem, answerFrom, if_neg (by omega),
        Nat.add_sub_cancel_left, hdata]
      rfl
  · have hlength := hlength c
    have hitem : itemOf number < (firstOf (entries.get c)).offset.toNat ∨
        blocks ≤ itemOf number := by
      rw [hpruned] at houtside
      unfold itemOf
      split <;> omega
    rw [hpruned, h'.outcome_fetch hhouses' hlocked', answerFrom_of_outside (by rwa [hlength]),
      hlength]
    rfl
  · have hnone : Column.ofName? name = none :=
      List.find?_eq_none.2 fun c _ => by simpa using hname c
    rw [h'.outcome_fetch_of_none hhouses' hlocked' hnone]
  · exact h'.answer_rollBack hhouses' hlocked' fun c => (hpruned c) ▸ hcount c

/-- Where an audit finds nothing amiss, every command that only looks at the archive succeeds or
refuses what is not there, and nothing but the lock file is ever touched: after any number of such
commands an audit says the same, and the commands tell what the files held at the start. -/
theorem reads_truly {report : ArchiveReport} (hhouses : disk.files.Houses IsFile root place)
    (hlocked : disk.locked = []) (haudit : Audit.archive disk.files root = .ok report)
    (hok : report.isOk = true) :
    ∃ (index : ByColumn Bytes) (blocks : Nat),
      (∀ c : Column, disk.files.read (root.join (indexFileName c.name)) = .ok (index.get c)) ∧
      (∀ table ∈ report.tables, table.items = blocks) ∧
      ∀ commands : List Maintenance, (∀ command ∈ commands, command.isReading = true) →
        SameButLock place disk (Maintenance.runAll root commands disk) ∧
        (Maintenance.runAll root commands disk).locked = [] ∧
        Audit.archive (Maintenance.runAll root commands disk).files root = .ok report ∧
        TellsTruly disk.files root place index blocks (Maintenance.runAll root commands disk) := by
  obtain ⟨entries, blocks, h, hitems⟩ := exists_inOrder_of_audit hhouses haudit hok
  refine ⟨.ofFn fun c => encodeAll (entries.get c), blocks, fun c => ?_, hitems,
    fun commands hreading => ?_⟩
  · rw [ByColumn.get_ofFn]
    exact hhouses.shows.read (isFile_of_isFileOf (isFileOf_index _)) (h.intact c).index
  · obtain ⟨h', hhouses', hlocked', hsame⟩ := h.runAll hhouses hlocked hreading
    refine ⟨hsame, hlocked', ?_, h.tellsTruly hhouses h' hhouses' hlocked' hsame⟩
    rw [h.audit_eq hhouses' fun c => hsame.sameFiles c.name,
      ← h.audit_eq hhouses fun c => .refl _ _, haudit]

/-- Three blocks are stored here, and two bodies were pruned.  Bodies are asked for that are gone,
and after that the archive still has three blocks. -/
theorem reads_truly_prunedBodies :
    ∃ inspection, ((inspect ⟨["", "a"]⟩).outcome (Maintenance.runAll ⟨["", "a"]⟩
        [.fetch "bodies" 1, .inspect, .fetch "bodies" 3]
        (Disk.ofFiles (.ofListing (prunedBodies 3))))).1 = .ok inspection ∧
      inspection.blocks = 3 := by
  have hreport : (match Audit.archive (FileSystem.ofListing (prunedBodies 3)) ⟨["", "a"]⟩ with
    | .ok report => report.isOk && decide (report.tables.map TableReport.items = [3, 3, 3, 3, 3])
    | .error _ => false) = true := by
    decide +kernel
  split at hreport
  · next report haudit =>
      rw [Bool.and_eq_true, decide_eq_true_eq] at hreport
      obtain ⟨hok, hthree⟩ := hreport
      have hhouses : (Disk.ofFiles (.ofListing (prunedBodies 3))).files.Houses IsFile
        ⟨["", "a"]⟩ ["a"] := houses_ofListing _
      obtain ⟨index, blocks, -, hitems, hall⟩ := reads_truly hhouses rfl haudit hok
      obtain ⟨-, -, -, htells⟩ := hall [.fetch "bodies" 1, .inspect, .fetch "bodies" 3] (by decide)
      obtain ⟨inspection, hrun, -, hblocks, -⟩ := htells.inspected
      obtain ⟨table, hmem, htable⟩ : ∃ table ∈ report.tables, table.items = 3 :=
        List.mem_map.1 (hthree ▸ List.mem_cons_self)
      exact ⟨inspection, hrun, by rw [hblocks, ← hitems table hmem, htable]⟩
  · simp at hreport

end BlockArchive
