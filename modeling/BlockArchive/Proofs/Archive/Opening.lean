import Mathlib.Order.WellFounded
import BlockArchive.Proofs.Archive.Opened
import BlockArchive.Proofs.Table.Opening

/-! # Opening an archive

* **Steps.** Opening makes and takes the lock (`exists_acquire`), opens the tables
  (`exists_openTables`), and evens them out (`IsOpen.exists_evenOut`).  All it does to the files is
  mending.  What is open before it is evened out is told by the files (`Restores.exists_uneven`,
  `exists_uneven`).
* **Whole run.** From files that rows are restored from, opening succeeds and shows these rows
  (`exists_openAt`); on tables at rest it changes nothing (`Rests.outcome_openAt`).
* **Lock.** While the lock is held, opening is refused (`outcome_openAt_of_locked`). -/

namespace BlockArchive

/-! ### Going through the columns -/

namespace ByColumn

variable {ε σ α : Type} {f : Column → Attempt ε σ α}

theorem exists_outcome_ofFnM (reached : List Column → (Column → α) → σ → Prop)
    (hstep : ∀ done c values s, c ∉ done → reached done values s →
      ∃ a s', (f c).outcome s = (.ok a, s') ∧
        reached (done ++ [c]) (Function.update values c a) s')
    {values : Column → α} {s : σ} (hstart : reached [] values s) :
    ∃ values' s', (ofFnM f).outcome s = (.ok (ofFn values'), s') ∧
      reached Column.all values' s' := by
  obtain ⟨a₁, s₁, hrun₁, h₁⟩ := hstep [] .hashes values s (by simp) hstart
  obtain ⟨a₂, s₂, hrun₂, h₂⟩ := hstep _ .bodies _ s₁ (by decide) h₁
  obtain ⟨a₃, s₃, hrun₃, h₃⟩ := hstep _ .transactions _ s₂ (by decide) h₂
  obtain ⟨a₄, s₄, hrun₄, h₄⟩ := hstep _ .receipts _ s₃ (by decide) h₃
  obtain ⟨a₅, s₅, hrun₅, h₅⟩ := hstep _ .interchain _ s₄ (by decide) h₄
  refine ⟨_, s₅, ?_, h₅⟩
  unfold ofFnM
  rw [Attempt.outcome_bind_ok hrun₁, Attempt.outcome_bind_ok hrun₂, Attempt.outcome_bind_ok hrun₃,
    Attempt.outcome_bind_ok hrun₄, Attempt.outcome_bind_ok hrun₅]
  rfl

theorem reached_of_outcome_ofFnM (reached : List Column → σ → Prop)
    (hstep : ∀ done c s a s', c ∉ done → reached done s → (f c).outcome s = (.ok a, s') →
      reached (done ++ [c]) s')
    {s s' : σ} {values : ByColumn α} (hstart : reached [] s)
    (hrun : (ofFnM f).outcome s = (.ok values, s')) : reached Column.all s' := by
  unfold ofFnM at hrun
  obtain ⟨a₁, s₁, hrun₁, hrun⟩ := Attempt.exists_of_outcome_bind hrun
  obtain ⟨a₂, s₂, hrun₂, hrun⟩ := Attempt.exists_of_outcome_bind hrun
  obtain ⟨a₃, s₃, hrun₃, hrun⟩ := Attempt.exists_of_outcome_bind hrun
  obtain ⟨a₄, s₄, hrun₄, hrun⟩ := Attempt.exists_of_outcome_bind hrun
  obtain ⟨a₅, s₅, hrun₅, hrun⟩ := Attempt.exists_of_outcome_bind hrun
  rw [Attempt.outcome_pure] at hrun
  obtain ⟨-, rfl⟩ := Prod.mk.inj hrun
  have h₁ := hstep [] .hashes s a₁ s₁ (by simp) hstart hrun₁
  have h₂ := hstep _ .bodies s₁ a₂ s₂ (by decide) h₁ hrun₂
  have h₃ := hstep _ .transactions s₂ a₃ s₃ (by decide) h₂ hrun₃
  have h₄ := hstep _ .receipts s₃ a₄ s₄ (by decide) h₃ hrun₄
  exact hstep _ .interchain s₄ a₅ s₅ (by decide) h₄ hrun₅

end ByColumn

namespace Disk

theorem after_locked {disk disk' : Disk} {locked : List FileId} (h : disk' = { disk with locked })
    (place : Location) (changes : List Change) :
    disk'.after place changes = { disk.after place changes with locked } := by
  induction changes generalizing disk disk' with
  | nil => exact h
  | cons change changes ih =>
      rw [after_cons, after_cons]
      refine ih ?_
      rw [h]
      rfl

end Disk

namespace Archive

open IndexEntry Table

variable {archive : Archive} {disk disk' : Disk} {root : Path} {place : Location} {cap : Nat}
  {entries : ByColumn (List IndexEntry)} {rows : List Row} {settings : Settings} {count : Nat}

/-! ### The lock -/

theorem outcome_checkRoot (hhouses : disk.files.Houses IsFile root place) (settings : Settings) :
    (checkRoot root settings).outcome disk = (.ok (), disk) := by
  have hstatus : disk.files.linkStatus root = .ok .directory := by
    unfold FileSystem.linkStatus
    rw [hhouses.named]
    simp only [hhouses.directory]
  unfold checkRoot
  rw [Attempt.outcome_bind_ok (Attempt.outcome_get disk)]
  simp only [hstatus]
  rfl

theorem each_mends_making (count : Nat) (folder : Folder) :
    Folder.Each (Mends count) folder (folder.making DirectoryLock.fileName) := by
  unfold Folder.making
  split
  · next hfree => exact ⟨.makeLock hfree, trivial⟩
  · trivial

/-- The lock file is made if it is missing, and locked. -/
theorem exists_acquire (hhouses : disk.files.Houses IsFile root place)
    (hlocked : disk.locked = []) :
    ∃ disk', disk' = {
        disk.after place ((disk.files.folder place).making DirectoryLock.fileName) with
        locked := [disk'.files.number place DirectoryLock.fileName] } ∧
      disk'.files.Houses IsFile root place ∧
      disk'.files.folder place =
        (disk.files.folder place).after ((disk.files.folder place).making DirectoryLock.fileName) ∧
      disk'.files.folder place DirectoryLock.fileName ≠ none ∧
      (DirectoryLock.acquire root).outcome disk = (.ok (lockOn disk'.files place root), disk') := by
  have hopen := Disk.outcome_openFile_update hhouses isFile_lock
  have heach := each_mends_making 0 (disk.files.folder place)
  obtain ⟨hhouses', hfolder⟩ := Disk.houses_and_folder_after hhouses
    (fun change hmem => isFile_of_each_mends heach hmem) (fits_of_each_mends heach)
  generalize hdisk₁ : disk.after place
    ((disk.files.folder place).making DirectoryLock.fileName) = disk₁ at *
  have hlocked₁ : disk₁.locked = [] := by
    rw [← hdisk₁, Disk.locked_after, hlocked]
  have htry : ((Handle.file (disk₁.files.number place DirectoryLock.fileName) true).tryLock).outcome
      disk₁ = (.ok true, { disk₁ with
        locked := [disk₁.files.number place DirectoryLock.fileName] }) := by
    unfold Handle.tryLock
    simp only
    rw [Attempt.outcome_bind_ok (Attempt.outcome_get disk₁), hlocked₁, if_neg (by simp)]
    rw [Attempt.outcome_bind_ok (Attempt.outcome_modify _ _)]
    simp only [hlocked₁]
    rfl
  refine ⟨{ disk₁ with locked := [disk₁.files.number place DirectoryLock.fileName] }, rfl, hhouses',
    hfolder, ?_, ?_⟩
  · change disk₁.files.folder place DirectoryLock.fileName ≠ none
    rw [hfolder, Folder.after_making, Function.update_self]
    simp
  · unfold DirectoryLock.acquire
    simp only
    rw [Attempt.outcome_bind_ok hopen, Attempt.outcome_bind_ok htry, if_pos rfl]
    rfl

/-! ### The tables -/

/-- What opening the tables of some columns leads to: these tables are at rest, with the entries
kept, and all that was done to the files is mending.  The files of the other tables, and the
segments above all entries written, were left alone. -/
structure OpenedUpTo (root : Path) (place : Location) (cap count : Nat) (start : Disk)
    (done : List Column) (tables : Column → Table) (disk : Disk) : Prop where
  mended : ∃ changes, Folder.Each (Mends count) (start.files.folder place) changes ∧
    disk = start.after place changes ∧
    disk.files.folder place = (start.files.folder place).after changes
  houses : disk.files.Houses IsFile root place
  whole : ∀ c ∈ done, Whole (disk.files.folder place) c.name
    (kept (start.files.folder place) c.name)
  table_eq : ∀ c ∈ done, tables c = opened disk.files place root c.name cap
    (kept (start.files.folder place) c.name)
  undone : ∀ c ∉ done, SameFiles (start.files.folder place) (disk.files.folder place) c.name
  above : ∀ (c : Column) (id : Nat),
    (∀ entry ∈ written (start.files.folder place) c.name, entry.segment.toNat < id) →
      disk.files.folder place (segmentFileName c.name id) =
        start.files.folder place (segmentFileName c.name id)
  number_lock : disk.files.number place DirectoryLock.fileName =
    start.files.number place DirectoryLock.fileName
  lock : disk.files.folder place DirectoryLock.fileName =
    start.files.folder place DirectoryLock.fileName

theorem OpenedUpTo.exists_openIn {start : Disk} {done : List Column} {tables : Column → Table}
    (h : OpenedUpTo root place cap count start done tables disk) {c : Column} (hc : c ∉ done)
    (hrecovers : Recovers (start.files.folder place) c.name
      (kept (start.files.folder place) c.name)) :
    ∃ table disk', (Table.openIn root c.name cap).outcome disk = (.ok table, disk') ∧
      OpenedUpTo root place cap count start (done ++ [c]) (Function.update tables c table)
        disk' := by
  have hsame := h.undone c hc
  obtain ⟨disk', ⟨changes, htidies, hdisk'⟩, hwhole, habove, hrun⟩ :=
    (hrecovers.congr hsame).exists_openIn cap h.houses (hnames_column c)
  have hfiles : ∀ change ∈ changes, IsFileOf c.name change.name := fun change hmem =>
    isFileOf_of_each_tidies htidies hmem
  have hfits := fits_of_each_tidies htidies
  have hnamed : ∀ change ∈ changes, IsFile change.name := fun change hmem =>
    isFile_of_isFileOf (hfiles change hmem)
  obtain ⟨hhouses', hfolder'⟩ := Disk.houses_and_folder_after h.houses hnamed hfits
  rw [← hdisk'] at hhouses' hfolder'
  obtain ⟨hlock, hnumber⟩ := lock_after h.houses hnamed hfiles hfits hdisk'
  have hothers : ∀ d ≠ c, Untouched place d.name disk disk' := fun d hdc =>
    untouched_after (Ne.symm hdc) h.houses hnamed hfiles hfits hdisk'
  have hne : ∀ d ∈ done, d ≠ c := fun d hd hdc => hc (hdc ▸ hd)
  obtain ⟨earlier, hearlier, hdisk, hfolder⟩ := h.mended
  refine ⟨_, disk', hrun, ⟨⟨earlier ++ changes, ?_, ?_, ?_⟩, hhouses', ?_, ?_, ?_, ?_,
    hnumber.trans h.number_lock, hlock.trans h.lock⟩⟩
  · rw [Folder.each_append, ← hfolder]
    exact ⟨hearlier, htidies.imp fun _ _ h => .tidy c h⟩
  · rw [Disk.after_append, ← hdisk, hdisk']
  · rw [Folder.after_append, ← hfolder, hfolder']
  · intro d hd
    rcases List.mem_append.1 hd with hd | hd
    · exact (h.whole d hd).congr (hothers d (hne d hd)).files
    · rw [List.mem_singleton.1 hd]
      exact hwhole
  · intro d hd
    rcases List.mem_append.1 hd with hd | hd
    · rw [Function.update_of_ne (hne d hd), h.table_eq d hd, (hothers d (hne d hd)).opened_eq]
    · rw [List.mem_singleton.1 hd, Function.update_self]
  · intro d hd
    rw [List.mem_append, not_or, List.mem_singleton] at hd
    exact (h.undone d hd.1).trans (hothers d hd.2).files
  · intro d id hid
    by_cases hdc : d = c
    · subst hdc
      rw [habove id, hsame.segment]
      rw [hsame.written]
      exact fun entry hentry => Nat.ne_of_lt (hid entry hentry)
    · rw [(hothers d hdc).files.segment, h.above d id hid]

/-- The tables are opened, one after the other. -/
theorem exists_openTables (hhouses : disk.files.Houses IsFile root place)
    (h : ∀ c : Column, Recovers (disk.files.folder place) c.name
      (kept (disk.files.folder place) c.name)) (cap count : Nat) :
    ∃ tables disk', (ByColumn.ofFnM fun c : Column => Table.openIn root c.name cap).outcome disk =
        (.ok (.ofFn tables), disk') ∧
      OpenedUpTo root place cap count disk Column.all tables disk' := by
  have hstart : OpenedUpTo root place cap count disk []
      (fun c => opened disk.files place root c.name cap []) disk :=
    ⟨⟨[], trivial, rfl, rfl⟩, hhouses, by simp, by simp, fun c _ => .refl _ _, fun _ _ _ => rfl,
      rfl, rfl⟩
  exact ByColumn.exists_outcome_ofFnM (OpenedUpTo root place cap count disk)
    (fun _ c _ _ hc hopened => hopened.exists_openIn hc (h c)) hstart

/-! ### Evening out -/

theorem shortest_eq {tables : ByColumn Table} (hle : ∀ c, count ≤ (tables.get c).items)
    (heq : ∃ c, (tables.get c).items = count) : shortest tables = count := by
  obtain ⟨c, hc⟩ := heq
  have hmin : (tables.toList.map Table.items).min? = some count := by
    rw [List.min?_eq_some_iff]
    constructor
    · rw [ByColumn.toList, List.map_map, List.mem_map]
      exact ⟨c, Column.mem_all c, hc⟩
    · intro n hn
      rw [ByColumn.toList, List.map_map, List.mem_map] at hn
      obtain ⟨d, -, rfl⟩ := hn
      exact hle d
  rw [shortest, hmin]
  rfl

theorem outcome_evenOut {archive' : Archive} (hshortest : shortest archive.tables = count)
    (hrun : (cutTables count).outcome (archive, disk) = (.ok (), (archive', disk'))) :
    evenOut.outcome (archive, disk) = (.ok (), ({ archive' with blocks := count }, disk')) := by
  unfold evenOut
  rw [Attempt.outcome_bind_ok (Attempt.outcome_current archive disk)]
  simp only [hshortest]
  rw [Attempt.outcome_bind_ok hrun]
  rfl

/-- The changes with which all tables are cut, if they are too long. -/
def cuttingAll (entries : ByColumn (List IndexEntry)) (count : Nat) : List Change :=
  Column.all.flatMap fun c => cuttingTo c.name (entries.get c) count

/-- Evening out cuts the tables to the shortest one. -/
theorem IsOpen.exists_evenOut {items : ByColumn (List Bytes)}
    (h : archive.IsOpen disk root place cap entries items)
    (hle : ∀ c, count ≤ (items.get c).length) (heq : ∃ c, (items.get c).length = count) :
    ∃ archive' disk', evenOut.outcome (archive, disk) = (.ok (), (archive', disk')) ∧
      disk' = disk.after place (cuttingAll entries count) ∧
      archive'.IsOpen disk' root place cap (takeIn Column.all (count + 1) entries)
        (takeIn Column.all count items) ∧
      archive'.blocks = count ∧
      Folder.Each (Mends count) (disk.files.folder place) (cuttingAll entries count) := by
  have hitems : ∀ c, (archive.tables.get c).items = (items.get c).length := by
    intro c
    have hlen := h.length_entries c
    rw [h.table_eq, opened_items, (h.whole c).firstOf_offset]
    omega
  have hshortest : shortest archive.tables = count := by
    refine shortest_eq (fun c => ?_) ?_
    · rw [hitems]
      exact hle c
    · obtain ⟨c, hc⟩ := heq
      exact ⟨c, (hitems c).trans hc⟩
  obtain ⟨archive', disk', hrun, hdisk', hopen, -, heach⟩ :=
    h.exists_cutColumns count (show Column.all.Nodup by decide)
  exact ⟨{ archive' with blocks := count }, disk', outcome_evenOut hshortest hrun, hdisk',
    hopen.with_blocks count, rfl, heach⟩

/-! ### The whole run -/

/-- The columns of some rows. -/
def columnsOf (rows : List Row) : ByColumn (List Bytes) :=
  .ofFn fun c => rows.map fun row => row.get c

@[simp] theorem get_columnsOf (rows : List Row) (c : Column) :
    (columnsOf rows).get c = rows.map fun row => row.get c := by
  rw [columnsOf, ByColumn.get_ofFn]

theorem IsOpen.rests (h : archive.IsOpen disk root place cap entries (columnsOf rows)) :
    Rests (disk.files.folder place) entries rows :=
  ⟨h.whole, fun c => by rw [h.items, get_columnsOf]⟩

theorem le_of_mem_cuttingAll {folder : Folder}
    (h : ∀ c : Column, Whole folder c.name (entries.get c)) {change : Change}
    (hmem : change ∈ cuttingAll entries count) {c : Column} {id : Nat}
    (hchange : change.name = segmentFileName c.name id) :
    id ≤ (lastOf (entries.get c)).segment.toNat := by
  obtain ⟨d, -, hmem⟩ := List.mem_flatMap.1 hmem
  have hwithin := isFileWithin_of_mem_cuttingTo (h d).intact hmem
  obtain rfl := column_eq_of_isFileOf (hwithin.isFileOf (h d).head_le) (.inr ⟨id, hchange⟩)
  rw [hchange] at hwithin
  rcases hwithin with hindex | ⟨id', -, hle, hid⟩
  · exact absurd hindex.symm (indexFileName_ne_segmentFileName _ _ _)
  · rwa [(segmentFileName_injective hid).2]

theorem outcome_openAt_of_tables {disk₁ disk₂ : Disk} {tables : ByColumn Table}
    (hhouses : disk.files.Houses IsFile root place)
    (hacquire : (DirectoryLock.acquire root).outcome disk =
      (.ok (lockOn disk₁.files place root), disk₁))
    (htables : (ByColumn.ofFnM fun c : Column =>
      Table.openIn root c.name settings.cap).outcome disk₁ = (.ok tables, disk₂)) :
    (openAt root settings).outcome disk =
      match evenOut.outcome (⟨root, 0, tables, some (lockOn disk₁.files place root), false⟩,
          disk₂) with
      | (.ok _, (archive, disk₃)) => (.ok archive, disk₃)
      | (.error e, (_, disk₃)) => (.error e, { disk₃ with
          locked := disk₃.locked.filter
            (· ≠ disk₁.files.number place DirectoryLock.fileName) }) := by
  unfold openAt
  rw [Attempt.outcome_bind_ok (outcome_checkRoot hhouses settings),
    Attempt.outcome_bind_ok (Disk.outcome_makeDirectories hhouses),
    Attempt.outcome_bind_ok hacquire, Attempt.outcome_tryCatch,
    Attempt.outcome_bind_ok htables]
  simp only
  rw [Attempt.outcome_bind_ok (Attempt.outcome_split _ _ _)]
  cases evenOut.outcome (⟨root, 0, tables, some (lockOn disk₁.files place root), false⟩, disk₂) with
  | mk answer left => cases answer <;> rfl

/-- The entries that a repair keeps of each table. -/
def keptIn (folder : Folder) : ByColumn (List IndexEntry) :=
  .ofFn fun c => kept folder c.name

@[simp] theorem get_keptIn (folder : Folder) (c : Column) :
    (keptIn folder).get c = kept folder c.name :=
  ByColumn.get_ofFn _ _

/-- On files that rows are restored from, opening mends them first, so that all that a repair of
each table keeps is open; what is left to do is evening out.  Segments above all entries written are
left alone. -/
theorem Restores.exists_uneven (h : Restores (disk.files.folder place) entries rows)
    (hhouses : disk.files.Houses IsFile root place) (hlocked : disk.locked = [])
    (settings : Settings) :
    ∃ uneven changes disk₂,
      uneven.IsOpen disk₂ root place settings.cap (keptIn (disk.files.folder place))
        (.ofFn fun c => storedItems (disk₂.files.folder place) c.name
          (kept (disk.files.folder place) c.name)) ∧
      disk₂ = { disk.after place changes with
        locked := [disk₂.files.number place DirectoryLock.fileName] } ∧
      Folder.Each (Mends rows.length) (disk.files.folder place) changes ∧
      disk₂.files.folder place = (disk.files.folder place).after changes ∧
      (∀ (c : Column) (id : Nat),
        (∀ entry ∈ written (disk.files.folder place) c.name, entry.segment.toNat < id) →
          disk₂.files.folder place (segmentFileName c.name id) =
            disk.files.folder place (segmentFileName c.name id)) ∧
      ∀ {archive : Archive} {disk₃ : Disk},
        evenOut.outcome (uneven, disk₂) = (.ok (), (archive, disk₃)) →
          (openAt root settings).outcome disk = (.ok archive, disk₃) := by
  obtain ⟨disk₁, hdisk₁, hhouses₁, hfolder₁, hthere₁, hacquire⟩ := exists_acquire hhouses hlocked
  have heach₁ := each_mends_making rows.length (disk.files.folder place)
  have hsame : ∀ c : Column,
      SameFiles (disk.files.folder place) (disk₁.files.folder place) c.name := fun c => by
    rw [hfolder₁]
    exact sameFiles_after_making
  have hkept : ∀ c : Column, kept (disk₁.files.folder place) c.name =
      kept (disk.files.folder place) c.name := fun c => (hsame c).kept
  generalize (disk.files.folder place).making DirectoryLock.fileName = changes₁ at *
  have hrestores₁ := h.after heach₁
  rw [← hfolder₁] at hrestores₁
  obtain ⟨tables, disk₂, htables, hopened⟩ :=
    exists_openTables hhouses₁ hrestores₁.recovers settings.cap rows.length
  obtain ⟨changes₂, heach₂, hdisk₂, hfolder₂⟩ := hopened.mended
  have hnumber : disk₂.locked = [disk₂.files.number place DirectoryLock.fileName] := by
    rw [hopened.number_lock, hdisk₂, Disk.locked_after]
    exact congrArg Disk.locked hdisk₁
  refine ⟨⟨root, 0, .ofFn tables, some (lockOn disk₁.files place root), false⟩,
    changes₁ ++ changes₂, disk₂, ⟨rfl, rfl, ?_, hnumber, ?_, ?_, hopened.houses,
    fun c => ?_, fun c => ?_⟩, ?_, ?_, ?_, fun c id hid => ?_, fun heven => ?_⟩
  · rw [lockOn, lockOn, hopened.number_lock]
  · rw [hopened.lock]
    exact hthere₁
  · refine ByColumn.ext_get fun c => ?_
    rw [tablesOn, ByColumn.get_ofFn, ByColumn.get_ofFn, get_keptIn, ← hkept]
    exact hopened.table_eq c (Column.mem_all c)
  · rw [get_keptIn, ← hkept]
    exact hopened.whole c (Column.mem_all c)
  · rw [ByColumn.get_ofFn, get_keptIn]
  · rw [← hnumber, hdisk₂, Disk.after_append]
    rw [hdisk₁, Disk.after_locked rfl]
  · rw [Folder.each_append, ← hfolder₁]
    exact ⟨heach₁, heach₂⟩
  · rw [hfolder₂, hfolder₁, Folder.after_append]
  · rw [← (hsame c).written] at hid
    rw [hopened.above c id hid, (hsame c).segment]
  · rw [outcome_openAt_of_tables hhouses hacquire htables, heven]

/-- Opening files that rows are restored from succeeds, and only mends them.  Segments above all
entries written are left alone. -/
theorem exists_openAt (hhouses : disk.files.Houses IsFile root place) (hlocked : disk.locked = [])
    (h : Restores (disk.files.folder place) entries rows) (settings : Settings) :
    ∃ archive changes disk', (openAt root settings).outcome disk = (.ok archive, disk') ∧
      disk' = { disk.after place changes with
        locked := [disk'.files.number place DirectoryLock.fileName] } ∧
      Folder.Each (Mends rows.length) (disk.files.folder place) changes ∧
      (∀ (c : Column) (id : Nat),
        (∀ entry ∈ written (disk.files.folder place) c.name, entry.segment.toNat < id) →
          disk'.files.folder place (segmentFileName c.name id) =
            disk.files.folder place (segmentFileName c.name id)) ∧
      archive.IsOpen disk' root place settings.cap entries (columnsOf rows) ∧
      archive.blocks = rows.length := by
  obtain ⟨uneven, changes₂, disk₂, hopen₂, hdisk₂, heach₂, hfolder₂, habove₂, hrun⟩ :=
    h.exists_uneven hhouses hlocked settings
  have hrestores₂ := h.after heach₂
  rw [← hfolder₂] at hrestores₂
  have hlength : ∀ c, ((ByColumn.ofFn fun c : Column =>
      storedItems (disk₂.files.folder place) c.name (kept (disk.files.folder place) c.name)).get
        c).length = (kept (disk.files.folder place) c.name).length - 1 := by
    intro c
    rw [ByColumn.get_ofFn, length_storedItems]
  obtain ⟨archive, disk₃, hevenOut, hdisk₃, hopen₃, hblocks, heach₃⟩ :=
    hopen₂.exists_evenOut (fun c => show rows.length ≤ _ by
      have := h.enough c
      rw [hlength]
      omega) (by
      obtain ⟨c, hc⟩ := h.shortest
      exact ⟨c, by rw [hlength, hc, Nat.add_sub_cancel]⟩)
  have hentries : takeIn Column.all (rows.length + 1) (keptIn (disk.files.folder place)) =
      entries := by
    refine ByColumn.ext_get fun c => ?_
    rw [get_takeIn_all, get_keptIn, h.entries_eq]
  have hitems : takeIn Column.all rows.length (ByColumn.ofFn fun c : Column =>
      storedItems (disk₂.files.folder place) c.name (kept (disk.files.folder place) c.name)) =
        columnsOf rows := by
    refine ByColumn.ext_get fun c => ?_
    rw [get_takeIn_all, ByColumn.get_ofFn, ← storedItems_take, ← h.entries_eq, hrestores₂.items,
      get_columnsOf]
  rw [hentries, hitems] at hopen₃
  refine ⟨archive, changes₂ ++ cuttingAll (keptIn (disk.files.folder place)) rows.length, disk₃,
    hrun hevenOut, ?_, ?_, fun c id hid => ?_, hopen₃, hblocks⟩
  · have hlast : disk₃ = { disk.after place (changes₂ ++
        cuttingAll (keptIn (disk.files.folder place)) rows.length) with
          locked := [disk₂.files.number place DirectoryLock.fileName] } := by
      rw [hdisk₃, Disk.after_append]
      exact Disk.after_locked hdisk₂ _ _
    have hlocked₃ := congrArg Disk.locked hlast
    rw [hopen₃.locked] at hlocked₃
    rw [hlocked₃]
    exact hlast
  · rw [Folder.each_append, ← hfolder₂]
    exact ⟨heach₂, heach₃⟩
  · have hlast : (lastOf ((keptIn (disk.files.folder place)).get c)).segment.toNat < id := by
      rw [get_keptIn]
      exact hid _ ((keep_begins _ _ _).subset (lastOf_mem (h.recovers c).ne_nil))
    rw [hdisk₃, Disk.folder_after hopen₂.houses
      (fun change hmem => isFile_of_each_mends heach₃ hmem) (fits_of_each_mends heach₃),
      Folder.after_ne, habove₂ c id hid]
    intro change hmem hname
    exact absurd (le_of_mem_cuttingAll hopen₂.whole hmem hname.symm) (Nat.not_le.2 hlast)

/-- While the lock is held, opening is refused. -/
theorem outcome_openAt_of_locked (hhouses : disk.files.Houses IsFile root place)
    (hthere : disk.files.folder place DirectoryLock.fileName ≠ none)
    (hlocked : disk.files.number place DirectoryLock.fileName ∈ disk.locked)
    (settings : Settings) :
    (openAt root settings).outcome disk =
      (.error (.locked (root.join DirectoryLock.fileName)), disk) := by
  have hopen := Disk.outcome_openFile_update_of_some hhouses isFile_lock hthere
  have htry : ((Handle.file (disk.files.number place DirectoryLock.fileName) true).tryLock).outcome
      disk = (.ok false, disk) := by
    unfold Handle.tryLock
    simp only
    rw [Attempt.outcome_bind_ok (Attempt.outcome_get disk), if_pos hlocked]
    rfl
  have hacquire : (DirectoryLock.acquire root).outcome disk =
      (.error (.locked (root.join DirectoryLock.fileName)), disk) := by
    unfold DirectoryLock.acquire
    simp only
    rw [Attempt.outcome_bind_ok hopen, Attempt.outcome_bind_ok htry]
    rfl
  unfold openAt
  rw [Attempt.outcome_bind_ok (outcome_checkRoot hhouses settings),
    Attempt.outcome_bind_ok (Disk.outcome_makeDirectories hhouses),
    Attempt.outcome_bind_error hacquire]

theorem exists_openTables_of_intact (hhouses : disk.files.Houses IsFile root place)
    (h : ∀ c : Column, Intact (disk.files.folder place) c.name (entries.get c)) (cap : Nat) :
    ∃ tables : Column → Table,
      (ByColumn.ofFnM fun c : Column => Table.openIn root c.name cap).outcome disk =
        (.ok (.ofFn tables), disk) ∧
      ∀ c : Column, tables c = opened disk.files place root c.name cap (entries.get c) := by
  have hrun : ∀ c : Column, (Table.openIn root c.name cap).outcome disk =
      (.ok (opened disk.files place root c.name cap (entries.get c)), disk) := fun c =>
    (h c).outcome_openIn hhouses.shows
      (fun _ hfile => isFile_of_isFileOf (hfile.isFileOf (h c).head_le)) cap
  obtain ⟨tables, _, hall, rfl, htable⟩ := ByColumn.exists_outcome_ofFnM
    (fun done tables (disk' : Disk) => disk' = disk ∧ ∀ c ∈ done, tables c =
      opened disk.files place root c.name cap (entries.get c))
    (f := fun c : Column => Table.openIn root c.name cap)
    (fun done c tables disk' hc ⟨hdisk', htable⟩ => by
      subst hdisk'
      refine ⟨_, _, hrun c, rfl, ?_⟩
      intro d hd
      rcases List.mem_append.1 hd with hd | hd
      · rw [Function.update_of_ne fun hdc : d = c => hc (hdc ▸ hd)]
        exact htable d hd
      · rw [List.mem_singleton.1 hd, Function.update_self])
    (show disk = disk ∧ ∀ c ∈ ([] : List Column),
      (fun _ => opened disk.files place root "" 0 []) c = _ from ⟨rfl, by simp⟩)
  exact ⟨tables, hall, fun c => htable c (Column.mem_all c)⟩

/-- On intact files, opening is evening out the tables that they make. -/
theorem exists_uneven (hhouses : disk.files.Houses IsFile root place) (hlocked : disk.locked = [])
    (h : ∀ c : Column, Intact (disk.files.folder place) c.name (entries.get c))
    (settings : Settings) :
    ∃ uneven disk₁, uneven.IsOpenOn IsFile disk₁ root place settings.cap entries ∧
      disk₁ = { disk.after place ((disk.files.folder place).making DirectoryLock.fileName) with
        locked := [disk₁.files.number place DirectoryLock.fileName] } ∧
      (∀ c : Column,
        SameFiles (disk.files.folder place) (disk₁.files.folder place) c.name) ∧
      (openAt root settings).outcome disk =
        match evenOut.outcome (uneven, disk₁) with
        | (.ok _, (archive, disk₂)) => (.ok archive, disk₂)
        | (.error e, (_, disk₂)) => (.error e, { disk₂ with
            locked := disk₂.locked.filter
              (· ≠ disk₁.files.number place DirectoryLock.fileName) }) := by
  obtain ⟨disk₁, hdisk₁, hhouses₁, hfolder₁, hthere₁, hacquire⟩ := exists_acquire hhouses hlocked
  have hsame : ∀ c : Column,
      SameFiles (disk.files.folder place) (disk₁.files.folder place) c.name := fun c => by
    rw [hfolder₁]
    exact sameFiles_after_making
  have hintact : ∀ c : Column, Intact (disk₁.files.folder place) c.name (entries.get c) :=
    fun c => (h c).congr (hsame c)
  obtain ⟨tables, htables, htable⟩ :=
    exists_openTables_of_intact hhouses₁ hintact settings.cap
  generalize huneven : (⟨root, 0, .ofFn tables, some (lockOn disk₁.files place root), false⟩ :
    Archive) = uneven
  refine ⟨uneven, disk₁, ?_, hdisk₁, hsame, ?_⟩
  · subst huneven
    refine ⟨rfl, rfl, rfl, congrArg Disk.locked hdisk₁, hthere₁, ?_, hhouses₁, hintact,
      fun c file hfile => isFile_of_isFileOf (hfile.isFileOf (h c).head_le)⟩
    exact ByColumn.ext_get fun c => by
      rw [tablesOn, ByColumn.get_ofFn, ByColumn.get_ofFn, htable]
  · rw [outcome_openAt_of_tables hhouses hacquire htables, huneven]

theorem cuttingAll_eq_nil (h : ∀ c : Column, (entries.get c).length ≤ count + 1) :
    cuttingAll entries count = [] := by
  unfold cuttingAll
  rw [List.flatMap_eq_nil_iff]
  intro c _
  rw [cuttingTo, if_neg (Nat.not_lt.2 (h c))]

/-- Opening an archive whose tables are at rest changes no file. -/
theorem Rests.outcome_openAt (h : Rests (disk.files.folder place) entries rows)
    (hhouses : disk.files.Houses IsFile root place) (hlocked : disk.locked = [])
    (hthere : disk.files.folder place DirectoryLock.fileName ≠ none) (settings : Settings) :
    ∃ archive, (openAt root settings).outcome disk = (.ok archive, { disk with
      locked := [disk.files.number place DirectoryLock.fileName] }) := by
  obtain ⟨uneven, disk₁, huneven, hdisk₁, hsame, hrun⟩ :=
    exists_uneven hhouses hlocked (fun c => (h.whole c).intact) settings
  have hopen : uneven.IsOpen disk₁ root place settings.cap entries (columnsOf rows) :=
    huneven.isOpen (fun c => (h.whole c).unpruned) fun c => by
      rw [(h.whole c).toBacked.storedItems_eq ((hsame c).agrees _), h.items, get_columnsOf]
  obtain ⟨archive, _, hevenOut, rfl, -, -, -⟩ := hopen.exists_evenOut
    (fun c => show rows.length ≤ _ by rw [get_columnsOf, List.length_map])
    ⟨.hashes, by rw [get_columnsOf, List.length_map]⟩
  rw [cuttingAll_eq_nil fun c => Nat.le_of_eq (h.length_entries c), Disk.after_nil] at hevenOut
  rw [Folder.making, if_neg hthere, Disk.after_nil] at hdisk₁
  have hfiles₁ : disk₁.files = disk.files := by rw [hdisk₁]
  rw [hfiles₁] at hdisk₁
  refine ⟨archive, ?_⟩
  rw [hrun, hevenOut, ← hdisk₁]

/-- The archive is then open on the files as they are. -/
theorem Rests.exists_openAt (h : Rests (disk.files.folder place) entries rows)
    (hhouses : disk.files.Houses IsFile root place) (hlocked : disk.locked = [])
    (hthere : disk.files.folder place DirectoryLock.fileName ≠ none) (settings : Settings) :
    ∃ archive, (openAt root settings).outcome disk = (.ok archive, { disk with
        locked := [disk.files.number place DirectoryLock.fileName] }) ∧
      archive.IsOpen { disk with locked := [disk.files.number place DirectoryLock.fileName] }
        root place settings.cap entries (columnsOf rows) ∧
      archive.blocks = rows.length := by
  obtain ⟨archive, hrun⟩ := h.outcome_openAt hhouses hlocked hthere settings
  obtain ⟨archive', _, disk', hrun', -, -, -, hopen, hblocks⟩ :=
    Archive.exists_openAt hhouses hlocked h.restores settings
  rw [hrun] at hrun'
  obtain ⟨hok, rfl⟩ := Prod.mk.inj hrun'
  obtain rfl := Except.ok.inj hok
  exact ⟨archive, hrun, hopen, hblocks⟩

theorem recovers_of_outcome_openTables (hhouses : disk.files.Houses IsFile root place)
    (h : ∀ c : Column, DamagedAtEnd (disk.files.folder place) c.name) {tables : ByColumn Table}
    (hrun : (ByColumn.ofFnM fun c : Column => Table.openIn root c.name cap).outcome disk =
      (.ok tables, disk')) (c : Column) :
    Recovers (disk.files.folder place) c.name (kept (disk.files.folder place) c.name) := by
  have hreached := ByColumn.reached_of_outcome_ofFnM
    (fun done (disk₁ : Disk) => disk₁.files.Houses IsFile root place ∧
      (∀ c ∈ done, Recovers (disk.files.folder place) c.name
        (kept (disk.files.folder place) c.name)) ∧
      ∀ c ∉ done, SameFiles (disk.files.folder place) (disk₁.files.folder place) c.name)
    (fun done c disk₁ table disk₂ hc ⟨hhouses₁, hrecovers, hsame⟩ hrun => by
      have hdamaged := (h c).congr (hsame c hc)
      have hrecover := recovers_of_outcome_openIn hhouses₁ (hnames_column c) hdamaged hrun
      rw [(hsame c hc).kept] at hrecover
      obtain ⟨hhouses₂, changes, hchanges, hfolder₂⟩ :=
        (tidied_of_outcome_openIn hhouses₁ (hnames_column c) hdamaged.unpruned hrun)
          |>.houses_and_folder hhouses₁ (hnames_column c)
      refine ⟨hhouses₂, fun d hd => ?_, fun d hd => (hsame d ?_).trans ?_⟩
      · rcases List.mem_append.1 hd with hd | hd
        · exact hrecovers d hd
        · rw [List.mem_singleton.1 hd]
          exact hrecover.congr (hsame c hc).symm
      · exact fun hmem => hd (List.mem_append_left _ hmem)
      · rw [hfolder₂]
        refine sameFiles_after fun change hmem =>
          .inr ⟨c, ?_, isFileOf_of_each_tidies hchanges hmem⟩
        rintro rfl
        exact hd (by simp))
    ⟨hhouses, by simp, fun c _ => .refl _ _⟩ hrun
  exact hreached.2.1 c (Column.mem_all c)

theorem recovers_of_outcome_openAt (hhouses : disk.files.Houses IsFile root place)
    (hlocked : disk.locked = [])
    (h : ∀ c : Column, DamagedAtEnd (disk.files.folder place) c.name)
    (hrun : (openAt root settings).outcome disk = (.ok archive, disk')) (c : Column) :
    Recovers (disk.files.folder place) c.name (kept (disk.files.folder place) c.name) := by
  obtain ⟨disk₁, -, hhouses₁, hfolder₁, -, hacquire⟩ := exists_acquire hhouses hlocked
  have hsame : ∀ c : Column,
      SameFiles (disk.files.folder place) (disk₁.files.folder place) c.name := by
    intro c
    rw [hfolder₁]
    exact sameFiles_after_making
  unfold openAt at hrun
  rw [Attempt.outcome_bind_ok (outcome_checkRoot hhouses settings),
    Attempt.outcome_bind_ok (Disk.outcome_makeDirectories hhouses),
    Attempt.outcome_bind_ok hacquire, Attempt.outcome_tryCatch] at hrun
  split at hrun
  · next heq =>
      obtain ⟨tables, disk₂, htables, -⟩ := Attempt.exists_of_outcome_bind heq
      have hrecovers := recovers_of_outcome_openTables hhouses₁ (fun c => (h c).congr (hsame c))
        htables c
      rw [(hsame c).kept] at hrecovers
      exact hrecovers.congr (hsame c).symm
  · next heq =>
      -- the handler gives the lock back and fails
      obtain ⟨_, _, -, hthrow⟩ := Attempt.exists_of_outcome_bind hrun
      rw [Attempt.outcome_throw] at hthrow
      simp at hthrow

/-- The first rows of some columns. -/
def rowsOf (items : Column → List Bytes) (count : Nat) : List Row :=
  (List.range count).map fun n => .ofFn fun c => ((items c)[n]?).getD []

theorem map_get_rowsOf {items : Column → List Bytes} {c : Column} (h : count ≤ (items c).length) :
    ((rowsOf items count).map fun row => row.get c) = (items c).take count := by
  refine List.ext_getElem ?_ fun n hn hn' => ?_
  · simp [rowsOf, h]
  · have hlt : n < (items c).length := by
      rw [List.length_take] at hn'
      omega
    simp [rowsOf, hlt]

theorem exists_restores {folder : Folder}
    (h : ∀ c : Column, Recovers folder c.name (kept folder c.name)) :
    ∃ entries rows, Restores folder entries rows := by
  obtain ⟨_, ⟨c₀, rfl⟩, hmin⟩ := Nat.lt_wfRel.wf.has_min
    (Set.range fun c : Column => (storedItems folder c.name (kept folder c.name)).length)
    ⟨_, .hashes, rfl⟩
  have hle : ∀ c : Column, (storedItems folder c₀.name (kept folder c₀.name)).length ≤
      (storedItems folder c.name (kept folder c.name)).length := fun c =>
    Nat.not_lt.1 (hmin _ ⟨c, rfl⟩)
  have hlength : (rowsOf (fun c => storedItems folder c.name (kept folder c.name))
      (storedItems folder c₀.name (kept folder c₀.name)).length).length =
        (storedItems folder c₀.name (kept folder c₀.name)).length := by
    simp [rowsOf]
  obtain ⟨entries, hrestores⟩ := exists_restores_of_items (fun c => ⟨_, h c, rfl⟩)
    (fun c => by rw [hlength, map_get_rowsOf (hle c)]) ⟨c₀, hlength.symm⟩
  exact ⟨entries, _, hrestores⟩

end Archive

end BlockArchive
