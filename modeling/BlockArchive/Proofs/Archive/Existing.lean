import BlockArchive.Proofs.Archive.Session

/-! # Maintenance of what is not there

The maintenance commands are meant for an archive that somebody made before.

* **Nothing there, or no hashes.** Where nothing is, and in a directory without an index of hashes,
  every command is refused, and nothing is done to the disk.
* **Another index is missing.** The other columns are not looked for.  With an index of hashes a
  directory is opened as for writing: what is missing is made, as a table without items, and then
  all tables are cut to that (`exists_openAt_of_missing`).  The commands find an archive without
  blocks and leave it so (`StaysEmpty`). -/

namespace BlockArchive

open Attempt IndexEntry Table

variable {disk disk' : Disk} {root : Path} {place : Location} {archive : Archive}

/-! ### Nothing there -/

namespace Archive

theorem exists_outcome_checkRoot_of_free {settings : Settings}
    (h : disk.files.exists? root = false) (hcreate : settings.create = false) :
    ∃ e, (checkRoot root settings).outcome disk = (.error e, disk) := by
  unfold checkRoot
  rw [outcome_bind_ok (outcome_get disk)]
  cases hlink : disk.files.linkStatus root with
  | error e =>
      cases e with
      | notFound =>
          refine ⟨.missingDirectory root, ?_⟩
          simp only [hcreate]
          rfl
      | _ => exact ⟨.io _, rfl⟩
  | ok node =>
      by_cases hnode : ∃ target, node = .link target
      · obtain ⟨target, rfl⟩ := hnode
        exact ⟨.linkedDirectory root, rfl⟩
      · -- what is named there would also be found there
        have hstatus := FileSystem.status_of_linkStatus hlink fun target heq => hnode ⟨target, heq⟩
        simp [FileSystem.exists?, hstatus] at h

/-! ### A missing index -/

/-- Where the index of a table is missing, and the others recover, opening makes the index and
leaves no item in any table. -/
theorem exists_openAt_of_missing {c : Column} (hhouses : disk.files.Houses IsFile root place)
    (hlocked : disk.locked = []) (hmissing : disk.files.folder place (indexFileName c.name) = none)
    (hrecovers : ∀ d : Column, Recovers (disk.files.folder place) d.name
      (kept (disk.files.folder place) d.name)) (settings : Settings) :
    ∃ archive disk', (openAt root settings).outcome disk = (.ok archive, disk') ∧
      archive.blocks = 0 ∧ ∀ d : Column, (archive.tables.get d).items = 0 ∧
        disk'.files.folder place (indexFileName d.name) =
          some (encodeAll [firstOf (kept (disk.files.folder place) d.name)]) := by
  have hne : ∀ d : Column, kept (disk.files.folder place) d.name ≠ [] := fun d =>
    (hrecovers d).ne_nil
  have hfirst : ∀ d : Column, (kept (disk.files.folder place) d.name).take 1 =
      [firstOf (kept (disk.files.folder place) d.name)] := fun d => by
    obtain ⟨first, rest, hcons⟩ := List.exists_cons_of_ne_nil (hne d)
    rw [hcons]
    rfl
  have hrestores : Restores (disk.files.folder place)
      (.ofFn fun d => [firstOf (kept (disk.files.folder place) d.name)]) [] := by
    refine ⟨hrecovers, fun d => List.length_pos_iff.2 (hne d), ⟨c, ?_⟩, fun d => ?_, fun d => ?_⟩
    · rw [(recovers_of_index_missing hmissing).kept]
      rfl
    · rw [ByColumn.get_ofFn, ← hfirst]
      rfl
    · rw [ByColumn.get_ofFn]
      rfl
  obtain ⟨archive, -, disk', hrun, -, -, -, hopen, hblocks⟩ :=
    exists_openAt hhouses hlocked hrestores settings
  refine ⟨archive, disk', hrun, hblocks, fun d => ⟨?_, ?_⟩⟩
  · rw [hopen.table_eq, opened_items, (hopen.whole d).firstOf_offset, ByColumn.get_ofFn]
    rfl
  · rw [(hopen.whole d).index, ByColumn.get_ofFn]

/-! ### Work without blocks -/

/-- An archive without blocks gets none, and its files stay as they are. -/
def StaysEmpty (state state' : Archive × Disk) : Prop :=
  state.1.blocks = 0 → state'.1.blocks = 0 ∧ state'.2.files = state.2.files

instance : IsPreorder (Archive × Disk) StaysEmpty where
  refl _ h := ⟨h, rfl⟩
  trans _ _ _ h h' hempty :=
    have ⟨hblocks, hfiles⟩ := h hempty
    have ⟨hblocks', hfiles'⟩ := h' hblocks
    ⟨hblocks', hfiles'.trans hfiles⟩

variable {α : Type}

theorem staysEmpty_onTable {action : Action (Table × Disk) α}
    (h : Respects (SameIn fun state : Table × Disk => state.2.files) action) (c : Column) :
    Respects StaysEmpty (onTable c action) :=
  respects_onFirst h fun _ _ _ _ hsame hempty => ⟨hempty, hsame⟩

theorem staysEmpty_truncate (blocks : Nat) : Respects StaysEmpty (truncate blocks) := by
  refine respects_bind onlyReads_ensureOpen.respects fun _ => ?_
  rintro ⟨archive, disk⟩ (hempty : archive.blocks = 0)
  rw [outcome_bind_ok (outcome_current archive disk), if_pos (by omega), outcome_pure]
  exact ⟨hempty, rfl⟩

theorem staysEmpty_closeTable (c : Column) : Respects StaysEmpty (closeTable c) := by
  have hclose : Respects (SameIn fun state : Table × Disk => state.2.files) Table.close :=
    respects_bind onlyReads_openIndex.respects fun _ => respects_update fun _ _ => rfl
  exact respects_tryCatch (respects_bind (staysEmpty_onTable hclose c) fun _ => respects_pure _)
    fun _ => respects_pure _

theorem staysEmpty_update {f : Archive → Archive}
    (hf : ∀ archive, (f archive).blocks = archive.blocks) :
    Respects StaysEmpty (update f : Action (Archive × Disk) Unit) :=
  respects_update fun archive _ hempty => ⟨(hf archive).trans hempty, rfl⟩

theorem staysEmpty_release (lock : DirectoryLock) :
    Respects StaysEmpty (onSecond lock.release : Action (Archive × Disk) Unit) := by
  have hfiles : Respects (SameIn Disk.files) lock.release := fun disk => by
    unfold DirectoryLock.release Handle.unlock
    cases lock.file <;> rfl
  exact respects_onSecond hfiles fun _ _ _ hsame hempty => ⟨hempty, hsame⟩

theorem staysEmpty_close : Respects StaysEmpty close := by
  refine respects_bind respects_current fun archive => respects_ite (respects_pure _) ?_
  refine respects_bind (staysEmpty_update fun _ => rfl) fun _ =>
    respects_bind (respects_filterMapM staysEmpty_closeTable) fun failures => ?_
  cases archive.lock with
  | some lock =>
      refine respects_bind (staysEmpty_update fun _ => rfl) fun _ =>
        respects_bind (staysEmpty_release lock) fun _ => ?_
      cases Error.ofList? failures with
      | some e => exact respects_throw _
      | none => exact respects_pure _
  | none =>
      cases Error.ofList? failures with
      | some e => exact respects_throw _
      | none => exact respects_pure _

end Archive

/-! ### The commands -/

namespace CommandLine

variable {α : Type} {path : Path}

theorem exists_outcome_openExisting_of_free (h : disk.files.exists? path = false) :
    ∃ e, (openExisting path).outcome disk = (.error e, disk) := by
  obtain ⟨e, hcheck⟩ : ∃ e, (Archive.checkRoot path { create := false }).outcome disk =
      (.error e, disk) := Archive.exists_outcome_checkRoot_of_free h rfl
  have hopenAt : (Archive.openAt path { create := false }).outcome disk = (.error e, disk) := by
    rw [Archive.openAt_eq]
    exact outcome_bind_error hcheck _
  rcases outcome_openExisting path disk with hrun | hrun
  · exact ⟨_, hrun⟩
  · rw [Command.outcome_ofAction, hopenAt] at hrun
    exact ⟨_, hrun⟩

theorem outcome_openExisting_of_noHashes (hdirectory : disk.files.isDirectory path = true)
    (hindex : disk.files.exists? (indexPath path Column.hashes.name) = false) :
    (openExisting path).outcome disk = (.error (.noArchive path), disk) := by
  unfold openExisting
  rw [outcome_bind_ok (outcome_get disk)]
  simp only
  rw [if_pos ⟨hdirectory, by simp [hindex]⟩]
  rfl

/-- With an index of hashes, a directory is opened as an archive is. -/
theorem outcome_openExisting_of_hashes
    (hindex : disk.files.exists? (indexPath path Column.hashes.name) = true) :
    (openExisting path).outcome disk =
      (Command.ofAction (Archive.openAt path { create := false })).outcome disk := by
  unfold openExisting
  rw [outcome_bind_ok (outcome_get disk)]
  simp only
  rw [if_neg fun h => h.2 hindex]

theorem files_withExisting_of_empty {work : Action (Archive × Disk) α}
    (hwork : Respects Archive.StaysEmpty work)
    (hopen : (openExisting path).outcome disk = (.ok archive, disk')) (hempty : archive.blocks = 0) :
    ((withExisting path work).outcome disk).2.files = disk'.files := by
  cases hworked : work.outcome (archive, disk') with
  | mk answer state =>
  obtain ⟨archive₂, disk₂⟩ := state
  obtain ⟨hempty₂, hfiles₂⟩ := hwork.of_outcome hworked hempty
  cases hclosed : Archive.close.outcome (archive₂, disk₂) with
  | mk closed state =>
  obtain ⟨archive₃, disk₃⟩ := state
  obtain ⟨-, hfiles₃⟩ := Archive.staysEmpty_close.of_outcome hclosed hempty₂
  rw [outcome_withExisting hopen hworked hclosed]
  exact hfiles₃.trans hfiles₂

end CommandLine

namespace Maintenance

open CommandLine

variable {command : Maintenance} {e : CommandError}

theorem outcome_run_of_error (hopen : (openExisting root).outcome disk = (.error e, disk')) :
    (command.run root).outcome disk = (.error e, disk') := by
  obtain ⟨α, work, -, hcommand⟩ := Session.exists_withExisting command root
  rw [hcommand]
  exact outcome_bind_error (outcome_bind_error hopen _) _

theorem files_run_of_empty (hopen : (openExisting root).outcome disk = (.ok archive, disk'))
    (hempty : archive.blocks = 0) : ((command.run root).outcome disk).2.files = disk'.files := by
  obtain ⟨α, work, hwork, hcommand⟩ :=
    Session.exists_withExisting_of Archive.staysEmpty_truncate command root
  have hfiles := files_withExisting_of_empty hwork hopen hempty
  rw [hcommand, outcome_bind]
  cases hrun : (withExisting root work).outcome disk with
  | mk answer disk'' =>
  rw [hrun] at hfiles
  cases answer <;> exact hfiles

/-- Where nothing is, and in a directory without an index of hashes, no archive is opened and
nothing is done.  But where another index is missing, and the other tables recover, an archive
without blocks is opened: the missing index is made, and of every table all items are dropped. -/
theorem refused_or_emptied (root : Path) (disk : Disk) :
    (disk.files.exists? root = false →
      (∃ e, (openExisting root).outcome disk = (.error e, disk)) ∧
        ∀ command : Maintenance, ∃ e, (command.run root).outcome disk = (.error e, disk)) ∧
    (disk.files.isDirectory root = true →
      disk.files.exists? (indexPath root Column.hashes.name) = false →
      (openExisting root).outcome disk = (.error (.noArchive root), disk) ∧
        ∀ command : Maintenance,
          (command.run root).outcome disk = (.error (.noArchive root), disk)) ∧
    ∀ (place : Location) (c : Column), disk.files.Houses Archive.IsFile root place →
      disk.locked = [] →
      disk.files.folder place (indexFileName Column.hashes.name) ≠ none →
      disk.files.folder place (indexFileName c.name) = none →
      (∀ d : Column, Recovers (disk.files.folder place) d.name
        (kept (disk.files.folder place) d.name)) →
      ∃ archive disk', (openExisting root).outcome disk = (.ok archive, disk') ∧
        archive.blocks = 0 ∧
        (∀ d : Column, (archive.tables.get d).items = 0 ∧
          disk'.files.folder place (indexFileName d.name) =
            some (encodeAll [firstOf (kept (disk.files.folder place) d.name)])) ∧
        ∀ command : Maintenance, ((command.run root).outcome disk).2.files = disk'.files := by
  refine ⟨fun hfree => ?_, fun hdirectory hindex => ?_,
    fun place c hhouses hlocked hhashes hmissing hrecovers => ?_⟩
  · obtain ⟨e, hopen⟩ := exists_outcome_openExisting_of_free hfree
    exact ⟨⟨e, hopen⟩, fun command => ⟨e, outcome_run_of_error hopen⟩⟩
  · have hopen := outcome_openExisting_of_noHashes hdirectory hindex
    exact ⟨hopen, fun command => outcome_run_of_error hopen⟩
  · obtain ⟨archive, disk', hrun, hblocks, htables⟩ :=
      Archive.exists_openAt_of_missing hhouses hlocked hmissing hrecovers { create := false }
    obtain ⟨content, hcontent⟩ := Option.ne_none_iff_exists'.1 hhashes
    have hexists : disk.files.exists? (indexPath root Column.hashes.name) = true := by
      have hstatus := hhouses.shows.status
        (Archive.isFile_of_isFileOf (c := .hashes) (.inl rfl)) hcontent
      rw [FileSystem.exists?, indexPath, hstatus]
    have hopen : (openExisting root).outcome disk = (.ok archive, disk') := by
      rw [outcome_openExisting_of_hashes hexists, Command.outcome_ofAction, hrun]
      rfl
    exact ⟨archive, disk', hopen, hblocks, htables, fun command =>
      files_run_of_empty hopen hblocks⟩

/-- One block is stored here, but the index of the bodies is lost, and their segment with it. -/
def withoutBodies : List (String × Bytes) :=
  (Column.all.filter (· ≠ .bodies)).flatMap fun c =>
    [(indexFileName c.name, encodeAll [⟨0, 0⟩, ⟨0, 1⟩]), (segmentFileName c.name 0, [170])]

theorem recovers_withoutBodies (c : Column) :
    Recovers ((FileSystem.ofListing withoutBodies).folder ["a"]) c.name
      (kept ((FileSystem.ofListing withoutBodies).folder ["a"]) c.name) := by
  rw [FileSystem.folder_ofListing]
  by_cases hc : c = .bodies
  · subst hc
    have hrecovers : Recovers (fun name => withoutBodies.lookup name) Column.bodies.name
        [.sentinel] := recovers_of_index_missing (by decide +kernel)
    rwa [hrecovers.kept]
  · have hkept : kept (fun name => withoutBodies.lookup name) c.name = [⟨0, 0⟩, ⟨0, 1⟩] := by
      cases c <;> first | decide +kernel | exact absurd rfl hc
    rw [hkept]
    refine ⟨⟨by simp, rfl, ?_, ?_, ?_, fun id hlow hlt => ?_⟩, hkept⟩
    · simp [IsStorable]
    · simp [Precedes]
    · cases c <;> first | decide +kernel | exact absurd rfl hc
    · exact absurd hlt (Nat.not_lt.2 hlow)

/-- One path leads nowhere, another to a directory without any index; and there is one where just
the index of the bodies is missing. -/
theorem refused_or_emptied_withoutBodies :
    (∃ e, (openExisting ⟨["", "b"]⟩).outcome (Disk.ofFiles (.ofListing withoutBodies)) =
      (.error e, Disk.ofFiles (.ofListing withoutBodies))) ∧
    (openExisting ⟨["", "a"]⟩).outcome (Disk.ofFiles (.ofListing [])) =
      (.error (.noArchive ⟨["", "a"]⟩), Disk.ofFiles (.ofListing [])) ∧
    ∃ archive disk', (openExisting ⟨["", "a"]⟩).outcome (Disk.ofFiles (.ofListing withoutBodies)) =
        (.ok archive, disk') ∧ archive.blocks = 0 ∧
      ((inspect.run ⟨["", "a"]⟩).outcome (Disk.ofFiles (.ofListing withoutBodies))).2.files =
        disk'.files := by
  have hfolder := FileSystem.folder_ofListing withoutBodies
  obtain ⟨hfree, -, -⟩ := refused_or_emptied ⟨["", "b"]⟩ (Disk.ofFiles (.ofListing withoutBodies))
  obtain ⟨-, hempty, -⟩ := refused_or_emptied ⟨["", "a"]⟩ (Disk.ofFiles (.ofListing []))
  obtain ⟨-, -, hthere⟩ := refused_or_emptied ⟨["", "a"]⟩ (Disk.ofFiles (.ofListing withoutBodies))
  refine ⟨(hfree (by decide +kernel)).1, (hempty (by decide +kernel) (by decide +kernel)).1, ?_⟩
  have hhouses : (Disk.ofFiles (.ofListing withoutBodies)).files.Houses Archive.IsFile
      ⟨["", "a"]⟩ ["a"] := Archive.houses_ofListing _
  obtain ⟨archive, disk', hopen, hblocks, -, hcommand⟩ := hthere ["a"] .bodies hhouses rfl
    (by rw [Disk.ofFiles, hfolder]; decide +kernel) (by rw [Disk.ofFiles, hfolder]; decide +kernel)
    recovers_withoutBodies
  exact ⟨archive, disk', hopen, hblocks, hcommand .inspect⟩

/-- There the bodies have no index, and the hash of one block is stored; a command opens the archive
all the same, makes an index of bodies, and leaves no entry of the hash. -/
theorem openExisting_makes_index :
    (FileSystem.ofListing withoutBodies).isDirectory ⟨["", "a"]⟩ = true ∧
      (FileSystem.ofListing withoutBodies).exists?
        (indexPath ⟨["", "a"]⟩ Column.bodies.name) = false ∧
      (FileSystem.ofListing withoutBodies).length
        (indexPath ⟨["", "a"]⟩ Column.hashes.name) = .ok 12 ∧
      ∃ archive disk', (openExisting ⟨["", "a"]⟩).outcome
          (Disk.ofFiles (.ofListing withoutBodies)) = (.ok archive, disk') ∧
        disk'.files.exists? (indexPath ⟨["", "a"]⟩ Column.bodies.name) = true ∧
        disk'.files.length (indexPath ⟨["", "a"]⟩ Column.hashes.name) = .ok 6 := by
  refine ⟨by decide +kernel, by decide +kernel, by decide +kernel, ?_⟩
  have hafter :
      ((openExisting ⟨["", "a"]⟩).outcome (Disk.ofFiles (.ofListing withoutBodies))).1.isOk = true ∧
      ((openExisting ⟨["", "a"]⟩).outcome
        (Disk.ofFiles (.ofListing withoutBodies))).2.files.exists?
          (indexPath ⟨["", "a"]⟩ Column.bodies.name) = true ∧
      ((openExisting ⟨["", "a"]⟩).outcome
        (Disk.ofFiles (.ofListing withoutBodies))).2.files.length
          (indexPath ⟨["", "a"]⟩ Column.hashes.name) = .ok 6 := by
    decide +kernel
  obtain ⟨hok, hmade, hcut⟩ := hafter
  cases hrun : (openExisting ⟨["", "a"]⟩).outcome (Disk.ofFiles (.ofListing withoutBodies)) with
  | mk answer disk' =>
  rw [hrun] at hok hmade hcut
  cases answer with
  | ok archive => exact ⟨archive, disk', rfl, hmade, hcut⟩
  | error e => simp [Except.isOk, Except.toBool] at hok

end Maintenance

end BlockArchive
