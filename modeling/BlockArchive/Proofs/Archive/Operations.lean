import BlockArchive.CommandLine.Maintenance
import BlockArchive.Proofs.Archive.Ledger
import BlockArchive.Proofs.LockFile

/-! # Operations on an archive

* **`Operation`** lists what can be asked of an archive that was opened, and `perform` does it.
* **Reading.** Counting, getting, syncing and measuring change nothing, one lemma `onlyReads_` for
  each.
* **`Proceeds`**: the archive keeps its lock and stays open or closed, and nothing but effects
  happens to the disk.  Every operation but closing is of this kind (`Operation.proceeds`).
* **The lock.** Opening takes it or leaves all locks as they are (`outcome_openAt_cases`), closing
  gives it back whatever else went wrong (`outcome_close_of_open`), and a maintenance command does
  both (`locked_withExisting`).
* **Closed archives** answer each operation in one way and do nothing
  (`Operation.outcome_of_closed`). -/

namespace BlockArchive

open Attempt BlockArchive.Action

namespace Archive

variable {α : Type} {archive : Archive} {disk disk' : Disk} {root : Path} {id : FileId}

/-- The archive keeps its lock and is not closed or opened, and only effects change the disk. -/
structure Proceeds (state state' : Archive × Disk) : Prop where
  lock : state'.1.lock = state.1.lock
  closed : state'.1.closed = state.1.closed
  disk : state.2.LeadsTo state'.2

instance : IsPreorder (Archive × Disk) Proceeds where
  refl state := ⟨rfl, rfl, refl_of Disk.LeadsTo state.2⟩
  trans _ _ _ h h' :=
    ⟨h'.lock.trans h.lock, h'.closed.trans h.closed, IsTrans.trans _ _ _ h.disk h'.disk⟩

/-! ### What only reads -/

theorem onlyReads_onTable {action : Action (Table × Disk) α} (h : OnlyReads action) (c : Column) :
    OnlyReads (onTable c action) := by
  refine respects_onFirst h fun archive disk table disk' hsame => ?_
  obtain ⟨rfl, rfl⟩ := Prod.mk.inj hsame
  exact congrArg (·, disk') (set_tables_get archive c)

theorem onlyReads_ensureOpen : OnlyReads ensureOpen :=
  respects_bind respects_current fun _ => respects_ite (respects_throw _) (respects_pure _)

theorem onlyReads_count : OnlyReads count :=
  respects_bind onlyReads_ensureOpen fun _ => respects_bind respects_current fun _ =>
    respects_pure _

theorem onlyReads_get (c : Column) (number : Nat) : OnlyReads (get c number) :=
  respects_bind onlyReads_ensureOpen fun _ => onlyReads_onTable (Table.onlyReads_retrieve _) c

theorem onlyReads_getNamed (name : String) (number : Nat) : OnlyReads (getNamed name number) :=
  respects_bind (respects_ofExcept _) fun c => onlyReads_get c number

theorem onlyReads_sync : OnlyReads sync :=
  respects_bind onlyReads_ensureOpen fun _ =>
    respects_forM fun c => onlyReads_onTable Table.onlyReads_sync c

theorem onlyReads_stats : OnlyReads stats :=
  respects_bind onlyReads_ensureOpen fun _ => respects_mapM fun c =>
    respects_bind (onlyReads_onTable Table.onlyReads_size c) fun _ =>
      respects_bind respects_current fun _ => respects_pure _

/-! ### What keeps the lock -/

theorem proceeds_onTable {action : Action (Table × Disk) α} (h : OnlyPerformsBeside action)
    (c : Column) : Respects Proceeds (onTable c action) :=
  respects_onFirst h fun _ _ _ _ h => ⟨rfl, rfl, h⟩

theorem proceeds_blocks (blocks : Archive → Nat) :
    Respects Proceeds (update fun archive => { archive with blocks := blocks archive } :
      Action (Archive × Disk) Unit) :=
  respects_update fun _ disk => ⟨rfl, rfl, refl_of Disk.LeadsTo disk⟩

theorem proceeds_cutTables (items : Nat) : Respects Proceeds (cutTables items) :=
  respects_forM fun c => proceeds_onTable (Table.onlyPerforms_truncate _) c

theorem proceeds_evenOut : Respects Proceeds evenOut :=
  respects_bind respects_current fun _ => respects_bind (proceeds_cutTables _) fun _ =>
    proceeds_blocks _

theorem proceeds_closeTable (c : Column) : Respects Proceeds (closeTable c) :=
  respects_tryCatch
    (respects_bind (proceeds_onTable Table.onlyPerforms_close c) fun _ => respects_pure _)
    fun _ => respects_pure _

theorem proceeds_append (number : Nat) (row : Row) : Respects Proceeds (append number row) := by
  have hcolumns : Respects Proceeds (appendColumns number row) :=
    respects_forM fun c => proceeds_onTable (Table.onlyPerforms_append _ _) c
  refine respects_bind onlyReads_ensureOpen.respects fun _ =>
    respects_bind respects_current fun archive =>
    respects_when (respects_throw _) fun _ => respects_bind ?_ fun _ => proceeds_blocks _
  refine respects_tryCatch hcolumns fun e => respects_bind ?_ fun _ => respects_throw _
  exact respects_tryCatch proceeds_evenOut fun _ => respects_pure _

theorem proceeds_truncate (blocks : Nat) : Respects Proceeds (truncate blocks) := by
  refine respects_bind onlyReads_ensureOpen.respects fun _ =>
    respects_bind respects_current fun archive =>
    respects_ite (respects_pure _) ?_
  exact respects_bind (proceeds_cutTables _) fun _ => proceeds_blocks _

end Archive

/-! ### The operations -/

/-- What is asked of an archive that was opened. -/
inductive Operation where
  | count
  | get (c : Column) (number : Nat)
  | getNamed (name : String) (number : Nat)
  | append (number : Nat) (row : Row)
  | truncate (blocks : Nat)
  | sync
  | stats
  | close

namespace Operation

open Archive

variable {archive : Archive} {disk : Disk}

/-- Does what is asked; what is answered is left out, but for a failure. -/
def perform : Operation → Action (Archive × Disk) Unit
  | count => do let _ ← Archive.count
  | get c number => do let _ ← Archive.get c number
  | getNamed name number => do let _ ← Archive.getNamed name number
  | append number row => Archive.append number row
  | truncate blocks => Archive.truncate blocks
  | sync => Archive.sync
  | stats => do let _ ← Archive.stats
  | close => Archive.close

/-- Every operation but closing keeps the lock of the archive and all other locks. -/
theorem proceeds {operation : Operation} (h : operation ≠ .close) :
    Respects Proceeds operation.perform := by
  cases operation with
  | count => exact respects_bind onlyReads_count.respects fun _ => respects_pure _
  | get c number =>
      exact respects_bind (onlyReads_get c number).respects fun _ => respects_pure _
  | getNamed name number =>
      exact respects_bind (onlyReads_getNamed name number).respects fun _ => respects_pure _
  | append number row => exact proceeds_append number row
  | truncate blocks => exact proceeds_truncate blocks
  | sync => exact onlyReads_sync.respects
  | stats => exact respects_bind onlyReads_stats.respects fun _ => respects_pure _
  | close => exact absurd rfl h

/-- What a closed archive answers.  It is closed once more without complaint, and a name that no
column has is refused before anything else. -/
def answerClosed : Operation → Except Error Unit
  | close => .ok ()
  | getNamed name _ => if Column.ofName? name = none then .error (.unknownTable name)
      else .error .closed
  | _ => .error .closed

/-- A closed archive does nothing, and answers so. -/
theorem outcome_of_closed (hclosed : archive.closed = true) (operation : Operation)
    (disk : Disk) :
    operation.perform.outcome (archive, disk) = (operation.answerClosed, (archive, disk)) := by
  have hrefuse := outcome_ensureOpen_of_closed hclosed disk
  have hget : ∀ c number, (Archive.get c number).outcome (archive, disk) =
      (.error .closed, (archive, disk)) := fun c number => outcome_bind_error hrefuse _
  cases operation with
  | count => exact outcome_bind_error (outcome_bind_error hrefuse _) _
  | get c number => exact outcome_bind_error (hget c number) _
  | getNamed name number =>
      unfold perform answerClosed
      cases hname : Column.ofName? name with
      | none =>
          simp only [if_pos hname]
          exact outcome_bind_error (outcome_getNamed_of_none hname number) _
      | some c =>
          simp only [hname, reduceCtorEq, if_false]
          exact outcome_bind_error ((outcome_getNamed hname number).trans (hget c number)) _
  | append number row => exact outcome_bind_error hrefuse _
  | truncate blocks => exact outcome_bind_error hrefuse _
  | sync => exact outcome_bind_error hrefuse _
  | stats => exact outcome_bind_error (outcome_bind_error hrefuse _) _
  | close => exact outcome_close_of_closed hclosed disk

end Operation

/-! ### Opening and closing -/

namespace Archive

open DirectoryLock

variable {archive : Archive} {disk disk' : Disk} {root : Path} {id : FileId}

theorem exists_outcome_checkRoot (root : Path) (settings : Settings) (disk : Disk) :
    ∃ answer, (checkRoot root settings).outcome disk = (answer, disk) := by
  unfold checkRoot
  rw [outcome_bind_ok (outcome_get disk)]
  split
  · exact ⟨_, rfl⟩
  · exact ⟨_, rfl⟩
  · split <;> exact ⟨_, rfl⟩
  · exact ⟨_, rfl⟩

/-- Opening as it is once the lock was taken. -/
def openLocked (root : Path) (settings : Settings) (lock : DirectoryLock) :
    Action Disk Archive := do
  let tables ← ByColumn.ofFnM fun c => Table.openIn root c.name settings.cap
  let uneven : Archive := { path := root, blocks := 0, tables, lock := some lock, closed := false }
  let (evened, archive) ← Attempt.split uneven evenOut
  Attempt.ofExcept evened
  return archive

theorem openAt_eq (root : Path) (settings : Settings) :
    openAt root settings = (do
      checkRoot root settings
      Disk.makeDirectories root
      let lock ← DirectoryLock.acquire root
      tryCatch (openLocked root settings lock) fun e => do
        lock.release
        throw e) := rfl

theorem outcome_openLocked (root : Path) (settings : Settings) (lock : DirectoryLock)
    (disk : Disk) :
    ∃ answer disk', (openLocked root settings lock).outcome disk = (answer, disk') ∧
      disk.LeadsTo disk' ∧
      ∀ archive, answer = .ok archive → archive.lock = some lock ∧ archive.closed = false := by
  have htables : OnlyPerforms (ByColumn.ofFnM fun c =>
      Table.openIn root c.name settings.cap) :=
    respects_ofFnM fun c => Table.onlyPerforms_openIn _ _ _
  unfold openLocked
  cases hrun : (ByColumn.ofFnM fun c => Table.openIn root c.name settings.cap).outcome disk with
  | mk tables disk₁ =>
  have hleads := htables.of_outcome hrun
  cases tables with
  | error e => exact ⟨_, disk₁, outcome_bind_error hrun _, hleads, by simp⟩
  | ok tables =>
  rw [outcome_bind_ok hrun]
  cases hevened : evenOut.outcome
      (({ path := root, blocks := 0, tables, lock := some lock, closed := false } : Archive),
        disk₁) with
  | mk evened state =>
  obtain ⟨archive, disk₂⟩ := state
  obtain ⟨hlock, hclosed, hleads'⟩ := proceeds_evenOut.of_outcome hevened
  have hsplit : (Attempt.split
      ({ path := root, blocks := 0, tables, lock := some lock, closed := false } : Archive)
      evenOut : Action Disk _).outcome disk₁ = (.ok (evened, archive), disk₂) := by
    rw [outcome_split, hevened]
  simp only
  rw [outcome_bind_ok hsplit]
  simp only
  cases evened with
  | error e =>
      exact ⟨_, disk₂, outcome_bind_error (outcome_ofExcept _ _) _,
        IsTrans.trans _ _ _ hleads hleads', by simp⟩
  | ok _ =>
      refine ⟨_, disk₂, outcome_bind_ok (outcome_ofExcept _ _) _,
        IsTrans.trans _ _ _ hleads hleads', ?_⟩
      rintro _ ⟨⟩
      exact ⟨hlock, hclosed⟩

/-- An opening ends in an archive that holds the lock, or leaves the locks as they were. -/
theorem outcome_openAt_cases (root : Path) (settings : Settings) (disk : Disk) :
    (∃ e disk', (openAt root settings).outcome disk = (.error e, disk') ∧
      disk'.locked = disk.locked) ∨
    ∃ archive id disk', (openAt root settings).outcome disk = (.ok archive, disk') ∧
      archive.lock = some (DirectoryLock.on root id) ∧ archive.closed = false ∧
        id ∉ disk.locked ∧ disk'.locked = id :: disk.locked := by
  obtain ⟨checked, hcheck⟩ := exists_outcome_checkRoot root settings disk
  rw [openAt_eq]
  cases checked with
  | error e => exact .inl ⟨e, disk, outcome_bind_error hcheck _, rfl⟩
  | ok _ =>
  rw [outcome_bind_ok hcheck]
  cases hmake : (Disk.makeDirectories root).outcome disk with
  | mk made disk₁ =>
  have hlocks₁ := ((Disk.extends_makeDirectories root).of_outcome hmake).locked
  cases made with
  | error e => exact .inl ⟨e, disk₁, outcome_bind_error hmake _, hlocks₁⟩
  | ok _ =>
  rw [outcome_bind_ok hmake]
  rcases outcome_acquire root disk₁ with ⟨e, disk₂, hacquire, hlocks₂⟩ |
    ⟨id, disk₂, hacquire, hnew, hlocks₂, -⟩
  · exact .inl ⟨e, disk₂, outcome_bind_error hacquire _, hlocks₂.trans hlocks₁⟩
  rw [outcome_bind_ok hacquire, outcome_tryCatch]
  rw [hlocks₁] at hnew hlocks₂
  obtain ⟨answer, disk₃, hopened, hleads, harchive⟩ :=
    outcome_openLocked root settings (DirectoryLock.on root id) disk₂
  have hlocks₃ : disk₃.locked = id :: disk.locked := hleads.locked_eq.trans hlocks₂
  rw [hopened]
  cases answer with
  | ok archive =>
      obtain ⟨hlock, hclosed⟩ := harchive archive rfl
      exact .inr ⟨archive, id, disk₃, rfl, hlock, hclosed, hnew, hlocks₃⟩
  | error e =>
      -- the lock that was taken is given back
      exact .inl ⟨e, _, outcome_bind_ok (outcome_release root hlocks₃ hnew) _, rfl⟩

/-- While the lock is held, an opening that gets as far as the lock is refused.  All that it can
have done is to make directories. -/
theorem exists_outcome_openAt_of_held (settings : Settings)
    (hfile : disk.files.lockFileAt? root = some id) (hlocked : id ∈ disk.locked) :
    ∃ e disk', (openAt root settings).outcome disk = (.error e, disk') ∧ disk.Extends disk' ∧
      (e = .locked (root.join fileName) ∨
        (do
          checkRoot root settings
          Disk.makeDirectories root : Action Disk Unit).outcome disk = (.error e, disk')) := by
  obtain ⟨checked, hcheck⟩ := exists_outcome_checkRoot root settings disk
  rw [openAt_eq]
  cases checked with
  | error e =>
      exact ⟨e, disk, outcome_bind_error hcheck _, refl_of Disk.Extends disk,
        .inr (outcome_bind_error hcheck _)⟩
  | ok _ =>
  rw [outcome_bind_ok hcheck, outcome_bind_ok hcheck]
  cases hmake : (Disk.makeDirectories root).outcome disk with
  | mk made disk₁ =>
  have hextends := (Disk.extends_makeDirectories root).of_outcome hmake
  cases made with
  | error e => exact ⟨e, disk₁, outcome_bind_error hmake _, hextends, .inr rfl⟩
  | ok _ =>
  have hacquire := outcome_acquire_of_locked
    (FileSystem.lockFileAt?_of_extends hextends.files hfile) (hextends.locked ▸ hlocked)
  refine ⟨_, disk₁, ?_, hextends, .inl rfl⟩
  rw [outcome_bind_ok hmake, outcome_bind_error hacquire]

theorem exists_outcome_closeTables (columns : List Column) (state : Archive × Disk) :
    ∃ failures state', (columns.filterMapM closeTable).outcome state = (.ok failures, state') := by
  induction columns generalizing state with
  | nil => exact ⟨[], state, rfl⟩
  | cons c columns ih =>
      have hclose : ∃ failure state', (closeTable c).outcome state = (.ok failure, state') := by
        unfold closeTable
        rw [outcome_tryCatch]
        split
        · exact ⟨_, _, rfl⟩
        · exact ⟨_, _, rfl⟩
      obtain ⟨failure, state₁, hclose⟩ := hclose
      obtain ⟨failures, state₂, hrest⟩ := ih state₁
      rw [List.filterMapM_cons, outcome_bind_ok hclose]
      cases failure with
      | none => exact ⟨_, _, hrest⟩
      | some e => exact ⟨_, _, outcome_bind_ok hrest _⟩

/-- Closing gives the lock back, whatever is to be said of the tables. -/
theorem outcome_close_of_open {others : List FileId} (hclosed : archive.closed = false)
    (hlock : archive.lock = some (DirectoryLock.on root id))
    (hlocked : disk.locked = id :: others) (hnew : id ∉ others) :
    ∃ answer archive' disk', close.outcome (archive, disk) = (answer, (archive', disk')) ∧
      archive'.closed = true ∧ archive'.lock = none ∧ disk'.locked = others := by
  obtain ⟨failures, ⟨archive₁, disk₁⟩, htables⟩ :=
    exists_outcome_closeTables Column.all ({ archive with closed := true }, disk)
  obtain ⟨-, hclosed₁, hleads⟩ :=
    (respects_filterMapM proceeds_closeTable).of_outcome htables
  have hlocked₁ : disk₁.locked = id :: others := hleads.locked_eq.trans hlocked
  have hclose : ∃ answer, close.outcome (archive, disk) =
      (answer, ({ archive₁ with lock := none }, { disk₁ with locked := others })) := by
    unfold close
    rw [outcome_bind_ok (outcome_current _ _), hclosed]
    simp only [Bool.false_eq_true, if_false]
    rw [outcome_bind_ok (outcome_update _ _ _), outcome_bind_ok htables]
    simp only [hlock]
    rw [outcome_bind_ok (outcome_update _ _ _),
      outcome_bind_ok (outcome_onSecond_of (outcome_release root hlocked₁ hnew) _)]
    cases Error.ofList? failures <;> exact ⟨_, rfl⟩
  obtain ⟨answer, hclose⟩ := hclose
  exact ⟨answer, _, _, hclose, hclosed₁, rfl, rfl⟩

/-- An archive that is let go of gives its lock back. -/
theorem outcome_discard {others : List FileId}
    (hlock : archive.lock = some (DirectoryLock.on root id))
    (hlocked : disk.locked = id :: others) (hnew : id ∉ others) :
    archive.discard.outcome disk = (.ok (), { disk with locked := others }) := by
  unfold discard
  rw [hlock]
  exact outcome_release root hlocked hnew

end Archive

/-! ### Maintenance commands -/

namespace CommandLine

variable {α : Type} {disk : Disk} {path : Path} {id : FileId}

theorem Command.outcome_ofAction (action : Action Disk α) (disk : Disk) :
    (Command.ofAction action).outcome disk =
      ((action.outcome disk).1.mapError CommandError.refused, (action.outcome disk).2) := rfl

theorem outcome_openExisting (path : Path) (disk : Disk) :
    (openExisting path).outcome disk = (.error (.noArchive path), disk) ∨
    (openExisting path).outcome disk =
      (Command.ofAction (Archive.openAt path { create := false })).outcome disk := by
  unfold openExisting
  rw [outcome_bind_ok (outcome_get disk)]
  simp only
  split
  · exact .inl rfl
  · exact .inr rfl

/-- Work on an archive that was opened is done, and the archive is closed.  What went wrong in
closing it is reported before what the work answered. -/
theorem outcome_withExisting {work : Action (Archive × Disk) α}
    {archive archive₁ archive₂ : Archive} {disk₁ disk₂ disk₃ : Disk} {answer : Except Error α}
    {closed : Except Error Unit} (hopen : (openExisting path).outcome disk = (.ok archive, disk₁))
    (hwork : work.outcome (archive, disk₁) = (answer, (archive₁, disk₂)))
    (hclose : Archive.close.outcome (archive₁, disk₂) = (closed, (archive₂, disk₃))) :
    (withExisting path work).outcome disk =
      ((closed.bind fun _ => answer).mapError CommandError.refused, disk₃) := by
  have hsplit : (Attempt.split archive work : Command _).outcome disk₁ =
      (.ok (answer, archive₁), disk₂) := by
    rw [outcome_split, hwork]
  have hsplit' : (Attempt.split archive₁ Archive.close : Command _).outcome disk₂ =
      (.ok (closed, archive₂), disk₃) := by
    rw [outcome_split, hclose]
  unfold withExisting
  rw [outcome_bind_ok hopen, outcome_bind_ok hsplit, outcome_bind_ok hsplit']
  cases closed with
  | error e => rfl
  | ok u => cases answer <;> rfl

/-- A maintenance command leaves the locks as they were, whatever its outcome. -/
theorem locked_withExisting {work : Action (Archive × Disk) α}
    (hwork : Respects Archive.Proceeds work) (path : Path) (disk : Disk) :
    ((withExisting path work).outcome disk).2.locked = disk.locked := by
  rcases outcome_openExisting path disk with hopen | hopen
  · rw [withExisting, outcome_bind_error hopen]
  rw [Command.outcome_ofAction] at hopen
  rcases Archive.outcome_openAt_cases path { create := false } disk with
    ⟨e, disk', hrun, hlocks⟩ | ⟨archive, id, disk₁, hrun, hlock, hclosed, hnew, hlocks⟩
  · rw [hrun] at hopen
    rw [withExisting, outcome_bind_error hopen]
    exact hlocks
  rw [hrun] at hopen
  -- the archive still holds its lock when the work is done, and closing gives it back
  cases hworked : work.outcome (archive, disk₁) with
  | mk answer state =>
  obtain ⟨archive₂, disk₂⟩ := state
  obtain ⟨hlock₂, hclosed₂, hleads⟩ := hwork.of_outcome hworked
  obtain ⟨closed, archive₃, disk₃, hclose, -, -, hlocks₃⟩ := Archive.outcome_close_of_open
    (hclosed₂.trans hclosed) (hlock₂.trans hlock) (hleads.locked_eq.trans hlocks) hnew
  rw [outcome_withExisting hopen hworked hclose]
  exact hlocks₃

theorem exists_outcome_withExisting_of_held {path : Path} (work : Action (Archive × Disk) α)
    (hfile : disk.files.lockFileAt? path = some id) (hlocked : id ∈ disk.locked) :
    ∃ e disk', (withExisting path work).outcome disk = (.error e, disk') ∧ disk.Extends disk' ∧
      (e = .noArchive path ∨ ∃ cause, e = .refused cause ∧
        (Archive.openAt path { create := false }).outcome disk = (.error cause, disk')) := by
  unfold withExisting
  rcases outcome_openExisting path disk with hopen | hopen
  · exact ⟨_, disk, outcome_bind_error hopen _, refl_of Disk.Extends disk, .inl rfl⟩
  obtain ⟨cause, disk', hrun, hextends, -⟩ :=
    Archive.exists_outcome_openAt_of_held { create := false } hfile hlocked
  rw [Command.outcome_ofAction, hrun] at hopen
  exact ⟨_, disk', outcome_bind_error hopen _, hextends, .inr ⟨cause, rfl, hrun⟩⟩

end CommandLine

end BlockArchive
