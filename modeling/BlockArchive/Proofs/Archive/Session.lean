import BlockArchive.Proofs.Archive.Operations

/-! # Many at work on one directory

* **`Session`**: a disk, and everybody who holds an archive or the bare lock of one of its
  directories, each under a number.
* **`Step`**: somebody opens the archive, takes the lock, does something with an archive or lets go
  of what is held; a maintenance command is run; or others change the files.  `Reaches` is a run of
  such steps in which the file that is locked stays where the lock file is looked for.
* **One at a time.** `Orderly` is what every step keeps (`Orderly.step`): there is at most one who
  holds the lock, and then that lock is all that is locked.
* **`one_writer`** draws the conclusions: who else comes is refused, who fails leaves the lock
  free, and who closed an archive can do nothing with it any more. -/

namespace BlockArchive

open Attempt

/-! ### Who is at work -/

/-- What is held by somebody who works on a directory. -/
inductive Holder where
  | archive (held : Archive)
  | lock (held : DirectoryLock)

namespace Holder

/-- The lock that is held; a closed archive holds none. -/
def lock? : Holder → Option DirectoryLock
  | archive held => held.lock
  | lock held => some held

/-- Lets go of what is held, without closing it. -/
def letGo : Holder → Action Disk Unit
  | archive held => held.discard
  | lock held => held.release

end Holder

/-- How somebody comes to work on a directory. -/
inductive Entry where
  | archive (settings : Settings)
  | lock

/-- Opens the archive at `root`, or takes the lock there. -/
def Entry.run (root : Path) : Entry → Action Disk Holder
  | archive settings => do return .archive (← Archive.openAt root settings)
  | lock => do return .lock (← DirectoryLock.acquire root)

/-- A command that opens an archive, works on it and closes it. -/
inductive Maintenance where
  | inspect
  | fetch (table : String) (number : Nat)
  | rollBack (blocks : Nat)

/-- Runs a command on the archive at `root`; what it answers is left out, but for a failure. -/
def Maintenance.run (root : Path) : Maintenance → CommandLine.Command Unit
  | inspect => do let _ ← CommandLine.inspect root
  | fetch table number => do let _ ← CommandLine.fetch root table number
  | rollBack blocks => do let _ ← CommandLine.rollBack root blocks

/-- A disk, and all who work on one directory of it, each under a number. -/
structure Session where
  disk : Disk
  holders : Nat → Option Holder

namespace Session

/-- Nobody is at work. -/
def start (disk : Disk) : Session := ⟨disk, fun _ => none⟩

/-- The lock that is held under a number. -/
def lockOf (s : Session) (n : Nat) : Option DirectoryLock :=
  (s.holders n).bind Holder.lock?

/-- Something becomes of the disk and of what is held under one number. -/
def put (s : Session) (disk : Disk) (n : Nat) (holder : Option Holder) : Session :=
  ⟨disk, Function.update s.holders n holder⟩

/-- Something becomes of the disk alone. -/
def onDisk (s : Session) (disk : Disk) : Session := { s with disk }

/-- One step of somebody who works on the directory `root`, or of others who change files. -/
inductive Step (root : Path) : Session → Session → Prop where
  | entered {s : Session} {entry : Entry} {n : Nat} {holder : Holder} {disk' : Disk}
      (hfree : s.holders n = none)
      (hrun : (entry.run root).outcome s.disk = (.ok holder, disk')) :
      Step root s (s.put disk' n (some holder))
  | refused {s : Session} {entry : Entry} {e : Error} {disk' : Disk}
      (hrun : (entry.run root).outcome s.disk = (.error e, disk')) :
      Step root s (s.onDisk disk')
  | operated {s : Session} {n : Nat} {archive archive' : Archive} {operation : Operation}
      {answer : Except Error Unit} {disk' : Disk} (hn : s.holders n = some (.archive archive))
      (hrun : operation.perform.outcome (archive, s.disk) = (answer, (archive', disk'))) :
      Step root s (s.put disk' n (some (.archive archive')))
  | letGo {s : Session} {n : Nat} {holder : Holder} {answer : Except Error Unit} {disk' : Disk}
      (hn : s.holders n = some holder)
      (hrun : holder.letGo.outcome s.disk = (answer, disk')) :
      Step root s (s.put disk' n none)
  | maintained {s : Session} {command : Maintenance}
      {answer : Except CommandLine.CommandError Unit} {disk' : Disk}
      (hrun : (command.run root).outcome s.disk = (answer, disk')) :
      Step root s (s.onDisk disk')
  | others (s : Session) (files : FileSystem) :
      Step root s (s.onDisk { s.disk with files })

/-- The file that somebody has locked is the one that the next to come will try to lock: the lock
file was not removed or replaced. -/
def KeepsLockFile (root : Path) (s : Session) : Prop :=
  ∀ n id, s.lockOf n = some (.on root id) → s.disk.files.lockFileAt? root = some id

/-- A run in which the lock file is not removed or replaced. -/
inductive Reaches (root : Path) : Session → Session → Prop where
  | refl (s : Session) : Reaches root s s
  | step {s s' s'' : Session} (h : Reaches root s s') (hstep : Step root s' s'')
      (hstays : s''.KeepsLockFile root) : Reaches root s s''

variable {s s' : Session} {root : Path} {disk disk' : Disk} {n m : Nat} {holder : Holder}
  {id : FileId}

@[simp] theorem disk_put (s : Session) (disk : Disk) (n : Nat) (holder : Option Holder) :
    (s.put disk n holder).disk = disk := rfl

@[simp] theorem disk_onDisk (s : Session) (disk : Disk) : (s.onDisk disk).disk = disk := rfl

@[simp] theorem lockOf_onDisk (s : Session) (disk : Disk) (n : Nat) :
    (s.onDisk disk).lockOf n = s.lockOf n := rfl

@[simp] theorem holders_put_same (s : Session) (disk : Disk) (n : Nat) (holder : Option Holder) :
    (s.put disk n holder).holders n = holder := by
  simp [put]

theorem holders_put_ne (s : Session) (disk : Disk) (holder : Option Holder) (h : m ≠ n) :
    (s.put disk n holder).holders m = s.holders m := by
  simp [put, h]

@[simp] theorem lockOf_put_same (s : Session) (disk : Disk) (n : Nat) (holder : Option Holder) :
    (s.put disk n holder).lockOf n = holder.bind Holder.lock? := by
  simp [lockOf]

theorem lockOf_put_ne (s : Session) (disk : Disk) (holder : Option Holder) (h : m ≠ n) :
    (s.put disk n holder).lockOf m = s.lockOf m := by
  simp [lockOf, holders_put_ne _ _ _ h]

theorem lockOf_put_of_same {holder : Option Holder} (h : holder.bind Holder.lock? = s.lockOf n)
    (disk : Disk) (m : Nat) : (s.put disk n holder).lockOf m = s.lockOf m := by
  by_cases hm : m = n
  · rw [hm, lockOf_put_same, h]
  · exact lockOf_put_ne s disk holder hm

/-! ### Coming in -/

theorem outcome_entry_cases (entry : Entry) (root : Path) (disk : Disk) :
    (∃ e disk', (entry.run root).outcome disk = (.error e, disk') ∧
      disk'.locked = disk.locked) ∨
    ∃ holder id disk', (entry.run root).outcome disk = (.ok holder, disk') ∧
      holder.lock? = some (.on root id) ∧
      (∀ archive, holder = .archive archive → archive.closed = false) ∧
        id ∉ disk.locked ∧ disk'.locked = id :: disk.locked := by
  cases entry with
  | archive settings =>
      rcases Archive.outcome_openAt_cases root settings disk with
        ⟨e, disk', hrun, hlocks⟩ | ⟨archive, id, disk', hrun, hlock, hclosed, hnew, hlocks⟩
      · exact .inl ⟨e, disk', outcome_bind_error hrun _, hlocks⟩
      · refine .inr ⟨.archive archive, id, disk', outcome_bind_ok hrun _, hlock, ?_, hnew, hlocks⟩
        rintro _ ⟨⟩
        exact hclosed
  | lock =>
      rcases DirectoryLock.outcome_acquire root disk with
        ⟨e, disk', hrun, hlocks⟩ | ⟨id, disk', hrun, hnew, hlocks, -⟩
      · exact .inl ⟨e, disk', outcome_bind_error hrun _, hlocks⟩
      · exact .inr ⟨.lock (.on root id), id, disk', outcome_bind_ok hrun _, rfl, by simp, hnew,
          hlocks⟩

/-- While somebody holds the lock, nobody comes in, and the disk only gains directories. -/
theorem exists_outcome_entry_of_held (entry : Entry) (hfile : disk.files.lockFileAt? root = some id)
    (hlocked : id ∈ disk.locked) :
    ∃ e disk', (entry.run root).outcome disk = (.error e, disk') ∧ disk.Extends disk' := by
  cases entry with
  | archive settings =>
      obtain ⟨e, disk', hrun, hextends, -⟩ :=
        Archive.exists_outcome_openAt_of_held settings hfile hlocked
      exact ⟨e, disk', outcome_bind_error hrun _, hextends⟩
  | lock =>
      exact ⟨_, disk, outcome_bind_error (DirectoryLock.outcome_acquire_of_locked hfile hlocked) _,
        refl_of Disk.Extends disk⟩

/-! ### Maintenance -/

/-- The command is a piece of work on an archive that is opened for it.  It reads and truncates, so
it respects what a truncation does. -/
theorem exists_withExisting_of {r : Archive × Disk → Archive × Disk → Prop}
    [IsPreorder (Archive × Disk) r] (htruncate : ∀ blocks, Respects r (Archive.truncate blocks))
    (command : Maintenance) (root : Path) :
    ∃ (α : Type) (work : Action (Archive × Disk) α), Respects r work ∧
      command.run root = (do let _ ← CommandLine.withExisting root work) := by
  have hcount : Respects r Archive.count := Archive.onlyReads_count.respects
  cases command with
  | inspect =>
      refine ⟨_, _, ?_, rfl⟩
      exact respects_bind Archive.onlyReads_stats.respects fun _ => respects_bind hcount fun _ =>
        respects_bind respects_current fun _ => respects_pure _
  | fetch table number =>
      refine ⟨_, _, (Archive.onlyReads_getNamed table number).respects, ?_⟩
      simp only [Maintenance.run, CommandLine.fetch, bind_assoc, pure_bind]
  | rollBack blocks =>
      refine ⟨_, _, ?_, rfl⟩
      exact respects_bind hcount fun _ => respects_bind (htruncate _) fun _ =>
        respects_bind Archive.onlyReads_sync.respects fun _ =>
          respects_bind hcount fun _ => respects_pure _

theorem exists_withExisting (command : Maintenance) (root : Path) :
    ∃ (α : Type) (work : Action (Archive × Disk) α), Respects Archive.Proceeds work ∧
      command.run root = (do let _ ← CommandLine.withExisting root work) :=
  exists_withExisting_of Archive.proceeds_truncate command root

theorem locked_maintenance (command : Maintenance) (root : Path) (disk : Disk) :
    ((command.run root).outcome disk).2.locked = disk.locked := by
  obtain ⟨α, work, hwork, hcommand⟩ := exists_withExisting command root
  rw [hcommand, outcome_bind]
  have hlocks := CommandLine.locked_withExisting hwork root disk
  cases hrun : (CommandLine.withExisting root work).outcome disk with
  | mk answer disk' =>
  rw [hrun] at hlocks
  cases answer <;> exact hlocks

/-! ### At most one holder -/

/-- What holds at every point of a run: an archive is open as long as it has its lock, and nobody
has the lock and nothing is locked, or one has it and it is all that is locked. -/
structure Orderly (root : Path) (s : Session) : Prop where
  closed : ∀ n archive, s.holders n = some (.archive archive) →
    archive.closed = archive.lock.isNone
  locks : (∀ n, s.lockOf n = none) ∧ s.disk.locked = [] ∨
    ∃ n id, s.lockOf n = some (.on root id) ∧ (∀ m, m ≠ n → s.lockOf m = none) ∧
      s.disk.locked = [id]

theorem orderly_start (h : disk.locked = []) : (start disk).Orderly root :=
  ⟨by simp [start], .inl ⟨fun _ => rfl, h⟩⟩

theorem Orderly.of_holds (h : s.Orderly root) {lock : DirectoryLock} (hn : s.lockOf n = some lock) :
    ∃ id, lock = .on root id ∧ (∀ m, m ≠ n → s.lockOf m = none) ∧ s.disk.locked = [id] := by
  rcases h.locks with ⟨hnone, -⟩ | ⟨m, id, hm, hothers, hlocked⟩
  · simp [hnone] at hn
  · have hmn : n = m := by
      by_contra hne
      simp [hothers n hne] at hn
    subst hmn
    exact ⟨id, Option.some.inj (hn.symm.trans hm), hothers, hlocked⟩

/-- A step that leaves everybody's lock and what is locked as they were keeps the order. -/
theorem Orderly.of_same (h : s.Orderly root)
    (hclosed : ∀ n archive, s'.holders n = some (.archive archive) →
      archive.closed = archive.lock.isNone)
    (hlocks : ∀ n, s'.lockOf n = s.lockOf n) (hlocked : s'.disk.locked = s.disk.locked) :
    s'.Orderly root := by
  refine ⟨hclosed, ?_⟩
  simp only [hlocks, hlocked]
  exact h.locks

theorem Orderly.closed_put (h : s.Orderly root) {holder : Option Holder}
    (hclosed : ∀ archive, holder = some (.archive archive) →
      archive.closed = archive.lock.isNone) (disk : Disk) (n : Nat) :
    ∀ m archive, (s.put disk n holder).holders m = some (.archive archive) →
      archive.closed = archive.lock.isNone := by
  intro m archive hm
  by_cases hmn : m = n
  · subst hmn
    rw [holders_put_same] at hm
    exact hclosed archive hm
  · rw [holders_put_ne _ _ _ hmn] at hm
    exact h.closed m archive hm

/-- Who holds nothing under a number any more has given back the lock, if it was held there. -/
theorem Orderly.of_given_back (h : s.Orderly root) {holder : Option Holder}
    (hclosed : ∀ archive, holder = some (.archive archive) →
      archive.closed = archive.lock.isNone)
    (hnone : holder.bind Holder.lock? = none)
    (hback : disk'.locked = [] ∧ (∃ lock, s.lockOf n = some lock) ∨
      disk' = s.disk ∧ s.lockOf n = none) :
    (s.put disk' n holder).Orderly root := by
  rcases hback with ⟨hlocked, lock, hn⟩ | ⟨rfl, hn⟩
  · obtain ⟨-, -, hothers, -⟩ := h.of_holds hn
    refine ⟨h.closed_put hclosed _ _, .inl ⟨fun m => ?_, hlocked⟩⟩
    by_cases hmn : m = n
    · rw [hmn, lockOf_put_same, hnone]
    · rw [lockOf_put_ne _ _ _ hmn, hothers m hmn]
  · exact h.of_same (h.closed_put hclosed _ _) (lockOf_put_of_same (hnone.trans hn.symm) _) rfl

/-- Closing an archive of a session gives back the lock that it holds. -/
theorem Orderly.exists_close (h : s.Orderly root) {archive : Archive}
    (hn : s.holders n = some (.archive archive)) :
    ∃ answer archive' disk',
      Archive.close.outcome (archive, s.disk) = (answer, (archive', disk')) ∧
      archive'.closed = true ∧ archive'.lock = none ∧
        (disk'.locked = [] ∧ (∃ lock, s.lockOf n = some lock) ∨
          disk' = s.disk ∧ s.lockOf n = none) := by
  have hlockOf : s.lockOf n = archive.lock := by simp [lockOf, hn, Holder.lock?]
  have hclosed := h.closed n archive hn
  cases hlock : archive.lock with
  | none =>
      rw [hlock] at hclosed
      exact ⟨_, archive, s.disk, Archive.outcome_close_of_closed hclosed s.disk, hclosed, hlock,
        .inr ⟨rfl, hlockOf.trans hlock⟩⟩
  | some lock =>
      rw [hlock] at hclosed hlockOf
      obtain ⟨id, rfl, -, hlocked⟩ := h.of_holds hlockOf
      obtain ⟨answer, archive', disk', hrun, hclosed', hlock', hlocked'⟩ :=
        Archive.outcome_close_of_open hclosed hlock hlocked (by simp)
      exact ⟨answer, archive', disk', hrun, hclosed', hlock', .inl ⟨hlocked', _, hlockOf⟩⟩

theorem Orderly.exists_letGo (h : s.Orderly root) {holder : Holder}
    (hn : s.holders n = some holder) :
    ∃ answer disk', holder.letGo.outcome s.disk = (answer, disk') ∧
      (disk'.locked = [] ∧ (∃ lock, s.lockOf n = some lock) ∨
        disk' = s.disk ∧ s.lockOf n = none) := by
  have hlockOf : s.lockOf n = holder.lock? := by simp [lockOf, hn]
  cases hlock : holder.lock? with
  | none =>
      cases holder with
      | archive held =>
          refine ⟨.ok (), s.disk, ?_, .inr ⟨rfl, hlockOf.trans hlock⟩⟩
          have hnone : held.lock = none := hlock
          simp only [Holder.letGo, Archive.discard, hnone]
          rfl
      | lock held => simp [Holder.lock?] at hlock
  | some lock =>
      rw [hlock] at hlockOf
      obtain ⟨id, rfl, -, hlocked⟩ := h.of_holds hlockOf
      refine ⟨.ok (), { s.disk with locked := [] }, ?_, .inl ⟨rfl, _, hlockOf⟩⟩
      cases holder with
      | archive held => exact Archive.outcome_discard hlock hlocked (by simp)
      | lock held =>
          obtain rfl : held = .on root id := Option.some.inj hlock
          exact DirectoryLock.outcome_release root hlocked (by simp)

theorem Orderly.exists_entry_of_free (h : s.Orderly root) (hstays : s.KeepsLockFile root)
    {entry : Entry} {disk' : Disk} (hfree : s.holders n = none)
    (hrun : (entry.run root).outcome s.disk = (.ok holder, disk')) :
    (s.put disk' n (some holder)).Orderly root := by
  have hempty : s.lockOf n = none := by simp [lockOf, hfree]
  rcases h.locks with ⟨hnone, hlocked⟩ | ⟨m, id, hm, -, hlocked⟩
  · rcases outcome_entry_cases entry root s.disk with
      ⟨e, disk₁, hrun', -⟩ | ⟨holder', id, disk₁, hrun', hlock, hclosed, -, hlocked'⟩
    · simp [hrun] at hrun'
    · rw [hrun] at hrun'
      obtain ⟨hholder, rfl⟩ := Prod.mk.inj hrun'
      obtain rfl : holder = holder' := Except.ok.inj hholder
      refine ⟨h.closed_put (fun archive harchive => ?_) _ _, .inr ⟨n, id, ?_, fun m hmn => ?_, ?_⟩⟩
      · obtain rfl : holder = .archive archive := Option.some.inj harchive
        rw [hclosed archive rfl]
        have : archive.lock = some (.on root id) := hlock
        rw [this]
        rfl
      · rw [lockOf_put_same]
        exact hlock
      · rw [lockOf_put_ne _ _ _ hmn, hnone]
      · rw [disk_put, hlocked', hlocked]
  · -- the lock file is locked, so that nobody comes in
    obtain ⟨e, disk₁, hrun', -⟩ := exists_outcome_entry_of_held entry (hstays m id hm)
      (hlocked ▸ List.mem_singleton_self id)
    simp [hrun] at hrun'

/-- Every step keeps the order. -/
theorem Orderly.step (h : s.Orderly root) (hstays : s.KeepsLockFile root)
    (hstep : Step root s s') : s'.Orderly root := by
  cases hstep with
  | entered hfree hrun => exact h.exists_entry_of_free hstays hfree hrun
  | @refused entry e disk' hrun =>
      refine h.of_same h.closed (fun _ => rfl) ?_
      rcases outcome_entry_cases entry root s.disk with
        ⟨e', disk₁, hrun', hlocked⟩ | ⟨holder, id, disk₁, hrun', -⟩
      · rw [hrun] at hrun'
        rw [disk_onDisk, (Prod.mk.inj hrun').2, hlocked]
      · simp [hrun] at hrun'
  | @operated n archive archive' operation answer disk' hn hrun =>
      by_cases hclose : operation = .close
      · subst hclose
        obtain ⟨answer', archive₁, disk₁, hrun', hclosed, hlock, hback⟩ := h.exists_close hn
        have hsame := Prod.mk.inj (hrun.symm.trans hrun')
        obtain ⟨rfl, rfl⟩ := Prod.mk.inj hsame.2
        refine h.of_given_back ?_ hlock hback
        rintro _ ⟨⟩
        rw [hclosed, hlock]
        rfl
      · obtain ⟨hlock, hclosed, hleads⟩ := (Operation.proceeds hclose).of_outcome hrun
        refine h.of_same (h.closed_put ?_ _ _) (lockOf_put_of_same ?_ _) hleads.locked_eq
        · rintro _ ⟨⟩
          simp only at hlock hclosed
          rw [hclosed, hlock, h.closed n archive hn]
        · simpa [lockOf, hn, Holder.lock?] using hlock
  | @letGo n holder answer disk' hn hrun =>
      obtain ⟨answer', disk₁, hrun', hback⟩ := h.exists_letGo hn
      obtain ⟨-, rfl⟩ := Prod.mk.inj (hrun.symm.trans hrun')
      exact h.of_given_back (by simp) rfl hback
  | @maintained command answer disk' hrun =>
      refine h.of_same h.closed (fun _ => rfl) ?_
      have hlocked := locked_maintenance command root s.disk
      rwa [hrun] at hlocked
  | others files => exact h.of_same h.closed (fun _ => rfl) rfl

theorem Reaches.orderly (h : Reaches root (start disk) s) (hlocked : disk.locked = []) :
    s.Orderly root ∧ s.KeepsLockFile root := by
  induction h with
  | refl => exact ⟨orderly_start hlocked, fun n id hn => by simp [start, lockOf] at hn⟩
  | step _ hstep hstays ih => exact ⟨ih.1.step ih.2 hstep, hstays⟩

/-! ### One writer at a time -/

/-- What holds at every point of a run. -/
structure OneWriter (root : Path) (s : Session) : Prop where
  /-- At most one holds the lock. -/
  alone : ∀ m n, s.lockOf m ≠ none → s.lockOf n ≠ none → m = n
  /-- An archive holds the lock until it is closed. -/
  holds : ∀ n archive, s.holders n = some (.archive archive) → archive.closed = false →
    s.lockOf n ≠ none
  /-- While the lock is held, it is refused to others. -/
  acquire_of_held : ∀ n, s.lockOf n ≠ none →
    (DirectoryLock.acquire root).outcome s.disk =
      (.error (.locked (root.join DirectoryLock.fileName)), s.disk)
  /-- While the lock is held, opening is refused, because of the lock or because it does not get as
  far, and leaves all that is stored. -/
  openAt_of_held : ∀ n, s.lockOf n ≠ none → ∀ settings, ∃ e disk',
    (Archive.openAt root settings).outcome s.disk = (.error e, disk') ∧ s.disk.Extends disk' ∧
      (e = .locked (root.join DirectoryLock.fileName) ∨
        (do
          Archive.checkRoot root settings
          Disk.makeDirectories root : Action Disk Unit).outcome s.disk = (.error e, disk'))
  /-- While the lock is held, a maintenance command is refused where opening is, or because there is
  no archive, and leaves all that is stored. -/
  maintenance_of_held : ∀ n, s.lockOf n ≠ none → ∀ command : Maintenance, ∃ e disk',
    (command.run root).outcome s.disk = (.error e, disk') ∧ s.disk.Extends disk' ∧
      (e = .noArchive root ∨ ∃ cause, e = .refused cause ∧
        (Archive.openAt root { create := false }).outcome s.disk = (.error cause, disk'))
  /-- While nobody holds the lock, who fails to come in leaves it free, and who comes in has locked
  one file. -/
  entry_of_free : (∀ n, s.lockOf n = none) → ∀ entry : Entry,
    match (entry.run root).outcome s.disk with
    | (.error _, disk') => disk'.locked = []
    | (.ok _, disk') => ∃ id, disk'.locked = [id]
  /-- While nobody holds the lock, a maintenance command leaves it free, whatever its outcome. -/
  maintenance_of_free : (∀ n, s.lockOf n = none) → ∀ command : Maintenance,
    ((command.run root).outcome s.disk).2.locked = []
  /-- Closing an archive leaves the lock free if it held it, and afterwards, whatever becomes of the
  disk, it answers every operation as a closed archive does and does nothing. -/
  close : ∀ n archive, s.holders n = some (.archive archive) → ∃ answer archive' disk',
    Archive.close.outcome (archive, s.disk) = (answer, (archive', disk')) ∧
      (archive.closed = false → disk'.locked = []) ∧
      (archive.closed = true → answer = .ok () ∧ archive' = archive ∧ disk' = s.disk) ∧
      ∀ (operation : Operation) (disk'' : Disk),
        operation.perform.outcome (archive', disk'') =
          (operation.answerClosed, (archive', disk''))

theorem keepsLockFile_put_start (disk : Disk) (n : Nat) (hlock : holder.lock? = some (.on root id))
    (hfile : disk'.files.lockFileAt? root = some id) :
    ((start disk).put disk' n (some holder)).KeepsLockFile root := by
  intro m id' hm
  by_cases hmn : m = n
  · rw [hmn, lockOf_put_same] at hm
    have hsame := hlock.symm.trans hm
    simp only [DirectoryLock.on, Option.some.injEq, DirectoryLock.mk.injEq, Handle.file.injEq,
      true_and, and_true] at hsame
    rw [← hsame]
    exact hfile
  · rw [lockOf_put_ne _ _ _ hmn] at hm
    simp [start, lockOf] at hm

theorem Orderly.exists_lockFile (h : s.Orderly root) (hstays : s.KeepsLockFile root)
    (hn : s.lockOf n ≠ none) :
    ∃ id, s.disk.files.lockFileAt? root = some id ∧ id ∈ s.disk.locked := by
  obtain ⟨lock, hlock⟩ := Option.ne_none_iff_exists'.1 hn
  obtain ⟨id, rfl, -, hlocked⟩ := h.of_holds hlock
  exact ⟨id, hstays n id hlock, hlocked ▸ List.mem_singleton_self id⟩

theorem Orderly.locked_of_free (h : s.Orderly root) (hfree : ∀ n, s.lockOf n = none) :
    s.disk.locked = [] := by
  rcases h.locks with ⟨-, hlocked⟩ | ⟨n, id, hn, -⟩
  · exact hlocked
  · simp [hfree] at hn

theorem exists_maintenance_of_held (command : Maintenance)
    (hfile : disk.files.lockFileAt? root = some id) (hlocked : id ∈ disk.locked) :
    ∃ e disk', (command.run root).outcome disk = (.error e, disk') ∧ disk.Extends disk' ∧
      (e = .noArchive root ∨ ∃ cause, e = .refused cause ∧
        (Archive.openAt root { create := false }).outcome disk = (.error cause, disk')) := by
  obtain ⟨α, work, -, hcommand⟩ := exists_withExisting command root
  obtain ⟨e, disk', hrun, hcause⟩ :=
    CommandLine.exists_outcome_withExisting_of_held work hfile hlocked
  exact ⟨e, disk', hcommand ▸ outcome_bind_error hrun _, hcause⟩

/-- At every point of a run there is at most one writer, others leave no trace, and a closed archive
does nothing. -/
theorem one_writer (hlocked : disk.locked = []) (h : Reaches root (start disk) s) :
    s.OneWriter root := by
  obtain ⟨horderly, hstays⟩ := h.orderly hlocked
  refine ⟨fun m n hm hn => ?_, fun n archive hn hopen => ?_, fun n hn => ?_, fun n hn settings => ?_,
    fun n hn command => ?_, fun hfree entry => ?_, fun hfree command => ?_, fun n archive hn => ?_⟩
  · obtain ⟨lock, hlock⟩ := Option.ne_none_iff_exists'.1 hn
    obtain ⟨-, -, hothers, -⟩ := horderly.of_holds hlock
    exact not_not.1 fun hmn => hm (hothers m hmn)
  · have hclosed := horderly.closed n archive hn
    intro hnone
    have hlock : archive.lock = none := by simpa [lockOf, hn, Holder.lock?] using hnone
    simp [hopen, hlock] at hclosed
  · obtain ⟨id, hfile, hmem⟩ := horderly.exists_lockFile hstays hn
    exact DirectoryLock.outcome_acquire_of_locked hfile hmem
  · obtain ⟨id, hfile, hmem⟩ := horderly.exists_lockFile hstays hn
    exact Archive.exists_outcome_openAt_of_held settings hfile hmem
  · obtain ⟨id, hfile, hmem⟩ := horderly.exists_lockFile hstays hn
    exact exists_maintenance_of_held command hfile hmem
  · have hfree := horderly.locked_of_free hfree
    rcases outcome_entry_cases entry root s.disk with
      ⟨e, disk', hrun, hlocked⟩ | ⟨holder, id, disk', hrun, -, -, -, hlocked⟩
    · rw [hrun]
      exact hlocked.trans hfree
    · rw [hrun]
      exact ⟨id, hlocked.trans (by rw [hfree])⟩
  · rw [locked_maintenance, horderly.locked_of_free hfree]
  · obtain ⟨answer, archive', disk', hrun, hclosed, -, hback⟩ := horderly.exists_close hn
    refine ⟨answer, archive', disk', hrun, fun hopen => ?_, fun hclosed' => ?_,
      fun operation => operation.outcome_of_closed hclosed⟩
    · rcases hback with ⟨hlocked, -⟩ | ⟨-, hnone⟩
      · exact hlocked
      · have hlock : archive.lock = none := by simpa [lockOf, hn, Holder.lock?] using hnone
        have := horderly.closed n archive hn
        simp [hopen, hlock] at this
    · have hsame := (Archive.outcome_close_of_closed hclosed' s.disk).symm.trans hrun
      simp only [Prod.mk.injEq] at hsame
      exact ⟨hsame.1.symm, hsame.2.1.symm, hsame.2.2.symm⟩

/-- An archive is opened, and the lock is refused to another who comes. -/
theorem one_writer_oneDirectory :
    ∃ s, Reaches ⟨["", "a"]⟩ (start (Disk.ofFiles Archive.oneDirectory)) s ∧
      s.lockOf 0 ≠ none ∧ s.OneWriter ⟨["", "a"]⟩ := by
  have hopened : ((Archive.openAt ⟨["", "a"]⟩ {}).outcome
        (Disk.ofFiles Archive.oneDirectory)).1.isOk = true ∧
      ((Archive.openAt ⟨["", "a"]⟩ {}).outcome
        (Disk.ofFiles Archive.oneDirectory)).2.locked = [0] ∧
      ((Archive.openAt ⟨["", "a"]⟩ {}).outcome
        (Disk.ofFiles Archive.oneDirectory)).2.files.lockFileAt? ⟨["", "a"]⟩ = some 0 := by
    decide +kernel
  rcases Archive.outcome_openAt_cases ⟨["", "a"]⟩ {} (Disk.ofFiles Archive.oneDirectory) with
    ⟨e, disk₁, hrun, -⟩ | ⟨archive, id, disk₁, hrun, hlock, -, -, hlocked⟩
  · rw [hrun] at hopened
    exact absurd hopened.1 (by simp [Except.isOk, Except.toBool])
  rw [hrun] at hopened
  obtain ⟨-, hzero, hfile⟩ := hopened
  obtain ⟨rfl, -⟩ := List.cons.inj (hlocked.symm.trans hzero)
  have hholds : (Holder.archive archive).lock? = some (.on ⟨["", "a"]⟩ 0) := hlock
  have hstays := keepsLockFile_put_start (Disk.ofFiles Archive.oneDirectory) 0 hholds hfile
  have hentered : ((Entry.archive {}).run ⟨["", "a"]⟩).outcome
      (Disk.ofFiles Archive.oneDirectory) = (.ok (.archive archive), disk₁) :=
    outcome_bind_ok hrun _
  have hrefused : (Entry.lock.run ⟨["", "a"]⟩).outcome disk₁ =
      (.error (.locked (.join ⟨["", "a"]⟩ DirectoryLock.fileName)), disk₁) :=
    outcome_bind_error
      (DirectoryLock.outcome_acquire_of_locked hfile (hlocked ▸ List.mem_singleton_self 0)) _
  have hreaches := ((Reaches.refl _).step (.entered rfl hentered) hstays).step
    (.refused hrefused) hstays
  refine ⟨_, hreaches, ?_, one_writer rfl hreaches⟩
  rw [lockOf_onDisk, lockOf_put_same]
  exact fun hnone => Option.some_ne_none _ (hholds.symm.trans hnone)

end Session

end BlockArchive
