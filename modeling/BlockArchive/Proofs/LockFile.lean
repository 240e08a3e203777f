import BlockArchive.DirectoryLock
import BlockArchive.Proofs.Performing
import BlockArchive.Proofs.Resolution

/-! # The file that is locked

Two openings of a directory meet in one lock because both paths lead to the same file.

* **`FileSystem.Extends`**: all that was in a file system is in it still, with the same content.
  A path that led to a file leads to the same file then (`resolve_of_extends`).
* **`lockFileAt?`** is the file that the lock of a directory is on.
* **Taking the lock.** It is refused where the lock file is locked (`outcome_acquire_of_locked`);
  otherwise it is taken on the file that was not locked, or nothing is (`exists_acquire`).
* **Directories on the way.** Making sure that a directory is there extends the file system, so it
  does not hide the lock file. -/

namespace BlockArchive

namespace FileSystem

variable {files files' : FileSystem} {place : Location}

/-- All that is in the one file system is in the other as well, with the same content. -/
structure Extends (files files' : FileSystem) : Prop where
  home : files'.home = files.home
  node : ∀ place node, files.node? place = some node → files'.node? place = some node
  content : ∀ id, files'.content id = files.content id

instance : IsPreorder FileSystem Extends where
  refl _ := ⟨rfl, fun _ _ h => h, fun _ => rfl⟩
  trans _ _ _ h h' :=
    ⟨h'.home.trans h.home, fun place node hnode => h'.node _ _ (h.node place node hnode),
      fun id => (h'.content id).trans (h.content id)⟩

theorem ne_nil_of_node?_eq_none (h : files.node? place = none) : place ≠ [] := by
  intro hnil
  simp [node?, hnil] at h

theorem node?_of_assign {node node' : Node} {p : Location} (hnone : files.node? place = none)
    (hnames : files'.names = Effect.assign files.names place node)
    (h : files.node? p = some node') : files'.node? p = some node' := by
  have hne : p ≠ place := by
    rintro rfl
    simp [hnone] at h
  unfold node? at h ⊢
  rwa [hnames, Effect.lookup_assign_ne _ _ hne]

theorem extends_makeDirectory (h : files.node? place = none) :
    files.Extends ((Effect.makeDirectory place).apply files) :=
  ⟨rfl, fun _ _ => node?_of_assign h rfl, fun _ => rfl⟩

theorem extends_makeFile (h : files.node? place = none) :
    files.Extends ((Effect.makeFile place).apply files) :=
  ⟨rfl, fun _ _ => node?_of_assign h rfl, Effect.content_makeFile files place⟩

/-! ### Walks that end at something -/

theorem walkWith_of_extends {wanted : Wanted}
    {through through' : Location → List String → Except IoError Location}
    (h : files.Extends files')
    (hend : files.node? place = none → wanted = .newFile ∧ ∃ id, files'.node? place = some (.file id))
    (hthrough : ∀ start words, through start words = .ok place →
      through' start words = .ok place) :
    ∀ (words : List String) (start : Location),
      walkWith files wanted through start words = .ok place →
        walkWith files' wanted through' start words = .ok place
  | [], _, hwalk => hwalk
  | word :: rest, start, hwalk => by
      have ih := walkWith_of_extends h hend hthrough rest
      rw [walkWith] at hwalk ⊢
      split at hwalk
      · next hblank => rw [if_pos hblank]; exact ih _ hwalk
      next hblank =>
      split at hwalk
      · next hdots => rw [if_neg hblank, if_pos hdots]; exact ih _ hwalk
      next hdots =>
      split at hwalk
      · simp at hwalk
      next hslash =>
      split at hwalk
      · simp at hwalk
      next hshort =>
      rw [if_neg hblank, if_neg hdots, if_neg hslash, if_neg hshort]
      cases hnode : files.node? (start ++ [word]) with
      | some node =>
          rw [h.node _ _ hnode]
          rw [hnode] at hwalk
          cases node with
          | directory => exact ih _ hwalk
          | file id => exact hwalk
          | link target =>
              simp only at hwalk ⊢
              split at hwalk
              · next hlast => rw [if_pos hlast]; exact hwalk
              · next hlast => rw [if_neg hlast]; exact hthrough _ _ hwalk
      | none =>
          simp only [hnode] at hwalk
          split at hwalk
          · next hrest =>
              obtain rfl : start ++ [word] = place := Except.ok.inj hwalk
              obtain ⟨rfl, id, hfile⟩ := hend hnode
              -- a file is not made before a slash
              have hnil : rest = [] := Decidable.byContradiction fun hne => hslash ⟨rfl, hne, hrest⟩
              rw [hfile]
              simp only [hnil, if_true]
          · exact absurd hwalk (by simp)

theorem walk_of_extends {wanted : Wanted} (h : files.Extends files')
    (hend : files.node? place = none →
      wanted = .newFile ∧ ∃ id, files'.node? place = some (.file id)) :
    ∀ (hops : Nat) (start : Location) (words : List String),
      walk files wanted hops start words = .ok place →
        walk files' wanted hops start words = .ok place
  | 0, start, words, hwalk => walkWith_of_extends h hend (fun _ _ h => by simp at h) words start hwalk
  | hops + 1, start, words, hwalk =>
      walkWith_of_extends h hend (walk_of_extends h hend hops) words start hwalk

theorem resolve_of_extends {wanted : Wanted} {path : Path} (h : files.Extends files')
    (hend : files.node? place = none →
      wanted = .newFile ∧ ∃ id, files'.node? place = some (.file id))
    (hresolve : files.resolve wanted path = .ok place) :
    files'.resolve wanted path = .ok place := by
  obtain ⟨hcheck, hwalk⟩ := resolve_eq_ok hresolve
  rw [resolve_of_walk hcheck, startOf, h.home]
  exact walk_of_extends h hend _ _ _ hwalk

/-! ### The lock file -/

/-- The file that the lock of the directory `root` is on. -/
def lockFileAt? (files : FileSystem) (root : Path) : Option FileId :=
  match files.resolve .newFile (root.join DirectoryLock.fileName) with
  | .ok place =>
    match files.node? place with
    | some (.file id) => some id
    | _ => none
  | .error _ => none

variable {root : Path} {id : FileId}

theorem lockFileAt?_eq_some :
    files.lockFileAt? root = some id ↔
      ∃ place, files.resolve .newFile (root.join DirectoryLock.fileName) = .ok place ∧
        files.node? place = some (.file id) := by
  unfold lockFileAt?
  cases hresolve : files.resolve .newFile (root.join DirectoryLock.fileName) with
  | error e => simp
  | ok place =>
      cases hnode : files.node? place with
      | none => simp [hnode]
      | some node => cases node <;> simp [hnode]

/-- The lock file stays where it is when more comes to be stored. -/
theorem lockFileAt?_of_extends (h : files.Extends files') (hfile : files.lockFileAt? root = some id) :
    files'.lockFileAt? root = some id := by
  obtain ⟨place, hresolve, hnode⟩ := lockFileAt?_eq_some.1 hfile
  refine lockFileAt?_eq_some.2 ⟨place, ?_, h.node _ _ hnode⟩
  exact resolve_of_extends h (fun hnone => by simp [hnode] at hnone) hresolve

end FileSystem

open FileSystem Attempt

variable {disk : Disk} {root : Path} {id : FileId}

namespace DirectoryLock

/-- The lock of the directory `root`, taken on a file. -/
def on (root : Path) (id : FileId) : DirectoryLock := ⟨root.join fileName, .file id true⟩

theorem outcome_openFile_lockFile (root : Path) (disk : Disk) :
    (∃ e, (Disk.openFile (root.join fileName) .update).outcome disk = (.error e, disk)) ∨
    ∃ id disk', (Disk.openFile (root.join fileName) .update).outcome disk =
        (.ok (.file id true), disk') ∧
      disk'.locked = disk.locked ∧ disk.files.Extends disk'.files ∧
        disk'.files.lockFileAt? root = some id := by
  unfold Disk.openFile
  rw [outcome_bind_ok (outcome_get disk)]
  simp only
  cases hresolve : disk.files.resolve OpenMode.update.wanted (root.join fileName) with
  | error e => exact .inl ⟨.io e, outcome_bind_error (Action.outcome_ofIo _ _) _⟩
  | ok place =>
      rw [outcome_bind_ok (Action.outcome_ofIo _ _)]
      cases hnode : disk.files.node? place with
      | some node =>
          cases node with
          | file id =>
              exact .inr ⟨id, disk, rfl, rfl, refl_of Extends disk.files,
                lockFileAt?_eq_some.2 ⟨place, hresolve, hnode⟩⟩
          | directory => exact .inl ⟨_, rfl⟩
          | link target => exact .inl ⟨_, rfl⟩
      | none =>
          have hne := ne_nil_of_node?_eq_none hnode
          have hmade : ((Effect.makeFile place).apply disk.files).node? place =
              some (.file disk.files.contents.size) := by
            rw [node?, if_neg hne]
            exact Effect.lookup_assign_same _ _ _
          have hextends := extends_makeFile hnode
          refine .inr ⟨disk.files.contents.size, _, rfl, rfl, hextends, ?_⟩
          exact lockFileAt?_eq_some.2
            ⟨place, resolve_of_extends hextends (fun _ => ⟨rfl, _, hmade⟩) hresolve, hmade⟩

/-- A lock that is held is refused to others, and nothing is done to the disk. -/
theorem outcome_acquire_of_locked (hfile : disk.files.lockFileAt? root = some id)
    (hlocked : id ∈ disk.locked) :
    (acquire root).outcome disk = (.error (.locked (root.join fileName)), disk) := by
  obtain ⟨place, hresolve, hnode⟩ := lockFileAt?_eq_some.1 hfile
  have hopen : (Disk.openFile (root.join fileName) .update).outcome disk =
      (.ok (.file id true), disk) := by
    unfold Disk.openFile
    rw [outcome_bind_ok (outcome_get disk)]
    simp only [OpenMode.wanted, OpenMode.creates, if_true]
    rw [hresolve, outcome_bind_ok (Action.outcome_ofIo _ _), hnode]
    rfl
  have htry : (Handle.tryLock (.file id true)).outcome disk = (.ok false, disk) := by
    unfold Handle.tryLock
    simp only
    rw [outcome_bind_ok (outcome_get disk), if_pos hlocked]
    rfl
  unfold acquire
  rw [outcome_bind_ok hopen, outcome_bind_ok htry]
  rfl

/-- A lock is taken on the lock file, which nobody had locked, or no lock is taken. -/
theorem outcome_acquire (root : Path) (disk : Disk) :
    (∃ e disk', (acquire root).outcome disk = (.error e, disk') ∧ disk'.locked = disk.locked) ∨
    ∃ id disk', (acquire root).outcome disk = (.ok (on root id), disk') ∧
      id ∉ disk.locked ∧ disk'.locked = id :: disk.locked ∧
        disk'.files.lockFileAt? root = some id := by
  rcases outcome_openFile_lockFile root disk with ⟨e, hopen⟩ | ⟨id, disk₁, hopen, hlocks, -, hfile⟩
  · left
    refine ⟨e, disk, ?_, rfl⟩
    unfold acquire
    rw [outcome_bind_error hopen]
  · unfold acquire
    rw [outcome_bind_ok hopen]
    by_cases hlocked : id ∈ disk₁.locked
    · left
      refine ⟨.locked (root.join fileName), disk₁, ?_, hlocks⟩
      unfold Handle.tryLock
      simp only
      rw [outcome_bind, outcome_bind_ok (outcome_get disk₁), if_pos hlocked]
      rfl
    · right
      refine ⟨id, { disk₁ with locked := id :: disk₁.locked }, ?_, hlocks ▸ hlocked,
        congrArg _ hlocks, hfile⟩
      unfold Handle.tryLock
      simp only
      rw [outcome_bind, outcome_bind_ok (outcome_get disk₁), if_neg hlocked]
      rfl

/-- A lock that was taken last is given back, and those before it are left. -/
theorem outcome_release {others : List FileId} (root : Path) (h : disk.locked = id :: others)
    (hnew : id ∉ others) :
    (on root id).release.outcome disk = (.ok (), { disk with locked := others }) := by
  have hothers : disk.locked.filter (· ≠ id) = others := by
    rw [h, List.filter_cons_of_neg (by simp), List.filter_eq_self]
    intro other hmem
    simpa using fun heq : other = id => hnew (heq ▸ hmem)
  unfold release on Handle.unlock
  rw [outcome_modify, hothers]

end DirectoryLock

/-! ### Directories on the way -/

namespace Disk

/-- All that was stored is stored, with the same content, and the same files are locked. -/
structure Extends (disk disk' : Disk) : Prop where
  files : disk.files.Extends disk'.files
  locked : disk'.locked = disk.locked

instance : IsPreorder Disk Extends where
  refl disk := ⟨refl_of FileSystem.Extends disk.files, rfl⟩
  trans _ _ _ h h' := ⟨IsTrans.trans _ _ _ h.files h'.files, h'.locked.trans h.locked⟩

theorem extends_makeDirectory (path : Path) : Respects Extends (makeDirectory path) := by
  intro disk
  unfold makeDirectory
  rw [outcome_bind_ok (outcome_get disk)]
  simp only
  cases hresolve : disk.files.resolve .name path.bare with
  | error e =>
      rw [outcome_bind_error (Action.outcome_ofIo _ _)]
      exact refl_of Extends disk
  | ok place =>
      rw [outcome_bind_ok (Action.outcome_ofIo _ _)]
      cases hnode : disk.files.node? place with
      | some node => exact refl_of Extends disk
      | none => exact ⟨FileSystem.extends_makeDirectory hnode, rfl⟩

theorem extends_makeDirectories (path : Path) : Respects Extends (makeDirectories path) :=
  respects_makeDirectories extends_makeDirectory path

end Disk

end BlockArchive
