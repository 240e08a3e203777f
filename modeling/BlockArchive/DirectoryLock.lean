import BlockArchive.Disk

/-! # The lock of a directory

An archive's directory is locked while it is open, through a file of its own that is made when it
is first needed and never removed.  The lock is on the file and not on its name: who opens the same
file a second time finds it held. -/

namespace BlockArchive

/-- A lock that is held. -/
structure DirectoryLock where
  /-- The lock file. -/
  path : Path
  /-- The open lock file. -/
  file : Handle
deriving DecidableEq, Repr

namespace DirectoryLock

/-- The name of the lock file. -/
def fileName : String := "FLOCK"

/-- Locks the directory `root`, or refuses if somebody holds its lock. -/
def acquire (root : Path) : Action Disk DirectoryLock := do
  let path := root.join fileName
  let file ← Disk.openFile path .update
  if ← file.tryLock then return { path, file }
  else throw (.locked path)

/-- Gives the lock back. -/
def release (lock : DirectoryLock) : Action Disk Unit :=
  lock.file.unlock

end DirectoryLock

end BlockArchive
