import BlockArchive.Proofs.Shown

/-! # File operations as changes to a folder

Of every operation on a file of a housed directory: what it answers, and which changes it makes to
the folder.  A handle is always that of a number that a name stands for, so that it is known by the
name. -/

namespace BlockArchive

namespace Folder

/-- The changes with which a file is made unless it is there. -/
def making (folder : Folder) (name : String) : List Change :=
  if folder name = none then [.make name] else []

/-- The changes with which a file is emptied, or made if it is missing. -/
def renewing (folder : Folder) (name : String) : List Change :=
  if folder name = none then [.make name] else [.setLength name 0]

/-- The changes with which bytes are written over a file; no bytes are no change. -/
def writing (name : String) (start : Nat) (data : Bytes) : List Change :=
  if data = [] then [] else [.write name start data]

variable {folder : Folder} {name : String}

theorem name_of_mem_making {change : Change} (h : change ∈ folder.making name) :
    change.name = name := by
  unfold making at h
  split at h
  · rw [List.mem_singleton.1 h]
    rfl
  · simp at h

theorem name_of_mem_renewing {change : Change} (h : change ∈ folder.renewing name) :
    change.name = name := by
  unfold renewing at h
  split at h <;> rw [List.mem_singleton.1 h] <;> rfl

theorem eq_of_mem_writing {change : Change} {start : Nat} {data : Bytes}
    (h : change ∈ writing name start data) : change = .write name start data := by
  unfold writing at h
  split at h
  · simp at h
  · exact List.mem_singleton.1 h

theorem name_of_mem_writing {change : Change} {start : Nat} {data : Bytes}
    (h : change ∈ writing name start data) : change.name = name := by
  rw [eq_of_mem_writing h]
  rfl

theorem fits_making : folder.Fits (folder.making name) := by
  unfold making
  split
  · exact ⟨‹_›, trivial⟩
  · trivial

theorem fits_renewing : folder.Fits (folder.renewing name) := by
  unfold renewing
  split <;> exact ⟨‹_›, trivial⟩

theorem fits_writing (h : folder name ≠ none) (start : Nat) (data : Bytes) :
    folder.Fits (writing name start data) := by
  unfold writing
  split
  · trivial
  · exact ⟨h, trivial⟩

/-- A file that was missing is empty then. -/
theorem after_making (folder : Folder) (name : String) :
    folder.after (folder.making name) =
      Function.update folder name (some ((folder name).getD [])) := by
  unfold making
  split
  · next h => simp [Change.apply, h]
  · next h =>
    obtain ⟨content, hcontent⟩ := Option.ne_none_iff_exists'.1 h
    rw [after_nil, hcontent, Option.getD_some, ← hcontent, Function.update_eq_self]

theorem after_renewing (folder : Folder) (name : String) :
    folder.after (folder.renewing name) = Function.update folder name (some []) := by
  unfold renewing
  split
  · simp [Change.apply]
  · next h =>
    obtain ⟨content, hcontent⟩ := Option.ne_none_iff_exists'.1 h
    simp [Change.apply, hcontent, Bytes.resize]

theorem after_writing (folder : Folder) (name : String) (start : Nat) (data : Bytes) :
    folder.after (writing name start data) =
      Function.update folder name
        ((folder name).map fun content => content.overwrite start data) := by
  unfold writing
  split
  · next h =>
    subst h
    simp
  · rfl

end Folder

/-! ### Names -/

namespace Disk

open FileSystem

variable {disk : Disk} {names : String → Prop} {root : Path} {place : Location} {name : String}

/-- A file that is there is opened as it is. -/
theorem outcome_openFile_of_some (h : disk.files.Houses names root place) (hname : names name)
    (hfile : disk.files.folder place name ≠ none) {mode : OpenMode} (hmode : mode ≠ .fresh) :
    (openFile (root.join name) mode).outcome disk =
      (.ok (.file (disk.files.number place name) mode.isWritable), disk) :=
  outcome_openFile_of_shows h.shows hname hfile hmode

theorem outcome_openFile_update_of_some (h : disk.files.Houses names root place)
    (hname : names name) (hfile : disk.files.folder place name ≠ none) :
    (openFile (root.join name) .update).outcome disk =
      (.ok (.file (disk.files.number place name) true), disk) :=
  outcome_openFile_update_of_shows h.shows hname hfile

theorem outcome_openFile_readOnly_of_some (h : disk.files.Houses names root place)
    (hname : names name) (hfile : disk.files.folder place name ≠ none) :
    (openFile (root.join name) .readOnly).outcome disk =
      (.ok (.file (disk.files.number place name) false), disk) :=
  outcome_openFile_readOnly_of_shows h.shows hname hfile

theorem outcome_openFile_of_none (h : disk.files.Houses names root place) (hname : names name)
    (hfree : disk.files.folder place name = none) {mode : OpenMode} :
    (openFile (root.join name) mode).outcome disk =
      if mode.creates then
        (.ok (.file disk.files.contents.size true), disk.change place (.make name))
      else (.error (.io .notFound), disk) := by
  unfold openFile
  rw [Attempt.outcome_bind_ok (Attempt.outcome_get disk)]
  simp only [h.resolve_join hname]
  rw [Attempt.outcome_bind_ok (Action.outcome_ofIo _ _)]
  simp only [h.node?_of_folder_none hname hfree]
  cases hcreates : mode.creates with
  | true => rfl
  | false => rfl

theorem number_change_make (place : Location) (disk : Disk) (name : String) :
    (disk.change place (.make name)).files.number place name = disk.files.contents.size := by
  have hnode := Change.node?_effect disk.files place (.make name) (place ++ [name])
  simp only [Change.name, if_true] at hnode
  simp [change, number, hnode]

/-- Writing changes no numbers. -/
theorem number_after_writing (place : Location) (disk : Disk) (name : String) (start : Nat)
    (data : Bytes) (other : String) :
    (disk.after place (Folder.writing name start data)).files.number place other =
      disk.files.number place other := by
  refine number_after fun change hmem => ?_
  rw [Folder.eq_of_mem_writing hmem]
  simp

/-- Opening a file for update makes it if it is missing. -/
theorem outcome_openFile_update (h : disk.files.Houses names root place) (hname : names name) :
    (openFile (root.join name) .update).outcome disk =
      (.ok (.file ((disk.after place ((disk.files.folder place).making name)).files.number place
          name) true),
        disk.after place ((disk.files.folder place).making name)) := by
  by_cases hfile : disk.files.folder place name = none
  · rw [outcome_openFile_of_none h hname hfile]
    simp [Folder.making, hfile, OpenMode.creates, number_change_make]
  · rw [outcome_openFile_of_some h hname hfile (by decide)]
    simp [Folder.making, hfile, OpenMode.isWritable]

/-- Opening a file afresh empties it, or makes it if it is missing. -/
theorem outcome_openFile_fresh (h : disk.files.Houses names root place) (hname : names name) :
    (openFile (root.join name) .fresh).outcome disk =
      (.ok (.file ((disk.after place ((disk.files.folder place).renewing name)).files.number place
        name) true), disk.after place ((disk.files.folder place).renewing name)) := by
  by_cases hfile : disk.files.folder place name = none
  · rw [outcome_openFile_of_none h hname hfile]
    simp [Folder.renewing, hfile, OpenMode.creates, number_change_make]
  · obtain ⟨content, hcontent⟩ := Option.ne_none_iff_exists'.1 hfile
    have hnumber : (disk.change place (.setLength name 0)).files.number place name =
        disk.files.number place name := Change.number_effect (by simp)
    simp only [Folder.renewing, if_neg hfile, after_cons, after_nil, hnumber]
    unfold openFile
    rw [Attempt.outcome_bind_ok (Attempt.outcome_get disk)]
    simp only [h.resolve_join hname]
    rw [Attempt.outcome_bind_ok (Action.outcome_ofIo _ _)]
    simp only [node?_of_folder hcontent]
    rfl

/-- A directory is opened to be read, and in no other way. -/
theorem outcome_openFile_of_directory (h : disk.files.Houses names root place)
    (hname : IsEntryName name)
    (hfits : root.text.utf8ByteSize + name.utf8ByteSize < maxPathBytes)
    (hnode : disk.files.node? (place ++ [name]) = some .directory) (mode : OpenMode) :
    (openFile (root.join name) mode).outcome disk =
      if mode = .readOnly then (.ok .directory, disk) else (.error (.io .isADirectory), disk) := by
  have hresolve : disk.files.resolve mode.wanted (root.join name) = .ok (place ++ [name]) :=
    FileSystem.resolve_join h.named h.directory hname hfits (by simp [hnode])
  unfold openFile
  rw [Attempt.outcome_bind_ok (Attempt.outcome_get disk)]
  simp only [hresolve]
  rw [Attempt.outcome_bind_ok (Action.outcome_ofIo _ _)]
  simp only [hnode]
  split <;> rfl

theorem outcome_removeFile_of_some (h : disk.files.Houses names root place) (hname : names name)
    (hfile : disk.files.folder place name ≠ none) :
    (removeFile (root.join name)).outcome disk = (.ok (), disk.change place (.remove name)) := by
  obtain ⟨content, hcontent⟩ := Option.ne_none_iff_exists'.1 hfile
  unfold removeFile
  rw [Attempt.outcome_bind_ok (Attempt.outcome_get disk)]
  simp only [h.resolve_join hname]
  rw [Attempt.outcome_bind_ok (Action.outcome_ofIo _ _)]
  simp only [node?_of_folder hcontent]
  rfl

/-- A housed directory is there already. -/
theorem outcome_makeDirectories (h : disk.files.Houses names root place) :
    (makeDirectories root).outcome disk = (.ok (), disk) :=
  outcome_makeDirectories_of_shows h.shows

end Disk

/-! ### Open files -/

namespace Handle

variable {disk : Disk} {place : Location} {name : String} {content : Bytes}

theorem outcome_length (h : disk.files.folder place name = some content) (writable : Bool) :
    (file (disk.files.number place name) writable).length.outcome disk =
      (.ok content.length, disk) :=
  outcome_length_of_content (FileSystem.content_of_folder h) writable

theorem outcome_write (disk : Disk) (place : Location) (name : String) (start : Nat)
    (data : Bytes) :
    ((file (disk.files.number place name) true).write start data).outcome disk =
      (.ok (), disk.after place (Folder.writing name start data)) := by
  unfold write Folder.writing
  by_cases hdata : data = []
  · simp only [hdata, List.isEmpty_nil, if_true]
    rfl
  · rw [if_neg (by simpa using hdata), if_neg hdata]
    rfl

theorem outcome_setLength (disk : Disk) (place : Location) (name : String) (length : Nat) :
    ((file (disk.files.number place name) true).setLength length).outcome disk =
      (.ok (), disk.change place (.setLength name length)) := rfl

end Handle

end BlockArchive
