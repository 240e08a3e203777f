import BlockArchive.Proofs.Folder

/-! # Files to those who only read them

To open files and to read them, one need not know in which directory they lie.

* **`Shows files names root folder number`**: `root` is a directory, and the paths from there by the
  names lead to plain files, which hold what the folder says and have these numbers.
* **Housed files** are shown by the directory that houses them (`Houses.shows`).
* **Any names.** `seen` is the folder of what paths from `root` lead to, whatever is written in the
  names, so long as nothing but plain files stands there (`shows_seen`). -/

namespace BlockArchive

namespace Path

/-- What is written after the last slash goes on in the last word. -/
theorem exists_splitSlashes_append (chars : List Char) {ending : List Char} (h : '/' ∉ ending) :
    ∃ words last, splitSlashes (chars ++ ending) = words ++ [last ++ ending] := by
  induction chars with
  | nil => exact ⟨[], [], by simp [splitSlashes_of_not_mem h]⟩
  | cons c chars ih =>
      obtain ⟨words, last, hsplit⟩ := ih
      rw [List.cons_append, splitSlashes, hsplit]
      split
      · exact ⟨[] :: words, last, rfl⟩
      · cases words with
        | nil => exact ⟨[], c :: last, rfl⟩
        | cons word words => exact ⟨(c :: word) :: words, last, rfl⟩

/-- A path does not end in a slash when the name joined to it does not. -/
theorem exists_words_join_append (path : Path) (name : String) {ending : String}
    (hslash : '/' ∉ ending.toList) (hne : ending ≠ "") :
    ∃ words last, (path.join (name ++ ending)).words = words ++ [last] ∧ last ≠ "" := by
  obtain ⟨words, last, hsplit⟩ := exists_splitSlashes_append name.toList hslash
  have hwords : (ofText (name ++ ending)).words =
      words.map String.ofList ++ [String.ofList (last ++ ending.toList)] := by
    rw [ofText, String.toList_append, hsplit, List.map_append, List.map_singleton]
  have hlast : String.ofList (last ++ ending.toList) ≠ "" := by
    intro heq
    have hnil := congrArg String.toList heq
    rw [String.toList_ofList] at hnil
    exact hne (String.toList_injective (List.append_eq_nil_iff.1 hnil).2)
  unfold join
  simp only [hwords]
  split
  · exact ⟨_, _, hwords, hlast⟩
  · split
    · exact ⟨_, _, (List.append_assoc _ _ _).symm, hlast⟩
    · exact ⟨_, _, (List.append_assoc _ _ _).symm, hlast⟩

end Path

namespace FileSystem

variable {files : FileSystem} {names : String → Prop} {root path : Path} {place : Location}
  {name : String} {folder : Folder} {number : String → FileId} {content : Bytes}

/-! ### Where nothing but plain files stands -/

/-- Nothing but a plain file stands under the path. -/
def IsPlain (files : FileSystem) (path : Path) : Prop :=
  ∀ node, files.linkStatus path = .ok node → ∃ id, node = .file id

/-! A walk that does not end in a slash leads to the same whatever it is wanted for, so long as it
does not end at a link. -/

section steps

variable {wanted : Wanted} {through : Location → List String → Except IoError Location}
  {start : Location} {word : String} {rest : List String}

theorem walkWith_long (hblank : ¬ (word = "" ∨ word = ".")) (hdots : word ≠ "..")
    (hslash : ¬ wanted.RefusesSlash rest) (hlong : maxNameBytes < word.utf8ByteSize) :
    walkWith files wanted through start (word :: rest) = .error .nameTooLong := by
  unfold Wanted.RefusesSlash at hslash
  rw [walkWith, if_neg hblank, if_neg hdots, if_neg hslash, if_pos hlong]

theorem walkWith_file {id : FileId} (hstep : IsStep word) (hslash : ¬ wanted.RefusesSlash rest)
    (hnode : files.node? (start ++ [word]) = some (.file id)) :
    walkWith files wanted through start (word :: rest) =
      if rest = [] then .ok (start ++ [word]) else .error .notADirectory := by
  unfold Wanted.RefusesSlash at hslash
  rw [walkWith, if_neg hstep.not_blank, if_neg hstep.ne_dots, if_neg hslash, if_neg hstep.short,
    hnode]

theorem walkWith_free (hstep : IsStep word) (hslash : ¬ wanted.RefusesSlash rest)
    (hnode : files.node? (start ++ [word]) = none) :
    walkWith files wanted through start (word :: rest) =
      if rest.all (· = "") then .ok (start ++ [word]) else .error .notFound := by
  unfold Wanted.RefusesSlash at hslash
  rw [walkWith, if_neg hstep.not_blank, if_neg hstep.ne_dots, if_neg hslash, if_neg hstep.short,
    hnode]

end steps

theorem walkWith_wanted_singleton {wanted : Wanted}
    {through through' : Location → List String → Except IoError Location} {start : Location}
    {last : String}
    (hlink : ∀ place target, walkWith files .name through start [last] = .ok place →
      files.node? place ≠ some (.link target)) :
    walkWith files wanted through' start [last] = walkWith files .name through start [last] := by
  have hslash : ∀ wanted : Wanted, ¬ wanted.RefusesSlash [] := by simp [Wanted.RefusesSlash]
  by_cases hblank : last = "" ∨ last = "."
  · rw [walkWith_blank hblank, walkWith_blank hblank]
    rfl
  by_cases hdots : last = ".."
  · subst hdots
    rw [walkWith_dots, walkWith_dots]
    rfl
  by_cases hlong : maxNameBytes < last.utf8ByteSize
  · rw [walkWith_long hblank hdots (hslash _) hlong, walkWith_long hblank hdots (hslash _) hlong]
  have hstep : IsStep last := ⟨hblank, hdots, hlong⟩
  cases hnode : files.node? (start ++ [last]) with
  | none => rw [walkWith_free hstep (hslash _) hnode, walkWith_free hstep (hslash _) hnode]
  | some node =>
      cases node with
      | directory =>
          rw [walkWith_directory hstep (hslash _) hnode, walkWith_directory hstep (hslash _) hnode]
          rfl
      | file id => rw [walkWith_file hstep (hslash _) hnode, walkWith_file hstep (hslash _) hnode]
      | link target =>
          refine absurd hnode (hlink _ target ?_)
          simp [walkWith, hstep.not_blank, hstep.ne_dots, hstep.short, hnode]

theorem walkWith_wanted {wanted : Wanted}
    {through through' : Location → List String → Except IoError Location} {last : String}
    (hlast : last ≠ "")
    (hthrough : ∀ start words,
      (∀ place target, through start (words ++ [last]) = .ok place →
        files.node? place ≠ some (.link target)) →
      through' start (words ++ [last]) = through start (words ++ [last])) :
    ∀ (words : List String) (start : Location),
      (∀ place target, walkWith files .name through start (words ++ [last]) = .ok place →
        files.node? place ≠ some (.link target)) →
      walkWith files wanted through' start (words ++ [last]) =
        walkWith files .name through start (words ++ [last])
  | [], _, hlink => walkWith_wanted_singleton hlink
  | word :: words, start, hlink => by
      have ih : ∀ start : Location,
          (∀ place target, walkWith files .name through start (words ++ [last]) = .ok place →
            files.node? place ≠ some (.link target)) →
          walkWith files wanted through' start (words ++ [last]) =
            walkWith files .name through start (words ++ [last]) :=
        walkWith_wanted hlast hthrough words
      have hrest : words ++ [last] ≠ [] := by simp
      have hslash : ∀ wanted : Wanted, ¬ wanted.RefusesSlash (words ++ [last]) := by
        simp [Wanted.RefusesSlash, hlast]
      rw [List.cons_append] at hlink ⊢
      by_cases hblank : word = "" ∨ word = "."
      · rw [walkWith_blank hblank] at hlink ⊢
        rw [walkWith_blank hblank]
        exact ih start hlink
      by_cases hdots : word = ".."
      · subst hdots
        rw [walkWith_dots] at hlink ⊢
        rw [walkWith_dots]
        exact ih _ hlink
      by_cases hlong : maxNameBytes < word.utf8ByteSize
      · rw [walkWith_long hblank hdots (hslash _) hlong,
          walkWith_long hblank hdots (hslash _) hlong]
      have hstep : IsStep word := ⟨hblank, hdots, hlong⟩
      cases hnode : files.node? (start ++ [word]) with
      | none => rw [walkWith_free hstep (hslash _) hnode, walkWith_free hstep (hslash _) hnode]
      | some node =>
          cases node with
          | directory =>
              rw [walkWith_directory hstep (hslash _) hnode] at hlink ⊢
              rw [walkWith_directory hstep (hslash _) hnode]
              exact ih _ hlink
          | file id =>
              rw [walkWith_file hstep (hslash _) hnode, walkWith_file hstep (hslash _) hnode]
          | link target =>
              have hgo : ∀ wanted : Wanted, ¬ (words ++ [last] = [] ∧ wanted = .name) :=
                fun wanted h => hrest h.1
              rw [walkWith_link hstep (hslash _) hnode (hgo _), ← List.append_assoc] at hlink ⊢
              rw [walkWith_link hstep (hslash _) hnode (hgo _), ← List.append_assoc]
              exact hthrough _ _ hlink

theorem walk_wanted {wanted : Wanted} {last : String} (hlast : last ≠ "") :
    ∀ (hops : Nat) (start : Location) (words : List String),
      (∀ place target, walk files .name hops start (words ++ [last]) = .ok place →
        files.node? place ≠ some (.link target)) →
      walk files wanted hops start (words ++ [last]) = walk files .name hops start (words ++ [last])
  | 0, start, words, hlink =>
      walkWith_wanted hlast (fun _ _ _ => rfl) words start hlink
  | hops + 1, start, words, hlink =>
      walkWith_wanted hlast (fun start words => walk_wanted hlast hops start words) words start
        hlink

/-- Where nothing but a plain file stands, a path leads to the same whatever it is wanted for. -/
theorem resolve_of_isPlain {words : List String} {last : String}
    (hwords : path.words = words ++ [last]) (hlast : last ≠ "") (h : files.IsPlain path)
    (wanted : Wanted) : files.resolve wanted path = files.resolve .name path := by
  cases hcheck : checkPath path with
  | error e => simp only [resolve, hcheck]
  | ok u =>
      rw [resolve_of_walk hcheck, resolve_of_walk hcheck, hwords]
      refine walk_wanted hlast _ _ _ fun place target hwalk hnode => ?_
      rw [← hwords, ← resolve_of_walk hcheck] at hwalk
      obtain ⟨id, hid⟩ := h (.link target) (by simp only [linkStatus, hwalk, hnode])
      simp at hid

/-! A walk that ends at something other than a link ends there too where links are followed. -/

theorem walkWith_target_of_name
    {through through' : Location → List String → Except IoError Location} {node : Node}
    (hnode : files.node? place = some node) (hlink : ∀ target, node ≠ .link target)
    (hthrough : ∀ start words, through start words = .ok place →
      through' start words = .ok place) :
    ∀ (words : List String) (start : Location),
      walkWith files .name through start words = .ok place →
        walkWith files .target through' start words = .ok place
  | [], _, h => h
  | word :: words, start, h => by
      have ih := walkWith_target_of_name hnode hlink hthrough words
      have hslash : ∀ {wanted : Wanted}, wanted ≠ .newFile → ¬ wanted.RefusesSlash words :=
        fun hne hrefuses => hne hrefuses.1
      by_cases hblank : word = "" ∨ word = "."
      · rw [walkWith_blank hblank] at h ⊢
        exact ih _ h
      by_cases hdots : word = ".."
      · subst hdots
        rw [walkWith_dots] at h ⊢
        exact ih _ h
      by_cases hlong : maxNameBytes < word.utf8ByteSize
      · rw [walkWith_long hblank hdots (hslash (by decide)) hlong] at h
        simp at h
      have hstep : IsStep word := ⟨hblank, hdots, hlong⟩
      cases hthere : files.node? (start ++ [word]) with
      | none =>
          rw [walkWith_free hstep (hslash (by decide)) hthere] at h ⊢
          exact h
      | some found =>
          cases found with
          | directory =>
              rw [walkWith_directory hstep (hslash (by decide)) hthere] at h ⊢
              exact ih _ h
          | file id =>
              rw [walkWith_file hstep (hslash (by decide)) hthere] at h ⊢
              exact h
          | link target =>
              by_cases hlast : words = []
              · -- the walk ends at the link itself
                simp [walkWith, hlast, hstep.not_blank, hstep.ne_dots, hstep.short, hthere] at h
                rw [← h, hthere, Option.some.injEq] at hnode
                exact absurd hnode.symm (hlink target)
              · rw [walkWith_link hstep (hslash (by decide)) hthere fun hend => hlast hend.1] at h ⊢
                exact hthrough _ _ h

theorem walk_target_of_name {node : Node} (hnode : files.node? place = some node)
    (hlink : ∀ target, node ≠ .link target) :
    ∀ (hops : Nat) (start : Location) (words : List String),
      walk files .name hops start words = .ok place →
        walk files .target hops start words = .ok place
  | 0, start, words, h => walkWith_target_of_name hnode hlink (fun _ _ h => h) words start h
  | hops + 1, start, words, h =>
      walkWith_target_of_name hnode hlink (walk_target_of_name hnode hlink hops) words start h

/-- What a path names, if it is not a link, is also what the path stands for. -/
theorem status_of_linkStatus {node : Node} (h : files.linkStatus path = .ok node)
    (hlink : ∀ target, node ≠ .link target) : files.status path = .ok node := by
  unfold linkStatus at h
  cases hresolve : files.resolve .name path with
  | error e => simp [hresolve] at h
  | ok place =>
      cases hnode : files.node? place with
      | none => simp [hresolve, hnode] at h
      | some found =>
          simp only [hresolve, hnode, Except.ok.injEq] at h
          subst h
          obtain ⟨hcheck, hwalk⟩ := resolve_eq_ok hresolve
          unfold status
          rw [resolve_of_walk hcheck, walk_target_of_name hnode hlink _ _ _ hwalk]
          simp only [hnode]

/-! ### What is shown -/

/-- `root` is a directory, and from there the names lead to plain files, which hold what the folder
says and have these numbers. -/
structure Shows (files : FileSystem) (names : String → Prop) (root : Path) (folder : Folder)
    (number : String → FileId) : Prop where
  isDirectory : files.isDirectory root = true
  bare : ∃ p, files.resolve .name root.bare = .ok p ∧ files.node? p ≠ none
  leads : ∀ name content, names name → folder name = some content →
    ∃ place, (∀ wanted, files.resolve wanted (root.join name) = .ok place) ∧
      files.node? place = some (.file (number name)) ∧ files.content (number name) = content

theorem Houses.shows (h : files.Houses names root place) :
    files.Shows names root (files.folder place) (files.number place) where
  isDirectory := by simp [FileSystem.isDirectory, status, h.target, h.directory]
  bare := exists_resolve_bare h.named h.directory h.home
  leads name _ hname hcontent := ⟨place ++ [name], h.resolve_join hname,
    node?_of_folder hcontent, content_of_folder hcontent⟩

theorem Houses.isPlain (h : files.Houses names root place) (hname : names name) :
    files.IsPlain (root.join name) := by
  intro node hnode
  unfold linkStatus at hnode
  rw [h.resolve_join hname] at hnode
  rcases h.takes name hname with hnone | ⟨id, hid⟩
  · simp [hnone] at hnode
  · exact ⟨id, by simpa [hid] using hnode.symm⟩

/-- Under these numbers the files hold what the folder says. -/
def Holds (files : FileSystem) (names : String → Prop) (folder : Folder)
    (number : String → FileId) : Prop :=
  ∀ name content, names name → folder name = some content → files.content (number name) = content

theorem holds_folder (files : FileSystem) (names : String → Prop) (place : Location) :
    files.Holds names (files.folder place) (files.number place) :=
  fun _ _ _ hcontent => content_of_folder hcontent

namespace Shows

theorem holds (h : files.Shows names root folder number) : files.Holds names folder number := by
  intro name content hname hcontent
  obtain ⟨-, -, -, hcontent⟩ := h.leads name content hname hcontent
  exact hcontent

theorem status (h : files.Shows names root folder number) (hname : names name)
    (hcontent : folder name = some content) :
    files.status (root.join name) = .ok (.file (number name)) := by
  obtain ⟨place, hresolve, hnode, -⟩ := h.leads name content hname hcontent
  unfold FileSystem.status
  rw [hresolve]
  simp only [hnode]

theorem read (h : files.Shows names root folder number) (hname : names name)
    (hcontent : folder name = some content) : files.read (root.join name) = .ok content := by
  unfold FileSystem.read
  simp only [h.status hname hcontent, h.holds name content hname hcontent]

theorem length (h : files.Shows names root folder number) (hname : names name)
    (hcontent : folder name = some content) :
    files.length (root.join name) = .ok content.length := by
  unfold FileSystem.length
  simp only [h.status hname hcontent, h.holds name content hname hcontent]

end Shows

/-- The number of the plain file under a path. -/
def fileAt? (files : FileSystem) (path : Path) : Option FileId :=
  match files.linkStatus path with
  | .ok (.file id) => some id
  | _ => none

/-- What the plain files hold that the names, joined to `root`, lead to. -/
def seen (files : FileSystem) (root : Path) : Folder := fun name =>
  (files.fileAt? (root.join name)).map files.content

/-- The number of the plain file that a name, joined to `root`, leads to. -/
def numberAt (files : FileSystem) (root : Path) (name : String) : FileId :=
  (files.fileAt? (root.join name)).getD 0

theorem fileAt?_eq_some {id : FileId} :
    files.fileAt? path = some id ↔
      ∃ place, files.resolve .name path = .ok place ∧ files.node? place = some (.file id) := by
  unfold fileAt? linkStatus
  cases files.resolve .name path with
  | error e => simp
  | ok place =>
      simp only [Except.ok.injEq, exists_eq_left']
      cases files.node? place with
      | none => simp
      | some node => cases node <;> simp

theorem seen_eq_some :
    files.seen root name = some content ↔
      files.fileAt? (root.join name) = some (files.numberAt root name) ∧
        files.content (files.numberAt root name) = content := by
  unfold seen numberAt
  cases files.fileAt? (root.join name) <;> simp

section plain

variable {words : List String} {last : String} (hwords : (root.join name).words = words ++ [last])
  (hlast : last ≠ "") (hplain : files.IsPlain (root.join name))
include hwords hlast hplain

/-- A path under which something stands leads to the plain file that is seen there. -/
theorem exists_seen_of_status {node : Node} (h : files.status (root.join name) = .ok node) :
    node = .file (files.numberAt root name) ∧
      files.seen root name = some (files.content (files.numberAt root name)) := by
  have hlink : files.linkStatus (root.join name) = .ok node := by
    unfold status at h
    unfold linkStatus
    rwa [resolve_of_isPlain hwords hlast hplain] at h
  obtain ⟨id, rfl⟩ := hplain node hlink
  have hfile : files.fileAt? (root.join name) = some id := by
    unfold fileAt?
    rw [hlink]
  simp [seen, numberAt, hfile]

theorem seen_of_read {content : Bytes} (h : files.read (root.join name) = .ok content) :
    files.seen root name = some content := by
  cases hstatus : files.status (root.join name) with
  | error e => simp [read, hstatus] at h
  | ok node =>
      obtain ⟨rfl, hseen⟩ := exists_seen_of_status hwords hlast hplain hstatus
      rw [hseen]
      simpa [read, hstatus] using h

theorem exists_seen_of_length {n : Nat} (h : files.length (root.join name) = .ok n) :
    ∃ content, files.seen root name = some content ∧ content.length = n := by
  cases hstatus : files.status (root.join name) with
  | error e => simp [length, hstatus] at h
  | ok node =>
      obtain ⟨rfl, hseen⟩ := exists_seen_of_status hwords hlast hplain hstatus
      exact ⟨_, hseen, by simpa [length, hstatus] using h⟩

end plain

/-- Where nothing but plain files stands, what is seen is shown. -/
theorem shows_seen (hroot : files.isDirectory root = true)
    (hhome : files.node? files.home = some .directory)
    (hwords : ∀ name, names name → ∃ words last, (root.join name).words = words ++ [last] ∧
      last ≠ "")
    (hplain : ∀ name, names name → files.IsPlain (root.join name)) :
    files.Shows names root (files.seen root) (files.numberAt root) where
  isDirectory := hroot
  bare := by
    unfold isDirectory status at hroot
    split at hroot
    · next heq =>
        split at heq
        · simp at heq
        · next place hresolve =>
            split at heq
            · next hnode =>
                rw [Except.ok.injEq] at heq
                exact exists_resolve_bare hresolve (heq ▸ hnode) hhome
            · simp at heq
    · simp at hroot
  leads name content hname hcontent := by
    obtain ⟨hfile, hcontent⟩ := seen_eq_some.1 hcontent
    obtain ⟨place, hresolve, hnode⟩ := fileAt?_eq_some.1 hfile
    obtain ⟨words, last, heq, hlast⟩ := hwords name hname
    refine ⟨place, fun wanted => ?_, hnode, hcontent⟩
    rw [resolve_of_isPlain heq hlast (hplain name hname), hresolve]

end FileSystem

/-! ### Opening what is shown -/

namespace Disk

open FileSystem

variable {disk : Disk} {names : String → Prop} {root : Path} {folder : Folder}
  {number : String → FileId} {name : String}

/-- A file that is shown is opened as it is. -/
theorem outcome_openFile_of_shows (h : disk.files.Shows names root folder number)
    (hname : names name) (hfile : folder name ≠ none) {mode : OpenMode} (hmode : mode ≠ .fresh) :
    (openFile (root.join name) mode).outcome disk =
      (.ok (.file (number name) mode.isWritable), disk) := by
  obtain ⟨content, hcontent⟩ := Option.ne_none_iff_exists'.1 hfile
  obtain ⟨place, hresolve, hnode, -⟩ := h.leads name content hname hcontent
  unfold openFile
  rw [Attempt.outcome_bind_ok (Attempt.outcome_get disk)]
  simp only [hresolve]
  rw [Attempt.outcome_bind_ok (Action.outcome_ofIo _ _)]
  simp only [hnode]
  rw [if_neg hmode]
  rfl

theorem outcome_openFile_update_of_shows (h : disk.files.Shows names root folder number)
    (hname : names name) (hfile : folder name ≠ none) :
    (openFile (root.join name) .update).outcome disk = (.ok (.file (number name) true), disk) :=
  outcome_openFile_of_shows h hname hfile (by decide)

theorem outcome_openFile_readOnly_of_shows (h : disk.files.Shows names root folder number)
    (hname : names name) (hfile : folder name ≠ none) :
    (openFile (root.join name) .readOnly).outcome disk = (.ok (.file (number name) false), disk) :=
  outcome_openFile_of_shows h hname hfile (by decide)

/-- The directory is there already. -/
theorem outcome_makeDirectories_of_shows (h : disk.files.Shows names root folder number) :
    (makeDirectories root).outcome disk = (.ok (), disk) := by
  obtain ⟨p, hbare, hnode⟩ := h.bare
  have hmake : (makeDirectory root).outcome disk = (.error (.io .alreadyExists), disk) := by
    obtain ⟨node, hnode⟩ := Option.ne_none_iff_exists'.1 hnode
    unfold makeDirectory
    rw [Attempt.outcome_bind_ok (Attempt.outcome_get disk)]
    simp only [hbare]
    rw [Attempt.outcome_bind_ok (Action.outcome_ofIo _ _)]
    simp only [hnode]
    rfl
  unfold makeDirectories makeDirectoryAfter
  rw [Attempt.outcome_tryCatch, hmake]
  simp only
  rw [if_neg (by simp), Attempt.outcome_bind_ok (Attempt.outcome_get disk)]
  rw [if_pos h.isDirectory]
  rfl

end Disk

/-! ### Reading an open file -/

namespace Handle

variable {disk : Disk} {id : FileId} {content : Bytes}

theorem outcome_length_of_content (h : disk.files.content id = content) (writable : Bool) :
    (file id writable).length.outcome disk = (.ok content.length, disk) := by
  change (Except.ok (disk.files.content id).length, disk) = _
  rw [h]

theorem outcome_read_of_content (h : disk.files.content id = content) (writable : Bool)
    (start len : Nat) :
    ((file id writable).read start len).outcome disk =
      match content.slice? start len with
      | some data => (.ok data, disk)
      | none => (.error (.io .endOfFile), disk) := by
  unfold read
  rw [Attempt.outcome_bind_ok (Attempt.outcome_get disk)]
  simp only [h]
  cases content.slice? start len <;> rfl

end Handle

end BlockArchive
