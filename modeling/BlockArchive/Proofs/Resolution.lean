import BlockArchive.FileSystem

/-! # Where the names of a directory lead

A path that leads to a directory leads, continued by a name, to that name in the directory.

* **`IsEntryName name`**: a word that a directory can hold a file under; `IsName name` is weaker and
  only says that it leads down from the directory.
* **`TakesFile place name`**: at `place`, the name stands for a file or for nothing, so that it is
  no way to anywhere else.
* **Agreement.** A walk that ends in a directory passes only directories and links.  So it stays the
  same as long as these stay, whatever becomes of the files (`SameWays`).

`resolve_eq_joined` says where a name leads, or why it is refused, `resolve_join` gives the location
of one that is not refused, `resolve_of_sameWays` says that paths to directories are stable, and
`exists_resolve_bare` finds a directory also without the slashes after its name. -/

namespace BlockArchive.FileSystem

variable {files files' : FileSystem} {place : Location} {name : String}

/-- A word that a directory can hold a file under. -/
structure IsEntryName (name : String) : Prop where
  ne_empty : name ≠ ""
  ne_dot : name ≠ "."
  ne_dots : name ≠ ".."
  no_slash : '/' ∉ name.toList
  no_null : '\x00' ∉ name.toList
  short : name.utf8ByteSize ≤ maxNameBytes

/-- A word that goes down from a directory, also if it is too long or holds the null character. -/
structure IsName (name : String) : Prop where
  not_blank : ¬ (name = "" ∨ name = ".")
  ne_dots : name ≠ ".."
  no_slash : '/' ∉ name.toList

theorem IsEntryName.isName (h : IsEntryName name) : IsName name :=
  ⟨by simp [h.ne_empty, h.ne_dot], h.ne_dots, h.no_slash⟩

/-- The name stands for a file or for nothing. -/
def TakesFile (files : FileSystem) (place : Location) (name : String) : Prop :=
  files.node? (place ++ [name]) = none ∨ ∃ id, files.node? (place ++ [name]) = some (.file id)

theorem TakesFile.ne_link (h : files.TakesFile place name) (target : Path) :
    files.node? (place ++ [name]) ≠ some (.link target) := by
  rcases h with h | ⟨id, h⟩ <;> simp [h]

/-! ### One step of a walk -/

/-- Whether a slash stands after the last name of a file that is to be made. -/
def Wanted.RefusesSlash (wanted : Wanted) (rest : List String) : Prop :=
  wanted = .newFile ∧ rest ≠ [] ∧ rest.all (· = "")

/-- A word that names something to go on through. -/
structure IsStep (word : String) : Prop where
  not_blank : ¬ (word = "" ∨ word = ".")
  ne_dots : word ≠ ".."
  short : ¬ maxNameBytes < word.utf8ByteSize

section steps

variable {wanted : Wanted} {through : Location → List String → Except IoError Location}
  {start : Location} {word : String} {rest : List String}

theorem walkWith_blank (h : word = "" ∨ word = ".") :
    walkWith files wanted through start (word :: rest) =
      walkWith files wanted through start rest := by
  rw [walkWith, if_pos h]

theorem walkWith_dots :
    walkWith files wanted through start (".." :: rest) =
      walkWith files wanted through start.dropLast rest := by
  rw [walkWith, if_neg (by decide), if_pos rfl]

theorem walkWith_directory (hstep : IsStep word) (hslash : ¬ wanted.RefusesSlash rest)
    (hnode : files.node? (start ++ [word]) = some .directory) :
    walkWith files wanted through start (word :: rest) =
      walkWith files wanted through (start ++ [word]) rest := by
  unfold Wanted.RefusesSlash at hslash
  rw [walkWith, if_neg hstep.not_blank, if_neg hstep.ne_dots, if_neg hslash, if_neg hstep.short,
    hnode]

theorem walkWith_link {target : Path} (hstep : IsStep word) (hslash : ¬ wanted.RefusesSlash rest)
    (hnode : files.node? (start ++ [word]) = some (.link target))
    (hgo : ¬ (rest = [] ∧ wanted = .name)) :
    walkWith files wanted through start (word :: rest) =
      through (if target.isAbsolute then [] else start) (target.words ++ rest) := by
  unfold Wanted.RefusesSlash at hslash
  rw [walkWith, if_neg hstep.not_blank, if_neg hstep.ne_dots, if_neg hslash, if_neg hstep.short,
    hnode]
  exact if_neg hgo

/-- All that the first step of a walk to a directory can be. -/
theorem walkWith_step (hdir : files.node? place = some .directory)
    (h : walkWith files wanted through start (word :: rest) = .ok place) :
    ((word = "" ∨ word = ".") ∧ walkWith files wanted through start rest = .ok place) ∨
    (word = ".." ∧ walkWith files wanted through start.dropLast rest = .ok place) ∨
    (IsStep word ∧ ¬ wanted.RefusesSlash rest ∧
      files.node? (start ++ [word]) = some .directory ∧
      walkWith files wanted through (start ++ [word]) rest = .ok place) ∨
    (∃ target, IsStep word ∧ ¬ wanted.RefusesSlash rest ∧
      files.node? (start ++ [word]) = some (.link target) ∧ ¬ (rest = [] ∧ wanted = .name) ∧
      through (if target.isAbsolute then [] else start) (target.words ++ rest) = .ok place) := by
  rw [walkWith] at h
  split at h
  · exact .inl ⟨‹_›, h⟩
  split at h
  · exact .inr (.inl ⟨‹_›, h⟩)
  split at h
  · simp at h
  have hslash : ¬ wanted.RefusesSlash rest := ‹_›
  split at h
  · simp at h
  have hstep : IsStep word := ⟨‹_›, ‹_›, ‹_›⟩
  -- a walk that ends at a file, at a link or at nothing does not end in a directory
  have hend : ∀ {p}, (.ok p : Except IoError Location) = .ok place →
      files.node? p = some .directory := by
    intro p hp
    rw [Except.ok.injEq] at hp
    rw [hp, hdir]
  cases hnode : files.node? (start ++ [word]) with
  | none =>
      simp only [hnode] at h
      split at h
      · simp [hend h] at hnode
      · simp at h
  | some node =>
      cases node with
      | directory =>
          simp only [hnode] at h
          exact .inr (.inr (.inl ⟨hstep, hslash, rfl, h⟩))
      | file id =>
          simp only [hnode] at h
          split at h
          · simp [hend h] at hnode
          · simp at h
      | link target =>
          simp only [hnode] at h
          split at h
          · simp [hend h] at hnode
          · exact .inr (.inr (.inr ⟨target, hstep, hslash, rfl, ‹_›, h⟩))

end steps

/-! ### Going on from a directory -/

/-- Where a name leads from a directory, unless it stands for a link. -/
def entry (place : Location) (name : String) : Except IoError Location :=
  if maxNameBytes < name.utf8ByteSize then .error .nameTooLong else .ok (place ++ [name])

theorem walkWith_singleton (hname : IsName name)
    (hlink : ∀ target, files.node? (place ++ [name]) ≠ some (.link target))
    (wanted : Wanted) (through : Location → List String → Except IoError Location) :
    walkWith files wanted through place [name] = entry place name := by
  unfold walkWith entry
  rw [if_neg hname.not_blank, if_neg hname.ne_dots, if_neg (by simp)]
  split
  · rfl
  cases hnode : files.node? (place ++ [name]) with
  | none => simp
  | some node =>
      cases node with
      | directory => simp [walkWith]
      | file id => simp
      | link target => exact absurd hnode (hlink target)

theorem walkWith_blanks {wanted : Wanted}
    {through : Location → List String → Except IoError Location} {blanks : List String}
    (hblanks : ∀ w ∈ blanks, w = "") :
    walkWith files wanted through place blanks = .ok place := by
  induction blanks with
  | nil => rfl
  | cons w blanks ih =>
      rw [walkWith_blank (.inl (hblanks w (by simp)))]
      exact ih fun v hv => hblanks v (by simp [hv])

/-- A walk to a directory, with a name in place of its last slashes, leads to the name there. -/
theorem walkWith_enter {wanted wanted' : Wanted}
    {through through' : Location → List String → Except IoError Location}
    (hname : IsName name) (hdir : files.node? place = some .directory)
    (hlink : ∀ target, files.node? (place ++ [name]) ≠ some (.link target))
    (hthrough : ∀ start words blanks, (∀ w ∈ blanks, w = "") →
      through start (words ++ blanks) = .ok place →
        through' start (words ++ [name]) = entry place name)
    {blanks : List String} (hblanks : ∀ w ∈ blanks, w = "") :
    ∀ (words : List String) (start : Location),
      walkWith files wanted through start (words ++ blanks) = .ok place →
        walkWith files wanted' through' start (words ++ [name]) = entry place name
  | [], start, h => by
      rw [List.nil_append, walkWith_blanks hblanks, Except.ok.injEq] at h
      rw [h]
      exact walkWith_singleton hname hlink wanted' through'
  | word :: words, start, h => by
      have ih : ∀ start, walkWith files wanted through start (words ++ blanks) = .ok place →
          walkWith files wanted' through' start (words ++ [name]) = entry place name :=
        walkWith_enter hname hdir hlink hthrough hblanks words
      have hslash : ¬ wanted'.RefusesSlash (words ++ [name]) := by
        intro hrefuses
        have hblank : (∀ w ∈ words, w = "") ∧ name = "" := by simpa using hrefuses.2.2
        exact hname.not_blank (.inl hblank.2)
      rw [List.cons_append] at h ⊢
      rcases walkWith_step hdir h with ⟨hblank, h⟩ | ⟨rfl, h⟩ | ⟨hstep, -, hnode, h⟩ |
        ⟨target, hstep, -, hnode, -, h⟩
      · rw [walkWith_blank hblank]
        exact ih start h
      · rw [walkWith_dots]
        exact ih _ h
      · rw [walkWith_directory hstep hslash hnode]
        exact ih _ h
      · rw [walkWith_link hstep hslash hnode (by simp), ← List.append_assoc]
        rw [← List.append_assoc] at h
        exact hthrough _ _ _ hblanks h

theorem walk_enter {wanted wanted' : Wanted} (hname : IsName name)
    (hdir : files.node? place = some .directory)
    (hlink : ∀ target, files.node? (place ++ [name]) ≠ some (.link target))
    {blanks : List String} (hblanks : ∀ w ∈ blanks, w = "") :
    ∀ (hops : Nat) (start : Location) (words : List String),
      walk files wanted hops start (words ++ blanks) = .ok place →
        walk files wanted' hops start (words ++ [name]) = entry place name
  | 0, start, words, h =>
      walkWith_enter hname hdir hlink (fun _ _ _ _ h => by simp at h) hblanks words start h
  | hops + 1, start, words, h =>
      walkWith_enter hname hdir hlink
        (fun start words _ hblanks h => walk_enter hname hdir hlink hblanks hops start words h)
        hblanks words start h

/-! ### What a walk depends on -/

/-- The directories and links of the one file system are also in the other. -/
structure SameWays (files files' : FileSystem) : Prop where
  home : files'.home = files.home
  directory : ∀ place, files.node? place = some .directory → files'.node? place = some .directory
  link : ∀ place target, files.node? place = some (.link target) →
    files'.node? place = some (.link target)

theorem SameWays.refl (files : FileSystem) : SameWays files files :=
  ⟨rfl, fun _ h => h, fun _ _ h => h⟩

theorem SameWays.trans {files'' : FileSystem} (h : SameWays files files')
    (h' : SameWays files' files'') : SameWays files files'' :=
  ⟨h'.home.trans h.home, fun place hnode => h'.directory place (h.directory place hnode),
    fun place target hnode => h'.link place target (h.link place target hnode)⟩

/-- Links are followed wherever another use of the path follows them. -/
theorem walkWith_of_sameWays {wanted wanted' : Wanted}
    (hwanted : wanted' = wanted ∨ wanted' = .target)
    {through through' : Location → List String → Except IoError Location}
    (same : SameWays files files') (hdir : files.node? place = some .directory)
    (hthrough : ∀ start words, through start words = .ok place →
      through' start words = .ok place) :
    ∀ (words : List String) (start : Location),
      walkWith files wanted through start words = .ok place →
        walkWith files' wanted' through' start words = .ok place
  | [], _, h => h
  | word :: words, start, h => by
      have ih := walkWith_of_sameWays hwanted same hdir hthrough words
      have hslash' : ¬ wanted.RefusesSlash words → ¬ wanted'.RefusesSlash words := by
        rcases hwanted with rfl | rfl
        · exact id
        · simp [Wanted.RefusesSlash]
      have hgo' : ¬ (words = [] ∧ wanted = .name) → ¬ (words = [] ∧ wanted' = .name) := by
        rcases hwanted with rfl | rfl
        · exact id
        · simp
      rcases walkWith_step hdir h with ⟨hblank, h⟩ | ⟨rfl, h⟩ | ⟨hstep, hslash, hnode, h⟩ |
        ⟨target, hstep, hslash, hnode, hgo, h⟩
      · rw [walkWith_blank hblank]
        exact ih start h
      · rw [walkWith_dots]
        exact ih _ h
      · rw [walkWith_directory hstep (hslash' hslash) (same.directory _ hnode)]
        exact ih _ h
      · rw [walkWith_link hstep (hslash' hslash) (same.link _ target hnode) (hgo' hgo)]
        exact hthrough _ _ h

theorem walk_of_sameWays {wanted wanted' : Wanted}
    (hwanted : wanted' = wanted ∨ wanted' = .target) (same : SameWays files files')
    (hdir : files.node? place = some .directory) :
    ∀ (hops : Nat) (start : Location) (words : List String),
      walk files wanted hops start words = .ok place →
        walk files' wanted' hops start words = .ok place
  | 0, start, words, h => walkWith_of_sameWays hwanted same hdir (fun _ _ h => h) words start h
  | hops + 1, start, words, h =>
      walkWith_of_sameWays hwanted same hdir (walk_of_sameWays hwanted same hdir hops) words start h

/-! ### Without the slashes at the end -/

/-- A walk that finds a directory finds, without the slashes at its end, the directory or a link
that stands for it. -/
theorem walkWith_bare {wanted : Wanted}
    {through through' : Location → List String → Except IoError Location}
    (hdir : files.node? place = some .directory)
    (hthrough : ∀ start words blanks, (∀ w ∈ blanks, w = "") →
      through start (words ++ blanks) = .ok place →
        ∃ p, through' start words = .ok p ∧ files.node? p ≠ none)
    {blanks : List String} (hblanks : ∀ w ∈ blanks, w = "") :
    ∀ (words : List String) (start : Location),
      walkWith files wanted through start (words ++ blanks) = .ok place →
        ∃ p, walkWith files .name through' start words = .ok p ∧ files.node? p ≠ none
  | [], start, h => by
      rw [List.nil_append, walkWith_blanks hblanks, Except.ok.injEq] at h
      exact ⟨start, rfl, by simp [h, hdir]⟩
  | word :: words, start, h => by
      have ih : ∀ start, walkWith files wanted through start (words ++ blanks) = .ok place →
          ∃ p, walkWith files .name through' start words = .ok p ∧ files.node? p ≠ none :=
        walkWith_bare hdir hthrough hblanks words
      have hslash : ¬ Wanted.RefusesSlash .name words := by simp [Wanted.RefusesSlash]
      rw [List.cons_append] at h
      rcases walkWith_step hdir h with ⟨hblank, h⟩ | ⟨rfl, h⟩ | ⟨hstep, -, hnode, h⟩ |
        ⟨target, hstep, -, hnode, -, h⟩
      · rw [walkWith_blank hblank]
        exact ih start h
      · rw [walkWith_dots]
        exact ih _ h
      · rw [walkWith_directory hstep hslash hnode]
        exact ih _ h
      · by_cases hlast : words = []
        · refine ⟨start ++ [word], ?_, by simp [hnode]⟩
          simp [walkWith, hlast, hstep.not_blank, hstep.ne_dots, hstep.short, hnode]
        · rw [walkWith_link hstep hslash hnode (by simp [hlast])]
          rw [← List.append_assoc] at h
          exact hthrough _ _ _ hblanks h

theorem walk_bare {wanted : Wanted} (hdir : files.node? place = some .directory)
    {blanks : List String} (hblanks : ∀ w ∈ blanks, w = "") :
    ∀ (hops : Nat) (start : Location) (words : List String),
      walk files wanted hops start (words ++ blanks) = .ok place →
        ∃ p, walk files .name hops start words = .ok p ∧ files.node? p ≠ none
  | 0, start, words, h => walkWith_bare hdir (fun _ _ _ _ h => by simp at h) hblanks words start h
  | hops + 1, start, words, h =>
      walkWith_bare hdir
        (fun start words _ hblanks h => walk_bare hdir hblanks hops start words h)
        hblanks words start h

/-! ### Paths -/

variable {root : Path}

/-- Where the walk along a path starts. -/
def startOf (files : FileSystem) (path : Path) : Location :=
  if path.isAbsolute then [] else files.home

theorem resolve_eq_ok {wanted : Wanted} {path : Path} (h : files.resolve wanted path = .ok place) :
    checkPath path = .ok () ∧
      walk files wanted maxHops (files.startOf path) path.words = .ok place := by
  unfold resolve at h
  cases hcheck : checkPath path with
  | error e => simp [hcheck] at h
  | ok u => exact ⟨rfl, by simpa [hcheck, startOf] using h⟩

theorem resolve_of_walk {wanted : Wanted} {path : Path} (hcheck : checkPath path = .ok ()) :
    files.resolve wanted path = walk files wanted maxHops (files.startOf path) path.words := by
  unfold resolve
  rw [hcheck]
  rfl

theorem checkPath_eq_ok {path : Path} :
    checkPath path = .ok () ↔
      '\x00' ∉ path.text.toList ∧ path.text.utf8ByteSize ≤ maxPathBytes := by
  unfold checkPath
  by_cases hnull : '\x00' ∈ path.text.toList
  · simp [hnull]
  · by_cases hlong : maxPathBytes < path.text.utf8ByteSize
    · simp [hnull, hlong]
    · simp [hnull, hlong]
      omega

/-- A name joined to a path that leads to `place` goes down from there, or is refused before
anything is looked for. -/
def joined (root : Path) (place : Location) (name : String) : Except IoError Location :=
  match checkPath (root.join name) with
  | .error e => .error e
  | .ok _ => entry place name

theorem resolve_eq_joined {wanted wanted' : Wanted} (hroot : files.resolve wanted root = .ok place)
    (hdir : files.node? place = some .directory) (hname : IsName name)
    (hlink : ∀ target, files.node? (place ++ [name]) ≠ some (.link target)) :
    files.resolve wanted' (root.join name) = joined root place name := by
  obtain ⟨-, hwalk⟩ := resolve_eq_ok hroot
  obtain ⟨words, blanks, hwords, hblanks, hjoin, habs⟩ := root.exists_words_join hname.no_slash
  unfold joined
  cases hcheck : checkPath (root.join name) with
  | error e => simp only [resolve, hcheck]
  | ok _ =>
      rw [hwords] at hwalk
      rw [resolve_of_walk hcheck, hjoin, startOf, habs]
      exact walk_enter hname hdir hlink hblanks _ _ _ hwalk

/-- In a directory that `root` leads to, a name joined to `root` leads to that name. -/
theorem resolve_join {wanted wanted' : Wanted} (hroot : files.resolve wanted root = .ok place)
    (hdir : files.node? place = some .directory) (hname : IsEntryName name)
    (hfits : root.text.utf8ByteSize + name.utf8ByteSize < maxPathBytes)
    (hlink : ∀ target, files.node? (place ++ [name]) ≠ some (.link target)) :
    files.resolve wanted' (root.join name) = .ok (place ++ [name]) := by
  obtain ⟨hcheck, -⟩ := resolve_eq_ok hroot
  obtain ⟨slash, hslash, htext⟩ := root.exists_text_join hname.no_slash
  have hjoined : checkPath (root.join name) = .ok () := by
    rw [checkPath_eq_ok] at hcheck ⊢
    rw [htext]
    have hno : '\x00' ∉ slash.toList := by rcases hslash with rfl | rfl <;> decide
    have hsize : slash.utf8ByteSize ≤ 1 := by rcases hslash with rfl | rfl <;> decide
    constructor
    · simp [hcheck.1, hno, hname.no_null]
    · simp only [String.utf8ByteSize_append]
      omega
  rw [resolve_eq_joined hroot hdir hname.isName hlink, joined, hjoined]
  exact if_neg (Nat.not_lt.2 hname.short)

/-- A path to a directory leads there as long as directories and links stay. -/
theorem resolve_of_sameWays {wanted wanted' : Wanted}
    (hwanted : wanted' = wanted ∨ wanted' = .target) (same : SameWays files files')
    (hroot : files.resolve wanted root = .ok place)
    (hdir : files.node? place = some .directory) : files'.resolve wanted' root = .ok place := by
  obtain ⟨hcheck, hwalk⟩ := resolve_eq_ok hroot
  rw [resolve_of_walk hcheck, startOf, same.home]
  exact walk_of_sameWays hwanted same hdir _ _ _ hwalk

/-- What a path to a directory names without the slashes at its end is there. -/
theorem exists_resolve_bare {wanted : Wanted} (hroot : files.resolve wanted root = .ok place)
    (hdir : files.node? place = some .directory)
    (hhome : files.node? files.home = some .directory) :
    ∃ p, files.resolve .name root.bare = .ok p ∧ files.node? p ≠ none := by
  obtain ⟨hcheck, hwalk⟩ := resolve_eq_ok hroot
  obtain ⟨blanks, hwords, hblanks⟩ := root.exists_words_eq_bare
  obtain ⟨rest, htext⟩ := root.exists_text_eq_bare
  have hbare : checkPath root.bare = .ok () := by
    rw [checkPath_eq_ok] at hcheck ⊢
    rw [htext] at hcheck
    simp only [String.toList_append, List.mem_append, not_or, String.utf8ByteSize_append] at hcheck
    exact ⟨hcheck.1.1, by omega⟩
  rw [resolve_of_walk hbare, startOf]
  by_cases hnil : root.bare.words = []
  · have hrelative : root.bare.isAbsolute = false := by simp [Path.isAbsolute, hnil]
    refine ⟨files.home, ?_, by simp [hhome]⟩
    rw [hnil, hrelative]
    rfl
  · rw [root.isAbsolute_bare hnil]
    rw [hwords] at hwalk
    exact walk_bare hdir hblanks _ _ _ hwalk

end BlockArchive.FileSystem
