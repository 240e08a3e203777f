/-! # Paths

A path is written as words separated by slashes.

* **Lossless.** `ofText` keeps every word, also the empty ones before a first, after a last or
  between two neighbouring slashes, so that `text` writes back exactly what was read
  (`text_ofText`).  An empty first word followed by others marks an absolute path.
* **Joining.** `join` goes on after the last slash: a path that ends with one is continued, any
  other gets a slash first.  An absolute name replaces the whole path.
* **Going up.** `parent` drops the last name, and with it the empty words and the dots around it,
  which lead nowhere.

What a path leads to is the business of the file system; here it is only text. -/

namespace BlockArchive

/-- The words of `chars` between its slashes; there is always at least one. -/
def splitSlashes : List Char → List (List Char)
  | [] => [[]]
  | c :: rest =>
      if c = '/' then [] :: splitSlashes rest
      else match splitSlashes rest with
        | [] => [[c]]
        | word :: words => (c :: word) :: words

/-- A path, as the words between its slashes. -/
structure Path where
  /-- The words in the order written. -/
  words : List String
deriving DecidableEq, Repr, Inhabited

namespace Path

/-- The path written as `text`. -/
def ofText (text : String) : Path :=
  ⟨(splitSlashes text.toList).map String.ofList⟩

/-- The path as it is written. -/
def text (path : Path) : String :=
  "/".intercalate path.words

/-- Whether the path starts at the root of the file system. -/
def isAbsolute (path : Path) : Bool :=
  match path.words with
  | first :: _ :: _ => first = ""
  | _ => false

/-- Whether the path ends in a slash. -/
def endsInSlash (path : Path) : Bool :=
  path.words.getLast? = some ""

/-- The path that continues `path` with `name`. -/
def join (path : Path) (name : String) : Path :=
  let tail := ofText name
  if tail.isAbsolute then tail
  else if path.endsInSlash then ⟨path.words.dropLast ++ tail.words⟩
  else ⟨path.words ++ tail.words⟩

/-- The path without the slashes it ends in. -/
def bare (path : Path) : Path :=
  ⟨(path.words.reverse.dropWhile (· = "")).reverse⟩

/-- Whether a word leads nowhere: it is empty, or a dot. -/
def isBlank (word : String) : Bool :=
  word = "" ∨ word = "."

/-- The path without its last name and without the slashes and dots that were before and after
that name.  The root is its own parent. -/
def parent (path : Path) : Path :=
  let up := ((path.words.reverse.dropWhile isBlank).drop 1).dropWhile isBlank
  if up = [] ∧ path.isAbsolute then ⟨["", ""]⟩ else ⟨up.reverse⟩

theorem splitSlashes_of_not_mem {chars : List Char} (h : '/' ∉ chars) :
    splitSlashes chars = [chars] := by
  induction chars with
  | nil => rfl
  | cons c rest ih =>
      have hc : c ≠ '/' := fun e => h (by simp [e])
      have hr : '/' ∉ rest := fun e => h (by simp [e])
      simp [splitSlashes, hc, ih hr]

theorem splitSlashes_ne_nil (chars : List Char) : splitSlashes chars ≠ [] := by
  cases chars with
  | nil => simp [splitSlashes]
  | cons c rest =>
      unfold splitSlashes
      split
      · simp
      · split <;> simp

theorem intercalate_splitSlashes (chars : List Char) :
    ['/'].intercalate (splitSlashes chars) = chars := by
  induction chars with
  | nil => rfl
  | cons c rest ih =>
      unfold splitSlashes
      cases h : splitSlashes rest with
      | nil => exact absurd h (splitSlashes_ne_nil rest)
      | cons word words =>
          rw [h] at ih
          by_cases hc : c = '/'
          · simp [hc, ← ih, List.intercalate]
          · cases words <;> simp [hc, ← ih, List.intercalate]

/-- A path is written as it was read. -/
theorem text_ofText (text : String) : (ofText text).text = text := by
  apply String.toList_injective
  rw [Path.text, String.toList_intercalate]
  simp [ofText, Function.comp_def, intercalate_splitSlashes]

theorem words_ofText {name : String} (h : '/' ∉ name.toList) : (ofText name).words = [name] := by
  simp [ofText, splitSlashes_of_not_mem h]

/-! ### Without the slashes at the end -/

/-- A path is what is before the slashes it ends in, and the empty words between these. -/
theorem exists_words_eq_bare (path : Path) :
    ∃ blanks, path.words = path.bare.words ++ blanks ∧ ∀ w ∈ blanks, w = "" := by
  refine ⟨(path.words.reverse.takeWhile (· = "")).reverse, ?_, ?_⟩
  · rw [bare, ← List.reverse_append, List.takeWhile_append_dropWhile, List.reverse_reverse]
  · intro w hw
    have hall := List.all_takeWhile (p := fun w : String => decide (w = ""))
      (l := path.words.reverse)
    rw [List.all_eq_true] at hall
    exact of_decide_eq_true (hall w (List.mem_reverse.1 hw))

theorem getLast_bare (path : Path) (h : path.bare.words ≠ []) : path.bare.words.getLast h ≠ "" := by
  have hne : path.words.reverse.dropWhile (· = "") ≠ [] := by simpa [bare] using h
  have hhead := List.head_dropWhile_not (fun w : String => decide (w = "")) hne
  simpa [bare, List.getLast_reverse] using hhead

theorem isAbsolute_bare (path : Path) (h : path.bare.words ≠ []) :
    path.bare.isAbsolute = path.isAbsolute := by
  obtain ⟨blanks, hwords, -⟩ := path.exists_words_eq_bare
  have hlast := path.getLast_bare h
  unfold isAbsolute
  rw [hwords]
  match hb : path.bare.words with
  | [] => exact absurd hb h
  | [word] =>
      have hword : word ≠ "" := by simpa [hb] using hlast
      cases blanks <;> simp [hword]
  | _ :: _ :: _ => rfl

theorem exists_text_eq_bare (path : Path) : ∃ rest, path.text = path.bare.text ++ rest := by
  obtain ⟨blanks, hwords, -⟩ := path.exists_words_eq_bare
  by_cases h : path.bare.words = []
  · exact ⟨path.text, by simp [text, h]⟩
  by_cases hb : blanks = []
  · exact ⟨"", by simp [text, hwords, hb]⟩
  · refine ⟨"/" ++ "/".intercalate blanks, ?_⟩
    rw [text, hwords, String.intercalate_append_of_ne_nil h hb, text, String.append_assoc]

/-! ### Joining a name -/

theorem join_of_not_mem (path : Path) {name : String} (h : '/' ∉ name.toList) :
    path.join name =
      if path.endsInSlash then ⟨path.words.dropLast ++ [name]⟩ else ⟨path.words ++ [name]⟩ := by
  simp [join, words_ofText h, isAbsolute]

theorem words_eq_of_endsInSlash {path : Path} (h : path.endsInSlash = true) :
    path.words = path.words.dropLast ++ [""] := by
  have h : path.words.getLast? = some "" := by simpa [endsInSlash] using h
  obtain ⟨init, hinit⟩ := List.getLast?_eq_some_iff.1 h
  rw [hinit, List.dropLast_concat]

/-- The name comes in place of an empty word at the end, and the path stays as absolute as it
was. -/
theorem exists_words_join (path : Path) {name : String} (h : '/' ∉ name.toList) :
    ∃ words blanks, path.words = words ++ blanks ∧ (∀ w ∈ blanks, w = "") ∧
      (path.join name).words = words ++ [name] ∧
      (path.join name).isAbsolute = path.isAbsolute := by
  rw [path.join_of_not_mem h]
  by_cases hend : path.endsInSlash = true
  · have hwords := words_eq_of_endsInSlash hend
    refine ⟨path.words.dropLast, [""], hwords, by simp, by simp [hend], ?_⟩
    rw [if_pos hend]
    unfold isAbsolute
    rw [hwords]
    simp only [List.dropLast_concat]
    match path.words.dropLast with
    | [] => rfl
    | [_] => rfl
    | _ :: _ :: _ => rfl
  · refine ⟨path.words, [], by simp, by simp, by simp [hend], ?_⟩
    rw [if_neg hend]
    unfold isAbsolute
    match hw : path.words with
    | [] => rfl
    | [word] =>
        have hword : word ≠ "" := by simpa [endsInSlash, hw] using hend
        simp [hword]
    | _ :: _ :: _ => rfl

/-- At most a slash is written between a path and a name joined to it. -/
theorem exists_text_join (path : Path) {name : String} (h : '/' ∉ name.toList) :
    ∃ slash, (slash = "" ∨ slash = "/") ∧ (path.join name).text = path.text ++ slash ++ name := by
  rw [path.join_of_not_mem h]
  by_cases hend : path.endsInSlash = true
  · refine ⟨"", .inl rfl, ?_⟩
    have hwords := words_eq_of_endsInSlash hend
    rw [if_pos hend, text, text]
    by_cases hnil : path.words.dropLast = []
    · rw [hwords, hnil]
      simp
    · rw [hwords, List.dropLast_concat, String.intercalate_append_of_ne_nil hnil (by simp),
        String.intercalate_append_of_ne_nil hnil (by simp)]
      simp
  · rw [if_neg hend, text, text]
    by_cases hnil : path.words = []
    · exact ⟨"", .inl rfl, by simp [hnil]⟩
    · refine ⟨"/", .inr rfl, ?_⟩
      rw [String.intercalate_append_of_ne_nil hnil (by simp), String.intercalate_singleton]

end Path

end BlockArchive
