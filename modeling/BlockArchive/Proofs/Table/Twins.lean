import BlockArchive.Proofs.FileActions
import BlockArchive.Proofs.FileNames
import BlockArchive.Proofs.Performing
import Mathlib.Data.Option.Defs
import Mathlib.Order.Basic

/-! # Two disks on which a table finds the same

The same action, carried out on two disks, answers the same as long as it finds the same files,
though a file need not have the same number on both.

* **`Site`** is where the files of a table lie.
* **`Twins pairs files files'`**: under each name of a file of the table the same is found on both
  sides, where `pairs` says which file of the one side stands for which of the other.
* **`StaysWithin`** says what an action may do to the first side: it changes files of the table and
  none else, and files that come to be the table's are new.
* **`View.Agree`**: two actions that start from states that look the same answer the same and end in
  states that look the same, and the first stays within the files of the table.  There is one lemma
  for each way to build an action, and one for each thing that is done to a file. -/

namespace BlockArchive

open FileSystem Attempt

namespace FileSystem

variable {files files' : FileSystem} {root : Path} {place : Location} {name : String}

/-- The path `root` leads to the directory `place`, and relative paths start in a directory. -/
structure Rooted (files : FileSystem) (root : Path) (place : Location) : Prop where
  named : files.resolve .target root = .ok place
  directory : files.node? place = some .directory
  home : files.node? files.home = some .directory

theorem Rooted.of_sameWays (h : files.Rooted root place) (same : SameWays files files') :
    files'.Rooted root place where
  named := resolve_of_sameWays (.inl rfl) same h.named h.directory
  directory := same.directory _ h.directory
  home := by
    rw [same.home]
    exact same.directory _ h.home

/-- A name that is not refused leads to its place in the directory. -/
theorem eq_of_joined {p : Location} (h : joined root place name = .ok p) : p = place ++ [name] := by
  unfold joined entry at h
  grind

/-- Nothing but what one file holds is another. -/
structure Alters (id : FileId) (f : Bytes → Bytes) (files files' : FileSystem) : Prop where
  names : files'.names = files.names
  home : files'.home = files.home
  size : files'.contents.size = files.contents.size
  same : files'.content id = f (files.content id)
  other : ∀ other ≠ id, files'.content other = files.content other

theorem alters_write {id : FileId} (hid : id < files.contents.size) (start : Nat) (data : Bytes) :
    Alters id (·.overwrite start data) files ((Effect.write id start data).apply files) where
  names := rfl
  home := rfl
  size := by rw [Effect.size_contents_apply]
  same := Effect.content_write_same start data hid
  other _ hne := Effect.content_write_ne files start data hne

theorem alters_setLength {id : FileId} (hid : id < files.contents.size) (length : Nat) :
    Alters id (·.resize length) files ((Effect.setLength id length).apply files) where
  names := rfl
  home := rfl
  size := by rw [Effect.size_contents_apply]
  same := Effect.content_setLength_same length hid
  other _ hne := Effect.content_setLength_ne files length hne

namespace Alters

variable {id : FileId} {f : Bytes → Bytes} (h : Alters id f files files')
include h

theorem node?_eq (p : Location) : files'.node? p = files.node? p := by
  unfold node?
  rw [h.names]

theorem sameWays : SameWays files files' where
  home := h.home
  directory p hp := (h.node?_eq p).trans hp
  link p _ hp := (h.node?_eq p).trans hp

end Alters

end FileSystem

namespace Table

/-- Where the files of a table lie. -/
@[ext]
structure Site where
  /-- The path of the directory. -/
  root : Path
  /-- The directory that the path leads to. -/
  place : Location
  /-- The name of the table. -/
  name : String
  no_slash : '/' ∉ name.toList

/-- The place of the file that the table keeps for this role. -/
def Site.at (site : Site) (role : Role) : Location :=
  site.place ++ [fileName site.name role]

/-! ### Making and removing files of a table -/

section names

variable (site : Site) (role : Role) (files : FileSystem)

theorem node?_makeFile (p : Location) :
    ((Effect.makeFile (site.at role)).apply files).node? p =
      if p = site.at role then some (.file files.contents.size) else files.node? p :=
  Change.node?_effect files site.place (.make (fileName site.name role)) p

theorem node?_removeName (p : Location) :
    ((Effect.removeName (site.at role)).apply files).node? p =
      if p = site.at role then none else files.node? p :=
  Change.node?_effect files site.place (.remove (fileName site.name role)) p

theorem size_contents_makeFile :
    ((Effect.makeFile (site.at role)).apply files).contents.size = files.contents.size + 1 :=
  Effect.size_contents_apply _ _

variable {role files} (h : files.TakesFile site.place (fileName site.name role))
include h

/-- A name that stands for a file or for nothing is in nobody's way. -/
theorem sameWays_makeFile : SameWays files ((Effect.makeFile (site.at role)).apply files) :=
  @Change.sameWays_effect files site.place (.make (fileName site.name role)) h

theorem sameWays_removeName : SameWays files ((Effect.removeName (site.at role)).apply files) :=
  @Change.sameWays_effect files site.place (.remove (fileName site.name role)) h

end names

/-! ### What is found on both sides -/

/-- Which file of the one side stands for which of the other. -/
abbrev Pairing := FileId → FileId → Prop

/-- Both names stand for nothing, for a directory, or for files that stand for each other.  A link
is none of these: it would lead to a file that has another name. -/
inductive SameNode (pairs : Pairing) : Option Node → Option Node → Prop where
  | none : SameNode pairs none none
  | directory : SameNode pairs (some .directory) (some .directory)
  | file {i j : FileId} (h : pairs i j) : SameNode pairs (some (.file i)) (some (.file j))

/-- Both handles are of a directory, or of files that stand for each other. -/
inductive SameHandle (pairs : Pairing) : Handle → Handle → Prop where
  | directory : SameHandle pairs .directory .directory
  | file {i j : FileId} (writable : Bool) (h : pairs i j) :
      SameHandle pairs (.file i writable) (.file j writable)

variable {site : Site} {pairs pairs' pairs'' : Pairing} {files files' files'' : FileSystem}

theorem SameNode.mono {node node' : Option Node} (h : SameNode pairs node node')
    (hle : pairs ≤ pairs') : SameNode pairs' node node' := by
  cases h with
  | none => exact .none
  | directory => exact .directory
  | file h => exact .file (hle _ _ h)

theorem SameHandle.mono {handle handle' : Handle} (h : SameHandle pairs handle handle')
    (hle : pairs ≤ pairs') : SameHandle pairs' handle handle' := by
  cases h with
  | directory => exact .directory
  | file writable h => exact .file writable (hle _ _ h)

/-- Every file of some set stands for itself. -/
def own (owned : FileId → Prop) : Pairing := fun i j => i = j ∧ owned i

theorem SameNode.own_self {node : Option Node} (h : SameNode pairs node node) :
    SameNode (own fun i => pairs i i) node node := by
  cases h with
  | none => exact .none
  | directory => exact .directory
  | file h => exact .file ⟨rfl, h⟩

theorem SameHandle.own_self {handle : Handle} (h : SameHandle pairs handle handle) :
    SameHandle (own fun i => pairs i i) handle handle := by
  cases h with
  | directory => exact .directory
  | file writable h => exact .file writable ⟨rfl, h⟩

theorem sameNode_cases {node node' : Option Node} (h : SameNode pairs node node') :
    (node = none ∧ node' = none) ∨ (node = some .directory ∧ node' = some .directory) ∨
      ∃ i j, node = some (.file i) ∧ node' = some (.file j) ∧ pairs i j := by
  cases h with
  | none => exact .inl ⟨rfl, rfl⟩
  | directory => exact .inr (.inl ⟨rfl, rfl⟩)
  | file h => exact .inr (.inr ⟨_, _, rfl, rfl, h⟩)

/-- Under the names of the table's files the same is found on both sides. -/
structure Twins (site : Site) (pairs : Pairing) (files files' : FileSystem) : Prop where
  left : files.Rooted site.root site.place
  right : files'.Rooted site.root site.place
  node : ∀ role, SameNode pairs (files.node? (site.at role)) (files'.node? (site.at role))
  content : ∀ i j, pairs i j → files.content i = files'.content j
  made : ∀ i j, pairs i j → i < files.contents.size ∧ j < files'.contents.size
  /-- No file has two partners. -/
  single : ∀ i j i' j', pairs i j → pairs i' j' → (i = i' ↔ j = j')

/-- What became of `files` is confined to files of the table, which are those that have a partner;
one that comes to have a partner is new. -/
structure StaysWithin (site : Site) (pairs pairs' : Pairing) (files files' : FileSystem) :
    Prop where
  keeps : pairs ≤ pairs'
  fresh : ∀ i j, pairs' i j → pairs i j ∨ files.contents.size ≤ i
  node : ∀ p, (∀ role, p ≠ site.at role) → files'.node? p = files.node? p
  content : ∀ i < files.contents.size, (∀ j, ¬ pairs i j) → files'.content i = files.content i
  size : files.contents.size ≤ files'.contents.size

theorem StaysWithin.refl (site : Site) (pairs : Pairing) (files : FileSystem) :
    StaysWithin site pairs pairs files files :=
  ⟨le_rfl, fun _ _ h => .inl h, fun _ _ => rfl, fun _ _ _ => rfl, Nat.le_refl _⟩

theorem StaysWithin.trans (h : StaysWithin site pairs pairs' files files')
    (h' : StaysWithin site pairs' pairs'' files' files'') :
    StaysWithin site pairs pairs'' files files'' where
  keeps := h.keeps.trans h'.keeps
  fresh i j hij := by
    rcases h'.fresh i j hij with hij | hsize
    · exact h.fresh i j hij
    · exact .inr (Nat.le_trans h.size hsize)
  node p hp := (h'.node p hp).trans (h.node p hp)
  content i hi hown := by
    have hown' : ∀ j, ¬ pairs' i j := by
      intro j hij
      rcases h.fresh i j hij with hij | hsize
      · exact hown j hij
      · omega
    exact (h'.content i (by have := h.size; omega) hown').trans (h.content i hi hown)
  size := Nat.le_trans h.size h'.size

/-- A table finds on a disk what it finds there, by files that stand for themselves. -/
theorem twins_own {owned : FileId → Prop} (hrooted : files.Rooted site.root site.place)
    (hnode : ∀ role, SameNode (own owned) (files.node? (site.at role)) (files.node? (site.at role)))
    (hmade : ∀ i, owned i → i < files.contents.size) : Twins site (own owned) files files where
  left := hrooted
  right := hrooted
  node := hnode
  content := by
    rintro i _ ⟨rfl, -⟩
    rfl
  made := by
    rintro i _ ⟨rfl, hi⟩
    exact ⟨hmade i hi, hmade i hi⟩
  single := by
    rintro i _ i' _ ⟨rfl, -⟩ ⟨rfl, -⟩
    exact Iff.rfl

namespace Twins

variable (h : Twins site pairs files files')
include h

theorem takesFile_left {role : Role} (hdir : files.node? (site.at role) ≠ some .directory) :
    files.TakesFile site.place (fileName site.name role) := by
  rcases sameNode_cases (h.node role) with ⟨hnode, -⟩ | ⟨hnode, -⟩ | ⟨i, j, hnode, -⟩
  · exact .inl hnode
  · exact absurd hnode hdir
  · exact .inr ⟨i, hnode⟩

theorem resolve_left (wanted : Wanted) (role : Role) :
    files.resolve wanted (site.root.join (fileName site.name role)) =
      joined site.root site.place (fileName site.name role) := by
  refine resolve_eq_joined h.left.named h.left.directory (isName_fileName site.no_slash role) ?_
  change ∀ target, files.node? (site.at role) ≠ some (.link target)
  rcases sameNode_cases (h.node role) with ⟨hnode, -⟩ | ⟨hnode, -⟩ | ⟨i, j, hnode, -⟩
  all_goals simp [hnode]

/-- What holds of the one side holds of the other. -/
theorem swap : Twins site (fun i j => pairs j i) files' files where
  left := h.right
  right := h.left
  node role := by
    rcases sameNode_cases (h.node role) with ⟨hnode, hnode'⟩ | ⟨hnode, hnode'⟩ |
      ⟨i, j, hnode, hnode', hij⟩
    all_goals rw [hnode, hnode']
    · exact .none
    · exact .directory
    · exact .file hij
  content i j hij := (h.content j i hij).symm
  made i j hij := (h.made j i hij).symm
  single i j i' j' hij hij' := (h.single j i j' i' hij hij').symm

theorem resolve_right (wanted : Wanted) (role : Role) :
    files'.resolve wanted (site.root.join (fileName site.name role)) =
      joined site.root site.place (fileName site.name role) :=
  h.swap.resolve_left wanted role

/-- Two files that stand for each other are changed alike. -/
theorem alter {i j : FileId} {f : Bytes → Bytes} {after after' : FileSystem} (hij : pairs i j)
    (hleft : Alters i f files after) (hright : Alters j f files' after') :
    Twins site pairs after after' where
  left := h.left.of_sameWays hleft.sameWays
  right := h.right.of_sameWays hright.sameWays
  node role := by
    rw [hleft.node?_eq, hright.node?_eq]
    exact h.node role
  content i' j' hij' := by
    by_cases hi : i' = i
    · obtain rfl := (h.single i' j' i j hij' hij).1 hi
      subst hi
      rw [hleft.same, hright.same, h.content i' j' hij]
    · have hj : j' ≠ j := fun hj => hi ((h.single i' j' i j hij' hij).2 hj)
      rw [hleft.other i' hi, hright.other j' hj, h.content i' j' hij']
  made i' j' hij' := by
    rw [hleft.size, hright.size]
    exact h.made i' j' hij'
  single := h.single

/-- Two files that are made under the same name stand for each other from then on. -/
theorem makeFile {role : Role} (hleft : files.node? (site.at role) = none)
    (hright : files'.node? (site.at role) = none) :
    Twins site (fun i j => pairs i j ∨ i = files.contents.size ∧ j = files'.contents.size)
      ((Effect.makeFile (site.at role)).apply files)
      ((Effect.makeFile (site.at role)).apply files') where
  left := h.left.of_sameWays (sameWays_makeFile site (.inl hleft))
  right := h.right.of_sameWays (sameWays_makeFile site (.inl hright))
  node other := by
    rw [node?_makeFile, node?_makeFile]
    split
    · exact .file (.inr ⟨rfl, rfl⟩)
    · exact (h.node other).mono fun _ _ hij => .inl hij
  content i j hij := by
    rw [Effect.content_makeFile, Effect.content_makeFile]
    rcases hij with hij | ⟨rfl, rfl⟩
    · exact h.content i j hij
    · simp [FileSystem.content]
  made i j hij := by
    rw [size_contents_makeFile, size_contents_makeFile]
    rcases hij with hij | ⟨rfl, rfl⟩
    · exact ⟨Nat.lt_succ_of_lt (h.made i j hij).1, Nat.lt_succ_of_lt (h.made i j hij).2⟩
    · exact ⟨Nat.lt_succ_self _, Nat.lt_succ_self _⟩
  single i j i' j' hij hij' := by
    -- the new files had no number before, so that none of the old pairs can hold one of them
    rcases hij with hij | ⟨rfl, rfl⟩ <;> rcases hij' with hij' | ⟨rfl, rfl⟩
    · exact h.single i j i' j' hij hij'
    · obtain ⟨hi, hj⟩ := h.made i j hij
      exact iff_of_false (Nat.ne_of_lt hi) (Nat.ne_of_lt hj)
    · obtain ⟨hi, hj⟩ := h.made i' j' hij'
      exact iff_of_false (Nat.ne_of_gt hi) (Nat.ne_of_gt hj)
    · exact iff_of_true rfl rfl

theorem removeName {role : Role} (hdir : files.node? (site.at role) ≠ some .directory)
    (hdir' : files'.node? (site.at role) ≠ some .directory) :
    Twins site pairs ((Effect.removeName (site.at role)).apply files)
      ((Effect.removeName (site.at role)).apply files') where
  left := h.left.of_sameWays (sameWays_removeName site (h.takesFile_left hdir))
  right := h.right.of_sameWays (sameWays_removeName site (h.swap.takesFile_left hdir'))
  node other := by
    rw [node?_removeName, node?_removeName]
    split
    · exact .none
    · exact h.node other
  content := h.content
  made := h.made
  single := h.single

end Twins

theorem staysWithin_alter {i j : FileId} {f : Bytes → Bytes} (hij : pairs i j)
    (h : Alters i f files files') : StaysWithin site pairs pairs files files' where
  keeps := le_rfl
  fresh _ _ h := .inl h
  node p _ := h.node?_eq p
  content other _ hown := h.other other fun heq => hown j (heq ▸ hij)
  size := Nat.le_of_eq h.size.symm

theorem staysWithin_makeFile (site : Site) (pairs : Pairing) (files : FileSystem) (role : Role)
    (partner : FileId) :
    StaysWithin site pairs (fun i j => pairs i j ∨ i = files.contents.size ∧ j = partner) files
      ((Effect.makeFile (site.at role)).apply files) where
  keeps _ _ h := .inl h
  fresh i j h := h.imp id fun h => Nat.le_of_eq h.1.symm
  node p hp := by
    rw [node?_makeFile]
    exact if_neg (hp role)
  content i _ _ := Effect.content_makeFile _ _ _
  size := by
    rw [size_contents_makeFile]
    exact Nat.le_succ _

theorem staysWithin_removeName (site : Site) (pairs : Pairing) (files : FileSystem) (role : Role) :
    StaysWithin site pairs pairs files ((Effect.removeName (site.at role)).apply files) where
  keeps := le_rfl
  fresh _ _ h := .inl h
  node p hp := by
    rw [node?_removeName]
    exact if_neg (hp role)
  content _ _ _ := rfl
  size := Nat.le_refl _

/-! ### Actions that agree -/

variable {α β σ : Type}

/-- What of a state a table can see, and when it looks the same to the table. -/
structure View (σ : Type) where
  site : Site
  files : σ → FileSystem
  Same : Pairing → σ → σ → Prop

/-- Both answers are the same, or the same failure. -/
inductive SameAnswer (same : α → α → Prop) : Except Error α → Except Error α → Prop where
  | ok {a a' : α} (h : same a a') : SameAnswer same (.ok a) (.ok a')
  | error (e : Error) : SameAnswer same (.error e) (.error e)

theorem SameAnswer.eq {answer answer' : Except Error α} (h : SameAnswer Eq answer answer') :
    answer = answer' := by
  cases h with
  | ok h => rw [h]
  | error e => rfl

namespace View

variable {view : View σ}

/-- Started from states that look the same, by these pairs or by more, the actions answer the same
and leave states that look the same; what the first does stays within the files of the table. -/
def Agree (view : View σ) (pairs : Pairing) (same : Pairing → α → α → Prop)
    (first second : Action σ α) : Prop :=
  ∀ pairs₀, pairs ≤ pairs₀ → ∀ s s', view.Same pairs₀ s s' →
    ∃ pairs₁,
      StaysWithin view.site pairs₀ pairs₁ (view.files s) (view.files (first.outcome s).2) ∧
      view.Same pairs₁ (first.outcome s).2 (second.outcome s').2 ∧
      SameAnswer (same pairs₁) (first.outcome s).1 (second.outcome s').1

/-- Started from states that look the same, the action answers the same. -/
abbrev Alike (view : View σ) (pairs : Pairing) (action : Action σ α) : Prop :=
  view.Agree pairs (fun _ => Eq) action action

variable {same : Pairing → α → α → Prop} {same' : Pairing → β → β → Prop}
  {first second : Action σ α} {next next' : α → Action σ β}

/-- Nothing is done but asking. -/
theorem agree_of_unchanged
    (h : ∀ pairs₀, pairs ≤ pairs₀ → ∀ s s', view.Same pairs₀ s s' → ∃ answer answer',
      first.outcome s = (answer, s) ∧ second.outcome s' = (answer', s') ∧
        SameAnswer (same pairs₀) answer answer') : view.Agree pairs same first second := by
  intro pairs₀ hle s s' hs
  obtain ⟨answer, answer', hfirst, hsecond, hsame⟩ := h pairs₀ hle s s' hs
  rw [hfirst, hsecond]
  exact ⟨pairs₀, .refl _ _ _, hs, hsame⟩

theorem agree_pure {a a' : α} (h : ∀ pairs₀, pairs ≤ pairs₀ → same pairs₀ a a') :
    view.Agree pairs same (pure a) (pure a') :=
  agree_of_unchanged fun pairs₀ hle _ _ _ => ⟨_, _, rfl, rfl, .ok (h pairs₀ hle)⟩

theorem agree_throw (e : Error) : view.Agree pairs same (throw e) (throw e) :=
  agree_of_unchanged fun _ _ _ _ _ => ⟨_, _, rfl, rfl, .error e⟩

/-- What comes next starts from more pairs than what comes first. -/
theorem Agree.bind (h : view.Agree pairs same first second)
    (hnext : ∀ pairs', pairs ≤ pairs' → ∀ a a', same pairs' a a' →
      view.Agree pairs' same' (next a) (next' a')) :
    view.Agree pairs same' (first >>= next) (second >>= next') := by
  intro pairs₀ hle s s' hs
  obtain ⟨pairs₁, hwithin, hs₁, hanswer⟩ := h pairs₀ hle s s' hs
  rcases hfirst : first.outcome s with ⟨answer, s₁⟩
  rcases hsecond : second.outcome s' with ⟨answer', s₁'⟩
  rw [hfirst] at hwithin hs₁ hanswer
  rw [hsecond] at hs₁ hanswer
  cases hanswer with
  | ok hsame =>
      have hle₁ : pairs ≤ pairs₁ := hle.trans hwithin.keeps
      obtain ⟨pairs₂, hwithin₂, hs₂, hanswer⟩ :=
        hnext pairs₁ hle₁ _ _ hsame pairs₁ le_rfl s₁ s₁' hs₁
      rw [outcome_bind_ok hfirst, outcome_bind_ok hsecond]
      exact ⟨pairs₂, hwithin.trans hwithin₂, hs₂, hanswer⟩
  | error e =>
      rw [outcome_bind_error hfirst, outcome_bind_error hsecond]
      exact ⟨pairs₁, hwithin, hs₁, .error e⟩

/-- As `Agree.bind`, where the first answers are equal. -/
theorem Agree.bind_eq (h : view.Agree pairs (fun _ => Eq) first second)
    (hnext : ∀ pairs', pairs ≤ pairs' → ∀ a, view.Agree pairs' same' (next a) (next' a)) :
    view.Agree pairs same' (first >>= next) (second >>= next') := by
  refine h.bind fun pairs' hle a a' heq => ?_
  subst heq
  exact hnext pairs' hle a

theorem agree_ite {c : Prop} [Decidable c] {first' second' : Action σ α}
    (hthen : view.Agree pairs same first second) (helse : view.Agree pairs same first' second') :
    view.Agree pairs same (if c then first else first') (if c then second else second') := by
  split <;> assumption

/-- Steps that are taken only under a condition, before what comes next in any case. -/
theorem agree_when {c : Prop} [Decidable c] {first second : Action σ PUnit}
    {next next' : PUnit → Action σ α} (hthen : view.Agree pairs (fun _ => Eq) first second)
    (hnext : ∀ pairs', pairs ≤ pairs' → ∀ u, view.Agree pairs' same (next u) (next' u)) :
    view.Agree pairs same (if c then first >>= next else next ⟨⟩)
      (if c then second >>= next' else next' ⟨⟩) :=
  agree_ite (hthen.bind_eq hnext) (hnext pairs le_rfl ⟨⟩)

theorem Agree.tryCatch {handler handler' : Error → Action σ α}
    (h : view.Agree pairs same first second)
    (hhandler : ∀ e, view.Agree pairs same (handler e) (handler' e)) :
    view.Agree pairs same (tryCatch first handler) (tryCatch second handler') := by
  intro pairs₀ hle s s' hs
  obtain ⟨pairs₁, hwithin, hs₁, hanswer⟩ := h pairs₀ hle s s' hs
  rw [outcome_tryCatch, outcome_tryCatch]
  rcases hfirst : first.outcome s with ⟨answer, s₁⟩
  rcases hsecond : second.outcome s' with ⟨answer', s₁'⟩
  rw [hfirst] at hwithin hs₁ hanswer
  rw [hsecond] at hs₁ hanswer
  cases hanswer with
  | ok hsame => exact ⟨pairs₁, hwithin, hs₁, .ok hsame⟩
  | error e =>
      obtain ⟨pairs₂, hwithin₂, hs₂, hanswer⟩ :=
        hhandler e pairs₁ (hle.trans hwithin.keeps) s₁ s₁' hs₁
      exact ⟨pairs₂, hwithin.trans hwithin₂, hs₂, hanswer⟩

end View

/-! ### On a disk -/

/-- What a table sees of a disk. -/
def Site.disks (site : Site) : View Disk where
  site := site
  files := Disk.files
  Same pairs disk disk' := Twins site pairs disk.files disk'.files

/-- Two files that stand for each other are changed alike. -/
theorem agree_perform {i j : FileId} {f : Bytes → Bytes} {effect effect' : Effect}
    (hij : pairs i j)
    (h : ∀ files : FileSystem, i < files.contents.size → Alters i f files (effect.apply files))
    (h' : ∀ files : FileSystem, j < files.contents.size → Alters j f files (effect'.apply files)) :
    site.disks.Agree pairs (fun _ => Eq) (Disk.perform effect) (Disk.perform effect') := by
  intro pairs₀ hle disk disk' hs
  have hij₀ : pairs₀ i j := hle i j hij
  obtain ⟨hi, hj⟩ := hs.made i j hij₀
  exact ⟨pairs₀, staysWithin_alter hij₀ (h _ hi), hs.alter hij₀ (h _ hi) (h' _ hj), .ok rfl⟩

theorem agree_setLengthOf {i j : FileId} (hij : pairs i j) (length : Nat) :
    site.disks.Agree pairs (fun _ => Eq) (Disk.perform (.setLength i length))
      (Disk.perform (.setLength j length)) :=
  agree_perform hij (fun _ hi => alters_setLength hi length) fun _ hj => alters_setLength hj length

section handles

variable {handle handle' : Handle} (h : SameHandle pairs handle handle')
include h

theorem agree_length : site.disks.Agree pairs (fun _ => Eq) handle.length handle'.length := by
  cases h with
  | directory => exact View.agree_pure fun _ _ => rfl
  | file writable hij =>
      refine View.agree_of_unchanged fun pairs₀ hle disk disk' hs => ⟨_, _, rfl, rfl, .ok ?_⟩
      exact congrArg List.length (hs.content _ _ (hle _ _ hij))

theorem agree_read (start len : Nat) :
    site.disks.Agree pairs (fun _ => Eq) (handle.read start len) (handle'.read start len) := by
  cases h with
  | directory =>
      exact View.agree_ite (View.agree_pure fun _ _ => rfl) (View.agree_throw _)
  | @file i j writable hij =>
      refine View.agree_of_unchanged fun pairs₀ hle disk disk' hs => ?_
      have hcontent := hs.content i j (hle i j hij)
      have hread := Handle.outcome_read_of_content hcontent writable start len
      have hread' := @Handle.outcome_read_of_content disk' j _ rfl writable start len
      cases hslice : (disk'.files.content j).slice? start len with
      | some data =>
          rw [hslice] at hread hread'
          exact ⟨_, _, hread, hread', .ok rfl⟩
      | none =>
          rw [hslice] at hread hread'
          exact ⟨_, _, hread, hread', .error _⟩

theorem agree_write (start : Nat) (data : Bytes) :
    site.disks.Agree pairs (fun _ => Eq) (handle.write start data) (handle'.write start data) := by
  unfold Handle.write
  refine View.agree_ite (View.agree_pure fun _ _ => rfl) ?_
  cases h with
  | directory => exact View.agree_throw _
  | file writable hij =>
      cases writable with
      | false => exact View.agree_throw _
      | true =>
          exact agree_perform hij (fun _ hi => alters_write hi start data)
            fun _ hj => alters_write hj start data

theorem agree_setLength (length : Nat) :
    site.disks.Agree pairs (fun _ => Eq) (handle.setLength length) (handle'.setLength length) := by
  cases h with
  | directory => exact View.agree_throw _
  | file writable hij =>
      cases writable with
      | false => exact View.agree_throw _
      | true => exact agree_setLengthOf hij length

end handles

/-- A file of the table is opened alike, made alike if it is missing, or refused alike. -/
theorem agree_openFile (role : Role) (mode : OpenMode) :
    site.disks.Agree pairs SameHandle
      (Disk.openFile (site.root.join (fileName site.name role)) mode)
      (Disk.openFile (site.root.join (fileName site.name role)) mode) := by
  intro pairs₀ hle disk disk' hs
  have hrun := Disk.outcome_openFile (site.root.join (fileName site.name role)) mode disk
  have hrun' := Disk.outcome_openFile (site.root.join (fileName site.name role)) mode disk'
  rw [hs.resolve_left] at hrun
  rw [hs.resolve_right] at hrun'
  rw [hrun, hrun']
  -- whether the name is refused depends on the path alone, which is the same on both sides
  cases hjoined : joined site.root site.place (fileName site.name role) with
  | error e => exact ⟨pairs₀, .refl _ _ _, hs, .error _⟩
  | ok p =>
      have hp : p = site.at role := eq_of_joined hjoined
      subst hp
      rcases sameNode_cases (hs.node role) with ⟨hnode, hnode'⟩ | ⟨hnode, hnode'⟩ |
        ⟨i, j, hnode, hnode', hij⟩
      · simp only [hnode, hnode']
        by_cases hcreates : mode.creates = true
        · rw [if_pos hcreates, if_pos hcreates]
          exact ⟨_, staysWithin_makeFile site pairs₀ disk.files role _, hs.makeFile hnode hnode',
            .ok (.file true (.inr ⟨rfl, rfl⟩))⟩
        · rw [if_neg hcreates, if_neg hcreates]
          exact ⟨pairs₀, .refl _ _ _, hs, .error _⟩
      · simp only [hnode, hnode']
        by_cases hmode : mode = .readOnly
        · rw [if_pos hmode, if_pos hmode]
          exact ⟨pairs₀, .refl _ _ _, hs, .ok .directory⟩
        · rw [if_neg hmode, if_neg hmode]
          exact ⟨pairs₀, .refl _ _ _, hs, .error _⟩
      · simp only [hnode, hnode']
        by_cases hmode : mode = .fresh
        · rw [if_pos hmode, if_pos hmode]
          obtain ⟨pairs₁, hwithin, hs₁, -⟩ := agree_setLengthOf hij 0 pairs₀ le_rfl disk disk' hs
          exact ⟨pairs₁, hwithin, hs₁, .ok (.file _ (hwithin.keeps _ _ hij))⟩
        · rw [if_neg hmode, if_neg hmode]
          exact ⟨pairs₀, .refl _ _ _, hs, .ok (.file _ hij)⟩

theorem agree_removeFile (role : Role) :
    site.disks.Alike pairs (Disk.removeFile (site.root.join (fileName site.name role))) := by
  intro pairs₀ hle disk disk' hs
  have hrun := Disk.outcome_removeFile (site.root.join (fileName site.name role)) disk
  have hrun' := Disk.outcome_removeFile (site.root.join (fileName site.name role)) disk'
  rw [hs.resolve_left] at hrun
  rw [hs.resolve_right] at hrun'
  rw [hrun, hrun']
  cases hjoined : joined site.root site.place (fileName site.name role) with
  | error e => exact ⟨pairs₀, .refl _ _ _, hs, .error _⟩
  | ok p =>
      have hp : p = site.at role := eq_of_joined hjoined
      subst hp
      rcases sameNode_cases (hs.node role) with ⟨hnode, hnode'⟩ | ⟨hnode, hnode'⟩ |
        ⟨i, j, hnode, hnode', hij⟩
      · simp only [hnode, hnode']
        exact ⟨pairs₀, .refl _ _ _, hs, .error _⟩
      · simp only [hnode, hnode']
        exact ⟨pairs₀, .refl _ _ _, hs, .error _⟩
      · simp only [hnode, hnode']
        exact ⟨pairs₀, staysWithin_removeName site pairs₀ disk.files role,
          hs.removeName (by simp [hnode]) (by simp [hnode']), .ok rfl⟩

/-- The directory is there, so that nothing is made. -/
theorem outcome_makeDirectories_of_rooted {disk : Disk} {root : Path} {place : Location}
    (h : disk.files.Rooted root place) :
    (Disk.makeDirectories root).outcome disk = (.ok (), disk) := by
  have hdir : disk.files.isDirectory root = true := by
    simp [isDirectory, status, h.named, h.directory]
  have hshows : disk.files.Shows (fun _ => False) root (disk.files.seen root)
      (disk.files.numberAt root) :=
    shows_seen hdir h.home (fun _ hname => hname.elim) fun _ hname => hname.elim
  exact Disk.outcome_makeDirectories_of_shows hshows

theorem agree_makeDirectories : site.disks.Alike pairs (Disk.makeDirectories site.root) :=
  View.agree_of_unchanged fun _ _ _ _ hs => ⟨_, _, outcome_makeDirectories_of_rooted hs.left,
    outcome_makeDirectories_of_rooted hs.right, .ok rfl⟩

end Table

end BlockArchive
