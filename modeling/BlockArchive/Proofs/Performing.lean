import BlockArchive.Column
import BlockArchive.Table.Appending
import BlockArchive.Table.Cutting
import BlockArchive.Table.Opening
import BlockArchive.Table.Reading
import Mathlib.Order.Defs.Unbundled

/-! # What attempts do to a disk

* **`Attempt.Respects r`**: whatever the attempt answers, the state it leaves stands in the relation
  `r` to the state it started from.  For a relation that is reflexive and transitive this is closed
  under all ways to build attempts, one lemma for each.
* **`SameIn view`**: the relation of two states of which one part is the same.
* **`OnlyReads`**: nothing is changed, neither on the disk nor beside it.  Reading an item is of
  this kind, and so is measuring a table.  What only reads respects every relation of this sort
  (`OnlyReads.respects`).
* **`Disk.LeadsTo`**: the one disk becomes the other by effects and nothing else, so its locks stay
  as they are and its journal only grows.
* **Files and tables.** All that is done to files and tables is of this kind: `OnlyPerforms` for
  actions on a disk, `OnlyPerformsBeside` for actions on a table and its disk.  So the locks of a
  disk are the business of `Handle.tryLock` and `Handle.unlock` alone.
* **Opening a file.** `Disk.outcome_openFile` says how it goes, whatever the path is and wherever it
  leads.
* **Opening a table.** `Table.OpenSteps` lists the steps of an opening that succeeds. -/

namespace BlockArchive

/-- The two states are the same in one part. -/
def SameIn {σ τ : Type} (view : σ → τ) (s s' : σ) : Prop := view s' = view s

instance {σ τ : Type} (view : σ → τ) : IsPreorder σ (SameIn view) where
  refl _ := rfl
  trans _ _ _ h h' := Eq.trans h' h

namespace Attempt

variable {ε δ σ τ υ α β : Type}

/-- An attempt that leaves a state related to the one it starts from, whatever it answers. -/
def Respects (r : σ → σ → Prop) (attempt : Attempt ε σ α) : Prop :=
  ∀ s, r s (attempt.outcome s).2

section

variable {r : σ → σ → Prop}

theorem Respects.of_outcome {attempt : Attempt ε σ α} (h : Respects r attempt) {s s' : σ}
    {answer : Except ε α} (hrun : attempt.outcome s = (answer, s')) : r s s' := by
  have := h s
  rwa [hrun] at this

theorem respects_onSecond {q : τ → τ → Prop} {r : σ × τ → σ × τ → Prop} {attempt : Attempt ε τ α}
    (h : Respects q attempt) (hr : ∀ s t t', q t t' → r (s, t) (s, t')) :
    Respects r (attempt.onSecond : Attempt ε (σ × τ) α) :=
  fun (s, t) => hr s t _ (h t)

theorem respects_onFirst {view : σ → υ} {put : υ → σ → σ} {q : υ × τ → υ × τ → Prop}
    {r : σ × τ → σ × τ → Prop} {attempt : Attempt ε (υ × τ) α} (h : Respects q attempt)
    (hr : ∀ s t u' t', q (view s, t) (u', t') → r (s, t) (put u' s, t')) :
    Respects r (onFirst view put attempt) :=
  fun (s, t) => hr s t _ _ (h (view s, t))

theorem respects_update {r : σ × τ → σ × τ → Prop} {f : σ → σ} (h : ∀ s t, r (s, t) (f s, t)) :
    Respects r (update f : Attempt ε (σ × τ) Unit) :=
  fun (s, t) => h s t

theorem respects_ite {c : Prop} [Decidable c] {first second : Attempt ε σ α}
    (hfirst : Respects r first) (hsecond : Respects r second) :
    Respects r (if c then first else second) := by
  split <;> assumption

variable [IsPreorder σ r]

theorem respects_pure (a : α) : Respects r (pure a : Attempt ε σ α) := fun s => refl s

theorem respects_throw (e : ε) : Respects r (throw e : Attempt ε σ α) := fun s => refl s

theorem respects_get : Respects r (get : Attempt ε σ σ) := fun s => refl s

theorem respects_current {r : σ × τ → σ × τ → Prop} [IsPreorder (σ × τ) r] :
    Respects r (current : Attempt ε (σ × τ) σ) := fun s => refl s

theorem respects_bind {first : Attempt ε σ α} {next : α → Attempt ε σ β}
    (hfirst : Respects r first) (hnext : ∀ a, Respects r (next a)) :
    Respects r (first >>= next) := by
  intro s
  have h := hfirst s
  rw [outcome_bind]
  cases hrun : first.outcome s with
  | mk answer s₁ =>
      rw [hrun] at h
      cases answer with
      | ok a => exact IsTrans.trans _ _ _ h (hnext a s₁)
      | error e => exact h

theorem respects_tryCatch {attempt : Attempt ε σ α} {handler : ε → Attempt ε σ α}
    (hattempt : Respects r attempt) (hhandler : ∀ e, Respects r (handler e)) :
    Respects r (tryCatch attempt handler) := by
  intro s
  have h := hattempt s
  rw [outcome_tryCatch]
  cases hrun : attempt.outcome s with
  | mk answer s₁ =>
      rw [hrun] at h
      cases answer with
      | ok a => exact h
      | error e => exact IsTrans.trans _ _ _ h (hhandler e s₁)

/-- Steps that are taken only under a condition, before what comes next in any case. -/
theorem respects_when {c : Prop} [Decidable c] {first : Attempt ε σ PUnit}
    {next : PUnit → Attempt ε σ α} (hfirst : Respects r first) (hnext : ∀ u, Respects r (next u)) :
    Respects r (if c then first >>= next else next ⟨⟩) :=
  respects_ite (respects_bind hfirst hnext) (hnext ⟨⟩)

theorem respects_ofExcept (answer : Except ε α) :
    Respects r (ofExcept answer : Attempt ε σ α) := by
  intro s
  rw [outcome_ofExcept]
  exact refl s

theorem respects_ofIo {r : σ → σ → Prop} [IsPreorder σ r] (answer : Except IoError α) :
    Respects r (Action.ofIo answer : Action σ α) := by
  intro s
  rw [Action.outcome_ofIo]
  exact refl s

theorem respects_forM {items : List α} {f : α → Attempt ε σ Unit} (h : ∀ a, Respects r (f a)) :
    Respects r (items.forM f) := by
  induction items with
  | nil => exact respects_pure ()
  | cons a items ih => exact respects_bind (h a) fun _ => ih

theorem respects_mapM {items : List α} {f : α → Attempt ε σ β} (h : ∀ a, Respects r (f a)) :
    Respects r (items.mapM f) := by
  induction items with
  | nil =>
      rw [List.mapM_nil]
      exact respects_pure []
  | cons a items ih =>
      rw [List.mapM_cons]
      exact respects_bind (h a) fun _ => respects_bind ih fun _ => respects_pure _

theorem respects_filterMapM {items : List α} {f : α → Attempt ε σ (Option β)}
    (h : ∀ a, Respects r (f a)) : Respects r (items.filterMapM f) := by
  induction items with
  | nil =>
      rw [List.filterMapM_nil]
      exact respects_pure []
  | cons a items ih =>
      rw [List.filterMapM_cons]
      refine respects_bind (h a) fun found => ?_
      cases found with
      | none => exact ih
      | some b => exact respects_bind ih fun _ => respects_pure _

theorem respects_ofFnM {f : Column → Attempt ε σ α} (h : ∀ c, Respects r (f c)) :
    Respects r (ByColumn.ofFnM f) :=
  respects_bind (h _) fun _ => respects_bind (h _) fun _ => respects_bind (h _) fun _ =>
    respects_bind (h _) fun _ => respects_bind (h _) fun _ => respects_pure _

end

end Attempt

open Attempt

/-! ### What only reads -/

/-- An attempt that leaves all as it is, whatever it answers. -/
abbrev OnlyReads {ε σ α : Type} (attempt : Attempt ε σ α) : Prop := Respects (SameIn id) attempt

theorem OnlyReads.outcome_eq {ε σ α : Type} {attempt : Attempt ε σ α} (h : OnlyReads attempt)
    (s : σ) : attempt.outcome s = ((attempt.outcome s).1, s) :=
  Prod.ext rfl (h s)

/-- To read is to respect any relation of a state to itself. -/
theorem OnlyReads.respects {ε σ α : Type} {attempt : Attempt ε σ α} (h : OnlyReads attempt)
    {r : σ → σ → Prop} [IsPreorder σ r] : Respects r attempt := by
  intro s
  rw [h.outcome_eq]
  exact refl s

/-- On two states the answer is the same if that to the first step is, and if then that to the rest
is. -/
theorem OnlyReads.answer_bind_congr {ε σ α β : Type} {first : Attempt ε σ α}
    {next : α → Attempt ε σ β} (h : OnlyReads first) {s s' : σ}
    (hfirst : (first.outcome s').1 = (first.outcome s).1)
    (hnext : ∀ a, first.outcome s = (.ok a, s) →
      ((next a).outcome s').1 = ((next a).outcome s).1) :
    ((first >>= next).outcome s').1 = ((first >>= next).outcome s).1 := by
  have hs := h.outcome_eq s
  have hs' := h.outcome_eq s'
  rw [hfirst] at hs'
  cases hanswer : (first.outcome s).1 with
  | ok a =>
      rw [hanswer] at hs hs'
      rw [outcome_bind_ok hs, outcome_bind_ok hs']
      exact hnext a hs
  | error e =>
      rw [hanswer] at hs hs'
      rw [outcome_bind_error hs, outcome_bind_error hs']

/-- A run succeeds if its first step does, and then the rest. -/
theorem OnlyReads.answer_bind_eq_ok {ε σ α β : Type} {first : Attempt ε σ α}
    {next : α → Attempt ε σ β} (h : OnlyReads first) {s : σ} {b : β} :
    ((first >>= next).outcome s).1 = .ok b ↔
      ∃ a, (first.outcome s).1 = .ok a ∧ ((next a).outcome s).1 = .ok b := by
  have hs := h.outcome_eq s
  cases hanswer : (first.outcome s).1 with
  | ok a =>
      rw [hanswer] at hs
      rw [outcome_bind_ok hs]
      simp
  | error e =>
      rw [hanswer] at hs
      rw [outcome_bind_error hs]
      simp

theorem onlyReads_onSecond {ε σ τ α : Type} {attempt : Attempt ε τ α} (h : OnlyReads attempt) :
    OnlyReads (attempt.onSecond : Attempt ε (σ × τ) α) :=
  respects_onSecond h fun s _ _ heq => congrArg (Prod.mk s) heq

namespace Handle

variable (handle : Handle)

theorem onlyReads_length : OnlyReads handle.length := by
  cases handle with
  | file id writable => exact respects_bind respects_get fun _ => respects_pure _
  | directory => exact respects_pure _

theorem onlyReads_read (start len : Nat) : OnlyReads (handle.read start len) := by
  unfold read
  cases handle with
  | file id writable =>
      refine respects_bind respects_get fun disk => ?_
      split
      · exact respects_pure _
      · exact respects_throw _
  | directory => exact respects_ite (respects_pure _) (respects_throw _)

end Handle

/-- A file that is opened to be read is left alone. -/
theorem Disk.onlyReads_openFile_readOnly (path : Path) : OnlyReads (openFile path .readOnly) := by
  refine respects_bind respects_get fun disk => respects_bind (respects_ofIo _) fun place => ?_
  split
  · exact respects_pure _
  · exact respects_ite (respects_pure _) (respects_throw _)
  · exact respects_throw _

namespace Table

theorem onlyReads_readEntry (index : Handle) (n : Nat) : OnlyReads (readEntry index n) :=
  respects_bind (index.onlyReads_read _ _) fun _ => respects_pure _

theorem onlyReads_extent (index : Handle) (before : Nat) : OnlyReads (extent index before) := by
  refine respects_bind (onlyReads_readEntry _ _) fun stop => respects_ite (respects_pure _) ?_
  exact respects_bind (onlyReads_readEntry _ _) fun _ => respects_pure _

theorem onlyReads_openHistory (dir : Path) (name : String) (ids : List Nat) :
    OnlyReads (openHistory dir name ids) := by
  induction ids with
  | nil => exact respects_pure _
  | cons id ids ih =>
      exact respects_bind (Disk.onlyReads_openFile_readOnly _) fun _ =>
        respects_bind ih fun _ => respects_pure _

theorem onlyReads_openIndex : OnlyReads openIndex := by
  refine respects_bind respects_current fun table => ?_
  split
  · exact respects_pure _
  · exact respects_throw _

theorem onlyReads_openSegment (id : Nat) : OnlyReads (openSegment id) := by
  refine respects_bind respects_current fun table => ?_
  split
  · exact respects_pure _
  · exact respects_throw _

theorem onlyReads_retrieve (item : Nat) : OnlyReads (retrieve item) := by
  refine respects_bind onlyReads_openIndex fun index => respects_bind respects_current
    fun table => respects_when (respects_throw _) fun _ => ?_
  refine respects_bind (onlyReads_onSecond (onlyReads_extent _ _)) fun place =>
    respects_bind (onlyReads_openSegment _) fun segment =>
      respects_when (respects_throw _) fun _ => ?_
  exact onlyReads_onSecond (segment.onlyReads_read _ _)

theorem onlyReads_size : OnlyReads size := by
  refine respects_bind onlyReads_openIndex fun index => respects_bind respects_current
    fun table => ?_
  refine respects_bind (respects_mapM fun segment =>
    onlyReads_onSecond segment.2.onlyReads_length) fun lengths => ?_
  exact respects_bind (onlyReads_onSecond index.onlyReads_length) fun _ => respects_pure _

theorem onlyReads_sync : OnlyReads sync :=
  respects_bind onlyReads_openIndex fun _ => respects_pure _

end Table

/-! ### Effects on a disk -/

/-- By some effects, and by nothing else, the one disk becomes the other. -/
def Disk.LeadsTo (disk disk' : Disk) : Prop :=
  ∃ effects, disk' = { disk with
    files := Effect.applyAll disk.files effects
    journal := effects.reverse ++ disk.journal }

instance : IsPreorder Disk Disk.LeadsTo where
  refl _ := ⟨[], rfl⟩
  trans := by
    rintro disk _ _ ⟨effects, rfl⟩ ⟨effects', rfl⟩
    exact ⟨effects ++ effects', by simp [Effect.applyAll_append]⟩

theorem Disk.LeadsTo.locked_eq {disk disk' : Disk} (h : disk.LeadsTo disk') :
    disk'.locked = disk.locked := by
  obtain ⟨effects, rfl⟩ := h
  rfl

/-- The numbers of files are not given back. -/
theorem Disk.LeadsTo.size_le {disk disk' : Disk} (h : disk.LeadsTo disk') :
    disk.files.contents.size ≤ disk'.files.contents.size := by
  obtain ⟨effects, rfl⟩ := h
  generalize disk.files = files
  induction effects generalizing files with
  | nil => exact Nat.le_refl _
  | cons effect effects ih =>
      refine Nat.le_trans ?_ (ih (effect.apply files))
      rw [Effect.size_contents_apply]
      split <;> simp

/-- What is beside a disk may change as it likes. -/
def LeadsToBeside {σ : Type} (state state' : σ × Disk) : Prop := state.2.LeadsTo state'.2

instance {σ : Type} : IsPreorder (σ × Disk) LeadsToBeside where
  refl state := refl_of Disk.LeadsTo state.2
  trans _ _ _ h h' := IsTrans.trans (r := Disk.LeadsTo) _ _ _ h h'

/-- An action on a disk that consists of effects. -/
abbrev Action.OnlyPerforms {α : Type} (action : Action Disk α) : Prop :=
  Respects Disk.LeadsTo action

/-- An action on a disk and something beside it that does to the disk nothing but effects. -/
abbrev Action.OnlyPerformsBeside {σ α : Type} (action : Action (σ × Disk) α) : Prop :=
  Respects LeadsToBeside action

open BlockArchive.Action

variable {σ α : Type}

theorem onlyPerformsBeside_onSecond {action : Action Disk α} (h : OnlyPerforms action) :
    OnlyPerformsBeside (onSecond action : Action (σ × Disk) α) :=
  respects_onSecond h fun _ _ _ h => h

theorem onlyPerformsBeside_update (f : σ → σ) :
    OnlyPerformsBeside (update f : Action (σ × Disk) Unit) :=
  respects_update fun _ t => refl_of Disk.LeadsTo t

namespace Disk

theorem onlyPerforms_perform (effect : Effect) : OnlyPerforms (perform effect) :=
  fun _ => ⟨[effect], rfl⟩

theorem onlyPerforms_openFile (path : Path) (mode : OpenMode) : OnlyPerforms (openFile path mode) := by
  unfold openFile
  refine respects_bind respects_get fun disk => respects_bind (respects_ofIo _) fun place => ?_
  split
  · exact respects_when (onlyPerforms_perform _) fun _ => respects_pure _
  · exact respects_ite (respects_pure _) (respects_throw _)
  · exact respects_when (respects_throw _) fun _ =>
      respects_bind (onlyPerforms_perform _) fun _ => respects_pure _

theorem onlyPerforms_makeDirectory (path : Path) : OnlyPerforms (makeDirectory path) := by
  refine respects_bind respects_get fun disk => respects_bind (respects_ofIo _) fun place => ?_
  split
  · exact respects_throw _
  · exact onlyPerforms_perform _

section

variable {r : Disk → Disk → Prop} [IsPreorder Disk r]

theorem respects_makeDirectoryAfter (hmake : ∀ path, Respects r (makeDirectory path))
    {above : Action Disk Unit} (habove : Respects r above) (path : Path) :
    Respects r (makeDirectoryAfter above path) := by
  have hunless : ∀ e : Error, Respects r (do
      if (← get).files.isDirectory path then return () else throw e : Action Disk Unit) :=
    fun e => respects_bind respects_get fun _ => respects_ite (respects_pure _) (respects_throw _)
  refine respects_tryCatch (hmake _) fun e => respects_ite ?_ (hunless e)
  exact respects_bind habove fun _ => respects_tryCatch (hmake _) hunless

/-- Making directories respects what making a single one does. -/
theorem respects_makeDirectories (hmake : ∀ path, Respects r (makeDirectory path)) (path : Path) :
    Respects r (makeDirectories path) := by
  have hup : ∀ up : List String, Respects r (makeDirectoriesUp up) := by
    intro up
    induction up with
    | nil => exact respects_pure _
    | cons word up ih => exact respects_ite ih (respects_makeDirectoryAfter hmake ih _)
  exact respects_makeDirectoryAfter hmake (hup _) path

end

theorem onlyPerforms_makeDirectories (path : Path) : OnlyPerforms (makeDirectories path) :=
  respects_makeDirectories onlyPerforms_makeDirectory path

theorem onlyPerforms_removeFile (path : Path) : OnlyPerforms (removeFile path) := by
  unfold removeFile
  refine respects_bind respects_get fun disk => respects_bind (respects_ofIo _) fun place => ?_
  split
  · exact respects_throw _
  · exact onlyPerforms_perform _
  · exact respects_throw _

end Disk

namespace Handle

variable (handle : Handle)

theorem onlyPerforms_write (start : Nat) (data : Bytes) : OnlyPerforms (handle.write start data) := by
  unfold write
  split
  · exact respects_pure _
  · split
    · exact Disk.onlyPerforms_perform _
    · exact respects_throw _

theorem onlyPerforms_setLength (length : Nat) : OnlyPerforms (handle.setLength length) := by
  unfold setLength
  split
  · exact Disk.onlyPerforms_perform _
  · exact respects_throw _

end Handle

/-! ### Opening a file, wherever its name leads -/

namespace Disk

variable {path : Path} {disk disk' : Disk} {handle : Handle}

/-- The ways in which opening a file can go. -/
theorem outcome_openFile (path : Path) (mode : OpenMode) (disk : Disk) :
    (openFile path mode).outcome disk =
      match disk.files.resolve mode.wanted path with
      | .error e => (.error (.io e), disk)
      | .ok place =>
        match disk.files.node? place with
        | some (.file id) =>
            (.ok (.file id mode.isWritable),
              if mode = .fresh then ((perform (.setLength id 0)).outcome disk).2 else disk)
        | some _ =>
            if mode = .readOnly then (.ok .directory, disk) else (.error (.io .isADirectory), disk)
        | none =>
            if mode.creates then
              (.ok (.file disk.files.contents.size true),
                ((perform (.makeFile place)).outcome disk).2)
            else (.error (.io .notFound), disk) := by
  unfold openFile
  rw [outcome_bind_ok (outcome_get disk)]
  simp only
  cases disk.files.resolve mode.wanted path with
  | error e => rfl
  | ok place =>
      rw [outcome_bind_ok (Action.outcome_ofIo _ _)]
      simp only
      cases disk.files.node? place with
      | none => cases mode <;> rfl
      | some node => cases node <;> cases mode <;> rfl

/-- The ways in which removing a name can go. -/
theorem outcome_removeFile (path : Path) (disk : Disk) :
    (removeFile path).outcome disk =
      match disk.files.resolve .name path with
      | .error e => (.error (.io e), disk)
      | .ok place =>
        match disk.files.node? place with
        | some .directory => (.error (.io .isADirectory), disk)
        | some _ => (.ok (), ((perform (.removeName place)).outcome disk).2)
        | none => (.error (.io .notFound), disk) := by
  unfold removeFile
  rw [outcome_bind_ok (outcome_get disk)]
  simp only
  cases disk.files.resolve .name path with
  | error e => rfl
  | ok place =>
      rw [outcome_bind_ok (Action.outcome_ofIo _ _)]
      simp only
      cases disk.files.node? place with
      | none => rfl
      | some node => cases node <;> rfl

/-- A name that cannot be removed is left alone, and it is the file system that refuses. -/
theorem eq_of_removeFile_error {e : Error}
    (h : (removeFile path).outcome disk = (.error e, disk')) :
    disk' = disk ∧ ∃ cause, e = .io cause := by
  rw [outcome_removeFile] at h
  grind

/-- A file that cannot be opened is left alone. -/
theorem eq_of_openFile_error {mode : OpenMode} {e : Error}
    (h : (openFile path mode).outcome disk = (.error e, disk')) : disk' = disk := by
  rw [outcome_openFile] at h
  grind

theorem exists_of_openFile_error {mode : OpenMode} {e : Error}
    (h : (openFile path mode).outcome disk = (.error e, disk')) : ∃ cause, e = .io cause := by
  rw [outcome_openFile] at h
  grind

/-- What is opened to be changed can be written to. -/
theorem exists_of_openFile_update (h : (openFile path .update).outcome disk = (.ok handle, disk')) :
    ∃ id, handle = .file id true := by
  rw [outcome_openFile] at h
  grind [OpenMode.creates, OpenMode.isWritable]

/-- A file that is opened afresh is empty then, and no other has changed. -/
theorem exists_of_openFile_fresh (h : (openFile path .fresh).outcome disk = (.ok handle, disk')) :
    ∃ id, handle = .file id true ∧ disk'.files.content id = [] ∧
      ∀ other ≠ id, disk'.files.content other = disk.files.content other := by
  rw [outcome_openFile] at h
  split at h
  · simp at h
  · next place _ =>
    split at h
    · next id _ =>
      obtain ⟨rfl, rfl⟩ := by simpa using h
      refine ⟨id, rfl, ?_, fun other hother => Effect.content_setLength_ne _ _ hother⟩
      by_cases hid : id < disk.files.contents.size
      · exact (Effect.content_setLength_same 0 hid).trans (by simp [Bytes.resize])
      · simp [outcome_perform, Effect.apply, FileSystem.content, Nat.not_lt.1 hid]
    · simp at h
    · obtain ⟨rfl, rfl⟩ := by simpa [OpenMode.creates] using h
      refine ⟨disk.files.contents.size, rfl, ?_, fun other _ => Effect.content_makeFile _ _ _⟩
      exact (Effect.content_makeFile _ _ _).trans (by simp [FileSystem.content])

end Disk

/-! ### Tables keep their locks -/

namespace Table

variable (dir : Path) (name : String)

theorem onlyPerforms_trimIndex (index : Handle) : OnlyPerforms (trimIndex index) := by
  refine respects_bind index.onlyReads_length.respects fun length => ?_
  refine respects_when (index.onlyPerforms_setLength _) fun _ => ?_
  exact respects_when (index.onlyPerforms_write _ _) fun _ => respects_pure _

theorem onlyPerforms_openHead (id : Nat) : OnlyPerforms (openHead dir name id) :=
  respects_bind (Disk.onlyPerforms_openFile _ _) fun head =>
    respects_bind head.onlyReads_length.respects fun _ => respects_pure _

theorem onlyPerforms_settle (index : Handle) (before : Nat) (last : IndexEntry) (head : Handle)
    (length : Nat) : OnlyPerforms (settle dir name index before last head length) := by
  induction before generalizing last head length with
  | zero =>
      rw [settle.eq_def]
      simp only
      refine respects_ite (respects_pure _) (respects_ite ?_ ?_)
      · exact respects_bind (head.onlyPerforms_setLength _) fun _ => respects_pure _
      · exact respects_when (head.onlyPerforms_setLength _) fun _ => respects_pure _
  | succ before ih =>
      rw [settle.eq_def]
      simp only
      refine respects_ite (respects_pure _) (respects_ite ?_ ?_)
      · exact respects_bind (head.onlyPerforms_setLength _) fun _ => respects_pure _
      · refine respects_bind (index.onlyPerforms_setLength _) fun _ =>
          respects_bind (onlyReads_readEntry _ _).respects fun previous => respects_ite (ih _ _ _) ?_
        exact respects_bind (onlyPerforms_openHead _ _ _) fun _ => ih _ _ _

theorem onlyPerforms_deleteSegments (ids : List Nat) : OnlyPerforms (deleteSegments dir name ids) := by
  induction ids with
  | nil => exact respects_pure _
  | cons id ids ih =>
      exact respects_bind
        (respects_tryCatch (Disk.onlyPerforms_removeFile _) fun _ =>
          respects_ite (respects_pure _) (respects_throw _))
        fun _ => ih

theorem onlyPerforms_reopenSegment (id : Nat) (mode : OpenMode) :
    OnlyPerformsBeside (reopenSegment id mode) := by
  refine respects_bind (onlyPerformsBeside_update _) fun _ => respects_bind respects_current
    fun table => ?_
  exact respects_bind (onlyPerformsBeside_onSecond (Disk.onlyPerforms_openFile _ _)) fun _ =>
    onlyPerformsBeside_update _

theorem onlyPerforms_rotate : OnlyPerformsBeside rotate := by
  refine respects_bind respects_current fun table => ?_
  refine respects_when (respects_throw _) fun _ => ?_
  exact respects_bind (onlyPerforms_reopenSegment _ _) fun _ =>
    respects_bind (onlyPerforms_reopenSegment _ _) fun _ => onlyPerformsBeside_update _

theorem onlyPerforms_append (item : Nat) (blob : Bytes) :
    OnlyPerformsBeside (append item blob) := by
  refine respects_when (respects_throw _) fun _ => ?_
  refine respects_bind onlyReads_openIndex.respects fun index => respects_bind respects_current
    fun table => respects_when (respects_throw _) fun _ => ?_
  refine respects_when onlyPerforms_rotate fun _ => respects_bind respects_current fun table => ?_
  refine respects_bind (onlyReads_openSegment _).respects fun head =>
    respects_when (respects_throw _) fun _ => ?_
  refine respects_bind (onlyPerformsBeside_onSecond (head.onlyPerforms_write _ _)) fun _ => ?_
  exact respects_bind (onlyPerformsBeside_onSecond (index.onlyPerforms_write _ _)) fun _ =>
    onlyPerformsBeside_update _

theorem onlyPerforms_releaseAbove (id : Nat) : OnlyPerformsBeside (releaseAbove id) :=
  respects_bind respects_current fun _ => respects_bind (onlyPerformsBeside_update _) fun _ =>
    onlyPerformsBeside_onSecond (onlyPerforms_deleteSegments _ _ _)

theorem onlyPerforms_truncate (items : Nat) : OnlyPerformsBeside (truncate items) := by
  refine respects_bind onlyReads_openIndex.respects fun index => respects_bind respects_current
    fun table => respects_ite (respects_pure _) (respects_when (respects_throw _) fun _ => ?_)
  refine respects_bind (onlyPerformsBeside_onSecond (index.onlyPerforms_setLength _)) fun _ =>
    respects_bind (onlyReads_onSecond (onlyReads_readEntry _ _)).respects fun last => ?_
  refine respects_ite (respects_bind (onlyPerforms_reopenSegment _ _) fun _ =>
    respects_bind (onlyPerforms_releaseAbove _) fun _ =>
      respects_bind (onlyPerformsBeside_update _) fun _ => ?_) ?_
  -- the head is cut in the same way, whether it was opened anew or not
  all_goals exact respects_bind (onlyReads_openSegment _).respects fun head =>
    respects_bind (onlyPerformsBeside_onSecond (head.onlyPerforms_setLength _)) fun _ =>
      onlyPerformsBeside_update _

theorem onlyPerforms_close : OnlyPerformsBeside close :=
  respects_bind onlyReads_openIndex.respects fun _ => onlyPerformsBeside_update _

theorem onlyPerforms_openIn (cap : Nat) : OnlyPerforms (openIn dir name cap) := by
  refine respects_bind (Disk.onlyPerforms_makeDirectories _) fun _ =>
    respects_bind (Disk.onlyPerforms_openFile _ _) fun index =>
      respects_bind (onlyPerforms_trimIndex _) fun before => ?_
  refine respects_bind (onlyReads_readEntry _ _).respects fun first =>
    respects_bind (onlyReads_readEntry _ _).respects fun last =>
      respects_bind (onlyPerforms_openHead _ _ _) fun (head, length) => ?_
  refine respects_bind (onlyPerforms_settle _ _ _ _ _ _ _) fun settled =>
    respects_bind (onlyReads_openHistory _ _ _).respects fun history => ?_
  exact respects_bind (Disk.onlyPerforms_openFile _ _) fun head => respects_pure _

/-- How an opening that succeeds goes: the answers and the disks of its steps, and the table and the
disk that it leaves. -/
inductive OpenSteps (root : Path) (name : String) (cap : Nat) (disk : Disk) :
    Table → Disk → Prop where
  | steps {disk₀ disk₁ disk₂ disk₃ disk₄ disk₅ disk₆ disk₇ disk' : Disk} {index head : Handle}
      {before length : Nat} {first last : IndexEntry} {settled : Settled} {history : Segments}
      {reopened : Handle} :
      (Disk.makeDirectories root).outcome disk = (.ok (), disk₀) →
      (Disk.openFile (indexPath root name) .update).outcome disk₀ = (.ok index, disk₁) →
      (trimIndex index).outcome disk₁ = (.ok before, disk₂) →
      (readEntry index 0).outcome disk₂ = (.ok first, disk₃) →
      (readEntry index before).outcome disk₃ = (.ok last, disk₄) →
      (openHead root name last.segment.toNat).outcome disk₄ = (.ok (head, length), disk₅) →
      (settle root name index before last head length).outcome disk₅ = (.ok settled, disk₆) →
      (openHistory root name (List.range' first.segment.toNat
        (settled.last.segment.toNat - first.segment.toNat))).outcome disk₆ =
          (.ok history, disk₇) →
      (Disk.openFile (segmentPath root name settled.last.segment.toNat) .update).outcome disk₇ =
        (.ok reopened, disk') →
      OpenSteps root name cap disk {
        dir := root, name, cap
        tailId := first.segment.toNat
        headId := settled.last.segment.toNat
        items := first.offset.toNat + settled.before
        headBytes := settled.length
        itemOffset := first.offset.toNat
        index := some index
        segments := history ++ [(settled.last.segment.toNat, reopened)] } disk'

theorem openSteps_of_outcome {root : Path} {name : String} {cap : Nat} {disk disk' : Disk}
    {table : Table} (h : (openIn root name cap).outcome disk = (.ok table, disk')) :
    OpenSteps root name cap disk table disk' := by
  unfold openIn at h
  obtain ⟨_, _, hmake, h⟩ := exists_of_outcome_bind h
  obtain ⟨index, _, hindex, h⟩ := exists_of_outcome_bind h
  obtain ⟨before, _, htrim, h⟩ := exists_of_outcome_bind h
  obtain ⟨first, _, hfirst, h⟩ := exists_of_outcome_bind h
  obtain ⟨last, _, hlast, h⟩ := exists_of_outcome_bind h
  obtain ⟨⟨head, length⟩, _, hhead, h⟩ := exists_of_outcome_bind h
  obtain ⟨settled, _, hsettle, h⟩ := exists_of_outcome_bind h
  obtain ⟨history, _, hhistory, h⟩ := exists_of_outcome_bind h
  obtain ⟨reopened, _, hreopen, h⟩ := exists_of_outcome_bind h
  obtain ⟨rfl, rfl⟩ := by simpa [outcome_pure] using h
  exact .steps hmake hindex htrim hfirst hlast hhead hsettle hhistory hreopen

end Table

end BlockArchive
