import BlockArchive.Proofs.FileActions

/-! # Runs that were cut short

A crash leaves the beginning of a run: some of its effects, in their order, and of a write that was
under way any first part of the bytes.

* **`CutShort run cut`** says that of two lists of effects, and of two lists of changes.
* Whoever knows the changes of a run knows the disks that a crash leaves (`exists_changes`), and
  what holds for each step of the run holds for each step of what is left of it
  (`Each.cutShort`). -/

namespace BlockArchive

/-- `cut` is what a crash leaves of the effects `run`. -/
inductive Effect.CutShort : List Effect → List Effect → Prop where
  /-- Nothing more was done. -/
  | stop (run : List Effect) : CutShort run []
  /-- Of a write, only the first bytes were written. -/
  | partly (id : FileId) (start : Nat) (data : Bytes) (run : List Effect) (count : Nat) :
      CutShort (.write id start data :: run) [.write id start (data.take count)]
  /-- An effect was completed. -/
  | step (effect : Effect) {run cut : List Effect} :
      CutShort run cut → CutShort (effect :: run) (effect :: cut)

theorem Effect.cutShort_take : ∀ (run : List Effect) (count : Nat), CutShort run (run.take count)
  | run, 0 => .stop run
  | [], _ + 1 => .stop []
  | effect :: run, count + 1 => .step effect (cutShort_take run count)

/-- `cut` is what a crash leaves of the changes `run`. -/
inductive Change.CutShort : List Change → List Change → Prop where
  /-- Nothing more was done. -/
  | stop (run : List Change) : CutShort run []
  /-- Of a write, only the first bytes were written. -/
  | partly (name : String) (start : Nat) (data : Bytes) (run : List Change) (count : Nat) :
      CutShort (.write name start data :: run) [.write name start (data.take count)]
  /-- A change was completed. -/
  | step (change : Change) {run cut : List Change} :
      CutShort run cut → CutShort (change :: run) (change :: cut)

namespace Change

theorem CutShort.refl : ∀ run : List Change, CutShort run run
  | [] => .stop []
  | change :: run => .step change (refl run)

theorem cutShort_nil {cut : List Change} : CutShort [] cut ↔ cut = [] := by
  constructor
  · rintro ⟨⟩
    rfl
  · rintro rfl
    exact .stop []

/-- A run in two parts is cut in the first part or in the second. -/
theorem cutShort_append {first second cut : List Change} (h : CutShort (first ++ second) cut) :
    CutShort first cut ∨ ∃ more, CutShort second more ∧ cut = first ++ more := by
  induction first generalizing cut with
  | nil => exact .inr ⟨cut, h, rfl⟩
  | cons change first ih =>
      rw [List.cons_append] at h
      cases h with
      | stop => exact .inl (.stop _)
      | partly name start data _ count => exact .inl (.partly name start data first count)
      | step _ h =>
          rcases ih h with h | ⟨more, hmore, rfl⟩
          · exact .inl (.step change h)
          · exact .inr ⟨more, hmore, rfl⟩

/-- What is left of a run is about the files that the run is about. -/
theorem CutShort.name_mem {run cut : List Change} (h : CutShort run cut) {change : Change}
    (hmem : change ∈ cut) : ∃ original ∈ run, original.name = change.name := by
  induction h with
  | stop => simp at hmem
  | partly name start data run count =>
      rw [List.mem_singleton.1 hmem]
      exact ⟨_, List.mem_cons_self, rfl⟩
  | step first _ ih =>
      rcases List.mem_cons.1 hmem with rfl | hmem
      · exact ⟨change, List.mem_cons_self, rfl⟩
      · obtain ⟨original, horiginal, hname⟩ := ih hmem
        exact ⟨original, List.mem_cons_of_mem _ horiginal, hname⟩

end Change

/-- Steps that are allowed stay so when the run is cut short, if parts of writes are allowed where
the writes are. -/
theorem Folder.Each.cutShort {allowed : Folder → Change → Prop}
    (hpart : ∀ folder name start data count, allowed folder (.write name start data) →
      allowed folder (.write name start (data.take count)))
    {folder : Folder} {run cut : List Change} (h : Each allowed folder run)
    (hcut : Change.CutShort run cut) : Each allowed folder cut := by
  induction hcut generalizing folder with
  | stop => trivial
  | partly name start data run count => exact ⟨hpart _ _ _ _ _ h.1, trivial⟩
  | step change _ ih => exact ⟨h.1, ih h.2⟩

theorem Folder.exists_after_cutShort_writing {name : String} {start : Nat} {data : Bytes}
    {cut : List Change} (h : Change.CutShort (writing name start data) cut) (folder : Folder) :
    ∃ count, folder.after cut = folder.after (writing name start (data.take count)) := by
  unfold writing at h
  split at h
  · rw [Change.cutShort_nil.1 h]
    exact ⟨0, by simp [writing]⟩
  · cases h with
    | stop => exact ⟨0, by simp [writing]⟩
    | partly name start data run count =>
        refine ⟨count, ?_⟩
        rw [after_writing]
        rfl
    | step _ h =>
        refine ⟨data.length, ?_⟩
        rw [Change.cutShort_nil.1 h, after_writing, List.take_length]
        rfl

theorem Folder.eq_of_cutShort_renewing {folder : Folder} {name : String} {cut : List Change}
    (h : Change.CutShort (folder.renewing name) cut) : cut = [] ∨ cut = folder.renewing name := by
  unfold renewing at h ⊢
  split at h <;> cases h with
  | stop => exact .inl rfl
  | step _ h =>
      right
      simp_all [Change.cutShort_nil]

theorem Folder.fits_cutShort {folder : Folder} {run cut : List Change} (h : folder.Fits run)
    (hcut : Change.CutShort run cut) : folder.Fits cut :=
  Each.cutShort (fun _ _ _ _ _ h => h) h hcut

/-! ### The effects of changes -/

namespace Disk

variable {place : Location} {disk : Disk} {changes : List Change}

/-- The effects that changes are brought about by, the first one first. -/
def effectsOf (place : Location) (disk : Disk) : List Change → List Effect
  | [] => []
  | change :: changes =>
      change.effect disk.files place :: effectsOf place (disk.change place change) changes

theorem effects_after : (disk.after place changes).effects =
    disk.effects ++ disk.effectsOf place changes := by
  induction changes generalizing disk with
  | nil => simp [effectsOf]
  | cons change changes ih =>
      rw [after_cons, ih, effectsOf]
      simp [effects, Disk.change]

theorem files_after : (disk.after place changes).files =
    Effect.applyAll disk.files (disk.effectsOf place changes) := by
  induction changes generalizing disk with
  | nil => rfl
  | cons change changes ih =>
      rw [after_cons, ih, effectsOf]
      rfl

/-- What a crash leaves of the effects of changes are the effects of what it leaves of the
changes. -/
theorem exists_changes {cut : List Effect}
    (h : Effect.CutShort (disk.effectsOf place changes) cut) :
    ∃ left, Change.CutShort changes left ∧ cut = disk.effectsOf place left := by
  induction changes generalizing disk cut with
  | nil =>
      cases h
      exact ⟨[], .stop _, rfl⟩
  | cons change changes ih =>
      rw [effectsOf] at h
      generalize heffect : change.effect disk.files place = effect at h
      cases h with
      | stop => exact ⟨[], .stop _, rfl⟩
      | partly id start data run count =>
          cases change with
          | write name start' data' =>
              simp only [Change.effect, Effect.write.injEq] at heffect
              obtain ⟨rfl, rfl, rfl⟩ := heffect
              exact ⟨[.write name start' (data'.take count)],
                .partly name start' data' _ count, rfl⟩
          | make name => simp [Change.effect] at heffect
          | setLength name length => simp [Change.effect] at heffect
          | remove name => simp [Change.effect] at heffect
      | step _ hrest =>
          obtain ⟨left, hleft, rfl⟩ := ih hrest
          exact ⟨change :: left, .step change hleft, by rw [effectsOf, heffect]⟩

end Disk

end BlockArchive
