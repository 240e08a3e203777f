import BlockArchive.Proofs.Performing
import BlockArchive.Proofs.Shown

/-! # Runs that change nothing

The journal of a disk only grows, so a run that leaves the disk as it was did nothing on the way.

* **No way back.** What effects lead away from, they do not lead back to
  (`Disk.LeadsTo.eq_of_back`).
* **Taking a run apart.** When two actions that consist of effects, one after the other, leave the
  disk as it was, so does each of them (`Action.exists_of_outcome_bind_same`).
* **What was found.** The last section says what must be stored for each step of an opening to
  answer and to change nothing. -/

namespace BlockArchive

open Attempt

namespace Disk.LeadsTo

variable {disk disk' disk'' : Disk}

theorem trans (h : disk.LeadsTo disk') (h' : disk'.LeadsTo disk'') : disk.LeadsTo disk'' :=
  IsTrans.trans _ _ _ h h'

theorem length_le (h : disk.LeadsTo disk') : disk.journal.length ≤ disk'.journal.length := by
  obtain ⟨effects, rfl⟩ := h
  rw [List.length_append]
  exact Nat.le_add_left _ _

theorem eq_of_length_le (h : disk.LeadsTo disk')
    (hle : disk'.journal.length ≤ disk.journal.length) : disk' = disk := by
  obtain ⟨effects, rfl⟩ := h
  rw [List.length_append] at hle
  obtain rfl : effects = [] := by
    rw [← List.length_eq_zero_iff, ← List.length_reverse]
    omega
  rfl

/-- Who comes back to the start has never left it. -/
theorem eq_of_back (h : disk.LeadsTo disk') (h' : disk'.LeadsTo disk) : disk' = disk :=
  h.eq_of_length_le h'.length_le

end Disk.LeadsTo

namespace Action

variable {α β : Type} {disk : Disk}

/-- Two actions that leave the disk as it was, one after the other, each do. -/
theorem exists_of_outcome_bind_same {first : Action Disk α} {next : α → Action Disk β} {b : β}
    (hfirst : OnlyPerforms first) (hnext : ∀ a, OnlyPerforms (next a))
    (h : (first >>= next).outcome disk = (.ok b, disk)) :
    ∃ a, first.outcome disk = (.ok a, disk) ∧ (next a).outcome disk = (.ok b, disk) := by
  obtain ⟨a, disk₁, hrun, hrest⟩ := Attempt.exists_of_outcome_bind h
  obtain rfl := (hfirst.of_outcome hrun).eq_of_back ((hnext a).of_outcome hrest)
  exact ⟨a, hrun, hrest⟩

theorem outcome_perform_ne (effect : Effect) (disk : Disk) (answer : Except Error Unit) :
    (Disk.perform effect).outcome disk ≠ (answer, disk) := by
  intro h
  have hlength := congrArg (fun result => result.2.journal.length) h
  simp [Disk.outcome_perform] at hlength

end Action

open BlockArchive.Action

/-! ### What was found -/

namespace Disk

open FileSystem

variable {disk : Disk} {root : Path} {name : String} {handle : Handle} {mode : OpenMode}

theorem seen_of_outcome_openFile {words : List String} {last : String}
    (hwords : (root.join name).words = words ++ [last]) (hlast : last ≠ "")
    (hplain : disk.files.IsPlain (root.join name)) (hmode : mode ≠ .fresh)
    (h : (openFile (root.join name) mode).outcome disk = (.ok handle, disk)) :
    disk.files.seen root name ≠ none ∧
      handle = .file (disk.files.numberAt root name) mode.isWritable := by
  unfold openFile at h
  rw [Attempt.outcome_bind_ok (Attempt.outcome_get disk)] at h
  simp only at h
  rw [resolve_of_isPlain hwords hlast hplain] at h
  cases hresolve : disk.files.resolve .name (root.join name) with
  | error e =>
      rw [hresolve, Attempt.outcome_bind_error (Action.outcome_ofIo _ _)] at h
      simp at h
  | ok place =>
      rw [hresolve, Attempt.outcome_bind_ok (Action.outcome_ofIo _ _)] at h
      cases hnode : disk.files.node? place with
      | none =>
          simp only [hnode] at h
          split at h
          · simp [Attempt.outcome_throw] at h
          · obtain ⟨_, hmake, -⟩ :=
              exists_of_outcome_bind_same (onlyPerforms_perform _) (fun _ => respects_pure _) h
            exact absurd hmake (outcome_perform_ne _ _ _)
      | some node =>
          obtain ⟨id, rfl⟩ := hplain node (by simp only [linkStatus, hresolve, hnode])
          simp only [hnode] at h
          rw [if_neg hmode] at h
          have hfile : disk.files.fileAt? (root.join name) = some id :=
            fileAt?_eq_some.2 ⟨place, hresolve, hnode⟩
          have hhandle : Handle.file id mode.isWritable = handle :=
            Except.ok.inj (Prod.mk.inj h).1
          rw [← hhandle]
          simp [seen, numberAt, hfile]

end Disk

namespace Table

open IndexEntry

variable {disk : Disk} {root : Path} {name : String} {id : FileId}

/-- A path to a file of a table does not end in a slash. -/
theorem exists_words_join (root : Path) {file : String}
    (h : file = indexFileName name ∨ ∃ id, file = segmentFileName name id) :
    ∃ words last, (root.join file).words = words ++ [last] ∧ last ≠ "" := by
  rcases h with rfl | ⟨id, rfl⟩
  · exact root.exists_words_join_append name (by decide) (by decide)
  · exact root.exists_words_join_append _ (by decide) (by decide)

theorem whole_of_outcome_trimIndex {data : Bytes} (hdata : disk.files.content id = data)
    {before : Nat} (h : (trimIndex (.file id true)).outcome disk = (.ok before, disk)) :
    data.length % width = 0 ∧ before + 1 = data.length / width := by
  unfold trimIndex at h
  rw [Attempt.outcome_bind_ok (Handle.outcome_length_of_content hdata true)] at h
  simp only at h
  split at h
  · obtain ⟨_, hcut, -⟩ := exists_of_outcome_bind_same (Handle.onlyPerforms_setLength _ _)
      (fun _ => respects_when (Handle.onlyPerforms_write _ _ _) fun _ => respects_pure _) h
    exact absurd hcut (outcome_perform_ne _ _ _)
  · next hwhole =>
      refine ⟨not_not.1 hwhole, ?_⟩
      split at h
      · obtain ⟨_, hwrite, -⟩ := exists_of_outcome_bind_same (Handle.onlyPerforms_write _ _ _)
          (fun _ => respects_pure _) h
        exact absurd hwrite (outcome_perform_ne _ _ _)
      · next hcount =>
          have hbefore : data.length / width - 1 = before := Except.ok.inj (Prod.mk.inj h).1
          have hpos : 0 < data.length / width := Nat.pos_of_ne_zero hcount
          omega

/-- Where settling changed nothing, the last entry ends with its segment, unless it is entry zero
and the segment is empty. -/
theorem eq_of_outcome_settle {head : FileId} {before length : Nat} {last : IndexEntry}
    {settled : Settled}
    (h : (settle root name (.file id true) before last (.file head true) length).outcome disk =
      (.ok settled, disk)) :
    settled = ⟨before, last, length⟩ ∧
      (last.offset.toNat = length ∨ before = 0 ∧ length = 0) := by
  by_cases hle : last.offset.toNat ≤ length
  · rw [settle_of_le _ _ _ _ hle] at h
    split at h
    · obtain ⟨_, hcut, -⟩ := exists_of_outcome_bind_same (Handle.onlyPerforms_setLength _ _)
        (fun _ => respects_pure _) h
      exact absurd hcut (outcome_perform_ne _ _ _)
    · next hge =>
        have heq : last.offset.toNat = length := Nat.le_antisymm hle (Nat.not_lt.1 hge)
        rw [heq] at h
        exact ⟨(Except.ok.inj (Prod.mk.inj h).1).symm, .inl heq⟩
  have hlt := Nat.lt_of_not_le hle
  cases before with
  | zero =>
      rw [settle_zero_of_lt _ _ _ _ hlt] at h
      split at h
      · obtain ⟨_, hcut, -⟩ := exists_of_outcome_bind_same (Handle.onlyPerforms_setLength _ _)
          (fun _ => respects_pure _) h
        exact absurd hcut (outcome_perform_ne _ _ _)
      · next hlength =>
          rw [not_not.1 hlength]
          exact ⟨(Except.ok.inj (Prod.mk.inj h).1).symm, .inr ⟨rfl, rfl⟩⟩
  | succ before =>
      rw [settle_succ_of_lt _ _ _ _ hlt] at h
      obtain ⟨_, hcut, -⟩ := exists_of_outcome_bind_same (Handle.onlyPerforms_setLength _ _)
        (fun _ => respects_bind (onlyReads_readEntry _ _).respects fun _ =>
          respects_ite (onlyPerforms_settle _ _ _ _ _ _ _)
            (respects_bind (onlyPerforms_openHead _ _ _) fun _ =>
              onlyPerforms_settle _ _ _ _ _ _ _)) h
      exact absurd hcut (outcome_perform_ne _ _ _)

theorem seen_of_outcome_openHead {segment : Nat} {head : Handle} {length : Nat}
    (hplain : disk.files.IsPlain (root.join (segmentFileName name segment)))
    (h : (openHead root name segment).outcome disk = (.ok (head, length), disk)) :
    ∃ content, disk.files.seen root (segmentFileName name segment) = some content ∧
      head = .file (disk.files.numberAt root (segmentFileName name segment)) true ∧
      length = content.length := by
  obtain ⟨words, last, hwords, hlast⟩ := exists_words_join root (.inr ⟨segment, rfl⟩)
  obtain ⟨handle, hopen, hrest⟩ := exists_of_outcome_bind_same (Disk.onlyPerforms_openFile _ _)
    (fun head => respects_bind head.onlyReads_length.respects fun _ => respects_pure _) h
  obtain ⟨hseen, rfl⟩ := Disk.seen_of_outcome_openFile hwords hlast hplain (by decide) hopen
  obtain ⟨content, hcontent⟩ := Option.ne_none_iff_exists'.1 hseen
  rw [Attempt.outcome_bind_ok
    (Handle.outcome_length_of_content (FileSystem.seen_eq_some.1 hcontent).2 _)] at hrest
  obtain ⟨hhead, hlength⟩ := Prod.mk.inj (Except.ok.inj (Prod.mk.inj hrest).1)
  exact ⟨content, hcontent, hhead.symm, hlength.symm⟩

theorem seen_of_outcome_openHistory {ids : List Nat} {history : Segments}
    (hplain : ∀ id ∈ ids, disk.files.IsPlain (root.join (segmentFileName name id)))
    (h : (openHistory root name ids).outcome disk = (.ok history, disk)) :
    (∀ id ∈ ids, disk.files.seen root (segmentFileName name id) ≠ none) ∧
      history = ids.map fun id =>
        (id, .file (disk.files.numberAt root (segmentFileName name id)) false) := by
  induction ids generalizing history with
  | nil => exact ⟨by simp, (Except.ok.inj (Prod.mk.inj h).1).symm⟩
  | cons id ids ih =>
      obtain ⟨words, last, hwords, hlast⟩ := exists_words_join root (.inr ⟨id, rfl⟩)
      obtain ⟨handle, hopen, hrest⟩ := exists_of_outcome_bind_same (Disk.onlyPerforms_openFile _ _)
        (fun _ => respects_bind (onlyReads_openHistory _ _ _).respects fun _ => respects_pure _) h
      obtain ⟨hseen, rfl⟩ := Disk.seen_of_outcome_openFile hwords hlast
        (hplain id List.mem_cons_self) (by decide) hopen
      obtain ⟨more, hmore, hall⟩ := exists_of_outcome_bind_same
        (onlyReads_openHistory _ _ _).respects (fun _ => respects_pure _) hrest
      obtain ⟨hseenMore, rfl⟩ := ih (fun other hmem => hplain other (List.mem_cons_of_mem _ hmem))
        hmore
      refine ⟨fun other hmem => ?_, (Except.ok.inj (Prod.mk.inj hall).1).symm⟩
      rcases List.mem_cons.1 hmem with rfl | hmem
      · exact hseen
      · exact hseenMore other hmem

end Table

end BlockArchive
