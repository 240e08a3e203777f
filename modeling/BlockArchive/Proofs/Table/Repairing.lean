import BlockArchive.Proofs.Performing
import BlockArchive.Proofs.Table.Serving

/-! # Repairing whatever is there

The files of a table may hold any bytes.  What opening makes of them is said here in terms of the
entries of the index and the lengths of the segments alone.

* **An end.** Each time settling goes round it drops an entry, after at most two effects
  (`respects_settle`), so opening performs at most so many effects as the index has room for.
* **`IsLastKept`**: which entry is the last one kept.  It is the last one that does not reach past
  the end of its segment (`exists_isLastKept`).
* **`Repaired`**: what the files are then.  Nothing but the index and the head is changed, and
  segments that were missing on the way back are made. -/

namespace BlockArchive

open Attempt

/-! ### Counting effects -/

/-- At most so many effects were performed. -/
def Disk.Within (count : Nat) (disk disk' : Disk) : Prop :=
  disk'.journal.length ≤ disk.journal.length + count

instance : IsPreorder Disk (Disk.Within 0) where
  refl _ := Nat.le_refl _
  trans _ _ _ h h' := Nat.le_trans h' h

section counting

variable {α β : Type} {few many : Nat}

theorem Disk.Within.trans {disk disk' disk'' : Disk} (h : disk.Within few disk')
    (h' : disk'.Within many disk'') : disk.Within (few + many) disk'' := by
  unfold Within at h h' ⊢
  omega

theorem respects_within_of_le {action : Action Disk α} (h : Respects (Disk.Within few) action)
    (hle : few ≤ many) : Respects (Disk.Within many) action :=
  fun disk => Nat.le_trans (h disk) (Nat.add_le_add_left hle _)

theorem respects_within_bind {first : Action Disk α} {next : α → Action Disk β}
    (hfirst : Respects (Disk.Within few) first) (hnext : ∀ a, Respects (Disk.Within many) (next a)) :
    Respects (Disk.Within (few + many)) (first >>= next) := by
  intro disk
  have hfew := hfirst disk
  rw [outcome_bind]
  cases hrun : first.outcome disk with
  | mk answer disk₁ =>
      rw [hrun] at hfew
      cases answer with
      | ok a => exact hfew.trans (hnext a disk₁)
      | error e => exact Nat.le_trans hfew (Nat.add_le_add_left (Nat.le_add_right _ _) _)

theorem respects_within_next {first : Action Disk α} {next : α → Action Disk β}
    (hfirst : Respects (Disk.Within 0) first) (hnext : ∀ a, Respects (Disk.Within many) (next a)) :
    Respects (Disk.Within many) (first >>= next) := by
  have := respects_within_bind hfirst hnext
  rwa [Nat.zero_add] at this

theorem respects_within_then {first : Action Disk α} {next : α → Action Disk β}
    (hfirst : Respects (Disk.Within few) first) (hnext : ∀ a, Respects (Disk.Within 0) (next a)) :
    Respects (Disk.Within few) (first >>= next) :=
  respects_within_bind hfirst hnext

theorem respects_within_perform (effect : Effect) :
    Respects (Disk.Within 1) (Disk.perform effect) :=
  fun disk => Nat.le_refl (disk.journal.length + 1)

theorem respects_within_pure (count : Nat) (a : α) :
    Respects (Disk.Within count) (pure a : Action Disk α) :=
  fun _ => Nat.le_add_right _ _

theorem respects_within_throw (count : Nat) (e : Error) :
    Respects (Disk.Within count) (throw e : Action Disk α) :=
  fun _ => Nat.le_add_right _ _

theorem respects_within_openFile (path : Path) (mode : OpenMode) :
    Respects (Disk.Within 1) (Disk.openFile path mode) := by
  refine respects_within_next respects_get fun disk =>
    respects_within_next (respects_ofIo _) fun place => ?_
  split
  · exact respects_ite (respects_within_then (respects_within_perform _) fun _ => respects_pure _)
      (respects_within_pure _ _)
  · exact respects_ite (respects_within_pure _ _) (respects_within_throw _ _)
  · have hmake : ∀ u : PUnit, Respects (Disk.Within 1) (do
        Disk.perform (.makeFile place)
        return .file disk.files.contents.size true : Action Disk Handle) := fun _ =>
      respects_within_then (respects_within_perform _) fun _ => respects_pure _
    exact respects_ite (respects_within_next (respects_throw _) hmake) (hmake ⟨⟩)

theorem respects_within_setLength (handle : Handle) (length : Nat) :
    Respects (Disk.Within 1) (handle.setLength length) := by
  unfold Handle.setLength
  split
  · exact respects_within_perform _
  · exact respects_within_throw _ _

theorem respects_within_write (handle : Handle) (start : Nat) (data : Bytes) :
    Respects (Disk.Within 1) (handle.write start data) := by
  unfold Handle.write
  split
  · exact respects_within_pure _ _
  · split
    · exact respects_within_perform _
    · exact respects_within_throw _ _

end counting

namespace Table

open IndexEntry

section steps

variable (dir : Path) (name : String)

theorem respects_within_trimIndex (index : Handle) :
    Respects (Disk.Within 2) (trimIndex index) := by
  have hwrite : ∀ count : Nat, Respects (Disk.Within 1) (do
      if count = 0 then index.write 0 sentinel.encode
      return count - 1 : Action Disk Nat) := fun count =>
    respects_ite (respects_within_then (respects_within_write _ _ _) fun _ => respects_pure _)
      (respects_within_pure _ _)
  refine respects_within_next index.onlyReads_length.respects fun length => respects_ite ?_ ?_
  · exact respects_within_bind (respects_within_setLength _ _) fun _ => hwrite _
  · exact respects_within_of_le (hwrite _) (by decide)

theorem respects_within_openHead (id : Nat) :
    Respects (Disk.Within 1) (openHead dir name id) :=
  respects_within_then (respects_within_openFile _ _) fun head =>
    respects_bind head.onlyReads_length.respects fun _ => respects_pure _

/-- Settling ends, whatever it reads: it drops an entry each time it goes round, and opens one
segment at most. -/
theorem respects_settle (index : Handle) (before : Nat) (last : IndexEntry) (head : Handle)
    (length : Nat) :
    Respects (Disk.Within (2 * before + 1)) (settle dir name index before last head length) := by
  have hcut : ∀ (head : Handle) (before length : Nat) (settled : Settled),
      Respects (Disk.Within (2 * before + 1)) (do
        head.setLength length
        return settled : Action Disk Settled) := fun head before length settled =>
    respects_within_of_le (respects_within_then (respects_within_setLength _ _) fun _ =>
      respects_pure _) (Nat.le_add_left _ _)
  induction before generalizing last head length with
  | zero =>
      rw [settle.eq_def]
      simp only
      refine respects_ite (respects_within_pure _ _) (respects_ite (hcut _ _ _ _) ?_)
      exact respects_ite (hcut _ 0 _ _) (respects_within_pure _ _)
  | succ before ih =>
      rw [settle.eq_def]
      simp only
      refine respects_ite (respects_within_pure _ _) (respects_ite (hcut _ _ _ _) ?_)
      have hgo : 2 * (before + 1) + 1 = 1 + (1 + (2 * before + 1)) := by omega
      rw [hgo]
      refine respects_within_bind (respects_within_setLength _ _) fun _ =>
        respects_within_next (onlyReads_readEntry _ _).respects fun previous => respects_ite ?_ ?_
      · exact respects_within_of_le (ih _ _ _) (Nat.le_add_left _ _)
      · exact respects_within_bind (respects_within_openHead _ _ _) fun _ => ih _ _ _

end steps

variable {folder folder' : Folder} {name : String} {entries : List IndexEntry}

theorem within_openIn {names : String → Prop} {place : Location} {root : Path} {disk : Disk}
    (cap : Nat) (hhouses : disk.files.Houses names root place)
    (hnames : ∀ file, IsFileOf name file → names file) :
    disk.Within (2 * (written (disk.files.folder place) name).length + 4)
      ((openIn root name cap).outcome disk).2 := by
  obtain ⟨disk₀, disk₁, -, -, -, hopen, htrim, -⟩ :=
    exists_openIndex hhouses (hnames _ (isFileOf_index name))
  have hwithin := ((respects_within_openFile _ _).of_outcome hopen).trans
    ((respects_within_trimIndex _).of_outcome htrim)
  have hpos := List.length_pos_iff.2 (written_ne_nil (disk.files.folder place) name)
  generalize (written (disk.files.folder place) name).length = count at *
  unfold openIn
  rw [outcome_bind_ok (Disk.outcome_makeDirectories hhouses), outcome_bind_ok hopen,
    outcome_bind_ok htrim]
  have hcount : 2 * count + 4 = 1 + 2 + (1 + ((2 * (count - 1) + 1) + 1)) := by omega
  rw [hcount]
  refine hwithin.trans ?_
  refine respects_within_next (onlyReads_readEntry _ _).respects (fun first => ?_) disk₁
  refine respects_within_next (onlyReads_readEntry _ _).respects fun last => ?_
  refine respects_within_bind (respects_within_openHead _ _ _) fun (head, length) => ?_
  refine respects_within_bind (respects_settle _ _ _ _ _ _ _) fun settled => ?_
  refine respects_within_next (onlyReads_openHistory _ _ _).respects fun history => ?_
  exact respects_within_then (respects_within_openFile _ _) fun head => respects_pure _

/-! ### The entries kept -/

/-- Entry `k` is the last one that does not reach past the end of its segment, or else entry
zero. -/
structure IsLastKept (folder : Folder) (name : String) (entries : List IndexEntry) (k : Nat)
    (last : IndexEntry) : Prop where
  entry : entries[k]? = some last
  reached : k = 0 ∨ last.offset.toNat ≤ (segmentBytes folder name last.segment.toNat).length
  dropped : ∀ (j : Nat) (later : IndexEntry), k < j → entries[j]? = some later →
    (segmentBytes folder name later.segment.toNat).length < later.offset.toNat

/-- The entries kept are those up to the last one that does not reach past the end. -/
theorem exists_isLastKept (folder : Folder) (name : String) (hne : entries ≠ []) :
    ∃ k last, IsLastKept folder name entries k last ∧
      keep folder name entries = entries.take (k + 1) := by
  have hkept : keep folder name entries ≠ [] := keep_ne_nil hne
  have hpos := List.length_pos_iff.2 hkept
  have hbegins := keep_begins folder name entries
  have hdropped := fun later => @dangles_of_mem_drop_keep folder name entries later
  have hlast := lastOf_keep folder name entries
  generalize keep folder name entries = kept at *
  refine ⟨kept.length - 1, lastOf kept, ⟨?_, ?_, fun j later hj hlater => ?_⟩, ?_⟩
  · obtain ⟨rest, rfl⟩ := hbegins
    rw [List.getElem?_append_left (by omega)]
    exact getElem?_eq_lastOf hkept
  · rcases hlast with hreaches | hone | hnil
    · exact .inr (by simpa [dangles] using hreaches)
    · exact .inl (by rw [hone, List.length_singleton])
    · exact absurd hnil hne
  · have hmem : later ∈ entries.drop kept.length := by
      refine List.mem_of_getElem? (i := j - kept.length) ?_
      rw [List.getElem?_drop]
      rwa [show kept.length + (j - kept.length) = j by omega]
    simpa [dangles] using hdropped later hmem
  · rw [Nat.sub_add_cancel hpos]
    exact List.prefix_iff_eq_take.1 hbegins

theorem IsLastKept.unique {k k' : Nat} {last last' : IndexEntry}
    (h : IsLastKept folder name entries k last) (h' : IsLastKept folder name entries k' last') :
    k = k' ∧ last = last' := by
  have hle : ∀ {k k' : Nat} {last last' : IndexEntry}, IsLastKept folder name entries k last →
      IsLastKept folder name entries k' last' → k' ≤ k := by
    intro k k' last last' h h'
    by_contra hlt
    have hdropped := h.dropped k' last' (by omega) h'.entry
    rcases h'.reached with hzero | hreached <;> omega
  obtain rfl := Nat.le_antisymm (hle h' h) (hle h h')
  exact ⟨rfl, Option.some.inj (h.entry.symm.trans h'.entry)⟩

/-- A segment before the head is missing, and no entry that is dropped names it. -/
def LacksHistory (folder : Folder) (name : String) (entries : List IndexEntry) (k : Nat)
    (last : IndexEntry) : Prop :=
  ∃ id, (firstOf entries).segment.toNat ≤ id ∧ id < last.segment.toNat ∧
    folder (segmentFileName name id) = none ∧
      ∀ later ∈ entries.drop (k + 1), later.segment.toNat ≠ id

/-! ### What is left -/

/-- The files of a table of which entries up to entry `k` were kept. -/
structure Repaired (name : String) (entries : List IndexEntry) (k : Nat) (last : IndexEntry)
    (folder folder' : Folder) : Prop where
  index : folder' (indexFileName name) = some (encodeAll (entries.take (k + 1)))
  indexLength : (encodeAll (entries.take (k + 1))).length = 6 * (k + 1)
  /-- The index was cut, unless it held no entry. -/
  indexBegins :
    encodeAll (entries.take (k + 1)) <+: (folder (indexFileName name)).getD [] ∨
      Audit.entries ((folder (indexFileName name)).getD []) = [] ∧
        encodeAll (entries.take (k + 1)) = sentinel.encode
  /-- The head was cut to where its last item ends. -/
  head : folder' (segmentFileName name last.segment.toNat) =
    some ((segmentBytes folder name last.segment.toNat).take last.offset.toNat)
  headLength : last.offset.toNat ≤ (segmentBytes folder name last.segment.toNat).length
  others : ∀ file content, file ≠ indexFileName name →
    file ≠ segmentFileName name last.segment.toNat → folder file = some content →
      folder' file = some content
  /-- Segments that entries dropped name were opened, and are empty if they were missing. -/
  made : ∀ later ∈ entries.drop (k + 1), later.segment ≠ last.segment →
    folder (segmentFileName name later.segment.toNat) = none →
      folder' (segmentFileName name later.segment.toNat) = some []
  missing : ∀ file, file ≠ indexFileName name → file ≠ segmentFileName name last.segment.toNat →
    (∀ later ∈ entries.drop (k + 1), file ≠ segmentFileName name later.segment.toNat) →
      folder file = none → folder' file = none

/-- The first entries written are written back as they were read, or are the sentinel. -/
theorem encodeAll_take_written (folder : Folder) (name : String) (k : Nat) :
    encodeAll ((written folder name).take (k + 1)) <+: (folder (indexFileName name)).getD [] ∨
      Audit.entries ((folder (indexFileName name)).getD []) = [] ∧
        encodeAll ((written folder name).take (k + 1)) = sentinel.encode := by
  unfold written
  generalize (folder (indexFileName name)).getD [] = data
  cases hentries : Audit.entries data with
  | nil => exact .inr ⟨rfl, by simp⟩
  | cons first more =>
      left
      simp only
      rw [← hentries, ← take_encodeAll, Audit.encodeAll_entries_eq_take]
      exact (List.take_prefix _ _).trans (List.take_prefix _ _)

section repaired

variable {k : Nat} {last : IndexEntry}

theorem IsLastKept.drop_length (h : IsLastKept folder name entries k last) :
    entries.drop (entries.take (k + 1)).length = entries.drop (k + 1) := by
  have hk := (List.getElem?_eq_some_iff.1 h.entry).1
  rw [List.length_take, Nat.min_eq_left hk]

theorem IsLastKept.repaired (h : IsLastKept folder name (written folder name) k last)
    (hstart : (firstOf (written folder name)).offset = 0) :
    Repaired name (written folder name) k last folder
      (settledTo folder name (written folder name) ((written folder name).take (k + 1))) := by
  have hk := (List.getElem?_eq_some_iff.1 h.entry).1
  have hlast := lastOf_take h.entry
  have hdrop := h.drop_length
  have hne : ∀ {id : Nat}, segmentFileName name id ≠ indexFileName name :=
    Ne.symm (indexFileName_ne_segmentFileName _ _ _)
  have hothers : ∀ {file : String}, file ≠ indexFileName name →
      file ≠ segmentFileName name last.segment.toNat →
        settledTo folder name (written folder name) ((written folder name).take (k + 1)) file =
          prepared folder name ((written folder name).drop (k + 1)) file := by
    intro file hindex hhead
    rw [settledTo_of_ne hindex (by rwa [hlast]), hdrop]
  refine ⟨settledTo_index _ _ _ _, ?_, encodeAll_take_written _ _ _, ?_, ?_, ?_, ?_, ?_⟩
  · rw [length_encodeAll, List.length_take, Nat.min_eq_left hk]
    rfl
  · have hhead := settledTo_head folder name (written folder name)
      ((written folder name).take (k + 1))
    rwa [hlast] at hhead
  · rcases h.reached with rfl | hreached
    · have hfirst : firstOf (written folder name) = last := by
        have hentry := h.entry
        cases hentries : written folder name with
        | nil => simp [hentries] at hk
        | cons first more => simpa [hentries] using hentry
      rw [← hfirst, hstart]
      exact Nat.zero_le _
    · exact hreached
  · intro file content hindex hhead hcontent
    rw [hothers hindex hhead, prepared_of_some hcontent]
  · intro later hmem hsegment hfree
    have hhead : segmentFileName name later.segment.toNat ≠
        segmentFileName name last.segment.toNat :=
      segmentFileName_ne fun heq => hsegment (UInt32.toNat_inj.1 heq)
    rw [hothers hne hhead, prepared, if_pos ⟨hfree, later, hmem, rfl⟩]
  · intro file hindex hhead hnamed hfree
    rw [hothers hindex hhead, prepared, if_neg, hfree]
    rintro ⟨-, later, hmem, heq⟩
    exact hnamed later hmem heq

/-- A segment before the head is missing after the repair if and only if the history lacks it. -/
theorem Repaired.lacksHistory_iff (h : Repaired name entries k last folder folder') :
    LacksHistory folder name entries k last ↔
      ∃ id, (firstOf entries).segment.toNat ≤ id ∧ id < last.segment.toNat ∧
        folder' (segmentFileName name id) = none := by
  refine exists_congr fun id => and_congr_right fun hlow => and_congr_right fun hhigh => ?_
  have hindex : segmentFileName name id ≠ indexFileName name :=
    Ne.symm (indexFileName_ne_segmentFileName _ _ _)
  have hhead : segmentFileName name id ≠ segmentFileName name last.segment.toNat :=
    segmentFileName_ne (Nat.ne_of_lt hhigh)
  constructor
  · intro ⟨hfree, hnamed⟩
    exact h.missing _ hindex hhead
      (fun later hmem heq => hnamed later hmem (segmentFileName_injective heq).2.symm) hfree
  · intro hmissing
    have hfree : folder (segmentFileName name id) = none := by
      cases hcontent : folder (segmentFileName name id) with
      | none => rfl
      | some content => simp [h.others _ content hindex hhead hcontent] at hmissing
    refine ⟨hfree, fun later hmem heq => ?_⟩
    have hmade := h.made later hmem (fun hsegment => by rw [hsegment] at heq; omega) (heq ▸ hfree)
    rw [heq, hmissing] at hmade
    simp at hmade

end repaired

/-- Opening repairs any files of a table.  It comes to an end; and if entry zero bounds no bytes, it
keeps the entries up to the last one that does not reach past the end of its segment, changes
nothing else, and fails only where a segment before the head is missing. -/
theorem openIn_repairs {disk : Disk} {root : Path} {place : Location}
    (hhouses : disk.files.Houses (IsFileOf name) root place)
    (hfolder : disk.files.folder place = folder) (hentries : written folder name = entries)
    (cap : Nat) :
    ∃ answer disk', (openIn root name cap).outcome disk = (answer, disk') ∧
      disk'.journal.length ≤ disk.journal.length + (2 * entries.length + 4) ∧
      ((firstOf entries).offset = 0 → ∃ k last,
        IsLastKept folder name entries k last ∧
        Repaired name entries k last folder (disk'.files.folder place) ∧
        Confined name place disk disk' ∧
        (LacksHistory folder name entries k last → answer = .error (.io .notFound)) ∧
        (¬LacksHistory folder name entries k last → ∃ table, answer = .ok table ∧
          table.items = k ∧ table.tailId = (firstOf entries).segment.toNat ∧
          table.headId = last.segment.toNat ∧ table.headBytes = last.offset.toNat)) := by
  subst hfolder hentries
  have hwithin := within_openIn cap hhouses fun _ => id
  rcases hrun : (openIn root name cap).outcome disk with ⟨answer, disk₁⟩
  rw [hrun] at hwithin
  refine ⟨answer, disk₁, rfl, hwithin, fun hstart => ?_⟩
  obtain ⟨disk', kept, hkept, htidied, hfolder, hreaches, hok, herror⟩ :=
    exists_openIn cap hhouses (fun _ => id) hstart
  obtain ⟨k, last, hlast, hkeep⟩ := exists_isLastKept (disk.files.folder place) name
    (written_ne_nil (disk.files.folder place) name)
  obtain rfl := hkept.trans hkeep
  have hrepaired := hlast.repaired hstart
  rw [← hfolder] at hrepaired
  have hstep : InStep (disk'.files.folder place) name _ := hfolder ▸ inStep_settledTo hreaches
  have hk := (List.getElem?_eq_some_iff.1 hlast.entry).1
  have hlength := List.length_take_of_le (Nat.succ_le_of_lt hk)
  have hlastOf := lastOf_take hlast.entry
  have hfirstOf := firstOf_take (written (disk.files.folder place) name) k
  by_cases hlacks : LacksHistory (disk.files.folder place) name
    (written (disk.files.folder place) name) k last
  · obtain ⟨id, hlow, hhigh, hmissing⟩ := hrepaired.lacksHistory_iff.1 hlacks
    rw [herror id (hfirstOf.symm ▸ hlow) (hlastOf.symm ▸ hhigh) hmissing] at hrun
    obtain ⟨rfl, rfl⟩ := Prod.mk.inj hrun
    exact ⟨k, last, hlast, hrepaired, htidied.confined, fun _ => rfl, fun h => absurd hlacks h⟩
  · have hhistory := mt hrepaired.lacksHistory_iff.2 hlacks
    rw [hok fun id hlow hhigh hmissing =>
      hhistory ⟨id, hfirstOf ▸ hlow, hlastOf ▸ hhigh, hmissing⟩] at hrun
    obtain ⟨rfl, rfl⟩ := Prod.mk.inj hrun
    refine ⟨k, last, hlast, hrepaired, htidied.confined, fun h => absurd h hlacks,
      fun _ => ⟨_, rfl, ?_, ?_, ?_, ?_⟩⟩
    · rw [opened_items, hfirstOf, hstart, hlength]
      exact Nat.zero_add k
    · rw [opened_tailId, hfirstOf]
    · rw [opened_headId, hlastOf]
    · rw [opened_headBytes, hstep.headLength, hlastOf]

/-- An index that is torn, two of whose entries name missing segments, over a segment of four
bytes. -/
def tornIndex : FileSystem :=
  .ofListing [(indexFileName Column.hashes.name,
      encodeAll [⟨0, 0⟩, ⟨0, 3⟩, ⟨2, 5⟩, ⟨1, 9⟩] ++ [0, 0]),
    (segmentFileName Column.hashes.name 0, [1, 2, 3, 4])]

/-- One item is left, and empty files for the missing segments. -/
theorem openIn_repairs_tornIndex :
    ∃ table disk', (openIn ⟨["", "a"]⟩ Column.hashes.name 100).outcome (Disk.ofFiles tornIndex) =
        (.ok table, disk') ∧
      table.items = 1 ∧ table.headId = 0 ∧ table.headBytes = 3 ∧
      disk'.files.folder ["a"] (indexFileName Column.hashes.name) =
        some (encodeAll [⟨0, 0⟩, ⟨0, 3⟩]) ∧
      disk'.files.folder ["a"] (segmentFileName Column.hashes.name 0) = some [1, 2, 3] ∧
      disk'.files.folder ["a"] (segmentFileName Column.hashes.name 2) = some [] ∧
      disk'.journal.length ≤ 12 := by
  have hfolder := FileSystem.folder_ofListing [(indexFileName Column.hashes.name,
      encodeAll [⟨0, 0⟩, ⟨0, 3⟩, ⟨2, 5⟩, ⟨1, 9⟩] ++ [0, 0]),
    (segmentFileName Column.hashes.name 0, [1, 2, 3, 4])]
  have hhouses : (Disk.ofFiles tornIndex).files.Houses (IsFileOf Column.hashes.name)
      ⟨["", "a"]⟩ ["a"] :=
    (Archive.houses_ofListing _).mono fun _ => Archive.isFile_of_isFileOf
  obtain ⟨answer, disk', hrun, hwithin, hrepairs⟩ := openIn_repairs hhouses hfolder
    (show _ = [⟨0, 0⟩, ⟨0, 3⟩, ⟨2, 5⟩, ⟨1, 9⟩] by decide +kernel) 100
  obtain ⟨k, last, hlast, hrepaired, -, -, hok⟩ := hrepairs rfl
  obtain ⟨rfl, rfl⟩ := hlast.unique (show IsLastKept _ _ _ 1 ⟨0, 3⟩ from
    ⟨rfl, .inr (by decide +kernel), fun j later hj hlater => by
      match j with
      | 2 => obtain rfl := Option.some.inj hlater; decide +kernel
      | 3 => obtain rfl := Option.some.inj hlater; decide +kernel
      | j + 4 => simp at hlater⟩)
  obtain ⟨table, rfl, hitems, -, hhead, hbytes⟩ := hok fun ⟨id, _, hhigh, _⟩ => by
    simp at hhigh
  refine ⟨table, disk', hrun, hitems, hhead, hbytes, hrepaired.index, hrepaired.head, ?_, ?_⟩
  · exact hrepaired.made ⟨2, 5⟩ (by simp) (by decide) (by decide +kernel)
  · exact hwithin

end Table

end BlockArchive
