import BlockArchive.Proofs.Performing
import BlockArchive.Proofs.Table.Serving

/-! # Cuts that fail

While a table is open, the names of its files may come to stand for anything; the files themselves
stay at hand.  A cut goes back to the names: it opens the new head anew and deletes the segments
above it.  Either step can fail.

* **`Held`**: the files that a table has open hold what its index tells, whatever became of their
  names.
* **`Halved`**: what a cut leaves that fails at either step.  The index was cut already; the
  counters and all data are as before.
* **Result.** A cut that fails was refused, and then nothing was changed, or left the table halved
  (`failed_truncate`).  Of a halved table the items that were to be dropped cannot be read any more,
  though it counts them; an item appended to it is read back with the bytes before it, or
  refused. -/

namespace BlockArchive

open Attempt

/-! ### Steps that leave all contents -/

/-- Names may change and empty files appear, but no content changes. -/
structure Disk.KeepsContents (disk disk' : Disk) : Prop where
  content : disk'.files.content = disk.files.content
  size : disk.files.contents.size ≤ disk'.files.contents.size

instance : IsPreorder Disk Disk.KeepsContents where
  refl _ := ⟨rfl, Nat.le_refl _⟩
  trans _ _ _ h h' := ⟨h'.content.trans h.content, Nat.le_trans h.size h'.size⟩

/-- An action that changes no content. -/
abbrev KeepsContents {α : Type} (action : Action Disk α) : Prop :=
  Respects Disk.KeepsContents action

theorem keepsContents_makeFile (place : Location) :
    KeepsContents (Disk.perform (.makeFile place)) := by
  refine fun disk => ⟨funext fun id => Effect.content_makeFile disk.files place id, ?_⟩
  exact Nat.le_of_lt (Nat.lt_of_lt_of_eq (Nat.lt_succ_self _)
    (Effect.size_contents_apply disk.files (.makeFile place)).symm)

theorem keepsContents_removeName (place : Location) :
    KeepsContents (Disk.perform (.removeName place)) :=
  fun _ => ⟨rfl, Nat.le_refl _⟩

theorem keepsContents_openFile_update (path : Path) :
    KeepsContents (Disk.openFile path .update) := by
  refine respects_bind respects_get fun disk => respects_bind (respects_ofIo _) fun place => ?_
  split
  · exact respects_pure _
  · exact respects_throw _
  · exact respects_bind (keepsContents_makeFile _) fun _ => respects_pure _

theorem keepsContents_removeFile (path : Path) : KeepsContents (Disk.removeFile path) := by
  refine respects_bind respects_get fun disk => respects_bind (respects_ofIo _) fun place => ?_
  split
  · exact respects_throw _
  · exact keepsContents_removeName _
  · exact respects_throw _

namespace Table

open IndexEntry

theorem keepsContents_deleteSegments (dir : Path) (name : String) (ids : List Nat) :
    KeepsContents (deleteSegments dir name ids) := by
  induction ids with
  | nil => exact respects_pure _
  | cons id ids ih =>
      exact respects_bind
        (respects_tryCatch (keepsContents_removeFile _) fun _ =>
          respects_ite (respects_pure _) (respects_throw _))
        fun _ => ih

/-! ### Open files without their names -/

/-- The files under these numbers hold what the folder says, and an index with these entries bounds
it. -/
structure Held (files : FileSystem) (number : String → FileId) (folder : Folder) (name : String)
    (entries : List IndexEntry) : Prop where
  indexed : Indexed folder name entries
  holds : files.Holds
    (IsFileWithin name (firstOf entries).segment.toNat (lastOf entries).segment.toNat) folder number
  made : ∀ file,
    IsFileWithin name (firstOf entries).segment.toNat (lastOf entries).segment.toNat file →
      number file < files.contents.size
  apart : ∀ id, (firstOf entries).segment.toNat ≤ id → id ≤ (lastOf entries).segment.toNat →
    number (segmentFileName name id) ≠ number (indexFileName name)

variable {names : String → Prop} {place : Location} {root : Path} {name : String} {pruned : Nat}
  {entries : List IndexEntry} {holding : Holding} {state : Table × Disk} {number : String → FileId}
  {folder : Folder} {files : FileSystem} {table table' : Table} {disk disk' : Disk} {n : Nat}
  {last : IndexEntry}

/-- What is done to names takes no file from an open table. -/
theorem Represents.held (h : Represents names place root name pruned entries holding state)
    (hcontents : files.contents = state.2.files.contents) :
    Held files (state.2.files.number place) (state.2.files.folder place) name entries := by
  have hindexed := h.steady.toIndexed
  have hcontent : ∀ id, files.content id = state.2.files.content id := fun id => by
    rw [FileSystem.content, hcontents, FileSystem.content]
  have hthere : ∀ file,
      IsFileWithin name (firstOf entries).segment.toNat (lastOf entries).segment.toNat file →
        state.2.files.node? (place ++ [file]) =
          some (.file (state.2.files.number place file)) := by
    intro file hfile
    have hsome : state.2.files.folder place file ≠ none := by
      rcases hfile with rfl | ⟨id, hlow, hhigh, rfl⟩
      · simp [hindexed.index]
      · exact hindexed.there hlow hhigh
    obtain ⟨content, hsome⟩ := Option.ne_none_iff_exists'.1 hsome
    exact FileSystem.node?_of_folder hsome
  refine ⟨hindexed, fun file content hfile hsome => ?_, fun file hfile => ?_,
    fun id hlow hhigh heq => ?_⟩
  · rw [hcontent]
    exact FileSystem.content_of_folder hsome
  · rw [hcontents]
    exact h.houses.numbered _ _ (hthere file hfile)
  · have hsegment := hthere _ (isFileWithin_segment name hlow hhigh)
    rw [heq] at hsegment
    exact indexFileName_ne_segmentFileName _ _ _
      (h.houses.apart _ _ _ (hthere _ (isFileWithin_index _ _ _)) hsegment)

namespace Held

theorem content_index (h : Held files number folder name entries) :
    files.content (number (indexFileName name)) = encodeAll entries :=
  h.holds _ _ (isFileWithin_index _ _ _) h.indexed.index

/-- The index of an open table can be cut. -/
theorem exists_cutIndex (h : Held disk.files number folder name entries)
    (hn : n + 1 < entries.length) :
    ∃ disk₁, ((Handle.file (number (indexFileName name)) true).setLength
        (position (n + 1))).outcome disk = (.ok (), disk₁) ∧
      disk₁.files.content (number (indexFileName name)) = encodeAll (entries.take (n + 1)) ∧
      (∀ id ≠ number (indexFileName name), disk₁.files.content id = disk.files.content id) ∧
      disk₁.files.contents.size = disk.files.contents.size := by
  refine ⟨_, rfl, ?_, fun id hid => Effect.content_setLength_ne _ _ hid,
    Effect.size_contents_apply _ _⟩
  refine (Effect.content_setLength_same _ (h.made _ (isFileWithin_index _ _ _))).trans ?_
  rw [h.content_index, resize_encodeAll_of_le (Nat.le_of_lt hn)]

end Held

/-! ### Tables that were cut by half -/

/-- The index was cut to the entries up to entry `n`, the last one, and nothing else: the counters
are as before, and so are all data and what is open below the segment of that entry. -/
structure Halved (number : String → FileId) (name : String) (entries : List IndexEntry) (n : Nat)
    (last : IndexEntry) (table : Table) (disk : Disk) (table' : Table) (disk' : Disk) :
    Prop where
  counters : table' = { table with segments := table'.segments }
  index : disk'.files.content (number (indexFileName name)) = encodeAll (entries.take (n + 1))
  contents : ∀ id ≠ number (indexFileName name), disk'.files.content id = disk.files.content id
  size : disk.files.contents.size ≤ disk'.files.contents.size
  below : ∀ id < last.segment.toNat, table'.segments.get? id = table.segments.get? id

theorem exists_cutHead {head : Nat} {id : FileId}
    (hhead : table.segments.get? head = some (.file id true)) (length : Nat) (f : Table → Table)
    (disk : Disk) :
    ∃ state', (do
      let handle ← openSegment head
      onSecond (handle.setLength length)
      update f : Action (Table × Disk) Unit).outcome (table, disk) = (.ok (), state') := by
  rw [outcome_bind_ok (outcome_openSegment hhead disk)]
  exact ⟨_, rfl⟩

/-- An earlier segment becomes the head, unless it cannot be opened or one above it cannot be
deleted.  Then it is not open any more, or those above it are not. -/
theorem lost_or_released {new : Nat} {next : Action (Table × Disk) Unit}
    (hnext : ∀ segments id disk, Segments.get? segments new = some (.file id true) →
      ∃ state', next.outcome ({ table with segments }, disk) = (.ok (), state')) {e : Error}
    (hrun : (do
      reopenSegment new .update
      releaseAbove new
      next : Action (Table × Disk) Unit).outcome (table, disk) = (.error e, (table', disk'))) :
    table' = { table with segments := table'.segments } ∧
      disk.KeepsContents disk' ∧
      (∀ id < new, table'.segments.get? id = table.segments.get? id) ∧
      (table'.segments.get? new = none ∧
          (∀ id ≠ new, table'.segments.get? id = table.segments.get? id) ∨
        ∀ id, new < id → table'.segments.get? id = none) := by
  rcases hopen : (Disk.openFile (segmentPath table.dir table.name new) .update).outcome disk with
    ⟨answer, disk₁⟩
  have hkeeps₁ : disk.KeepsContents disk₁ :=
    (keepsContents_openFile_update _).of_outcome hopen
  cases answer with
  | error e₁ =>
      rw [outcome_bind_error (outcome_reopenSegment_lost hopen)] at hrun
      obtain ⟨-, htable, rfl⟩ := by simpa using hrun
      have hget : ∀ id, table'.segments.get? id =
          if id = new then none else table.segments.get? id := fun id => by
        rw [← htable]
        exact Segments.get?_erase _ _ _
      refine ⟨by rw [← htable], hkeeps₁, fun id hid => ?_, .inl ⟨?_, fun id hid => ?_⟩⟩
      · rw [hget, if_neg (Nat.ne_of_lt hid)]
      · rw [hget, if_pos rfl]
      · rw [hget, if_neg hid]
  | ok handle =>
      obtain ⟨id, rfl⟩ := Disk.exists_of_openFile_update hopen
      have hget : ∀ other, (((table.segments.erase new).insert new (.file id true)).upTo new).get?
          other = if other ≤ new then if other = new then some (.file id true)
            else table.segments.get? other else none := fun other => by
        rw [Segments.get?_upTo, Segments.get?_insert, Segments.get?_erase]
        by_cases hnew : other = new <;> simp [hnew]
      rcases hdelete : (deleteSegments table.dir table.name
        ((((table.segments.erase new).insert new (.file id true)).above new).map
          Prod.fst)).outcome disk₁ with ⟨answer, disk₂⟩
      have hkeeps₂ : disk₁.KeepsContents disk₂ :=
        (keepsContents_deleteSegments _ _ _).of_outcome hdelete
      have hrelease := @outcome_releaseAbove _ _
        { table with segments := (table.segments.erase new).insert new (.file id true) } _ _ hdelete
      rw [outcome_bind_ok (outcome_reopenSegment hopen)] at hrun
      cases answer with
      | ok u =>
          obtain ⟨state', hok⟩ := hnext _ id disk₂ ((hget new).trans (by simp))
          rw [outcome_bind_ok hrelease, hok] at hrun
          simp at hrun
      | error e₂ =>
          rw [outcome_bind_error hrelease] at hrun
          obtain ⟨-, htable, rfl⟩ := by simpa using hrun
          rw [← htable]
          refine ⟨rfl, trans_of Disk.KeepsContents hkeeps₁ hkeeps₂, fun other hother => ?_,
            .inr fun other hother => ?_⟩
          · rw [hget, if_pos (Nat.le_of_lt hother), if_neg (Nat.ne_of_lt hother)]
          · rw [hget, if_neg (Nat.not_le.2 hother)]

/-- Of a table that was cut by half either the new head is not open any more, or the old one. -/
theorem Held.halved_of_truncate (h : Held disk.files number folder name entries) (cap : Nat)
    (hn : n + 1 < entries.length) (hlast : entries[n]? = some last) {e : Error}
    (hrun : (truncate ((firstOf entries).offset.toNat + n)).outcome
      (tableOf folder number root name cap entries, disk) = (.error e, (table', disk'))) :
    last.segment ≠ (lastOf entries).segment ∧
      Halved number name entries n last (tableOf folder number root name cap entries) disk table'
        disk' ∧
      (table'.segments.get? last.segment.toNat = none ∧
          table'.segments.get? (lastOf entries).segment.toNat =
            some (.file (number (segmentFileName name (lastOf entries).segment.toNat)) true) ∨
        table'.segments.get? (lastOf entries).segment.toNat = none) := by
  obtain ⟨disk₁, hcut, hindex₁, hothers₁, hsize₁⟩ := h.exists_cutIndex hn
  have hle := h.indexed.segment_le (List.mem_of_getElem? hlast)
  have hstorable : ∀ entry ∈ entries.take (n + 1), entry.IsStorable := fun entry hmem =>
    h.indexed.storable entry (List.mem_of_mem_take hmem)
  have hread : (readEntry (.file (number (indexFileName name)) true) n).outcome disk₁ =
      (.ok last, disk₁) := by
    refine outcome_readEntry_of_content hindex₁ ?_
    rw [Audit.entries_encodeAll hstorable, List.getElem?_take_of_lt (Nat.lt_succ_self n), hlast]
  generalize htable : tableOf folder number root name cap entries = table at hrun ⊢
  have hopen : table.index = some (.file (number (indexFileName name)) true) := by rw [← htable]; rfl
  have hoffset : table.itemOffset = (firstOf entries).offset.toNat := by rw [← htable]; rfl
  have hitems : table.items = (firstOf entries).offset.toNat + (entries.length - 1) := by
    rw [← htable]; rfl
  have hheadId : table.headId = (lastOf entries).segment.toNat := by rw [← htable]; rfl
  have hhead : table.segments.get? (lastOf entries).segment.toNat =
      some (.file (number (segmentFileName name (lastOf entries).segment.toNat)) true) := by
    rw [← htable]
    exact get?_segmentsBy_head _ _ _ _
  unfold truncate at hrun
  rw [outcome_bind_ok (outcome_openIndex hopen disk), outcome_bind_ok (outcome_current _ _),
    if_neg (by omega), if_neg (by omega), hoffset, Nat.add_sub_cancel_left] at hrun
  simp only at hrun
  rw [outcome_bind_ok (outcome_onSecond_of hcut _), outcome_bind_ok (outcome_onSecond_of hread _),
    hheadId] at hrun
  by_cases hsame : last.segment = (lastOf entries).segment
  · rw [if_neg (by simp [hsame]), hsame] at hrun
    obtain ⟨state', hok⟩ := exists_cutHead hhead last.offset.toNat
      (fun table => { table with
        items := (firstOf entries).offset.toNat + n
        headBytes := last.offset.toNat }) disk₁
    rw [hok] at hrun
    simp at hrun
  rw [if_pos fun heq => hsame (UInt32.toNat_inj.1 heq)] at hrun
  have hlt : last.segment.toNat < (lastOf entries).segment.toNat :=
    Nat.lt_of_le_of_ne hle fun heq => hsame (UInt32.toNat_inj.1 heq)
  obtain ⟨hcounters, hkeeps, hbelow, hgone⟩ := lost_or_released (by
    intro segments id disk hget
    rw [outcome_bind_ok (outcome_update _ _ _)]
    exact exists_cutHead hget _ _ disk) hrun
  refine ⟨hsame, ⟨hcounters, ?_, fun id hid => ?_, hsize₁ ▸ hkeeps.size, hbelow⟩, ?_⟩
  · rw [hkeeps.content, hindex₁]
  · rw [hkeeps.content, hothers₁ id hid]
  · rcases hgone with ⟨hnew, hothers⟩ | hreleased
    · exact .inl ⟨hnew, (hothers _ (Nat.ne_of_gt hlt)).trans hhead⟩
    · exact .inr (hreleased _ hlt)

/-! ### What a halved table answers -/

theorem outcome_readEntry_of_le {id : FileId} (h : disk.files.content id = encodeAll entries)
    (hle : entries.length ≤ n) :
    (readEntry (.file id true) n).outcome disk = (.error (.io .endOfFile), disk) := by
  have hslice : (encodeAll entries).slice? (position n) width = none := by
    unfold Bytes.slice?
    rw [if_neg (by decide), if_neg]
    rw [length_encodeAll, position, Nat.mul_comm width]
    have := Nat.mul_le_mul_right width hle
    have hpos : 0 < width := by decide
    omega
  unfold readEntry
  rw [outcome_bind_error]
  rw [Handle.outcome_read_of_content h, hslice]

/-- A file that is open for writing takes what is written. -/
theorem exists_write {id : FileId} (hid : id < disk.files.contents.size) (start : Nat)
    (data : Bytes) :
    ∃ disk₁, ((Handle.file id true).write start data).outcome disk = (.ok (), disk₁) ∧
      disk₁.files.content id = (disk.files.content id).overwrite start data ∧
      (∀ other ≠ id, disk₁.files.content other = disk.files.content other) ∧
      disk₁.files.contents.size = disk.files.contents.size := by
  unfold Handle.write
  by_cases hdata : data = []
  · subst hdata
    exact ⟨disk, rfl, (Bytes.overwrite_nil _ _).symm, fun _ _ => rfl, rfl⟩
  · rw [if_neg (by simpa using hdata)]
    exact ⟨_, rfl, Effect.content_write_same _ _ hid,
      fun other hother => Effect.content_write_ne _ _ _ hother, Effect.size_contents_apply _ _⟩

theorem exists_append_inPlace {index head : FileId} {blob : Bytes}
    (hindex : table.index = some (.file index true))
    (hhead : table.segments.get? table.headId = some (.file head true))
    (hover : table.overflows blob.length = false) (hapart : head ≠ index)
    (hindexMade : index < disk.files.contents.size) (hheadMade : head < disk.files.contents.size) :
    ∃ disk₁, (append table.items blob).outcome (table, disk) =
        (.ok (), ({ table with
          headBytes := table.headBytes + blob.length
          items := table.items + 1 }, disk₁)) ∧
      disk₁.files.content head = (disk.files.content head).overwrite table.headBytes blob ∧
      disk₁.files.content index = (disk.files.content index).overwrite
        (position (table.items - table.itemOffset + 1))
        (⟨.ofNat table.headId, .ofNat (table.headBytes + blob.length)⟩ : IndexEntry).encode := by
  obtain ⟨disk₁, hwrite₁, hcontent₁, hothers₁, hsize₁⟩ :=
    exists_write hheadMade table.headBytes blob
  obtain ⟨disk₂, hwrite₂, hcontent₂, hothers₂, -⟩ := exists_write (hsize₁ ▸ hindexMade)
    (position (table.items - table.itemOffset + 1))
    (⟨.ofNat table.headId, .ofNat (table.headBytes + blob.length)⟩ : IndexEntry).encode
  have hroom := lt_of_not_overflows hover
  refine ⟨disk₂, ?_, ?_, ?_⟩
  · rw [outcome_append_next hindex (by omega), hover, if_neg (by decide)]
    exact outcome_writeItem hhead hroom hwrite₁ hwrite₂
  · rw [hothers₂ _ hapart, hcontent₁]
  · rw [hcontent₂, hothers₁ _ (Ne.symm hapart)]

theorem resize_encodeAll {count : Nat} (h : entries.length ≤ count) :
    (encodeAll entries).resize (position count) =
      encodeAll (entries ++ List.replicate (count - entries.length) sentinel) := by
  have hzeros : ∀ more, encodeAll (List.replicate more sentinel) =
      List.replicate (position more) 0 := by
    intro more
    induction more with
    | zero => rfl
    | succ more ih =>
        rw [List.replicate_succ, position_succ, List.replicate_add, ← ih]
        rfl
  obtain ⟨more, rfl⟩ := Nat.exists_eq_add_of_le h
  have hle : (encodeAll entries).length ≤ position (entries.length + more) := by
    rw [length_encodeAll, position, Nat.mul_comm]
    exact Nat.mul_le_mul_right _ h
  have hmore : position (entries.length + more) - (encodeAll entries).length = position more := by
    rw [length_encodeAll, position, position, Nat.add_mul, Nat.mul_comm width,
      Nat.add_sub_cancel_left]
  rw [Bytes.resize, List.take_of_length_le hle, hmore, encodeAll_append, hzeros,
    Nat.add_sub_cancel_left]

/-- An entry that is written behind the end of an index has sentinels before it. -/
theorem overwrite_encodeAll {count : Nat} (h : entries.length ≤ count) (entry : IndexEntry) :
    (encodeAll entries).overwrite (position count) entry.encode =
      encodeAll (entries ++ List.replicate (count - entries.length) sentinel ++ [entry]) := by
  have hne : entry.encode.isEmpty = false := by
    rw [List.isEmpty_eq_false_iff, ← List.length_pos_iff, length_encode]
    decide
  have hle : (encodeAll entries).length ≤ position count + entry.encode.length := by
    rw [length_encodeAll, position, Nat.mul_comm]
    exact Nat.le_trans (Nat.mul_le_mul_right _ h) (Nat.le_add_right _ _)
  rw [Bytes.overwrite, hne, if_neg (by decide), List.drop_eq_nil_of_le hle, List.append_nil,
    resize_encodeAll h, encodeAll_append _ [entry], encodeAll_singleton]

theorem getElem?_filled {count : Nat} (h : entries.length < count) (entry : IndexEntry) :
    (entries ++ List.replicate (count - entries.length) sentinel ++ [entry])[count - 1]? =
        some sentinel ∧
      (entries ++ List.replicate (count - entries.length) sentinel ++ [entry])[count - 1 + 1]? =
        some entry := by
  have hlength : (entries ++ List.replicate (count - entries.length) sentinel).length = count := by
    rw [List.length_append, List.length_replicate]
    omega
  constructor
  · rw [List.getElem?_append_left (by omega), List.getElem?_append_right (by omega),
      List.getElem?_replicate, if_pos (by omega)]
  · rw [Nat.sub_add_cancel (by omega), List.getElem?_append_right (Nat.le_of_eq hlength), hlength,
      Nat.sub_self, List.getElem?_cons_zero]

theorem outcome_retrieve_of_sentinel {index : Handle} (hindex : table.index = some index)
    (hread : ∀ n entry, entries[n]? = some entry →
      (readEntry index n).outcome disk = (.ok entry, disk))
    (hitem : table.itemOffset + n < table.items) (hbefore : entries[n]? = some sentinel)
    (hafter : entries[n + 1]? = some last) {id : FileId} {writable : Bool}
    (hget : table.segments.get? last.segment.toNat = some (.file id writable))
    (hlength : (disk.files.content id).length = last.offset.toNat) :
    (retrieve (table.itemOffset + n)).outcome (table, disk) =
      (.ok (disk.files.content id), (table, disk)) := by
  have hbefore' : (grounded entries)[n]? = some sentinel := by
    cases n with
    | zero =>
        rw [getElem?_grounded_zero, hbefore]
        rfl
    | succ n => rwa [getElem?_grounded_succ]
  have hstart : (Extent.between sentinel last).start = 0 := ite_self 0
  have hstop : (Extent.between sentinel last).stop = (disk.files.content id).length := hlength.symm
  have hslice : (disk.files.content id).slice? 0 (disk.files.content id).length =
      some (disk.files.content id) := by
    unfold Bytes.slice?
    split
    · next hzero => rw [List.length_eq_zero_iff.1 hzero]
    · simp
  rw [outcome_retrieve_of_get? hindex hread hitem hbefore' hafter hget, hstart, hstop, Nat.sub_zero,
    if_neg (Nat.not_lt_zero _), hslice]

theorem Indexed.segment_le_of_le (h : Indexed folder name entries) {i j : Nat}
    {before after : IndexEntry} (hbefore : entries[i]? = some before)
    (hafter : entries[j]? = some after) (hij : i ≤ j) :
    before.segment.toNat ≤ after.segment.toNat := by
  rcases Nat.eq_or_lt_of_le hij with rfl | hlt
  · rw [Option.some.inj (hbefore.symm.trans hafter)]
  · obtain ⟨entry, hentry, hsegment⟩ : ∃ entry, (grounded entries)[i]? = some entry ∧
        entry.segment = before.segment := by
      cases i with
      | zero =>
          rw [getElem?_grounded_zero, hbefore]
          exact ⟨_, rfl, rfl⟩
      | succ i => exact ⟨before, by rw [getElem?_grounded_succ, hbefore], rfl⟩
    obtain ⟨j, rfl⟩ := Nat.exists_eq_add_one_of_ne_zero (Nat.ne_zero_of_lt hlt)
    rw [← getElem?_grounded_succ] at hafter
    obtain ⟨hi, rfl⟩ := List.getElem?_eq_some_iff.1 hentry
    obtain ⟨hj, rfl⟩ := List.getElem?_eq_some_iff.1 hafter
    rw [← hsegment]
    exact (List.pairwise_iff_getElem.1 h.backed.ordered i (j + 1) hi hj hlt).segment_le

namespace Halved

section reading

variable {cap : Nat} (hheld : Held disk.files number folder name entries)
  (h : Halved number name entries n last (tableOf folder number root name cap entries) disk table'
    disk')

include h

theorem index_eq : table'.index = some (.file (number (indexFileName name)) true) := by
  rw [h.counters]
  rfl

theorem name_eq : table'.name = name := by
  rw [h.counters]
  rfl

theorem items_eq : table'.items = (firstOf entries).offset.toNat + (entries.length - 1) := by
  rw [h.counters]
  rfl

theorem itemOffset_eq : table'.itemOffset = (firstOf entries).offset.toNat := by
  rw [h.counters]
  rfl

theorem headId_eq : table'.headId = (lastOf entries).segment.toNat := by
  rw [h.counters]
  rfl

theorem headBytes_eq : table'.headBytes =
    (segmentBytes folder name (lastOf entries).segment.toNat).length := by
  rw [h.counters]
  rfl

theorem overflows_eq (len : Nat) : table'.overflows len =
    (tableOf folder number root name cap entries).overflows len := by
  rw [h.counters]
  rfl

include hheld

theorem outcome_readEntry {m : Nat} {entry : IndexEntry}
    (hentry : (entries.take (n + 1))[m]? = some entry) :
    (readEntry (.file (number (indexFileName name)) true) m).outcome disk' =
      (.ok entry, disk') := by
  refine outcome_readEntry_of_content h.index ?_
  rwa [Audit.entries_encodeAll fun entry hmem =>
    hheld.indexed.storable entry (List.mem_of_mem_take hmem)]

omit hheld in
theorem outcome_retrieve_above {m : Nat} (hlow : n ≤ m) (hhigh : m + 1 < entries.length) :
    (retrieve ((firstOf entries).offset.toNat + m)).outcome (table', disk') =
      (.error (.io .endOfFile), (table', disk')) := by
  have hread : (readEntry (.file (number (indexFileName name)) true) (m + 1)).outcome disk' =
      (.error (.io .endOfFile), disk') := by
    refine outcome_readEntry_of_le h.index ?_
    rw [List.length_take]
    omega
  unfold retrieve
  rw [outcome_bind_ok (outcome_openIndex h.index_eq disk'),
    outcome_bind_ok (outcome_current _ _), if_neg (by rw [h.items_eq, h.itemOffset_eq]; omega),
    h.itemOffset_eq, Nat.add_sub_cancel_left]
  unfold extent
  rw [outcome_bind_error (outcome_onSecond_of (outcome_bind_error hread _) _)]

theorem outcome_retrieve_below {m : Nat} {item : Bytes} {after : IndexEntry}
    (hlast : entries[n]? = some last) (hm : m < n)
    (hitem : (storedItems folder name entries)[m]? = some item)
    (hafter : entries[m + 1]? = some after) (hsegment : after.segment ≠ last.segment) :
    (retrieve ((firstOf entries).offset.toNat + m)).outcome (table', disk') =
      (.ok item, (table', disk')) := by
  obtain ⟨before, after', content, hbefore, hafter', hcontent, hstart, hslice⟩ :=
    hheld.indexed.exists_extent hitem
  obtain rfl : after = after' := Option.some.inj (hafter.symm.trans hafter')
  have hmem := List.mem_of_getElem? hafter
  have hlow := hheld.indexed.le_segment hmem
  have hhigh := hheld.indexed.segment_le hmem
  have hlt : after.segment.toNat < last.segment.toNat :=
    Nat.lt_of_le_of_ne (hheld.indexed.segment_le_of_le hafter hlast hm)
      fun heq => hsegment (UInt32.toNat_inj.1 heq)
  obtain ⟨writable, hget⟩ := exists_get?_segmentsBy number name hlow hhigh
  have hopened : table'.segments.get? after.segment.toNat =
      some (.file (number (segmentFileName name after.segment.toNat)) writable) :=
    (h.below _ hlt).trans hget
  have hfile : disk'.files.content (number (segmentFileName name after.segment.toNat)) = content :=
    (h.contents _ (hheld.apart _ hlow hhigh)).trans
      (hheld.holds _ _ (isFileWithin_segment name hlow hhigh) hcontent)
  have hlength := (List.getElem?_eq_some_iff.1 hafter).1
  have hcount : table'.itemOffset + m < table'.items := by
    rw [h.items_eq, h.itemOffset_eq]
    omega
  have hbefore' : (grounded (entries.take (n + 1)))[m]? = some before := by
    rw [grounded_take, List.getElem?_take_of_lt (by omega), hbefore]
  have hafter' : (entries.take (n + 1))[m + 1]? = some after := by
    rw [List.getElem?_take_of_lt (by omega), hafter]
  have hrun := outcome_retrieve_of_get? h.index_eq (fun n entry => h.outcome_readEntry hheld) hcount
    hbefore' hafter' hopened
  rw [if_neg (Nat.not_lt.2 hstart), hfile, hslice, h.itemOffset_eq] at hrun
  exact hrun

theorem outcome_retrieve_lost {m : Nat} {after : IndexEntry} (hm : m < n)
    (hafter : entries[m + 1]? = some after)
    (hlost : table'.segments.get? after.segment.toNat = none) :
    (retrieve ((firstOf entries).offset.toNat + m)).outcome (table', disk') =
      (.error (.missingSegment name after.segment.toNat), (table', disk')) := by
  have hlength := (List.getElem?_eq_some_iff.1 hafter).1
  obtain ⟨before, hbefore⟩ : ∃ before, (grounded (entries.take (n + 1)))[m]? = some before := by
    refine ⟨_, List.getElem?_eq_getElem ?_⟩
    rw [length_grounded, List.length_take]
    omega
  have hafter' : (entries.take (n + 1))[m + 1]? = some after := by
    rw [List.getElem?_take_of_lt (by omega), hafter]
  have hlies : LiesAt table' disk' ((firstOf entries).offset.toNat + m)
      (Extent.between before after) := by
    refine ⟨by rw [h.itemOffset_eq]; omega, by rw [h.items_eq]; omega, _, h.index_eq, ?_⟩
    rw [h.itemOffset_eq, Nat.add_sub_cancel_left]
    exact outcome_extent (fun n entry => h.outcome_readEntry hheld) hbefore hafter'
  rw [← h.name_eq]
  exact hlies.outcome_retrieve_missing hlost

omit hheld in
theorem outcome_append_released {blob : Bytes}
    (hreleased : table'.segments.get? (lastOf entries).segment.toNat = none)
    (hover : (tableOf folder number root name cap entries).overflows blob.length = false) :
    (append ((firstOf entries).offset.toNat + (entries.length - 1)) blob).outcome
        (table', disk') =
      (.error (.missingSegment name (lastOf entries).segment.toNat), (table', disk')) := by
  have hmissing := outcome_append_missing (by simp [h.index_eq]) (h.headId_eq ▸ hreleased)
    (h.overflows_eq _ ▸ hover) disk'
  rwa [h.items_eq, h.headId_eq, h.name_eq] at hmissing

/-- Where the old head is still open, an item can be added to it.  The entries that are missing
are filled in as sentinels, so that the item is read back with all that lies before it. -/
theorem exists_append_lost {blob : Bytes} (hn : n + 1 < entries.length)
    (hhead : table'.segments.get? (lastOf entries).segment.toNat =
      some (.file (number (segmentFileName name (lastOf entries).segment.toNat)) true))
    (hover : (tableOf folder number root name cap entries).overflows blob.length = false) :
    ∃ state entry, (append ((firstOf entries).offset.toNat + (entries.length - 1)) blob).outcome
        (table', disk') = (.ok (), state) ∧
      state.2.files.content (number (indexFileName name)) = encodeAll (entries.take (n + 1) ++
        List.replicate (entries.length - (n + 1)) sentinel ++ [entry]) ∧
      (retrieve ((firstOf entries).offset.toNat + (entries.length - 1))).outcome state =
        (.ok (segmentBytes folder name (lastOf entries).segment.toNat ++ blob), state) := by
  have hindexed := hheld.indexed
  have hle := hindexed.tail_le_head
  have hheadFile := isFileWithin_segment name hle (Nat.le_refl _)
  obtain ⟨content, hcontent⟩ := Option.ne_none_iff_exists'.1 hindexed.headThere
  have hbytes : segmentBytes folder name (lastOf entries).segment.toNat = content := by
    rw [segmentBytes, hcontent, Option.getD_some]
  have hstop : content.length + blob.length < offsetLimit := by
    rw [← hbytes]
    exact lt_of_not_overflows hover
  have hapart := hheld.apart _ hle (Nat.le_refl _)
  obtain ⟨disk₁, hrun, hdata, hindex⟩ := exists_append_inPlace h.index_eq (h.headId_eq ▸ hhead)
    (h.overflows_eq _ ▸ hover) hapart
    (Nat.lt_of_lt_of_le (hheld.made _ (isFileWithin_index _ _ _)) h.size)
    (Nat.lt_of_lt_of_le (hheld.made _ hheadFile) h.size)
  generalize hentry : (⟨.ofNat table'.headId, .ofNat (table'.headBytes + blob.length)⟩ :
    IndexEntry) = entry at hindex
  have hsegment : entry.segment.toNat = (lastOf entries).segment.toNat := by
    rw [← hentry, h.headId_eq, UInt32.ofNat_toNat]
  have hoffset : entry.offset.toNat = content.length + blob.length := by
    rw [← hentry, h.headBytes_eq, hbytes]
    exact UInt32.toNat_ofNat_of_lt' hstop
  have hlength : (entries.take (n + 1)).length = n + 1 := by
    rw [List.length_take]
    omega
  have hcount : table'.items - table'.itemOffset + 1 = entries.length := by
    rw [h.items_eq, h.itemOffset_eq]
    omega
  rw [h.index, hcount, overwrite_encodeAll (by omega), hlength] at hindex
  rw [h.contents _ hapart, hheld.holds _ _ hheadFile hcontent, h.headBytes_eq, hbytes,
    Bytes.overwrite_length] at hdata
  rw [h.items_eq] at hrun
  refine ⟨_, entry, hrun, hindex, ?_⟩
  have hstorable : ∀ e ∈ entries.take (n + 1) ++
      List.replicate (entries.length - (n + 1)) sentinel ++ [entry], e.IsStorable := by
    intro e hmem
    simp only [List.mem_append, List.mem_replicate, List.mem_singleton] at hmem
    rcases hmem with (hmem | ⟨-, rfl⟩) | rfl
    · exact hindexed.storable e (List.mem_of_mem_take hmem)
    · exact isStorable_sentinel
    · rw [IsStorable, hsegment]
      exact hindexed.head_le
  -- the last of the sentinels stands where the item before would end
  obtain ⟨hbefore, hafter⟩ := getElem?_filled (hlength.trans_lt hn) entry
  rw [hlength] at hbefore hafter
  have hget : table'.segments.get? entry.segment.toNat =
      some (.file (number (segmentFileName name (lastOf entries).segment.toNat)) true) := by
    rw [hsegment, hhead]
  have hopened : ∀ headBytes items : Nat, ({ table' with headBytes, items } : Table).index =
      some (.file (number (indexFileName name)) true) := fun _ _ => h.index_eq
  rw [hbytes, ← hdata, ← h.itemOffset_eq]
  exact outcome_retrieve_of_sentinel (hopened _ _)
    (fun n e he => outcome_readEntry_of_content hindex (by rwa [Audit.entries_encodeAll hstorable]))
    (Nat.lt_succ_self _) hbefore hafter hget (by rw [hdata, hoffset, List.length_append])

end reading

end Halved

/-! ### Cuts that fail -/

/-- What a cut to `n` items leaves that failed halfway.  The index ends with the entry that bounds
the last of these items; its segment was to become the head. -/
structure HalfCut (folder : Folder) (number : String → FileId) (name : String)
    (entries : List IndexEntry) (n : Nat) (last : IndexEntry) (table : Table) (disk : Disk)
    (table' : Table) (disk' : Disk) : Prop where
  index : disk.files.content (number (indexFileName name)) = encodeAll entries ∧
    disk'.files.content (number (indexFileName name)) = encodeAll (entries.take (n + 1))
  contents : ∀ id ≠ number (indexFileName name), disk'.files.content id = disk.files.content id
  /-- Items that were to be dropped are counted, but cannot be read. -/
  above : ∀ m, n ≤ m → m + 1 < entries.length →
    (retrieve (table.itemOffset + m)).outcome (table', disk') =
      (.error (.io .endOfFile), (table', disk'))
  /-- Items before the new head are answered as before. -/
  below : ∀ m item after, m < n → (storedItems folder name entries)[m]? = some item →
    entries[m + 1]? = some after → after.segment ≠ last.segment →
      (retrieve (table.itemOffset + m)).outcome (table', disk') = (.ok item, (table', disk'))
  /-- Either the new head was lost, and an item that fits the old one is read back with all that
  lies before it; or the old one was let go, and no such item can be added. -/
  next :
    ((∀ m after, m < n → entries[m + 1]? = some after → after.segment = last.segment →
        (retrieve (table.itemOffset + m)).outcome (table', disk') =
          (.error (.missingSegment name last.segment.toNat), (table', disk'))) ∧
      ∀ blob, table.overflows blob.length = false → ∃ state entry,
        (append table.items blob).outcome (table', disk') = (.ok (), state) ∧
        state.2.files.content (number (indexFileName name)) = encodeAll (entries.take (n + 1) ++
          List.replicate (entries.length - (n + 1)) sentinel ++ [entry]) ∧
        (retrieve table.items).outcome state =
          (.ok (segmentBytes folder name table.headId ++ blob), state)) ∨
    ∀ blob, table.overflows blob.length = false →
      (append table.items blob).outcome (table', disk') =
        (.error (.missingSegment name table.headId), (table', disk'))

/-- A cut that fails leaves the counters as they are.  Either it was refused, since it would have
cut into the items that were pruned, and nothing was changed; or it was left half done. -/
theorem failed_truncate (hheld : Held disk.files number folder name entries)
    (htable : table = tableOf folder number root name table.cap entries) {items : Nat} {e : Error}
    (hrun : (truncate items).outcome (table, disk) = (.error e, (table', disk'))) :
    table' = { table with segments := table'.segments } ∧
      (items < table.itemOffset ∧ e = .outOfBounds items table.itemOffset table.items ∧
          table' = table ∧ disk' = disk ∨
        ∃ n last, items = table.itemOffset + n ∧ items < table.items ∧ entries[n]? = some last ∧
          last.segment.toNat < table.headId ∧
          HalfCut folder number name entries n last table disk table' disk') := by
  generalize table.cap = cap at htable
  subst htable
  have hopen : (tableOf folder number root name cap entries).index =
      some (.file (number (indexFileName name)) true) := rfl
  by_cases hle : (tableOf folder number root name cap entries).items ≤ items
  · rw [outcome_truncate_of_le hopen hle] at hrun
    simp at hrun
  by_cases hlow : items < (tableOf folder number root name cap entries).itemOffset
  · rw [outcome_truncate_of_lt hopen (Nat.lt_of_not_le hle) hlow] at hrun
    obtain ⟨he, htable, hdisk⟩ := by simpa using hrun
    exact ⟨htable ▸ rfl, .inl ⟨hlow, he.symm, htable.symm, hdisk.symm⟩⟩
  simp only [tableOf, Nat.not_le, Nat.not_lt] at hle hlow
  obtain ⟨n, rfl⟩ := Nat.exists_eq_add_of_le hlow
  have hn : n + 1 < entries.length := by omega
  obtain ⟨last, hlast⟩ : ∃ last, entries[n]? = some last :=
    ⟨_, List.getElem?_eq_getElem (Nat.lt_of_succ_lt hn)⟩
  obtain ⟨hsegment, hhalved, hgone⟩ := hheld.halved_of_truncate cap hn hlast hrun
  have hlt := Nat.lt_of_le_of_ne (hheld.indexed.segment_le (List.mem_of_getElem? hlast))
    fun heq => hsegment (UInt32.toNat_inj.1 heq)
  refine ⟨hhalved.counters, .inr ⟨n, last, rfl, hle, hlast, hlt,
    ⟨hheld.content_index, hhalved.index⟩, hhalved.contents,
    fun m => hhalved.outcome_retrieve_above, fun m item after hm hitem hafter hne =>
      hhalved.outcome_retrieve_below hheld hlast hm hitem hafter hne, ?_⟩⟩
  rcases hgone with ⟨hlost, hhead⟩ | hreleased
  · refine .inl ⟨fun m after hm hafter hsame => ?_, fun blob hover =>
      hhalved.exists_append_lost hheld hn hhead hover⟩
    have hmissing := hhalved.outcome_retrieve_lost hheld hm hafter (hsame ▸ hlost)
    rwa [hsame] at hmissing
  · exact .inr fun blob hover => hhalved.outcome_append_released hreleased hover

/-- Two items of a table, each in a segment of its own. -/
def twoSegments : FileSystem :=
  .ofListing [(indexFileName Column.hashes.name, encodeAll [⟨0, 0⟩, ⟨0, 3⟩, ⟨1, 1⟩]),
    (segmentFileName Column.hashes.name 0, [1, 2, 3]),
    (segmentFileName Column.hashes.name 1, [9])]

/-- The same, but that the name of the first segment stands for a directory. -/
def obstructed : FileSystem :=
  { twoSegments with
    names := Effect.assign twoSegments.names ["a", segmentFileName Column.hashes.name 0]
      .directory }

/-- Cutting away the second item fails, as the first segment cannot be opened anew. -/
theorem failed_truncate_obstructed :
    ∃ table table' disk', table = opened twoSegments ["a"] ⟨["", "a"]⟩ Column.hashes.name 3
        [⟨0, 0⟩, ⟨0, 3⟩, ⟨1, 1⟩] ∧
      (truncate 1).outcome (table, Disk.ofFiles obstructed) =
        (.error (.io .isADirectory), (table', disk')) ∧
      table'.items = 2 ∧ table'.headId = 1 ∧
      (retrieve 1).outcome (table', disk') = (.error (.io .endOfFile), (table', disk')) := by
  have hfolder : twoSegments.folder ["a"] = fun file => List.lookup file
      [(indexFileName Column.hashes.name, encodeAll [⟨0, 0⟩, ⟨0, 3⟩, ⟨1, 1⟩]),
        (segmentFileName Column.hashes.name 0, [1, 2, 3]),
        (segmentFileName Column.hashes.name 1, [9])] := FileSystem.folder_ofListing _
  have hsteady : Steady (twoSegments.folder ["a"]) Column.hashes.name
      [⟨0, 0⟩, ⟨0, 3⟩, ⟨1, 1⟩] := by
    rw [hfolder]
    refine ⟨⟨by decide +kernel, by decide +kernel, ⟨by decide, rfl, ?_, ?_, ?_, ?_⟩⟩,
      .inl (by decide +kernel)⟩
    · simp [grounded, IsStorable]
    · simp [grounded, Precedes]
    · decide +kernel
    · intro id _ hlt
      obtain rfl : id = 0 := by simpa [grounded, lastOf] using hlt
      decide +kernel
  have hhouses : twoSegments.Houses Archive.IsFile ⟨["", "a"]⟩ ["a"] :=
    Archive.houses_ofListing _
  have hrepresents : Represents Archive.IsFile ["a"] ⟨["", "a"]⟩ Column.hashes.name 0
      [⟨0, 0⟩, ⟨0, 3⟩, ⟨1, 1⟩]
      ⟨storedItems (twoSegments.folder ["a"]) Column.hashes.name [⟨0, 0⟩, ⟨0, 3⟩, ⟨1, 1⟩],
        leftIn (twoSegments.folder ["a"]) Column.hashes.name [⟨0, 0⟩, ⟨0, 3⟩, ⟨1, 1⟩], true⟩
      (opened twoSegments ["a"] ⟨["", "a"]⟩ Column.hashes.name 3 [⟨0, 0⟩, ⟨0, 3⟩, ⟨1, 1⟩],
        Disk.ofFiles twoSegments) :=
    ⟨hhouses, hsteady, rfl, rfl, rfl, fun _ => ⟨3, rfl⟩, by simp⟩
  have hheld : Held (Disk.ofFiles obstructed).files _ _ _ _ := hrepresents.held rfl
  have hrun : ((truncate 1).outcome (opened twoSegments ["a"] ⟨["", "a"]⟩ Column.hashes.name 3
      [⟨0, 0⟩, ⟨0, 3⟩, ⟨1, 1⟩], Disk.ofFiles obstructed)).1 = .error (.io .isADirectory) := by
    decide +kernel
  refine ⟨_, _, _, rfl, Prod.ext hrun rfl, ?_⟩
  obtain ⟨hcounters, ⟨hlow, -⟩ | ⟨n, last, hn, -, hlast, -, hcut⟩⟩ :=
    failed_truncate hheld rfl (Prod.ext hrun rfl)
  · simp [opened] at hlow
  · obtain rfl : n = 1 := by simpa using hn.symm
    exact ⟨congrArg Table.items hcounters, congrArg Table.headId hcounters,
      hcut.above 1 (Nat.le_refl _) (by decide)⟩

/-- The table was opened while all was well.  After the cut that failed, the second item cannot be
read any more, and the next one is read back with the second one before it. -/
theorem exists_half_cut :
    let start := (do
        let _ ← serve ⟨["", "a"]⟩ Column.hashes.name (.reopen 3)
        onSecond (Disk.removeFile (segmentPath ⟨["", "a"]⟩ Column.hashes.name 0))
        onSecond (Disk.makeDirectory (segmentPath ⟨["", "a"]⟩ Column.hashes.name 0)) :
          Action (Table × Disk) Unit).outcome
        (unopened ⟨["", "a"]⟩ Column.hashes.name, Disk.ofFiles twoSegments)
    let cut := (truncate 1).outcome start.2
    let more := (append 2 [7]).outcome cut.2
    start.1 = .ok () ∧ ((retrieve 1).outcome start.2).1 = .ok [9] ∧
      cut.1 = .error (.io .isADirectory) ∧
      cut.2.2.files.folder ["a"] (indexFileName Column.hashes.name) =
        some (encodeAll [⟨0, 0⟩, ⟨0, 3⟩]) ∧
      ((retrieve 1).outcome cut.2).1 = .error (.io .endOfFile) ∧
      more.1 = .ok () ∧ ((retrieve 2).outcome more.2).1 = .ok [9, 7] := by
  intro start cut more
  decide +kernel

end Table

end BlockArchive
