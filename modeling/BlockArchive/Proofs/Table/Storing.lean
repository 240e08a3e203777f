import BlockArchive.Proofs.Table.Counting

/-! # Entries that can be stored

An index entry has sixteen bits for the id of a segment, and a larger id would be stored as a
smaller one.  That never happens, whatever a table was opened on and whatever became of its files
since.

* **Ids.** The head of a table that was opened is named by an entry that was read, and an id that
  was read can be stored (`headId_le_of_openIn`).  A rotation stops at the last id, and a cut goes
  to a segment that an entry names.  So the id of the head can be stored while the table is in use
  (`InUse.headId_le`).
* **`headEnd`** is the entry that an append writes, and `StoresEntry` says that it is written to its
  place in the index, and read from there as it was (`InUse.storesEntry`).
* **No two ids** are stored alike (`InUse.take_headEnd_eq_iff`). -/

namespace BlockArchive.Table

open IndexEntry Attempt

variable {root : Path} {name : String} {cap : Nat} {table table' : Table} {disk disk' : Disk}
  {item : Nat} {blob : Bytes}

/-! ### The id of the head -/

section settle

variable {index head : Handle} {before length : Nat} {last : IndexEntry} {settled : Settled}

theorem last_of_settle_of_le (hle : last.offset.toNat ≤ length)
    (hrun : (settle root name index before last head length).outcome disk =
      (.ok settled, disk')) : settled.last = last := by
  rw [settle_of_le _ _ _ _ hle] at hrun
  split at hrun
  · obtain ⟨_, _, -, hrun⟩ := exists_of_outcome_bind hrun
    obtain ⟨rfl, -⟩ := by simpa [outcome_pure] using hrun
    rfl
  · obtain ⟨rfl, -⟩ := by simpa [outcome_pure] using hrun
    rfl

theorem isStorable_of_settle (hlast : last.IsStorable)
    (hrun : (settle root name index before last head length).outcome disk =
      (.ok settled, disk')) : settled.last.IsStorable := by
  induction before generalizing last head length disk with
  | zero =>
      by_cases hle : last.offset.toNat ≤ length
      · rwa [last_of_settle_of_le hle hrun]
      rw [settle_zero_of_lt _ _ _ _ (Nat.lt_of_not_le hle)] at hrun
      split at hrun
      · obtain ⟨_, _, -, hrun⟩ := exists_of_outcome_bind hrun
        obtain ⟨rfl, -⟩ := by simpa [outcome_pure] using hrun
        exact hlast
      · obtain ⟨rfl, -⟩ := by simpa [outcome_pure] using hrun
        exact hlast
  | succ before ih =>
      by_cases hle : last.offset.toNat ≤ length
      · rwa [last_of_settle_of_le hle hrun]
      rw [settle_succ_of_lt _ _ _ _ (Nat.lt_of_not_le hle)] at hrun
      obtain ⟨_, _, -, hrun⟩ := exists_of_outcome_bind hrun
      obtain ⟨previous, _, hread, hrun⟩ := exists_of_outcome_bind hrun
      have hprevious := (isStorable_of_readEntry hread).1
      split at hrun
      · exact ih hprevious hrun
      · obtain ⟨_, _, -, hrun⟩ := exists_of_outcome_bind hrun
        exact ih hprevious hrun

end settle

theorem headId_le_of_openIn (h : (openIn root name cap).outcome disk = (.ok table, disk')) :
    table.headId ≤ lastSegmentId := by
  cases openSteps_of_outcome h with
  | steps hmake hindex htrim hfirst hlast hhead hsettle hhistory hreopen =>
  exact isStorable_of_settle (isStorable_of_readEntry hlast).1 hsettle

theorem Rotates.headId_le (h : table.headId ≤ lastSegmentId) {answer : Except Error Unit}
    (hrotates : Rotates table disk answer table' disk') : table'.headId ≤ lastSegmentId := by
  cases hrotates with
  | exhausted | blocked | lost => exact h
  | done hnext hold hlast => exact hlast

theorem Appends.headId_le (h : table.headId ≤ lastSegmentId) {answer : Except Error Unit}
    (happends : Appends table disk item blob answer table' disk') :
    table'.headId ≤ lastSegmentId := by
  cases happends with
  | refused | fitted => exact h
  | unrotated hindex hrotate => exact (rotates_of_outcome hrotate).headId_le h
  | rotated hitem hover hrotate hwrites =>
      have hstart := (rotates_of_outcome hrotate).headId_le h
      exact hstart

theorem Switches.headId_le (h : table.headId ≤ lastSegmentId) {new : Nat}
    (hnew : new ≤ lastSegmentId) {answer : Except Error Unit}
    (hswitches : Switches table disk new answer table' disk') : table'.headId ≤ lastSegmentId := by
  cases hswitches with
  | blocked | held => exact h
  | done => exact hnew

theorem Cuts.headId_le (h : Equipped table) (hheadId : table.headId ≤ lastSegmentId) {items : Nat}
    {answer : Except Error Unit} (hcuts : Cuts table disk items answer table' disk') :
    table'.headId ≤ lastSegmentId := by
  cases hcuts with
  | kept | unread => exact hheadId
  | unswitched hshort hread hne hswitches =>
      exact hswitches.headId_le hheadId (isStorable_of_readEntry hread).1
  | missing hshort hread hgoes hlost =>
      rw [(h.goesOn hgoes).2]
      exact (isStorable_of_readEntry hread).1
  | done hshort hread hgoes hhead hcut =>
      refine Nat.le_trans (Nat.le_of_eq (h.goesOn hgoes).2) ?_
      exact (isStorable_of_readEntry hread).1

/-- The id of the head of a table in use can be stored. -/
theorem InUse.headId_le (h : InUse root name table) : table.headId ≤ lastSegmentId := by
  induction h with
  | opened hopen => exact headId_le_of_openIn hopen
  | served huse hserve ih =>
      have hequipped := huse.equipped
      cases steps_of_serve hserve with
      | rests | unopened | closes => exact ih
      | appends happend => exact (hequipped.appends happend).headId_le ih
      | cuts hcut => exact (hequipped.cuts hcut).headId_le hequipped ih
      | reopens hopen => exact headId_le_of_openIn hopen

/-! ### The entry of an item -/

/-- The entry that says where the head of a table ends. -/
def headEnd (table : Table) : IndexEntry :=
  ⟨.ofNat table.headId, .ofNat table.headBytes⟩

theorem isStorable_headEnd (h : table.headId ≤ lastSegmentId) : table.headEnd.IsStorable :=
  Nat.le_trans (Nat.le_of_eq (headEntry_segment h 0)) h

/-- Six bytes start with the id of the head if it is this segment that is read from them. -/
theorem take_eq_headEnd_iff (h : table.headId ≤ lastSegmentId) {bytes : Bytes}
    (hbytes : bytes.length = width) :
    bytes.take 2 = table.headEnd.encode.take 2 ↔ (decode bytes).segment.toNat = table.headId := by
  have hsegment : table.headEnd.segment.toNat = table.headId := headEntry_segment h 0
  rw [take_eq_take_iff hbytes (length_encode _), decode_encode_of_isStorable (isStorable_headEnd h),
    ← UInt32.toNat_inj, hsegment]

/-- An item was appended: the last thing that was done is that its entry was written to its place in
the index.  It has the id of the head and the byte at which the head ends, and is read so.  Nothing
that names another segment starts with the same two bytes. -/
structure StoresEntry (item : Nat) (blob : Bytes) (state state' : Table × Disk) : Prop where
  headId : state'.1.headId =
    if state.1.overflows blob.length then state.1.headId + 1 else state.1.headId
  headBytes : state'.1.headBytes =
    (if state.1.overflows blob.length then 0 else state.1.headBytes) + blob.length
  headId_le : state'.1.headId ≤ lastSegmentId
  segment : state'.1.headEnd.segment.toNat = state'.1.headId
  offset : state'.1.headEnd.offset.toNat = state'.1.headBytes
  unaliased : ∀ bytes : Bytes, bytes.length = width →
    (bytes.take 2 = state'.1.headEnd.encode.take 2 ↔
      (decode bytes).segment.toNat = state'.1.headId)
  stored : ∃ id, state.1.index = some (.file id true) ∧
    state'.2.journal.head? =
      some (.write id (position (item - state.1.itemOffset + 1)) state'.1.headEnd.encode) ∧
    (id < state.2.files.contents.size →
      (readEntry (.file id true) (item - state.1.itemOffset + 1)).outcome state'.2 =
        (.ok state'.1.headEnd, state'.2))

theorem exists_writeEntry {index : Handle} (hopen : index.IsWritable) {n : Nat}
    {entry : IndexEntry}
    (hwrite : (index.write (position n) entry.encode).outcome disk = (.ok (), disk')) :
    ∃ id, index = .file id true ∧
      disk'.journal = .write id (position n) entry.encode :: disk.journal ∧
      (entry.IsStorable → id < disk.files.contents.size →
        (readEntry (.file id true) n).outcome disk' = (.ok entry, disk')) := by
  obtain ⟨id, rfl⟩ := hopen
  unfold Handle.write at hwrite
  rw [if_neg (by simpa using encode_ne_nil entry)] at hwrite
  obtain rfl := (Prod.mk.inj hwrite).2
  refine ⟨id, rfl, rfl, fun hstorable hsize => ?_⟩
  have hread := Bytes.slice?_overwrite (disk.files.content id) (position n) entry.encode
  rw [length_encode] at hread
  unfold readEntry
  rw [outcome_bind, Handle.outcome_read_of_content (Effect.content_write_same _ _ hsize), hread]
  exact congrArg (fun entry => (Except.ok entry, _)) (decode_encode_of_isStorable hstorable)

theorem Writes.exists_stored (h : Equipped table) (hheadId : table.headId ≤ lastSegmentId)
    (hwrites : Writes table blob disk disk') :
    ∃ id, table.index = some (.file id true) ∧
      disk'.journal.head? = some (.write id (position (table.items - table.itemOffset + 1))
        (table.headEntry blob.length).encode) ∧
      (id < disk.files.contents.size →
        (readEntry (.file id true) (table.items - table.itemOffset + 1)).outcome disk' =
          (.ok (table.headEntry blob.length), disk')) := by
  obtain ⟨-, index, head, disk₁, hindex, -, hblob, hentry⟩ := hwrites
  obtain ⟨id, rfl, hjournal, hread⟩ := exists_writeEntry (h.index index hindex) hentry
  have hleads := (head.onlyPerforms_write table.headBytes blob).of_outcome hblob
  have hstorable : (table.headEntry blob.length).IsStorable :=
    Nat.le_trans (Nat.le_of_eq (headEntry_segment hheadId blob.length)) hheadId
  refine ⟨id, hindex, by rw [hjournal, List.head?_cons], fun hsize => ?_⟩
  exact hread hstorable (Nat.lt_of_lt_of_le hsize hleads.size_le)

/-- Every entry that a table in use appends can be stored, and is read as it was written. -/
theorem InUse.storesEntry (h : InUse root name table)
    (hrun : (append item blob).outcome (table, disk) = (.ok (), (table', disk'))) :
    StoresEntry item blob (table, disk) (table', disk') := by
  have hequipped := h.equipped
  cases hequipped.appends hrun with
  | fitted hitem hover hwrites =>
      subst hitem
      obtain ⟨id, hindex, hjournal, hread⟩ := hwrites.exists_stored hequipped h.headId_le
      exact {
        headId := by simp [hover]
        headBytes := by simp [hover]
        headId_le := h.headId_le
        segment := headEntry_segment h.headId_le blob.length
        offset := headEntry_offset hwrites.room
        unaliased := fun bytes => take_eq_headEnd_iff h.headId_le
        stored := ⟨id, hindex, hjournal, hread⟩ }
  | @rotated start disk₁ _ hitem hover hrotate hwrites =>
      subst hitem
      have hleads := onlyPerforms_rotate.of_outcome hrotate
      have hrotates := rotates_of_outcome hrotate
      have hstart := hequipped.rotates hrotates
      have hheadId := hrotates.headId_le h.headId_le
      obtain ⟨id, hindex, hjournal, hread⟩ := hwrites.exists_stored hstart hheadId
      cases hrotates with
      | done hnext hold hlast =>
          exact {
            headId := by simp [hover]
            headBytes := by simp [hover]
            headId_le := hheadId
            segment := headEntry_segment hheadId blob.length
            offset := headEntry_offset hwrites.room
            unaliased := fun bytes => take_eq_headEnd_iff hheadId
            stored := ⟨id, hindex, hjournal, fun hsize =>
              hread (Nat.lt_of_lt_of_le hsize (Disk.LeadsTo.size_le hleads))⟩ }

/-- The heads of two tables in use are stored with the same id if they have the same. -/
theorem InUse.take_headEnd_eq_iff {root' : Path} {name' : String} (h : InUse root name table)
    (h' : InUse root' name' table') :
    table.headEnd.encode.take 2 = table'.headEnd.encode.take 2 ↔ table.headId = table'.headId := by
  have hsegment : table.headEnd.segment.toNat = table.headId := headEntry_segment h.headId_le 0
  rw [take_eq_headEnd_iff h'.headId_le (length_encode _),
    decode_encode_of_isStorable (isStorable_headEnd h.headId_le), hsegment]

end BlockArchive.Table
