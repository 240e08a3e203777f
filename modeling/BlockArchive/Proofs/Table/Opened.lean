import BlockArchive.Proofs.FileActions
import BlockArchive.Proofs.Table.Files

/-! # An open table and its files

What an open table holds follows from its files: `Table.opened` gives, for the entries of the
index, the counters and the open files.

* **Frame.** An open table depends only on its own files (`opened_congr`), so that what is done to
  other files of the directory leaves it alone (`Untouched.opened_eq`).
* **Looking up.** `outcome_readEntry_of_index`, `outcome_openIndex` and `outcome_openSegment` say
  what the steps that all operations share answer on such a table. -/

namespace BlockArchive.Table

open IndexEntry FileSystem

/-- The open segments from the tail to the head; only the head can be written to. -/
def openSegments (files : FileSystem) (place : Location) (name : String) (tail head : Nat) :
    Segments :=
  (List.range' tail (head - tail)).map
      (fun id => (id, .file (files.number place (segmentFileName name id)) false)) ++
    [(head, .file (files.number place (segmentFileName name head)) true)]

/-- The table that is open when its index has these entries. -/
def opened (files : FileSystem) (place : Location) (root : Path) (name : String) (cap : Nat)
    (entries : List IndexEntry) : Table where
  dir := root
  name := name
  cap := cap
  items := (firstOf entries).offset.toNat + (entries.length - 1)
  headId := (lastOf entries).segment.toNat
  headBytes :=
    (segmentBytes (files.folder place) name (lastOf entries).segment.toNat).length
  tailId := (firstOf entries).segment.toNat
  itemOffset := (firstOf entries).offset.toNat
  index := some (.file (files.number place (indexFileName name)) true)
  segments :=
    openSegments files place name (firstOf entries).segment.toNat (lastOf entries).segment.toNat

/-- The table with `head` as its head, `bytes` bytes long. -/
def headed (files : FileSystem) (place : Location) (table : Table) (head bytes : Nat) : Table :=
  { table with
    headId := head
    headBytes := bytes
    segments := openSegments files place table.name table.tailId head }

section fields

variable (files : FileSystem) (place : Location) (root : Path) (name : String) (cap : Nat)
  (entries : List IndexEntry)

@[simp] theorem opened_dir : (opened files place root name cap entries).dir = root := rfl

@[simp] theorem opened_name : (opened files place root name cap entries).name = name := rfl

@[simp] theorem opened_cap : (opened files place root name cap entries).cap = cap := rfl

@[simp] theorem opened_items : (opened files place root name cap entries).items =
    (firstOf entries).offset.toNat + (entries.length - 1) := rfl

@[simp] theorem opened_headId : (opened files place root name cap entries).headId =
    (lastOf entries).segment.toNat := rfl

@[simp] theorem opened_headBytes : (opened files place root name cap entries).headBytes =
    (segmentBytes (files.folder place) name (lastOf entries).segment.toNat).length := rfl

@[simp] theorem opened_tailId : (opened files place root name cap entries).tailId =
    (firstOf entries).segment.toNat := rfl

@[simp] theorem opened_itemOffset : (opened files place root name cap entries).itemOffset =
    (firstOf entries).offset.toNat := rfl

@[simp] theorem opened_index : (opened files place root name cap entries).index =
    some (.file (files.number place (indexFileName name)) true) := rfl

@[simp] theorem opened_segments : (opened files place root name cap entries).segments =
    openSegments files place name (firstOf entries).segment.toNat
      (lastOf entries).segment.toNat := rfl

end fields

variable {files files' : FileSystem} {place : Location} {root : Path} {name : String} {cap : Nat}
  {entries : List IndexEntry} {disk : Disk}

theorem openSegments_congr {tail head : Nat}
    (h : ∀ id, tail ≤ id ∨ id = head → id ≤ head →
      files'.number place (segmentFileName name id) =
        files.number place (segmentFileName name id)) :
    openSegments files' place name tail head = openSegments files place name tail head := by
  unfold openSegments
  rw [h head (.inr rfl) (Nat.le_refl _)]
  congr 1
  refine List.map_congr_left fun id hid => ?_
  obtain ⟨hle, hlt⟩ := List.mem_range'_1.1 hid
  rw [h id (.inl hle) (by omega)]

/-- The ids of the open segments go from the tail to the head. -/
theorem le_of_mem_openSegments {tail head : Nat} {segment : Nat × Handle} (hle : tail ≤ head)
    (h : segment ∈ openSegments files place name tail head) :
    tail ≤ segment.1 ∧ segment.1 ≤ head := by
  rcases List.mem_append.1 h with h | h
  · obtain ⟨id, hid, rfl⟩ := List.mem_map.1 h
    have := List.mem_range'_1.1 hid
    simp only
    omega
  · rw [List.mem_singleton.1 h]
    exact ⟨hle, Nat.le_refl _⟩

/-- An open table depends only on its index, on its open segments, and on the length of the head. -/
theorem opened_congr
    (hindex : files'.number place (indexFileName name) = files.number place (indexFileName name))
    (hsegments : ∀ id ≤ (lastOf entries).segment.toNat,
      files'.number place (segmentFileName name id) = files.number place (segmentFileName name id))
    (hhead : files'.folder place (segmentFileName name (lastOf entries).segment.toNat) =
      files.folder place (segmentFileName name (lastOf entries).segment.toNat)) :
    opened files' place root name cap entries = opened files place root name cap entries := by
  unfold opened segmentBytes
  rw [hindex, hhead, openSegments_congr fun id _ hle => hsegments id hle]

/-- The files of a table hold the same as before, and have the same numbers. -/
structure Untouched (place : Location) (name : String) (disk disk' : Disk) : Prop where
  files : SameFiles (disk.files.folder place) (disk'.files.folder place) name
  number : ∀ file, (file = indexFileName name ∨ ∃ id, file = segmentFileName name id) →
    disk'.files.number place file = disk.files.number place file

namespace Untouched

variable {disk' disk'' : Disk}

theorem refl (place : Location) (name : String) (disk : Disk) : Untouched place name disk disk :=
  ⟨.refl _ _, fun _ _ => rfl⟩

theorem trans (h : Untouched place name disk disk') (h' : Untouched place name disk' disk'') :
    Untouched place name disk disk'' :=
  ⟨h.files.trans h'.files, fun file hfile => (h'.number file hfile).trans (h.number file hfile)⟩

/-- The table that is open on such files is the same as before. -/
theorem opened_eq (h : Untouched place name disk disk') (root : Path) (cap : Nat)
    (entries : List IndexEntry) :
    opened disk'.files place root name cap entries =
      opened disk.files place root name cap entries :=
  opened_congr (h.number _ (.inl rfl)) (fun id _ => h.number _ (.inr ⟨id, rfl⟩))
    (h.files.segment _)

end Untouched

/-! ### Looking up open segments -/

theorem get?_append_cons {before after : Segments} {id : Nat} (handle : Handle)
    (hbefore : ∀ segment ∈ before, segment.1 ≠ id) :
    Segments.get? (before ++ (id, handle) :: after) id = some handle := by
  induction before with
  | nil => simp [Segments.get?]
  | cons segment before ih =>
      have hne : (id == segment.1) = false := by
        simpa using Ne.symm (hbefore segment (by simp))
      rw [List.cons_append, Segments.get?, List.lookup_cons, hne]
      exact ih fun s hs => hbefore s (by simp [hs])

/-- What is found is the last segment or one of those before it. -/
theorem mem_or_eq_of_get?_concat {before : Segments} {segment : Nat × Handle} {id : Nat}
    {handle : Handle} (h : Segments.get? (before ++ [segment]) id = some handle) :
    (id, handle) ∈ before ∨ (id, handle) = segment := by
  obtain ⟨first, rest, hsplit, -⟩ := List.lookup_eq_some_iff.1 h
  have hmem : (id, handle) ∈ first ++ (id, handle) :: rest := by simp
  rw [← hsplit] at hmem
  exact (List.mem_append.1 hmem).imp_right List.mem_singleton.1

theorem get?_openSegments_head (files : FileSystem) (place : Location) (name : String)
    (tail head : Nat) :
    (openSegments files place name tail head).get? head =
      some (.file (files.number place (segmentFileName name head)) true) := by
  refine get?_append_cons _ fun segment hmem => ?_
  obtain ⟨id, hid, rfl⟩ := List.mem_map.1 hmem
  have := List.mem_range'_1.1 hid
  simp only
  omega

/-! ### Opening a segment anew -/

theorem insert_erase_of_split (before same after : Segments) {id : Nat} (handle : Handle)
    (hbefore : ∀ segment ∈ before, segment.1 < id) (hsame : ∀ segment ∈ same, segment.1 = id)
    (hafter : ∀ segment ∈ after, id < segment.1) :
    Segments.insert (Segments.erase (before ++ (same ++ after)) id) id handle =
      before ++ (id, handle) :: after := by
  have herase : Segments.erase (before ++ (same ++ after)) id = before ++ after := by
    rw [Segments.erase, List.filter_append, List.filter_append, List.filter_eq_self.2,
      List.filter_eq_nil_iff.2, List.filter_eq_self.2, List.nil_append]
    · intro segment hmem
      simpa using Nat.ne_of_gt (hafter segment hmem)
    · intro segment hmem
      simp [hsame segment hmem]
    · intro segment hmem
      simpa using Nat.ne_of_lt (hbefore segment hmem)
  have hlow : (before ++ after).filter (·.1 < id) = before := by
    rw [List.filter_append, List.filter_eq_self.2, List.filter_eq_nil_iff.2, List.append_nil]
    · intro segment hmem
      simpa using Nat.le_of_lt (hafter segment hmem)
    · intro segment hmem
      simpa using hbefore segment hmem
  have hhigh : (before ++ after).filter (id < ·.1) = after := by
    rw [List.filter_append, List.filter_eq_nil_iff.2, List.filter_eq_self.2, List.nil_append]
    · intro segment hmem
      simpa using hafter segment hmem
    · intro segment hmem
      simpa using Nat.le_of_lt (hbefore segment hmem)
  rw [herase, Segments.insert, hlow, hhigh]

theorem openSegments_rotate {tail head : Nat} (hle : tail ≤ head)
    (h : ∀ id ≤ head, files'.number place (segmentFileName name id) =
      files.number place (segmentFileName name id)) :
    Segments.insert (Segments.erase (Segments.insert
        (Segments.erase (openSegments files place name tail head) (head + 1)) (head + 1)
        (.file (files'.number place (segmentFileName name (head + 1))) true)) head) head
        (.file (files'.number place (segmentFileName name head)) false) =
      openSegments files' place name tail (head + 1) := by
  generalize hhistory : (List.range' tail (head - tail)).map
    (fun id => (id, Handle.file (files.number place (segmentFileName name id)) false)) = history
  have hlt : ∀ segment ∈ history, segment.1 < head := by
    intro segment hmem
    rw [← hhistory] at hmem
    obtain ⟨id, hid, rfl⟩ := List.mem_map.1 hmem
    have := (List.mem_range'_1.1 hid).2
    simp only
    omega
  -- the new head comes last
  have hnew := insert_erase_of_split
    (history ++ [(head, .file (files.number place (segmentFileName name head)) true)]) [] []
    (.file (files'.number place (segmentFileName name (head + 1))) true) (by
      intro segment hmem
      rcases List.mem_append.1 hmem with hmem | hmem
      · exact Nat.lt_succ_of_lt (hlt segment hmem)
      · rw [List.mem_singleton.1 hmem]
        exact Nat.lt_succ_self _) (by simp) (by simp)
  -- the old head stays between the history and the new head
  have hold := insert_erase_of_split history
    [(head, .file (files.number place (segmentFileName name head)) true)]
    [(head + 1, .file (files'.number place (segmentFileName name (head + 1))) true)]
    (.file (files'.number place (segmentFileName name head)) false) hlt (by simp) (by simp)
  have hrange : List.range' tail (head + 1 - tail) = List.range' tail (head - tail) ++ [head] := by
    have hcount : head + 1 - tail = head - tail + 1 := by omega
    have hlast : tail + (head - tail) = head := by omega
    rw [hcount, List.range'_concat, Nat.one_mul, hlast]
  have hsame : (List.range' tail (head - tail)).map (fun id =>
      (id, Handle.file (files'.number place (segmentFileName name id)) false)) = history := by
    rw [← hhistory]
    refine List.map_congr_left fun id hid => ?_
    have := (List.mem_range'_1.1 hid).2
    rw [h id (by omega)]
  rw [List.append_nil, List.append_nil] at hnew
  rw [openSegments, hhistory, hnew, List.append_assoc, hold, openSegments, hrange, List.map_append,
    hsame, List.append_assoc]
  rfl

theorem openSegments_cutBack (files : FileSystem) (place : Location) (name : String)
    {tail head new : Nat} (hle : tail ≤ new) (hlt : new < head) :
    let segments := Segments.insert (Segments.erase (openSegments files place name tail head) new)
      new (.file (files.number place (segmentFileName name new)) true)
    segments.upTo new = openSegments files place name tail new ∧
      (segments.above new).map Prod.fst = List.range' (new + 1) (head - new) := by
  intro segments
  generalize hopen : (fun id => (id, Handle.file (files.number place (segmentFileName name id))
    false)) = open₀
  have hfst : ∀ id, (open₀ id).1 = id := by
    intro id
    rw [← hopen]
  have hsplit : List.range' tail (head - tail) =
      List.range' tail (new - tail) ++ new :: List.range' (new + 1) (head - new - 1) := by
    have hcount : head - tail = (new - tail) + (head - new - 1 + 1) := by omega
    have hid : tail + (new - tail) = new := by omega
    rw [hcount, ← List.range'_append_1, hid, List.range'_succ]
  have hbefore : ∀ segment ∈ (List.range' tail (new - tail)).map open₀, segment.1 < new := by
    intro segment hmem
    obtain ⟨id, hid, rfl⟩ := List.mem_map.1 hmem
    have := (List.mem_range'_1.1 hid).2
    rw [hfst]
    omega
  have hafter : ∀ segment ∈ (List.range' (new + 1) (head - new - 1)).map open₀ ++
      [(head, .file (files.number place (segmentFileName name head)) true)], new < segment.1 := by
    intro segment hmem
    rcases List.mem_append.1 hmem with hmem | hmem
    · obtain ⟨id, hid, rfl⟩ := List.mem_map.1 hmem
      have := (List.mem_range'_1.1 hid).1
      rw [hfst]
      omega
    · rw [List.mem_singleton.1 hmem]
      exact hlt
  have hsegments : segments = (List.range' tail (new - tail)).map open₀ ++
      (new, .file (files.number place (segmentFileName name new)) true) ::
        ((List.range' (new + 1) (head - new - 1)).map open₀ ++
          [(head, .file (files.number place (segmentFileName name head)) true)]) := by
    rw [← insert_erase_of_split _ [open₀ new] _ _ hbefore (by simp [hfst]) hafter]
    simp only [segments, openSegments, hopen, hsplit, List.map_append, List.map_cons,
      List.append_assoc, List.cons_append, List.nil_append]
  constructor
  · rw [hsegments, Segments.upTo, List.filter_append, List.filter_cons, List.filter_eq_self.2,
      List.filter_eq_nil_iff.2, openSegments, hopen]
    · simp
    · intro segment hmem
      simpa using hafter segment hmem
    · intro segment hmem
      simpa using Nat.le_of_lt (hbefore segment hmem)
  · rw [hsegments, Segments.above, List.filter_append, List.filter_cons, List.filter_eq_nil_iff.2,
      List.filter_eq_self.2]
    · have hcount : head - new = head - new - 1 + 1 := by omega
      have hlast : new + 1 + (head - new - 1) = head := by omega
      rw [hcount, List.range'_concat, Nat.one_mul, hlast]
      simp [Function.comp_def, hfst]
    · intro segment hmem
      simpa using hafter segment hmem
    · intro segment hmem
      simpa using Nat.le_of_lt (hbefore segment hmem)

theorem outcome_reopenSegment {table : Table} {disk disk' : Disk} {id : Nat} {mode : OpenMode}
    {handle : Handle}
    (h : (Disk.openFile (segmentPath table.dir table.name id) mode).outcome disk =
      (.ok handle, disk')) :
    (reopenSegment id mode).outcome (table, disk) =
      (.ok (), ({ table with segments := (table.segments.erase id).insert id handle }, disk')) := by
  unfold reopenSegment
  rw [Attempt.outcome_bind_ok (Attempt.outcome_update _ _ _),
    Attempt.outcome_bind_ok (Attempt.outcome_current _ _)]
  simp only
  rw [Attempt.outcome_bind_ok (Attempt.outcome_onSecond_of h _)]
  rfl

/-- A segment that cannot be opened anew is not open any more. -/
theorem outcome_reopenSegment_lost {table : Table} {disk disk' : Disk} {id : Nat} {mode : OpenMode}
    {e : Error}
    (h : (Disk.openFile (segmentPath table.dir table.name id) mode).outcome disk =
      (.error e, disk')) :
    (reopenSegment id mode).outcome (table, disk) =
      (.error e, ({ table with segments := table.segments.erase id }, disk')) := by
  unfold reopenSegment
  rw [Attempt.outcome_bind_ok (Attempt.outcome_update _ _ _),
    Attempt.outcome_bind_ok (Attempt.outcome_current _ _),
    Attempt.outcome_bind_error (Attempt.outcome_onSecond_of h _)]

theorem outcome_reopenSegment_error {table : Table} {disk disk' : Disk} {id : Nat} {mode : OpenMode}
    {e : Error} (hid : ∀ segment ∈ table.segments, segment.1 ≠ id)
    (h : (Disk.openFile (segmentPath table.dir table.name id) mode).outcome disk =
      (.error e, disk')) :
    (reopenSegment id mode).outcome (table, disk) = (.error e, (table, disk')) := by
  have herase : table.segments.erase id = table.segments := by
    rw [Segments.erase, List.filter_eq_self]
    simpa using hid
  rw [outcome_reopenSegment_lost h, herase]

/-! ### Steps that all operations share -/

/-- Entry `n` is read from an index. -/
theorem outcome_readEntry_of_content {id : FileId} {data : Bytes}
    (h : disk.files.content id = data) {n : Nat} {entry : IndexEntry}
    (hentry : (Audit.entries data)[n]? = some entry) :
    (readEntry (.file id true) n).outcome disk = (.ok entry, disk) := by
  rw [Audit.getElem?_entries] at hentry
  obtain ⟨bytes, hbytes, rfl⟩ := Option.map_eq_some_iff.1 hentry
  unfold readEntry
  rw [Attempt.outcome_bind, Handle.outcome_read_of_content h, hbytes]
  rfl

theorem outcome_readEntry_of_index {data : Bytes}
    (h : disk.files.folder place (indexFileName name) = some data)
    {n : Nat} {entry : IndexEntry} (hentry : (Audit.entries data)[n]? = some entry) :
    (readEntry (.file (disk.files.number place (indexFileName name)) true) n).outcome disk =
      (.ok entry, disk) :=
  outcome_readEntry_of_content (content_of_folder h) hentry

theorem outcome_openIndex {table : Table} {handle : Handle} (h : table.index = some handle)
    (disk : Disk) : openIndex.outcome (table, disk) = (.ok handle, (table, disk)) := by
  unfold openIndex
  rw [Attempt.outcome_bind_ok (Attempt.outcome_current table disk)]
  simp only [h]
  rfl

/-- A closed table has no index to be read. -/
theorem outcome_openIndex_of_closed {table : Table} (h : table.index = none) (disk : Disk) :
    openIndex.outcome (table, disk) = (.error .closed, (table, disk)) := by
  unfold openIndex
  rw [Attempt.outcome_bind_ok (Attempt.outcome_current table disk)]
  simp only [h]
  rfl

/-- An open table is closed. -/
theorem outcome_close {table : Table} (h : table.index ≠ none) (disk : Disk) :
    close.outcome (table, disk) = (.ok (), ({ table with index := none, segments := [] }, disk)) := by
  obtain ⟨index, hindex⟩ := Option.ne_none_iff_exists'.1 h
  unfold close
  rw [Attempt.outcome_bind_ok (outcome_openIndex hindex disk)]
  rfl

theorem outcome_openSegment {table : Table} {handle : Handle} {id : Nat}
    (h : table.segments.get? id = some handle) (disk : Disk) :
    (openSegment id).outcome (table, disk) = (.ok handle, (table, disk)) := by
  unfold openSegment
  rw [Attempt.outcome_bind_ok (Attempt.outcome_current table disk)]
  simp only [h]
  rfl

/-- A segment that is not open is not found. -/
theorem outcome_openSegment_missing {table : Table} {id : Nat} (h : table.segments.get? id = none)
    (disk : Disk) :
    (openSegment id).outcome (table, disk) =
      (.error (.missingSegment table.name id), (table, disk)) := by
  unfold openSegment
  rw [Attempt.outcome_bind_ok (Attempt.outcome_current table disk)]
  simp only [h]
  rfl

end BlockArchive.Table
