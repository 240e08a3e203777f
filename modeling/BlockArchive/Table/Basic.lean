import BlockArchive.Disk
import BlockArchive.IndexEntry
import BlockArchive.Table.FileName
import BlockArchive.Text.Quoted

/-! # Tables

A table is a list of items, kept in one directory as an index and a row of segments.

* **Index.** Entry `n` says where item `n - 1` ends; entry zero names the earliest segment and the
  number of items pruned from the front (`itemOffset`).
* **Segments.** An item lies in one segment as a whole.  Only the last segment, the head, grows;
  when an item would push it past the cap, a new head is begun.
* **`Table`** is an open table: where its files are, its counters and its open files.  `index` is
  `none` once it is closed.
* **`Segments`** are the open segment files with their ids, in ascending order; the `get?_` lemmas
  say what each operation on them leaves open.

An operation on a table is an `Action (Table × Disk)`: it changes counters and open files together
with the disk, and what it has changed before a failure stays changed. -/

namespace BlockArchive

/-- Open segment files by id, in ascending order. -/
abbrev Segments := List (Nat × Handle)

namespace Segments

/-- The open file of segment `id`. -/
def get? (segments : Segments) (id : Nat) : Option Handle :=
  segments.lookup id

/-- The segments with that of `id` taken out. -/
def erase (segments : Segments) (id : Nat) : Segments :=
  segments.filter (·.1 ≠ id)

/-- The segments with `handle` for `id`, in place of one that was there. -/
def insert (segments : Segments) (id : Nat) (handle : Handle) : Segments :=
  segments.filter (·.1 < id) ++ (id, handle) :: segments.filter (id < ·.1)

/-- The segments up to `id`. -/
def upTo (segments : Segments) (id : Nat) : Segments :=
  segments.filter (·.1 ≤ id)

/-- The segments above `id`. -/
def above (segments : Segments) (id : Nat) : Segments :=
  segments.filter (id < ·.1)

/-- Keeping the segments of some ids leaves what is open under them. -/
theorem get?_filter (segments : Segments) (keep : Nat → Bool) (id : Nat) :
    get? (segments.filter fun segment => keep segment.1) id =
      if keep id then segments.get? id else none := by
  unfold get?
  induction segments with
  | nil => simp
  | cons segment segments ih =>
      obtain ⟨key, handle⟩ := segment
      by_cases hk : id = key
      · subst hk
        cases h : keep id with
        | true => simp [h]
        | false => simpa [h] using ih
      · have hb : (id == key) = false := beq_eq_false_iff_ne.2 hk
        cases h : keep key <;> simp [h, List.lookup_cons, hb, ih]

theorem get?_erase (segments : Segments) (id other : Nat) :
    (segments.erase id).get? other = if other = id then none else segments.get? other :=
  (get?_filter segments (fun key => decide (key ≠ id)) other).trans (by simp)

theorem get?_upTo (segments : Segments) (id other : Nat) :
    (segments.upTo id).get? other = if other ≤ id then segments.get? other else none := by
  simpa [upTo] using get?_filter segments (fun key => decide (key ≤ id)) other

theorem get?_insert (segments : Segments) (id other : Nat) (handle : Handle) :
    (segments.insert id handle).get? other =
      if other = id then some handle else segments.get? other := by
  have below := get?_filter segments (fun key => decide (key < id)) other
  have above := get?_filter segments (fun key => decide (id < key)) other
  simp only [get?] at below above
  simp only [get?, insert, List.lookup_append, List.lookup_cons, below, above]
  by_cases h : other = id
  · simp [h]
  · have hb : (other == id) = false := beq_eq_false_iff_ne.2 h
    simp only [hb, h, if_false, decide_eq_true_eq]
    by_cases hl : other < id
    · simp [hl, Nat.not_lt_of_lt hl]
    · simp [hl, show id < other by omega]

end Segments

/-- An open table. -/
structure Table where
  /-- The directory of its files. -/
  dir : Path
  /-- Its name, from which the names of its files are made. -/
  name : String
  /-- The number of bytes past which the head is not to grow. -/
  cap : Nat
  /-- The number of items, pruned ones included. -/
  items : Nat
  /-- The id of the head. -/
  headId : Nat
  /-- The number of bytes in the head. -/
  headBytes : Nat
  /-- The id of the earliest segment. -/
  tailId : Nat
  /-- The number of items pruned from the front. -/
  itemOffset : Nat
  /-- The open index file, until the table is closed. -/
  index : Option Handle
  /-- The open segment files. -/
  segments : Segments
deriving DecidableEq, Repr

/-- The largest id that an index entry can store. -/
def lastSegmentId : Nat := 65535

/-- The limit below which sizes and offsets have to stay. -/
def offsetLimit : Nat := UInt32.size

namespace Table

/-- The index file of the table `name` in `dir`. -/
def indexPath (dir : Path) (name : String) : Path :=
  dir.join (indexFileName name)

/-- The file of segment `id` of the table `name` in `dir`. -/
def segmentPath (dir : Path) (name : String) (id : Nat) : Path :=
  dir.join (segmentFileName name id)

/-- Entry `n` of an open index file. -/
def readEntry (index : Handle) (n : Nat) : Action Disk IndexEntry := do
  return IndexEntry.decode (← index.read (IndexEntry.position n) IndexEntry.width)

/-- The open index file of the table at hand. -/
def openIndex : Action (Table × Disk) Handle := do
  match (← Attempt.current).index with
  | some index => return index
  | none => throw .closed

/-- The open file of segment `id` of the table at hand. -/
def openSegment (id : Nat) : Action (Table × Disk) Handle := do
  let table ← Attempt.current
  match table.segments.get? id with
  | some handle => return handle
  | none => throw (.missingSegment table.name id)

/-- Opens segment `id` of the table at hand anew, whatever was open under that id before. -/
def reopenSegment (id : Nat) (mode : OpenMode) : Action (Table × Disk) Unit := do
  Attempt.update fun table => { table with segments := table.segments.erase id }
  let table ← Attempt.current
  let handle ← Attempt.onSecond (Disk.openFile (segmentPath table.dir table.name id) mode)
  Attempt.update fun table => { table with segments := table.segments.insert id handle }

/-- The bytes of the index and of all open segments. -/
def size : Action (Table × Disk) Nat := do
  let index ← openIndex
  let lengths ← ((← Attempt.current).segments.mapM fun segment => Attempt.onSecond segment.2.length)
  return (← Attempt.onSecond index.length) + lengths.foldl (· + ·) 0

/-- Makes sure that all that was written is on the disk, which here it always is. -/
def sync : Action (Table × Disk) Unit := do
  let _ ← openIndex

/-- Closes the index and the segments. -/
def close : Action (Table × Disk) Unit := do
  let _ ← openIndex
  Attempt.update fun table => { table with index := none, segments := [] }

/-- The form with field names. -/
def debug (table : Table) : String :=
  "Table \x7b name: " ++ Text.quoted table.name ++ ", items: " ++ toString table.items
    ++ ", head_id: " ++ toString table.headId ++ ", head_bytes: " ++ toString table.headBytes
    ++ ", .. \x7d"

end Table

end BlockArchive
