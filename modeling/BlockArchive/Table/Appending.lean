import BlockArchive.Table.Basic

/-! # Appending an item

Items are appended in order.  An item that would push the head past the cap goes to the start of a
new head, unless the last segment id is used up; an item larger than the cap so gets a segment of
its own.  First the bytes are written, then the index entry, and last the counters move. -/

namespace BlockArchive.Table

/-- Whether `len` more bytes would push the head past the cap. -/
def overflows (table : Table) (len : Nat) : Bool :=
  offsetLimit ≤ table.headBytes + len || table.cap < table.headBytes + len

/-- Begins a new head.  A file that already has its name belongs to discarded items and is
emptied; the old head stays open for reading. -/
def rotate : Action (Table × Disk) Unit := do
  let table ← Attempt.current
  let next := table.headId + 1
  if lastSegmentId < next then throw (.segmentsExhausted table.name)
  reopenSegment next .fresh
  reopenSegment table.headId .readOnly
  Attempt.update fun table => { table with headBytes := 0, headId := next }

/-- Appends `blob` as item number `item`. -/
def append (item : Nat) (blob : Bytes) : Action (Table × Disk) Unit := do
  if offsetLimit ≤ blob.length then throw (.itemTooLarge blob.length)
  let index ← openIndex
  let table ← Attempt.current
  if table.items ≠ item then throw (.sequence table.items item)
  if table.overflows blob.length then rotate
  let table ← Attempt.current
  let head ← openSegment table.headId
  let stop := table.headBytes + blob.length
  if offsetLimit ≤ stop then throw (.itemTooLarge blob.length)
  Attempt.onSecond (head.write table.headBytes blob)
  let entry : IndexEntry := ⟨.ofNat table.headId, .ofNat stop⟩
  Attempt.onSecond (index.write (IndexEntry.position (item - table.itemOffset + 1)) entry.encode)
  Attempt.update fun table => { table with headBytes := stop, items := table.items + 1 }

end BlockArchive.Table
