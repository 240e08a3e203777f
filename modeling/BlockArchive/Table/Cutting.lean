import BlockArchive.Table.Basic

/-! # Cutting a table

Cutting drops the last items.  The index is cut first; if its last entry then names another
segment than the head, that segment becomes the head again and all above it are deleted, in
ascending order; at last the head is cut to where its last item ends.  A table that already holds
no more items is left alone. -/

namespace BlockArchive.Table

/-- Deletes the files of released segments; one that has no name any more is passed over. -/
def deleteSegments (dir : Path) (name : String) : List Nat → Action Disk Unit
  | [] => return ()
  | id :: ids => do
      tryCatch (Disk.removeFile (segmentPath dir name id)) fun e =>
        if e = .io .notFound then return () else throw e
      deleteSegments dir name ids

/-- Lets go of every segment above `id` and deletes its file. -/
def releaseAbove (id : Nat) : Action (Table × Disk) Unit := do
  let table ← Attempt.current
  Attempt.update fun table => { table with segments := table.segments.upTo id }
  Attempt.onSecond (deleteSegments table.dir table.name ((table.segments.above id).map Prod.fst))

/-- Drops every item from number `items` on. -/
def truncate (items : Nat) : Action (Table × Disk) Unit := do
  let index ← openIndex
  let table ← Attempt.current
  if table.items ≤ items then return ()
  if items < table.itemOffset then
    throw (.outOfBounds items table.itemOffset table.items)
  let kept := items - table.itemOffset
  Attempt.onSecond (index.setLength (IndexEntry.position (kept + 1)))
  let last ← Attempt.onSecond (readEntry index kept)
  let headId := last.segment.toNat
  if headId ≠ table.headId then
    reopenSegment headId .update
    releaseAbove headId
    Attempt.update fun table => { table with headId }
  let head ← openSegment headId
  Attempt.onSecond (head.setLength last.offset.toNat)
  Attempt.update fun table => { table with items, headBytes := last.offset.toNat }

end BlockArchive.Table
