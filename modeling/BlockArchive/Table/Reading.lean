import BlockArchive.Table.Basic

/-! # Reading an item

An item ends where its index entry says, and starts where the entry before it ends, if that one
lies in the same segment; else, and for the first item, it starts at byte zero. -/

namespace BlockArchive.Table

/-- Where the bytes of an item lie. -/
structure Extent where
  segment : Nat
  start : Nat
  stop : Nat
deriving DecidableEq, Repr

/-- The extent that lies between two neighbouring index entries. -/
def Extent.between (before after : IndexEntry) : Extent :=
  { segment := after.segment.toNat
    start := if before.segment = after.segment then before.offset.toNat else 0
    stop := after.offset.toNat }

/-- The extent of the item that has `before` items in front of it in the index. -/
def extent (index : Handle) (before : Nat) : Action Disk Extent := do
  let stop ← readEntry index (before + 1)
  if before = 0 then return ⟨stop.segment.toNat, 0, stop.offset.toNat⟩
  else return Extent.between (← readEntry index before) stop

/-- The bytes of item number `item`. -/
def retrieve (item : Nat) : Action (Table × Disk) Bytes := do
  let index ← openIndex
  let table ← Attempt.current
  if table.items ≤ item ∨ item < table.itemOffset then
    throw (.outOfBounds item table.itemOffset table.items)
  let place ← Attempt.onSecond (extent index (item - table.itemOffset))
  let segment ← openSegment place.segment
  if place.stop < place.start then throw (.io (.entriesOutOfOrder item))
  Attempt.onSecond (segment.read place.start (place.stop - place.start))

end BlockArchive.Table
