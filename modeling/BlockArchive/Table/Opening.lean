import BlockArchive.Table.Basic

/-! # Opening a table

Opening brings the index and the head back in step, which a crash may have left apart.

* **Torn entry.** Bytes at the end of the index that do not make a whole entry are cut off, and an
  index without entries gets the sentinel (`trimIndex`).
* **Settling.** While the last entry reaches past the end of its segment, the entry is dropped; once
  it does not, the segment is cut to it (`settle`).  Entry zero, which bounds no bytes, is never
  dropped: when it reaches past the end, its segment is emptied.
* **Reopening.** Every segment before the head is opened for reading and has to be there; the head
  is opened for writing.

`settle` recurses on the number of entries before the last one, so each step drops an entry. -/

namespace BlockArchive.Table

/-- Cuts a torn entry off an open index and writes the sentinel into one without entries.
Answers the number of entries before the last one. -/
def trimIndex (index : Handle) : Action Disk Nat := do
  let length ← index.length
  let count := length / IndexEntry.width
  if length % IndexEntry.width ≠ 0 then index.setLength (IndexEntry.position count)
  if count = 0 then index.write 0 IndexEntry.sentinel.encode
  return count - 1

/-- What is left after settling: the number of entries before the last one, the last one, and the
length of the segment it names. -/
structure Settled where
  before : Nat
  last : IndexEntry
  length : Nat
deriving DecidableEq, Repr

/-- Opens a segment for writing and measures it. -/
def openHead (dir : Path) (name : String) (id : Nat) : Action Disk (Handle × Nat) := do
  let head ← Disk.openFile (segmentPath dir name id) .update
  return (head, ← head.length)

/-- Brings the index and the segment of its last entry in step.  `before` entries come before
`last`, and `head` is the open segment that `last` names, `length` bytes long. -/
def settle (dir : Path) (name : String) (index : Handle) :
    (before : Nat) → (last : IndexEntry) → (head : Handle) → (length : Nat) → Action Disk Settled
  | before, last, head, length =>
      if last.offset.toNat = length then return ⟨before, last, length⟩
      else if last.offset.toNat < length then do
        head.setLength last.offset.toNat
        return ⟨before, last, last.offset.toNat⟩
      else
        match before with
        | 0 => do
            if length ≠ 0 then head.setLength 0
            return ⟨0, last, 0⟩
        | before + 1 => do
            index.setLength (IndexEntry.position (before + 1))
            let previous ← readEntry index before
            if previous.segment = last.segment then
              settle dir name index before previous head length
            else
              let (head, length) ← openHead dir name previous.segment.toNat
              settle dir name index before previous head length

section settle

variable (dir : Path) (name : String) (index head : Handle) {before length : Nat}
  {last : IndexEntry}

/-- An entry that its segment reaches is kept, and the segment is cut to it. -/
theorem settle_of_le (h : last.offset.toNat ≤ length) :
    settle dir name index before last head length =
      if last.offset.toNat < length then do
        head.setLength last.offset.toNat
        return ⟨before, last, last.offset.toNat⟩
      else return ⟨before, last, last.offset.toNat⟩ := by
  rw [settle.eq_def]
  simp only
  rcases Nat.eq_or_lt_of_le h with heq | hlt
  · rw [if_pos heq, if_neg (by omega), heq]
  · rw [if_neg (Nat.ne_of_lt hlt), if_pos hlt, if_pos hlt]

theorem settle_zero_of_lt (h : length < last.offset.toNat) :
    settle dir name index 0 last head length =
      if length ≠ 0 then do
        head.setLength 0
        return ⟨0, last, 0⟩
      else return ⟨0, last, 0⟩ := by
  rw [settle.eq_def]
  simp only
  rw [if_neg (Nat.ne_of_gt h), if_neg (Nat.lt_asymm h)]

theorem settle_succ_of_lt (h : length < last.offset.toNat) :
    settle dir name index (before + 1) last head length = (do
      index.setLength (IndexEntry.position (before + 1))
      let previous ← readEntry index before
      if previous.segment = last.segment then
        settle dir name index before previous head length
      else do
        let (head, length) ← openHead dir name previous.segment.toNat
        settle dir name index before previous head length) := by
  rw [settle.eq_def]
  simp only
  rw [if_neg (Nat.ne_of_gt h), if_neg (Nat.lt_asymm h)]

end settle

/-- Opens segments for reading, one after the other. -/
def openHistory (dir : Path) (name : String) : List Nat → Action Disk Segments
  | [] => return []
  | id :: ids => do
      let handle ← Disk.openFile (segmentPath dir name id) .readOnly
      return (id, handle) :: (← openHistory dir name ids)

/-- Opens the table `name` in `dir`, makes it if it is missing, and repairs what a crash left. -/
def openIn (dir : Path) (name : String) (cap : Nat) : Action Disk Table := do
  Disk.makeDirectories dir
  let index ← Disk.openFile (indexPath dir name) .update
  let before ← trimIndex index
  let first ← readEntry index 0
  let last ← readEntry index before
  let (head, length) ← openHead dir name last.segment.toNat
  let settled ← settle dir name index before last head length
  let tailId := first.segment.toNat
  let headId := settled.last.segment.toNat
  let history ← openHistory dir name (List.range' tailId (headId - tailId))
  let head ← Disk.openFile (segmentPath dir name headId) .update
  return {
    dir, name, cap, tailId, headId
    items := first.offset.toNat + settled.before
    headBytes := settled.length
    itemOffset := first.offset.toNat
    index := some index
    segments := history ++ [(headId, head)] }

end BlockArchive.Table
