import BlockArchive.Bytes

/-! # Index entries

A table's index file is a sequence of six-byte entries.  Entry `n` says where item `n - 1` ends:
in which segment, and at which byte of it.  Entry zero bounds no item: it names the earliest
segment and, in place of a byte, the number of items pruned from the front of the table.

* **Layout.** Two bytes of segment id, four bytes of offset, both most significant byte first.
* **Width.** Only the low sixteen bits of a segment id are stored; `decode_encode` says so.

The main statements are `encode_decode` (every six bytes are the form of one entry) and
`decode_encode`. -/

namespace BlockArchive

/-- Where an item ends. -/
structure IndexEntry where
  /-- The segment that holds the item. -/
  segment : UInt32
  /-- The byte of the segment just after the item; in entry zero, the number of pruned items. -/
  offset : UInt32
deriving DecidableEq, Repr, Inhabited

namespace IndexEntry

/-- Bytes per entry. -/
def width : Nat := 6

/-- The entry an empty table starts with: nothing pruned, and segment zero comes first. -/
def sentinel : IndexEntry := ⟨0, 0⟩

/-- The six bytes of an entry. -/
def encode (entry : IndexEntry) : Bytes :=
  Bytes.bigEndian 2 entry.segment.toNat ++ Bytes.bigEndian 4 entry.offset.toNat

/-- The entry that six bytes stand for. -/
def decode (data : Bytes) : IndexEntry :=
  ⟨.ofNat (Bytes.ofBigEndian (data.take 2)), .ofNat (Bytes.ofBigEndian (data.drop 2))⟩

/-- The byte of the index file at which entry `n` starts. -/
def position (n : Nat) : Nat :=
  n * width

@[simp] theorem length_encode (entry : IndexEntry) : entry.encode.length = width := by
  simp [encode, width]

theorem encode_ne_nil (entry : IndexEntry) : entry.encode ≠ [] := by
  rw [← List.length_pos_iff, length_encode]
  decide

/-- Storing an entry keeps its offset and the low sixteen bits of its segment id. -/
theorem decode_encode (entry : IndexEntry) :
    decode entry.encode = ⟨.ofNat (entry.segment.toNat % 65536), entry.offset⟩ := by
  have hs : (entry.encode).take 2 = Bytes.bigEndian 2 entry.segment.toNat := by
    simp [encode]
  have ho : (entry.encode).drop 2 = Bytes.bigEndian 4 entry.offset.toNat := by
    simp [encode]
  have hlt := entry.offset.toNat_lt
  simp only [decode, hs, ho, Bytes.ofBigEndian_bigEndian]
  congr 1
  rw [Nat.mod_eq_of_lt (by omega)]
  simp

/-- Every six bytes are the form of exactly the entry read from them. -/
theorem encode_decode {data : Bytes} (h : data.length = width) : (decode data).encode = data := by
  have h2 : (data.take 2).length = 2 := by simp [width] at *; omega
  have h4 : (data.drop 2).length = 4 := by simp [width] at *; omega
  have l2 := Bytes.ofBigEndian_lt (data.take 2)
  have l4 := Bytes.ofBigEndian_lt (data.drop 2)
  rw [h2] at l2
  rw [h4] at l4
  change _ < 65536 at l2
  change _ < 4294967296 at l4
  have e2 := Bytes.bigEndian_ofBigEndian (data.take 2)
  have e4 := Bytes.bigEndian_ofBigEndian (data.drop 2)
  rw [h2] at e2
  rw [h4] at e4
  simp only [encode, decode, UInt32.toNat_ofNat']
  rw [Nat.mod_eq_of_lt (by omega), Nat.mod_eq_of_lt (by omega), e2, e4, List.take_append_drop]

end IndexEntry

end BlockArchive
