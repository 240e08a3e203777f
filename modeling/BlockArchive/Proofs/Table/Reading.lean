import Mathlib.Algebra.GroupWithZero.Nat
import BlockArchive.Proofs.Table.Intact

/-! # Reading from a table at rest

A table at rest answers with its items: `outcome_retrieve` gives the answer for every number, and
`outcome_size` the number of bytes in its files, which are those of the index and `dataLength` in
the segments (`bytesIn_eq`). -/

namespace BlockArchive.Table

open IndexEntry

variable {place : Location} {root : Path} {name : String} {cap : Nat} {entries : List IndexEntry}
  {disk : Disk}

/-- What is answered when item number `item` is asked for. -/
def itemAnswer (items : List Bytes) (item : Nat) : Except Error Bytes :=
  match items[item]? with
  | some data => .ok data
  | none => .error (.outOfBounds item 0 items.length)

/-- A table at rest answers with its items, and refuses all other numbers. -/
theorem outcome_retrieve (h : Whole (disk.files.folder place) name entries) (item : Nat) :
    (retrieve item).outcome (opened disk.files place root name cap entries, disk) =
      (itemAnswer (storedItems (disk.files.folder place) name entries) item,
        (opened disk.files place root name cap entries, disk)) := by
  have hzero := h.firstOf_offset
  have hread := fun data => @Intact.outcome_retrieve _ _ _ _ _ _ h.intact
    (FileSystem.holds_folder disk.files (fun _ => True) place) (fun _ _ => trivial) root cap item
    data
  rw [opened_eq_tableOf]
  unfold itemAnswer
  split
  · next data hitem =>
      have hdata := hread data hitem
      rwa [hzero, Nat.zero_add] at hdata
  · next hnone =>
      rw [List.getElem?_eq_none_iff, length_storedItems] at hnone
      rw [outcome_retrieve_outside _ _ _ _ _ _ _ (by omega), hzero, length_storedItems,
        Nat.zero_add]

theorem outcome_mapM {ε σ α β : Type} {f : α → Attempt ε σ β} {g : α → β} {s : σ}
    {asked : List α}
    (h : ∀ a ∈ asked, (f a).outcome s = (.ok (g a), s)) :
    (asked.mapM f).outcome s = (.ok (asked.map g), s) := by
  induction asked with
  | nil => rfl
  | cons a asked ih =>
      rw [List.mapM_cons, Attempt.outcome_bind_ok (h a List.mem_cons_self),
        Attempt.outcome_bind_ok (ih fun b hb => h b (List.mem_cons_of_mem _ hb))]
      rfl

theorem outcome_forM {ε σ α : Type} {f : α → Attempt ε σ PUnit} {s : σ} {asked : List α}
    (h : ∀ a ∈ asked, (f a).outcome s = (.ok ⟨⟩, s)) : (asked.forM f).outcome s = (.ok ⟨⟩, s) := by
  induction asked with
  | nil => rfl
  | cons a asked ih =>
      rw [List.forM, Attempt.outcome_bind_ok (h a List.mem_cons_self)]
      exact ih fun b hb => h b (List.mem_cons_of_mem _ hb)

/-- The number of bytes in the files of a table with these entries. -/
def bytesIn (folder : Folder) (name : String) (entries : List IndexEntry) : Nat :=
  (encodeAll entries).length +
    (((List.range' (firstOf entries).segment.toNat
      ((lastOf entries).segment.toNat - (firstOf entries).segment.toNat)) ++
        [(lastOf entries).segment.toNat]).map fun id =>
          (segmentBytes folder name id).length).foldl (· + ·) 0

/-- The number of bytes in the segments from one to another. -/
def dataLength (folder : Folder) (name : String) (tail head : Nat) : Nat :=
  ((List.range' tail (head + 1 - tail)).map fun id => (segmentBytes folder name id).length).sum

theorem range'_head {tail head : Nat} (hle : tail ≤ head) :
    List.range' tail (head + 1 - tail) = List.range' tail (head - tail) ++ [head] := by
  have hcount : head + 1 - tail = head - tail + 1 := by omega
  have hlast : tail + (head - tail) = head := by omega
  rw [hcount, List.range'_concat, Nat.one_mul, hlast]

theorem bytesIn_eq {folder : Folder}
    (hle : (firstOf entries).segment.toNat ≤ (lastOf entries).segment.toNat) :
    bytesIn folder name entries = width * entries.length +
      dataLength folder name (firstOf entries).segment.toNat
        (lastOf entries).segment.toNat := by
  rw [bytesIn, dataLength, length_encodeAll, range'_head hle, List.sum_eq_foldl]

theorem bytesIn_congr {folder folder' : Folder}
    (hle : (firstOf entries).segment.toNat ≤ (lastOf entries).segment.toNat)
    (h : ∀ id, (firstOf entries).segment.toNat ≤ id → id ≤ (lastOf entries).segment.toNat →
      folder' (segmentFileName name id) = folder (segmentFileName name id)) :
    bytesIn folder' name entries = bytesIn folder name entries := by
  unfold bytesIn segmentBytes
  congr 2
  refine List.map_congr_left fun id hid => ?_
  rcases List.mem_append.1 hid with hid | hid
  · obtain ⟨hlow, hhigh⟩ := List.mem_range'_1.1 hid
    rw [h id hlow (by omega)]
  · rw [List.mem_singleton.1 hid, h _ hle (Nat.le_refl _)]

/-- An indexed table answers how many bytes its files have. -/
theorem outcome_size (h : Indexed (disk.files.folder place) name entries) :
    size.outcome (opened disk.files place root name cap entries, disk) =
      (.ok (bytesIn (disk.files.folder place) name entries),
        (opened disk.files place root name cap entries, disk)) := by
  have hle := h.tail_le_head
  have hlength : ∀ id writable, (firstOf entries).segment.toNat ≤ id →
      id ≤ (lastOf entries).segment.toNat →
      (Handle.length (.file (disk.files.number place (segmentFileName name id)) writable)).outcome
        disk = (.ok (segmentBytes (disk.files.folder place) name id).length, disk) := by
    intro id writable htail hhead
    obtain ⟨content, hcontent⟩ := Option.ne_none_iff_exists'.1 (h.there htail hhead)
    rw [segmentBytes, hcontent, Option.getD_some]
    exact Handle.outcome_length hcontent writable
  have hsegments : ∀ segment ∈ openSegments disk.files place name
      (firstOf entries).segment.toNat (lastOf entries).segment.toNat,
      (Attempt.onSecond segment.2.length : Action (Table × Disk) Nat).outcome
          (opened disk.files place root name cap entries, disk) =
        (.ok (segmentBytes (disk.files.folder place) name segment.1).length,
          (opened disk.files place root name cap entries, disk)) := by
    intro segment hmem
    obtain ⟨htail, hhead⟩ := le_of_mem_openSegments hle hmem
    refine Attempt.outcome_onSecond_of ?_ _
    rcases List.mem_append.1 hmem with hmem | hmem
    · obtain ⟨id, -, rfl⟩ := List.mem_map.1 hmem
      exact hlength id _ htail hhead
    · rw [List.mem_singleton.1 hmem]
      exact hlength _ _ hle (Nat.le_refl _)
  unfold size
  rw [Attempt.outcome_bind_ok (outcome_openIndex (opened_index _ _ _ _ _ _) disk),
    Attempt.outcome_bind_ok (Attempt.outcome_current _ _), opened_segments,
    Attempt.outcome_bind_ok (outcome_mapM hsegments),
    Attempt.outcome_bind_ok (Attempt.outcome_onSecond_of (Handle.outcome_length h.index true) _),
    Attempt.outcome_pure, bytesIn, openSegments]
  simp only [List.map_append, List.map_map, Function.comp_def, List.map_cons, List.map_nil]

/-- All that was written is on the disk. -/
theorem outcome_sync {table : Table} {index : Handle} (hindex : table.index = some index)
    (disk : Disk) : sync.outcome (table, disk) = (.ok (), (table, disk)) := by
  unfold sync
  rw [Attempt.outcome_bind_ok (outcome_openIndex hindex disk)]
  rfl

end BlockArchive.Table
