import BlockArchive.Proofs.Table.Opened
import BlockArchive.Table.Opening
import BlockArchive.Table.Reading

/-! # Tables at rest whose earliest items may have been pruned

Entry zero counts the items pruned from the front of a table.  Its offset is no place in a segment,
so it takes no part in the order of the places that the entries name.

* **`grounded`** entries have the offset of entry zero set to zero.
* **`Indexed`**: the index is the form of the entries, the head is there, and the grounded entries
  are backed.
* **`Intact`**: besides, the head ends where the last entry says.  A table at rest that is not
  pruned is intact (`Whole.intact`).
* **`Steady`**: the head ends there, or there are no items and it is empty.  Opening changes nothing
  about such a table (`Steady.outcome_openIn`).
* **Reading.** `LiesAt` is where the index has an item.  An indexed table answers with the items
  that the entries bound, under the numbers from the count of pruned items on
  (`Indexed.outcome_retrieve`, `outcome_retrieve_outside`).

The files are taken as `FileSystem.Shows` gives them, so that nothing depends on where they are. -/

namespace BlockArchive.Table

open IndexEntry FileSystem

variable {folder folder' : Folder} {name : String} {entries : List IndexEntry}

/-! ### Entries without the count of pruned items -/

/-- The entries with the offset of entry zero, which is no place in a segment, set to zero. -/
def grounded : List IndexEntry → List IndexEntry
  | [] => []
  | first :: bounds => { first with offset := 0 } :: bounds

@[simp] theorem length_grounded (entries : List IndexEntry) :
    (grounded entries).length = entries.length := by
  cases entries <;> rfl

theorem grounded_eq_self (h : (firstOf entries).offset = 0) : grounded entries = entries := by
  cases entries with
  | nil => rfl
  | cons first bounds =>
      cases first
      simp only [firstOf_cons] at h
      simp only [grounded, h]

theorem grounded_ne_nil : grounded entries ≠ [] ↔ entries ≠ [] := by
  cases entries <;> simp [grounded]

theorem storedItems_grounded (folder : Folder) (name : String) (entries : List IndexEntry) :
    storedItems folder name (grounded entries) = storedItems folder name entries := by
  cases entries <;> rfl

theorem firstOf_grounded_offset (entries : List IndexEntry) :
    (firstOf (grounded entries)).offset = 0 := by
  cases entries <;> rfl

theorem firstOf_grounded_segment (entries : List IndexEntry) :
    (firstOf (grounded entries)).segment = (firstOf entries).segment := by
  cases entries <;> rfl

theorem lastOf_grounded_segment (entries : List IndexEntry) :
    (lastOf (grounded entries)).segment = (lastOf entries).segment := by
  cases entries with
  | nil => rfl
  | cons first bounds =>
      cases bounds with
      | nil => rfl
      | cons second bounds =>
          rw [grounded, lastOf_cons _ (List.cons_ne_nil second bounds),
            lastOf_cons _ (List.cons_ne_nil second bounds)]

theorem lastOf_grounded_offset (entries : List IndexEntry) :
    (lastOf (grounded entries)).offset =
      if entries.length ≤ 1 then 0 else (lastOf entries).offset := by
  cases entries with
  | nil => rfl
  | cons first bounds =>
      cases bounds with
      | nil => rfl
      | cons second bounds =>
          rw [if_neg (by simp), grounded, lastOf_cons _ (List.cons_ne_nil second bounds),
            lastOf_cons _ (List.cons_ne_nil second bounds)]

theorem lastOf_grounded_offset_le (entries : List IndexEntry) :
    (lastOf (grounded entries)).offset.toNat ≤ (lastOf entries).offset.toNat := by
  rw [lastOf_grounded_offset]
  split
  · exact Nat.zero_le _
  · exact Nat.le_refl _

theorem grounded_take (entries : List IndexEntry) (n : Nat) :
    grounded (entries.take (n + 1)) = (grounded entries).take (n + 1) := by
  cases entries <;> rfl

theorem grounded_concat (hne : entries ≠ []) (entry : IndexEntry) :
    grounded (entries ++ [entry]) = grounded entries ++ [entry] := by
  cases entries with
  | nil => exact absurd rfl hne
  | cons first bounds => rfl

theorem getElem?_grounded_succ (entries : List IndexEntry) (n : Nat) :
    (grounded entries)[n + 1]? = entries[n + 1]? := by
  cases entries <;> rfl

theorem getElem?_grounded_zero (entries : List IndexEntry) :
    (grounded entries)[0]? = entries[0]?.map fun entry => { entry with offset := 0 } := by
  cases entries <;> rfl

theorem exists_mem_grounded {entry : IndexEntry} (h : entry ∈ entries) :
    ∃ entry' ∈ grounded entries, entry'.segment = entry.segment := by
  cases entries with
  | nil => simp at h
  | cons first bounds =>
      rcases List.mem_cons.1 h with rfl | h
      · exact ⟨_, List.mem_cons_self, rfl⟩
      · exact ⟨entry, List.mem_cons_of_mem _ h, rfl⟩

/-! ### Indexed tables -/

/-- The index is the form of the entries and the head is there; grounded, the entries are backed.
Behind the last item the head may go on. -/
structure Indexed (folder : Folder) (name : String) (entries : List IndexEntry) : Prop where
  index : folder (indexFileName name) = some (encodeAll entries)
  headThere : folder (segmentFileName name (lastOf entries).segment.toNat) ≠ none
  backed : Backed folder name (grounded entries)

/-- The bytes of the head behind the last item. -/
def leftIn (folder : Folder) (name : String) (entries : List IndexEntry) : Bytes :=
  (segmentBytes folder name (lastOf entries).segment.toNat).drop
    (lastOf (grounded entries)).offset.toNat

namespace Indexed

theorem ne_nil (h : Indexed folder name entries) : entries ≠ [] :=
  grounded_ne_nil.1 h.backed.ne_nil

theorem storable (h : Indexed folder name entries) : ∀ entry ∈ entries, entry.IsStorable := by
  intro entry hmem
  obtain ⟨entry', hmem', hsegment⟩ := exists_mem_grounded hmem
  have hstorable := h.backed.storable entry' hmem'
  rwa [IsStorable, hsegment] at hstorable

theorem segment_le (h : Indexed folder name entries) {entry : IndexEntry} (hmem : entry ∈ entries) :
    entry.segment.toNat ≤ (lastOf entries).segment.toNat := by
  obtain ⟨entry', hmem', hsegment⟩ := exists_mem_grounded hmem
  rw [← hsegment, ← lastOf_grounded_segment]
  exact h.backed.segment_le hmem'

theorem le_segment (h : Indexed folder name entries) {entry : IndexEntry} (hmem : entry ∈ entries) :
    (firstOf entries).segment.toNat ≤ entry.segment.toNat := by
  obtain ⟨entry', hmem', hsegment⟩ := exists_mem_grounded hmem
  rw [← hsegment, ← firstOf_grounded_segment]
  exact h.backed.le_segment hmem'

theorem tail_le_head (h : Indexed folder name entries) :
    (firstOf entries).segment.toNat ≤ (lastOf entries).segment.toNat :=
  h.le_segment (lastOf_mem h.ne_nil)

theorem head_le (h : Indexed folder name entries) :
    (lastOf entries).segment.toNat ≤ lastSegmentId :=
  h.storable _ (lastOf_mem h.ne_nil)

theorem there (h : Indexed folder name entries) {id : Nat}
    (hle : (firstOf entries).segment.toNat ≤ id) (hhead : id ≤ (lastOf entries).segment.toNat) :
    folder (segmentFileName name id) ≠ none := by
  rcases Nat.lt_or_eq_of_le hhead with hlt | rfl
  · refine h.backed.history id ?_ ?_
    · rwa [firstOf_grounded_segment]
    · rwa [lastOf_grounded_segment]
  · exact h.headThere

theorem end_le (h : Indexed folder name entries) :
    (lastOf (grounded entries)).offset.toNat ≤
      (segmentBytes folder name (lastOf entries).segment.toNat).length := by
  have hreaches := h.backed.reaches _ (lastOf_mem h.backed.ne_nil)
  rwa [lastOf_grounded_segment] at hreaches

/-- An indexed table is told by its files. -/
theorem congr (h : Indexed folder name entries) (hsame : SameFiles folder folder' name) :
    Indexed folder' name entries where
  index := hsame.index.trans h.index
  headThere := by
    rw [hsame.segment]
    exact h.headThere
  backed := h.backed.of_agrees (hsame.agrees _)

end Indexed

/-! ### Intact tables -/

/-- The index is the form of the entries and the head ends where the last of them says; grounded,
the entries are backed. -/
structure Intact (folder : Folder) (name : String) (entries : List IndexEntry) : Prop
    extends InStep folder name entries where
  backed : Backed folder name (grounded entries)

theorem Whole.intact (h : Whole folder name entries) : Intact folder name entries where
  toInStep := h.toInStep
  backed := by
    rw [grounded_eq_self h.unpruned]
    exact h.toBacked

theorem Intact.whole (h : Intact folder name entries) (hfirst : (firstOf entries).offset = 0) :
    Whole folder name entries where
  toInStep := h.toInStep
  toBacked := by
    have hbacked := h.backed
    rwa [grounded_eq_self hfirst] at hbacked

namespace Intact

theorem indexed (h : Intact folder name entries) : Indexed folder name entries :=
  ⟨h.index, h.headThere, h.backed⟩

theorem ne_nil (h : Intact folder name entries) : entries ≠ [] :=
  h.indexed.ne_nil

theorem storable (h : Intact folder name entries) : ∀ entry ∈ entries, entry.IsStorable :=
  h.indexed.storable

theorem segment_le (h : Intact folder name entries) {entry : IndexEntry} (hmem : entry ∈ entries) :
    entry.segment.toNat ≤ (lastOf entries).segment.toNat :=
  h.indexed.segment_le hmem

theorem le_segment (h : Intact folder name entries) {entry : IndexEntry} (hmem : entry ∈ entries) :
    (firstOf entries).segment.toNat ≤ entry.segment.toNat :=
  h.indexed.le_segment hmem

theorem head_le (h : Intact folder name entries) :
    (lastOf entries).segment.toNat ≤ lastSegmentId :=
  h.indexed.head_le

theorem there (h : Intact folder name entries) {id : Nat}
    (hle : (firstOf entries).segment.toNat ≤ id) (hhead : id ≤ (lastOf entries).segment.toNat) :
    folder (segmentFileName name id) ≠ none :=
  h.indexed.there hle hhead

/-- Behind the last item of an intact table there is nothing. -/
theorem leftIn_eq_nil (h : Intact folder name entries) (hitems : 1 < entries.length) :
    leftIn folder name entries = [] := by
  rw [leftIn, lastOf_grounded_offset, if_neg (Nat.not_le.2 hitems), ← h.headLength,
    List.drop_length]

theorem length_leftIn (h : Intact folder name entries) (hone : entries.length = 1) :
    (leftIn folder name entries).length = (firstOf entries).offset.toNat := by
  obtain ⟨first, rfl⟩ := List.length_eq_one_iff.1 hone
  rw [leftIn, lastOf_grounded_offset, if_pos (Nat.le_of_eq hone)]
  exact h.headLength

/-- An intact table is told by its index and the segments from the tail to the head. -/
theorem congr_within (h : Intact folder name entries)
    (hsame : ∀ file,
      IsFileWithin name (firstOf entries).segment.toNat (lastOf entries).segment.toNat file →
        folder' file = folder file) :
    Intact folder' name entries := by
  have hsegment : ∀ id, (firstOf entries).segment.toNat ≤ id →
      id ≤ (lastOf entries).segment.toNat →
        folder' (segmentFileName name id) = folder (segmentFileName name id) :=
    fun id hlow hhigh => hsame _ (isFileWithin_segment name hlow hhigh)
  have hhead := hsegment _ h.indexed.tail_le_head (Nat.le_refl _)
  refine ⟨⟨(hsame _ (isFileWithin_index _ _ _)).trans h.index, ?_, ?_⟩,
    h.backed.of_agrees ⟨fun id hlow hhigh => hsegment id ?_ (Nat.le_of_lt ?_), ?_⟩⟩
  · rw [hhead]
    exact h.headThere
  · rw [segmentBytes, hhead]
    exact h.headLength
  · rwa [firstOf_grounded_segment] at hlow
  · rwa [lastOf_grounded_segment] at hhigh
  · rw [lastOf_grounded_segment, segmentBytes, hhead, segmentBytes]

theorem congr (h : Intact folder name entries) (hsame : SameFiles folder folder' name) :
    Intact folder' name entries :=
  h.congr_within fun _ hfile => hsame.of_isFileOf (hfile.isFileOf h.head_le)

end Intact

theorem Whole.indexed (h : Whole folder name entries) : Indexed folder name entries :=
  h.intact.indexed

/-- Behind the last item of a table at rest there is nothing. -/
theorem Whole.leftIn_eq_nil (h : Whole folder name entries) : leftIn folder name entries = [] := by
  rw [leftIn, grounded_eq_self h.unpruned, ← h.headLength, List.drop_length]

/-! ### Steady tables -/

/-- The head ends where the last entry says, or there are no items and the head is empty: opening
finds nothing to do. -/
structure Steady (folder : Folder) (name : String) (entries : List IndexEntry) : Prop
    extends Indexed folder name entries where
  head : (segmentBytes folder name (lastOf entries).segment.toNat).length =
      (lastOf entries).offset.toNat ∨
    entries.length = 1 ∧ segmentBytes folder name (lastOf entries).segment.toNat = []

theorem Intact.steady (h : Intact folder name entries) : Steady folder name entries :=
  ⟨h.indexed, .inl h.headLength⟩

namespace Steady

/-- A steady table with items is intact. -/
theorem intact (h : Steady folder name entries) (hitems : 1 < entries.length) :
    Intact folder name entries := by
  rcases h.head with hhead | ⟨hone, -⟩
  · exact ⟨⟨h.index, h.headThere, hhead⟩, h.backed⟩
  · omega

/-- A steady table that is not pruned is at rest. -/
theorem whole (h : Steady folder name entries) (hfirst : (firstOf entries).offset = 0) :
    Whole folder name entries := by
  refine Intact.whole ⟨⟨h.index, h.headThere, ?_⟩, h.backed⟩ hfirst
  rcases h.head with hhead | ⟨hone, hnil⟩
  · exact hhead
  · obtain ⟨first, rfl⟩ := List.length_eq_one_iff.1 hone
    rw [hnil]
    exact (congrArg UInt32.toNat hfirst).symm

theorem congr (h : Steady folder name entries) (hsame : SameFiles folder folder' name) :
    Steady folder' name entries := by
  refine ⟨h.toIndexed.congr hsame, ?_⟩
  rw [hsame.segmentBytes]
  exact h.head

end Steady

/-! ### Extents -/

/-- The extent between two neighbouring entries lies in an open segment and inside its bytes. -/
theorem Backed.extent_le {folder : Folder} (h : Backed folder name entries) {n : Nat}
    {before after : IndexEntry} (hbefore : entries[n]? = some before)
    (hafter : entries[n + 1]? = some after) :
    (Extent.between before after).start ≤ (Extent.between before after).stop ∧
      (Extent.between before after).stop ≤
        (segmentBytes folder name (Extent.between before after).segment).length := by
  have hmem := List.mem_of_getElem? hafter
  refine ⟨?_, h.reaches after hmem⟩
  unfold Extent.between
  split
  · next hseg =>
    obtain ⟨hn, hb⟩ := List.getElem?_eq_some_iff.1 hbefore
    obtain ⟨hn', ha⟩ := List.getElem?_eq_some_iff.1 hafter
    have hprecedes := List.pairwise_iff_getElem.1 h.ordered n (n + 1) hn hn' (by omega)
    rw [hb, ha] at hprecedes
    rcases hprecedes with hlt | ⟨-, hle⟩
    · rw [hseg] at hlt
      omega
    · exact hle
  · exact Nat.zero_le _

theorem slice?_between {folder : Folder} {before after : IndexEntry}
    (hstart : (Extent.between before after).start ≤ (Extent.between before after).stop)
    (hstop : (Extent.between before after).stop ≤
      (segmentBytes folder name (Extent.between before after).segment).length) :
    (segmentBytes folder name (Extent.between before after).segment).slice?
        (Extent.between before after).start
        ((Extent.between before after).stop - (Extent.between before after).start) =
      some (between folder name before after) := by
  unfold Bytes.slice? between
  simp only
  by_cases hempty : (Extent.between before after).stop - (Extent.between before after).start = 0
  · rw [if_pos hempty, List.drop_eq_nil_of_le]
    simp only [List.length_take]
    omega
  · rw [if_neg hempty, if_pos (by omega), List.drop_take]

/-! ### The table of some entries -/

/-- The open segments from the tail to the head, by their numbers. -/
def segmentsBy (number : String → FileId) (name : String) (tail head : Nat) : Segments :=
  (List.range' tail (head - tail)).map
      (fun id => (id, .file (number (segmentFileName name id)) false)) ++
    [(head, .file (number (segmentFileName name head)) true)]

/-- The table that is open when its files hold what the folder says and have these numbers, and its
index has these entries. -/
def tableOf (folder : Folder) (number : String → FileId) (root : Path) (name : String) (cap : Nat)
    (entries : List IndexEntry) : Table where
  dir := root
  name := name
  cap := cap
  items := (firstOf entries).offset.toNat + (entries.length - 1)
  headId := (lastOf entries).segment.toNat
  headBytes := (segmentBytes folder name (lastOf entries).segment.toNat).length
  tailId := (firstOf entries).segment.toNat
  itemOffset := (firstOf entries).offset.toNat
  index := some (.file (number (indexFileName name)) true)
  segments := segmentsBy number name (firstOf entries).segment.toNat (lastOf entries).segment.toNat

theorem opened_eq_tableOf (files : FileSystem) (place : Location) (root : Path) (name : String)
    (cap : Nat) (entries : List IndexEntry) :
    opened files place root name cap entries =
      tableOf (files.folder place) (files.number place) root name cap entries := rfl

variable {names : String → Prop} {root : Path} {number : String → FileId} {disk : Disk} {cap : Nat}

/-- Every segment from the tail to the head is open. -/
theorem exists_get?_segmentsBy (number : String → FileId) (name : String) {tail head id : Nat}
    (hle : tail ≤ id) (hhead : id ≤ head) :
    ∃ writable, (segmentsBy number name tail head).get? id =
      some (.file (number (segmentFileName name id)) writable) := by
  have hbelow : ∀ low count, id ∉ List.range' low count →
      ∀ segment ∈ (List.range' low count).map
        (fun id => (id, Handle.file (number (segmentFileName name id)) false)),
          segment.1 ≠ id := by
    intro low count hid segment hmem
    obtain ⟨other, hother, rfl⟩ := List.mem_map.1 hmem
    exact fun heq => hid (heq ▸ hother)
  rcases Nat.lt_or_eq_of_le hhead with hlt | rfl
  · have hsplit : List.range' tail (head - tail) =
        List.range' tail (id - tail) ++ id :: List.range' (id + 1) (head - id - 1) := by
      have hcount : head - tail = (id - tail) + (head - id - 1 + 1) := by omega
      have hid : tail + (id - tail) = id := by omega
      rw [hcount, ← List.range'_append_1, hid, List.range'_succ]
    refine ⟨false, ?_⟩
    unfold segmentsBy
    rw [hsplit, List.map_append, List.map_cons, List.append_assoc, List.cons_append]
    refine get?_append_cons _ (hbelow _ _ fun hmem => ?_)
    have := (List.mem_range'_1.1 hmem).2
    omega
  · refine ⟨true, get?_append_cons _ (hbelow _ _ fun hmem => ?_)⟩
    have := (List.mem_range'_1.1 hmem).2
    omega

theorem get?_segmentsBy_head (number : String → FileId) (name : String) (tail head : Nat) :
    (segmentsBy number name tail head).get? head =
      some (.file (number (segmentFileName name head)) true) := by
  refine get?_append_cons _ fun segment hmem => ?_
  obtain ⟨id, hid, rfl⟩ := List.mem_map.1 hmem
  obtain ⟨hlow, hhigh⟩ := List.mem_range'_1.1 hid
  simp only
  omega

theorem outcome_openHistory_of_shows (h : disk.files.Shows names root folder number)
    {ids : List Nat} (hids : ∀ id ∈ ids, names (segmentFileName name id) ∧
      folder (segmentFileName name id) ≠ none) :
    (openHistory root name ids).outcome disk =
      (.ok (ids.map fun id => (id, .file (number (segmentFileName name id)) false)), disk) := by
  induction ids with
  | nil => rfl
  | cons id ids ih =>
      obtain ⟨hname, hthere⟩ := hids id (by simp)
      have hopen := Disk.outcome_openFile_readOnly_of_shows h hname hthere
      rw [openHistory, segmentPath, Attempt.outcome_bind_ok hopen,
        Attempt.outcome_bind_ok (ih fun other hother => hids other (by simp [hother]))]
      rfl

/-- The end of an opening: the segments of a table are opened, whose counters are known. -/
def reopening (table : Table) : Action Disk Table := do
  let history ← openHistory table.dir table.name
    (List.range' table.tailId (table.headId - table.tailId))
  let head ← Disk.openFile (segmentPath table.dir table.name table.headId) .update
  return { table with segments := history ++ [(table.headId, head)] }

theorem outcome_reopening (h : disk.files.Shows names root folder number) (cap : Nat)
    (hname : names (segmentFileName name (lastOf entries).segment.toNat))
    (hhead : folder (segmentFileName name (lastOf entries).segment.toNat) ≠ none)
    (hhistory : ∀ id, (firstOf entries).segment.toNat ≤ id → id < (lastOf entries).segment.toNat →
      names (segmentFileName name id) ∧ folder (segmentFileName name id) ≠ none) :
    (reopening (tableOf folder number root name cap entries)).outcome disk =
      (.ok (tableOf folder number root name cap entries), disk) := by
  have hopen := outcome_openHistory_of_shows h fun id (hid : id ∈ List.range'
      (firstOf entries).segment.toNat
      ((lastOf entries).segment.toNat - (firstOf entries).segment.toNat)) => by
    obtain ⟨hlow, hhigh⟩ := List.mem_range'_1.1 hid
    exact hhistory id hlow (by omega)
  unfold reopening
  simp only [tableOf]
  rw [Attempt.outcome_bind_ok hopen, segmentPath,
    Attempt.outcome_bind_ok (Disk.outcome_openFile_update_of_shows h hname hhead)]
  rfl

/-! ### Reading -/

theorem outcome_extent {index : Handle}
    (hread : ∀ n entry, entries[n]? = some entry →
      (readEntry index n).outcome disk = (.ok entry, disk)) {n : Nat} {before after : IndexEntry}
    (hbefore : (grounded entries)[n]? = some before) (hafter : entries[n + 1]? = some after) :
    (extent index n).outcome disk = (.ok (Extent.between before after), disk) := by
  unfold extent
  rw [Attempt.outcome_bind_ok (hread _ _ hafter)]
  cases n with
  | zero =>
      rw [getElem?_grounded_zero] at hbefore
      obtain ⟨first, -, rfl⟩ := Option.map_eq_some_iff.1 hbefore
      rw [if_pos rfl]
      simp [Attempt.outcome_pure, Extent.between]
  | succ n =>
      rw [getElem?_grounded_succ] at hbefore
      rw [if_neg (Nat.succ_ne_zero n), Attempt.outcome_bind_ok (hread _ _ hbefore)]
      rfl

/-- Where the bytes of an item lie, as the index has it. -/
def LiesAt (table : Table) (disk : Disk) (item : Nat) (place : Extent) : Prop :=
  table.itemOffset ≤ item ∧ item < table.items ∧ ∃ index, table.index = some index ∧
    (extent index (item - table.itemOffset)).outcome disk = (.ok place, disk)

section liesAt

variable {table : Table} {item : Nat} {place : Extent}

/-- An item is read where it lies, if that segment is open. -/
theorem LiesAt.outcome_retrieve (h : LiesAt table disk item place) :
    (retrieve item).outcome (table, disk) = (do
      let segment ← openSegment place.segment
      if place.stop < place.start then throw (.io (.entriesOutOfOrder item))
      Attempt.onSecond (segment.read place.start (place.stop - place.start)) :
        Action (Table × Disk) Bytes).outcome (table, disk) := by
  obtain ⟨hlow, hhigh, index, hopen, hextent⟩ := h
  unfold retrieve
  rw [Attempt.outcome_bind_ok (outcome_openIndex hopen disk),
    Attempt.outcome_bind_ok (Attempt.outcome_current _ _), if_neg (by omega),
    Attempt.outcome_bind_ok (Attempt.outcome_onSecond_of hextent _)]

/-- An item in a segment that is not open is not found. -/
theorem LiesAt.outcome_retrieve_missing (h : LiesAt table disk item place)
    (hmissing : table.segments.get? place.segment = none) :
    (retrieve item).outcome (table, disk) =
      (.error (.missingSegment table.name place.segment), (table, disk)) := by
  rw [h.outcome_retrieve, Attempt.outcome_bind_error (outcome_openSegment_missing hmissing disk)]

end liesAt

/-- What is answered when an item is asked for whose segment is open. -/
theorem outcome_retrieve_of_get? {table : Table} {index : Handle}
    (hindex : table.index = some index)
    (hread : ∀ n entry, entries[n]? = some entry →
      (readEntry index n).outcome disk = (.ok entry, disk))
    {n : Nat} (hitem : table.itemOffset + n < table.items)
    {before after : IndexEntry} (hbefore : (grounded entries)[n]? = some before)
    (hafter : entries[n + 1]? = some after) {id : FileId} {writable : Bool}
    (hget : table.segments.get? after.segment.toNat = some (.file id writable)) :
    (retrieve (table.itemOffset + n)).outcome (table, disk) =
      (if (Extent.between before after).stop < (Extent.between before after).start then
          .error (.io (.entriesOutOfOrder (table.itemOffset + n)))
        else match (disk.files.content id).slice? (Extent.between before after).start
            ((Extent.between before after).stop - (Extent.between before after).start) with
          | some data => .ok data
          | none => .error (.io .endOfFile), (table, disk)) := by
  have hlies : LiesAt table disk (table.itemOffset + n) (Extent.between before after) := by
    refine ⟨Nat.le_add_right _ _, hitem, index, hindex, ?_⟩
    rw [Nat.add_sub_cancel_left]
    exact outcome_extent hread hbefore hafter
  have hopened : table.segments.get? (Extent.between before after).segment =
      some (.file id writable) := hget
  rw [hlies.outcome_retrieve, Attempt.outcome_bind_ok (outcome_openSegment hopened disk)]
  split
  · rfl
  · rw [Attempt.outcome_onSecond, Handle.outcome_read_of_content rfl]
    cases (disk.files.content id).slice? (Extent.between before after).start
      ((Extent.between before after).stop - (Extent.between before after).start) <;> rfl

namespace Indexed

/-- The entries that bound an item, and its bytes in the segment that they lie in. -/
theorem exists_extent (h : Indexed folder name entries) {n : Nat} {data : Bytes}
    (hitem : (storedItems folder name entries)[n]? = some data) :
    ∃ before after content, (grounded entries)[n]? = some before ∧
      entries[n + 1]? = some after ∧
      folder (segmentFileName name after.segment.toNat) = some content ∧
      (Extent.between before after).start ≤ (Extent.between before after).stop ∧
      content.slice? (Extent.between before after).start
        ((Extent.between before after).stop - (Extent.between before after).start) = some data := by
  rw [← storedItems_grounded, getElem?_storedItems (firstOf_grounded_offset entries)] at hitem
  obtain ⟨before, after, hbefore, hafter, hdata⟩ : ∃ before after,
      (grounded entries)[n]? = some before ∧ (grounded entries)[n + 1]? = some after ∧
        between folder name before after = data := by
    split at hitem
    · next before after hbefore hafter =>
        exact ⟨before, after, hbefore, hafter, Option.some.inj hitem⟩
    · simp at hitem
  obtain ⟨hstart, hstop⟩ := h.backed.extent_le hbefore hafter
  rw [getElem?_grounded_succ] at hafter
  have hmem := List.mem_of_getElem? hafter
  obtain ⟨content, hcontent⟩ :=
    Option.ne_none_iff_exists'.1 (h.there (h.le_segment hmem) (h.segment_le hmem))
  have hbytes : segmentBytes folder name (Extent.between before after).segment = content := by
    change (folder (segmentFileName name after.segment.toNat)).getD [] = content
    rw [hcontent, Option.getD_some]
  have hslice := slice?_between hstart hstop
  rw [hbytes, hdata] at hslice
  exact ⟨before, after, content, hbefore, hafter, hcontent, hstart, hslice⟩

section reading

variable (h : Indexed folder name entries) (hholds : disk.files.Holds names folder number)
  (hnames : ∀ file,
    IsFileWithin name (firstOf entries).segment.toNat (lastOf entries).segment.toNat file →
      names file)
include h hholds hnames

theorem content_index : disk.files.content (number (indexFileName name)) = encodeAll entries :=
  hholds _ _ (hnames _ (isFileWithin_index _ _ _)) h.index

theorem outcome_readEntry {n : Nat} {entry : IndexEntry} (hentry : entries[n]? = some entry) :
    (readEntry (.file (number (indexFileName name)) true) n).outcome disk = (.ok entry, disk) :=
  outcome_readEntry_of_content (h.content_index hholds hnames)
    (by rwa [Audit.entries_encodeAll h.storable])

/-- An item is answered with the bytes that its entries bound. -/
theorem outcome_retrieve (root : Path) (cap : Nat) {n : Nat} {data : Bytes}
    (hitem : (storedItems folder name entries)[n]? = some data) :
    (retrieve ((firstOf entries).offset.toNat + n)).outcome
        (tableOf folder number root name cap entries, disk) =
      (.ok data, (tableOf folder number root name cap entries, disk)) := by
  obtain ⟨before, after, content, hbefore, hafter, hcontent, hstart, hslice⟩ :=
    h.exists_extent hitem
  have hmem := List.mem_of_getElem? hafter
  have hfile := hholds _ _
    (hnames _ (isFileWithin_segment name (h.le_segment hmem) (h.segment_le hmem))) hcontent
  obtain ⟨writable, hget⟩ := exists_get?_segmentsBy number name (h.le_segment hmem)
    (h.segment_le hmem)
  have hopened : (tableOf folder number root name cap entries).index =
      some (.file (number (indexFileName name)) true) := rfl
  have hlt : n < entries.length - 1 := by
    have := (List.getElem?_eq_some_iff.1 hafter).1
    omega
  have hrun := outcome_retrieve_of_get? hopened
    (fun n entry => h.outcome_readEntry hholds hnames) (Nat.add_lt_add_left hlt _) hbefore hafter
    hget
  rw [if_neg (Nat.not_lt.2 hstart), hfile, hslice] at hrun
  exact hrun

end reading

end Indexed

/-- An item of an intact table is answered with the bytes that its entries bound. -/
theorem Intact.outcome_retrieve (h : Intact folder name entries)
    (hholds : disk.files.Holds names folder number)
    (hnames : ∀ file,
      IsFileWithin name (firstOf entries).segment.toNat (lastOf entries).segment.toNat file →
        names file) (root : Path) (cap : Nat) {n : Nat} {data : Bytes}
    (hitem : (storedItems folder name entries)[n]? = some data) :
    (retrieve ((firstOf entries).offset.toNat + n)).outcome
        (tableOf folder number root name cap entries, disk) =
      (.ok data, (tableOf folder number root name cap entries, disk)) :=
  h.indexed.outcome_retrieve hholds hnames root cap hitem

/-- All other numbers are refused. -/
theorem outcome_retrieve_outside (folder : Folder) (number : String → FileId) (root : Path)
    (name : String) (cap : Nat) (entries : List IndexEntry) (disk : Disk) {item : Nat}
    (houtside : (firstOf entries).offset.toNat + (entries.length - 1) ≤ item ∨
      item < (firstOf entries).offset.toNat) :
    (retrieve item).outcome (tableOf folder number root name cap entries, disk) =
      (.error (.outOfBounds item (firstOf entries).offset.toNat
          ((firstOf entries).offset.toNat + (entries.length - 1))),
        (tableOf folder number root name cap entries, disk)) := by
  have hindex : (tableOf folder number root name cap entries).index =
      some (.file (number (indexFileName name)) true) := rfl
  unfold retrieve
  rw [Attempt.outcome_bind_ok (outcome_openIndex hindex disk),
    Attempt.outcome_bind_ok (Attempt.outcome_current _ _)]
  simp only [tableOf]
  rw [if_pos houtside]
  rfl

namespace Steady

section opening

variable (h : Steady folder name entries) (hshows : disk.files.Shows names root folder number)
  (hnames : ∀ file,
    IsFileWithin name (firstOf entries).segment.toNat (lastOf entries).segment.toNat file →
      names file)

theorem outcome_settle (h : Steady folder name entries) (index head : Handle) :
    (settle root name index (entries.length - 1) (lastOf entries) head
        (segmentBytes folder name (lastOf entries).segment.toNat).length).outcome disk =
      (.ok ⟨entries.length - 1, lastOf entries,
        (segmentBytes folder name (lastOf entries).segment.toNat).length⟩, disk) := by
  by_cases hhead : (lastOf entries).offset.toNat =
      (segmentBytes folder name (lastOf entries).segment.toNat).length
  · rw [settle_of_le _ _ _ _ (Nat.le_of_eq hhead), hhead, if_neg (Nat.lt_irrefl _)]
    rfl
  · -- then there is only entry zero, and its segment is empty
    rcases h.head with heq | ⟨hone, hnil⟩
    · exact absurd heq.symm hhead
    · rw [hnil, List.length_nil] at hhead ⊢
      rw [hone, settle_zero_of_lt _ _ _ _ (Nat.pos_of_ne_zero hhead), if_neg (not_not.2 rfl)]
      rfl

include h hshows hnames

/-- Opening a steady table changes nothing. -/
theorem outcome_openIn (cap : Nat) :
    (openIn root name cap).outcome disk =
      (.ok (tableOf folder number root name cap entries), disk) := by
  have hcount := List.length_pos_iff.2 h.ne_nil
  have htail := h.tail_le_head
  have hheadName : names (segmentFileName name (lastOf entries).segment.toNat) :=
    hnames _ (isFileWithin_segment _ htail (Nat.le_refl _))
  have hopen := Disk.outcome_openFile_update_of_shows hshows
    (hnames _ (isFileWithin_index _ _ _)) (by simp [h.index])
  have hhead := Disk.outcome_openFile_update_of_shows hshows hheadName h.headThere
  obtain ⟨content, hcontent⟩ := Option.ne_none_iff_exists'.1 h.headThere
  have hlength : content.length =
      (segmentBytes folder name (lastOf entries).segment.toNat).length := by
    rw [segmentBytes, hcontent, Option.getD_some]
  have htrim : (trimIndex (.file (number (indexFileName name)) true)).outcome disk =
      (.ok (entries.length - 1), disk) := by
    have hmul : (encodeAll entries).length = width * entries.length := length_encodeAll _
    unfold trimIndex
    rw [Attempt.outcome_bind_ok
        (Handle.outcome_length_of_content (h.content_index hshows.holds hnames) true),
      hmul, Nat.mul_mod_right, Nat.mul_div_cancel_left _ (by decide), if_neg (by simp),
      if_neg (by omega)]
    rfl
  have hopenHead : (openHead root name (lastOf entries).segment.toNat).outcome disk =
      (.ok (.file (number (segmentFileName name (lastOf entries).segment.toNat)) true,
        (segmentBytes folder name (lastOf entries).segment.toNat).length), disk) := by
    unfold openHead
    rw [segmentPath, Attempt.outcome_bind_ok hhead, Attempt.outcome_bind_ok
      (Handle.outcome_length_of_content (hshows.holds _ _ hheadName hcontent) _), hlength]
    rfl
  have hreopen := outcome_reopening hshows cap hheadName h.headThere fun id hlow hhigh =>
    ⟨hnames _ (isFileWithin_segment name hlow (Nat.le_of_lt hhigh)),
      h.there hlow (Nat.le_of_lt hhigh)⟩
  have hzero : entries[0]? = some (firstOf entries) := getElem?_eq_firstOf h.ne_nil
  unfold openIn
  rw [Attempt.outcome_bind_ok (Disk.outcome_makeDirectories_of_shows hshows), indexPath,
    Attempt.outcome_bind_ok hopen, Attempt.outcome_bind_ok htrim,
    Attempt.outcome_bind_ok (h.outcome_readEntry hshows.holds hnames hzero),
    Attempt.outcome_bind_ok (h.outcome_readEntry hshows.holds hnames (getElem?_eq_lastOf h.ne_nil)),
    Attempt.outcome_bind_ok hopenHead]
  simp only
  rw [Attempt.outcome_bind_ok (h.outcome_settle _ _)]
  exact hreopen

end opening

end Steady

/-- Opening an intact table changes nothing. -/
theorem Intact.outcome_openIn (h : Intact folder name entries)
    (hshows : disk.files.Shows names root folder number)
    (hnames : ∀ file,
      IsFileWithin name (firstOf entries).segment.toNat (lastOf entries).segment.toNat file →
        names file) (cap : Nat) :
    (openIn root name cap).outcome disk =
      (.ok (tableOf folder number root name cap entries), disk) :=
  h.steady.outcome_openIn hshows hnames cap

end BlockArchive.Table
