import BlockArchive.Proofs.FileNames
import BlockArchive.Proofs.Folder
import BlockArchive.Proofs.IndexFile
import BlockArchive.Table.Reading

/-! # The files of a table

What a folder holds of one table, as data: the entries of its index, the bytes of its segments, and
the items that these make up.

* **`storedItems`** are the items that entries bound.  They depend on each segment only up to the
  last place that an entry names in it (`storedItems_congr`).
* **`Backed`** entries are in order, start unpruned, and the segments are there and reach as far as
  the entries say.
* **`InStep`**: the index is the form of the entries, and the head ends where the last one says.
* **`Whole`**: entries that are backed and in step.  This is a table as it is at rest.
* **`SameFiles`**: what is done to other files leaves a table alone (`Recovers.congr`,
  `Whole.congr`).
* **`Recovers`**: of the entries written, those that a repair keeps are backed.  This is a table as
  a crash may leave it; leftovers may lie behind the last entry kept, in the index, in the head and
  in segments above. -/

namespace BlockArchive.Table

open IndexEntry

variable {folder folder' : Folder} {name : String} {entries : List IndexEntry}

/-- The names of the files of a table. -/
def IsFileOf (name file : String) : Prop :=
  file = indexFileName name ∨ ∃ id ≤ lastSegmentId, file = segmentFileName name id

theorem isFileOf_index (name : String) : IsFileOf name (indexFileName name) := .inl rfl

theorem isFileOf_segment (name : String) {id : Nat} (h : id ≤ lastSegmentId) :
    IsFileOf name (segmentFileName name id) := .inr ⟨id, h, rfl⟩

/-- The names of the index and of the segments from one id to another. -/
def IsFileWithin (name : String) (low high : Nat) (file : String) : Prop :=
  file = indexFileName name ∨ ∃ id, low ≤ id ∧ id ≤ high ∧ file = segmentFileName name id

theorem isFileWithin_index (name : String) (low high : Nat) :
    IsFileWithin name low high (indexFileName name) := .inl rfl

theorem isFileWithin_segment (name : String) {low high id : Nat} (hlow : low ≤ id)
    (hhigh : id ≤ high) : IsFileWithin name low high (segmentFileName name id) :=
  .inr ⟨id, hlow, hhigh, rfl⟩

theorem IsFileWithin.isFileOf {low high : Nat} {file : String}
    (h : IsFileWithin name low high file) (hhigh : high ≤ lastSegmentId) : IsFileOf name file := by
  rcases h with rfl | ⟨id, -, hid, rfl⟩
  · exact isFileOf_index name
  · exact isFileOf_segment name (Nat.le_trans hid hhigh)

theorem IsFileWithin.mono {low high low' high' : Nat} {file : String}
    (h : IsFileWithin name low high file) (hlow : low' ≤ low) (hhigh : high ≤ high') :
    IsFileWithin name low' high' file := by
  rcases h with rfl | ⟨id, hle, hid, rfl⟩
  · exact isFileWithin_index _ _ _
  · exact isFileWithin_segment _ (by omega) (by omega)

/-! ### Items -/

/-- The bytes of a segment; one that is missing has none. -/
def segmentBytes (folder : Folder) (name : String) (id : Nat) : Bytes :=
  (folder (segmentFileName name id)).getD []

/-- The bytes of an item that lies between two neighbouring entries. -/
def between (folder : Folder) (name : String) (before after : IndexEntry) : Bytes :=
  let extent := Extent.between before after
  ((segmentBytes folder name extent.segment).take extent.stop).drop extent.start

/-- The items that the entries after `before` bound. -/
def itemsAfter (folder : Folder) (name : String) : IndexEntry → List IndexEntry → List Bytes
  | _, [] => []
  | before, after :: rest =>
      between folder name before after :: itemsAfter folder name after rest

/-- The items of an index.  The first one starts at byte zero, whatever entry zero says. -/
def storedItems (folder : Folder) (name : String) : List IndexEntry → List Bytes
  | [] => []
  | first :: bounds => itemsAfter folder name { first with offset := 0 } bounds

theorem length_itemsAfter (before : IndexEntry) (bounds : List IndexEntry) :
    (itemsAfter folder name before bounds).length = bounds.length := by
  induction bounds generalizing before with
  | nil => rfl
  | cons after rest ih => simp [itemsAfter, ih]

theorem length_storedItems (entries : List IndexEntry) :
    (storedItems folder name entries).length = entries.length - 1 := by
  cases entries with
  | nil => rfl
  | cons first bounds => simp [storedItems, length_itemsAfter]

/-- There is one entry more than there are items. -/
theorem length_of_storedItems {items : List Bytes} (hne : entries ≠ [])
    (h : storedItems folder name entries = items) : entries.length = items.length + 1 := by
  have hpos := List.length_pos_iff.2 hne
  rw [← h, length_storedItems]
  omega

/-- Where nothing was pruned, the first item starts at entry zero. -/
theorem storedItems_cons {first : IndexEntry} (hfirst : first.offset = 0)
    (bounds : List IndexEntry) :
    storedItems folder name (first :: bounds) = itemsAfter folder name first bounds := by
  have hzero : ({ first with offset := 0 } : IndexEntry) = first := by
    cases first
    simpa using hfirst.symm
  rw [storedItems, hzero]

theorem itemsAfter_take (before : IndexEntry) (bounds : List IndexEntry) (n : Nat) :
    itemsAfter folder name before (bounds.take n) =
      (itemsAfter folder name before bounds).take n := by
  induction bounds generalizing before n with
  | nil => simp [itemsAfter]
  | cons after rest ih =>
      cases n with
      | zero => rfl
      | succ n => simp [itemsAfter, ih]

theorem storedItems_take (entries : List IndexEntry) (n : Nat) :
    storedItems folder name (entries.take (n + 1)) = (storedItems folder name entries).take n := by
  cases entries with
  | nil => simp [storedItems]
  | cons first bounds => exact itemsAfter_take _ _ _

theorem itemsAfter_concat (before : IndexEntry) (bounds : List IndexEntry) (entry : IndexEntry) :
    itemsAfter folder name before (bounds ++ [entry]) =
      itemsAfter folder name before bounds ++
        [between folder name (lastOf (before :: bounds)) entry] := by
  induction bounds generalizing before with
  | nil => rfl
  | cons after rest ih =>
      rw [List.cons_append, itemsAfter, ih, itemsAfter, lastOf_cons before (by simp)]
      rfl

/-- A new entry bounds one item more. -/
theorem storedItems_concat (hne : entries ≠ []) (hfirst : (firstOf entries).offset = 0)
    (entry : IndexEntry) :
    storedItems folder name (entries ++ [entry]) =
      storedItems folder name entries ++ [between folder name (lastOf entries) entry] := by
  cases entries with
  | nil => exact absurd rfl hne
  | cons first bounds =>
      rw [firstOf_cons] at hfirst
      rw [List.cons_append, storedItems_cons hfirst, storedItems_cons hfirst]
      exact itemsAfter_concat first bounds entry

theorem getElem?_itemsAfter (before : IndexEntry) (bounds : List IndexEntry) (n : Nat) :
    (itemsAfter folder name before bounds)[n]? =
      match (before :: bounds)[n]?, bounds[n]? with
      | some a, some b => some (between folder name a b)
      | _, _ => none := by
  induction bounds generalizing before n with
  | nil => cases n <;> simp [itemsAfter]
  | cons after rest ih =>
      cases n with
      | zero => rfl
      | succ n =>
          rw [itemsAfter, List.getElem?_cons_succ, ih, List.getElem?_cons_succ,
            List.getElem?_cons_succ]

theorem getElem?_storedItems (hfirst : (firstOf entries).offset = 0) (n : Nat) :
    (storedItems folder name entries)[n]? =
      match entries[n]?, entries[n + 1]? with
      | some a, some b => some (between folder name a b)
      | _, _ => none := by
  cases entries with
  | nil => rfl
  | cons first bounds =>
      rw [firstOf_cons] at hfirst
      rw [storedItems_cons hfirst, getElem?_itemsAfter, List.getElem?_cons_succ]

theorem itemsAfter_congr (before : IndexEntry) (bounds : List IndexEntry)
    (h : ∀ entry ∈ bounds,
      (segmentBytes folder' name entry.segment.toNat).take entry.offset.toNat =
        (segmentBytes folder name entry.segment.toNat).take entry.offset.toNat) :
    itemsAfter folder' name before bounds = itemsAfter folder name before bounds := by
  induction bounds generalizing before with
  | nil => rfl
  | cons after rest ih =>
      rw [itemsAfter, itemsAfter, ih after fun e he => h e (by simp [he])]
      simp only [between, Extent.between, h after (by simp)]

/-- Items depend on the segments only up to the places that entries name. -/
theorem storedItems_congr
    (h : ∀ entry ∈ entries,
      (segmentBytes folder' name entry.segment.toNat).take entry.offset.toNat =
        (segmentBytes folder name entry.segment.toNat).take entry.offset.toNat) :
    storedItems folder' name entries = storedItems folder name entries := by
  cases entries with
  | nil => rfl
  | cons first bounds => exact itemsAfter_congr _ _ fun e he => h e (by simp [he])

/-! ### Backed entries -/

/-- Entries that are in order, start unpruned, and are backed by the segments they name. -/
structure Backed (folder : Folder) (name : String) (entries : List IndexEntry) : Prop where
  ne_nil : entries ≠ []
  unpruned : (firstOf entries).offset = 0
  storable : ∀ entry ∈ entries, entry.IsStorable
  ordered : entries.Pairwise Precedes
  reaches : ∀ entry ∈ entries,
    entry.offset.toNat ≤ (segmentBytes folder name entry.segment.toNat).length
  /-- Every segment before the head is there, also one that no entry names. -/
  history : ∀ id, (firstOf entries).segment.toNat ≤ id → id < (lastOf entries).segment.toNat →
    folder (segmentFileName name id) ≠ none

/-- The segments hold the same as in another folder, as far as the entries reach. -/
structure Agrees (folder folder' : Folder) (name : String) (entries : List IndexEntry) :
    Prop where
  history : ∀ id, (firstOf entries).segment.toNat ≤ id → id < (lastOf entries).segment.toNat →
    folder' (segmentFileName name id) = folder (segmentFileName name id)
  head : (segmentBytes folder' name (lastOf entries).segment.toNat).take
      (lastOf entries).offset.toNat =
    (segmentBytes folder name (lastOf entries).segment.toNat).take (lastOf entries).offset.toNat

theorem Agrees.refl (folder : Folder) (name : String) (entries : List IndexEntry) :
    Agrees folder folder name entries :=
  ⟨fun _ _ _ => rfl, rfl⟩

theorem Agrees.trans {folder'' : Folder} (h : Agrees folder folder' name entries)
    (h' : Agrees folder' folder'' name entries) : Agrees folder folder'' name entries :=
  ⟨fun id hle hlt => (h'.history id hle hlt).trans (h.history id hle hlt), h'.head.trans h.head⟩

namespace Backed

theorem firstOf_offset (h : Backed folder name entries) : (firstOf entries).offset.toNat = 0 := by
  rw [h.unpruned]
  rfl

theorem segment_le (h : Backed folder name entries) {entry : IndexEntry} (hmem : entry ∈ entries) :
    entry.segment.toNat ≤ (lastOf entries).segment.toNat :=
  (precedes_lastOf h.ordered hmem).segment_le

theorem le_segment (h : Backed folder name entries) {entry : IndexEntry} (hmem : entry ∈ entries) :
    (firstOf entries).segment.toNat ≤ entry.segment.toNat :=
  (firstOf_precedes h.ordered hmem).segment_le

theorem tail_le_head (h : Backed folder name entries) :
    (firstOf entries).segment.toNat ≤ (lastOf entries).segment.toNat :=
  h.segment_le (firstOf_mem h.ne_nil)

/-- The head's id is one that an entry can store. -/
theorem head_le (h : Backed folder name entries) :
    (lastOf entries).segment.toNat ≤ lastSegmentId :=
  h.storable _ (lastOf_mem h.ne_nil)

theorem take_eq (h : Backed folder name entries) (hagree : Agrees folder folder' name entries)
    {entry : IndexEntry} (hmem : entry ∈ entries) :
    (segmentBytes folder' name entry.segment.toNat).take entry.offset.toNat =
      (segmentBytes folder name entry.segment.toNat).take entry.offset.toNat := by
  rcases precedes_lastOf h.ordered hmem with hlt | ⟨hseg, hle⟩
  · unfold segmentBytes
    rw [hagree.history _ (h.le_segment hmem) hlt]
  · have hhead := congrArg (List.take entry.offset.toNat) hagree.head
    rwa [List.take_take, List.take_take, Nat.min_eq_left hle, ← hseg] at hhead

theorem storedItems_eq (h : Backed folder name entries)
    (hagree : Agrees folder folder' name entries) :
    storedItems folder' name entries = storedItems folder name entries :=
  storedItems_congr fun _ hmem => h.take_eq hagree hmem

/-- Entries stay backed when the segments stay as far as the entries reach. -/
theorem of_agrees (h : Backed folder name entries) (hagree : Agrees folder folder' name entries) :
    Backed folder' name entries where
  ne_nil := h.ne_nil
  unpruned := h.unpruned
  storable := h.storable
  ordered := h.ordered
  reaches := by
    intro entry hmem
    have hlen := congrArg List.length (h.take_eq hagree hmem)
    have hle := h.reaches entry hmem
    simp only [List.length_take] at hlen
    omega
  history := by
    intro id hle hlt
    rw [hagree.history id hle hlt]
    exact h.history id hle hlt

/-- The first entries of backed ones are backed. -/
theorem take (h : Backed folder name entries) (n : Nat) :
    Backed folder name (entries.take (n + 1)) := by
  have hne : entries.take (n + 1) ≠ [] := by
    have := List.length_pos_iff.2 h.ne_nil
    intro hnil
    have := congrArg List.length hnil
    simp only [List.length_take, List.length_nil] at this
    omega
  refine ⟨hne, ?_, fun e he => h.storable e (List.mem_of_mem_take he),
    h.ordered.sublist (List.take_sublist _ _), fun e he => h.reaches e (List.mem_of_mem_take he),
    ?_⟩
  · rw [firstOf_take]
    exact h.unpruned
  · intro id hle hlt
    rw [firstOf_take] at hle
    have hlast := h.segment_le (List.mem_of_mem_take (lastOf_mem hne))
    exact h.history id hle (by omega)

/-- A further entry is backed if it comes after the others and its segment reaches that far. -/
theorem concat (h : Backed folder name entries) {entry : IndexEntry} (hstorable : entry.IsStorable)
    (hlast : (lastOf entries).Precedes entry)
    (hreaches : entry.offset.toNat ≤ (segmentBytes folder name entry.segment.toNat).length)
    (hhistory : ∀ id, (lastOf entries).segment.toNat ≤ id → id < entry.segment.toNat →
      folder (segmentFileName name id) ≠ none) :
    Backed folder name (entries ++ [entry]) := by
  refine ⟨by simp, ?_, ?_, pairwise_concat h.ordered hlast, ?_, ?_⟩
  · rw [firstOf_append h.ne_nil]
    exact h.unpruned
  · intro e he
    rcases List.mem_append.1 he with he | he
    · exact h.storable e he
    · rwa [List.mem_singleton.1 he]
  · intro e he
    rcases List.mem_append.1 he with he | he
    · exact h.reaches e he
    · rwa [List.mem_singleton.1 he]
  · intro id hle hlt
    rw [firstOf_append h.ne_nil] at hle
    rw [lastOf_concat] at hlt
    by_cases hid : id < (lastOf entries).segment.toNat
    · exact h.history id hle hid
    · exact hhistory id (by omega) hlt

/-- Agreement on entries is agreement on the first ones of them. -/
theorem agrees_take (h : Backed folder name entries) (hagree : Agrees folder folder' name entries)
    (n : Nat) : Agrees folder folder' name (entries.take (n + 1)) := by
  have htake := h.take n
  have hmem := List.mem_of_mem_take (lastOf_mem htake.ne_nil)
  refine ⟨fun id hle hlt => ?_, h.take_eq hagree hmem⟩
  rw [firstOf_take] at hle
  have hlast := h.segment_le hmem
  exact hagree.history id hle (by omega)

end Backed

/-! ### A table at rest -/

/-- The index is the form of entries, and the head ends where the last of them says. -/
structure InStep (folder : Folder) (name : String) (entries : List IndexEntry) : Prop where
  index : folder (indexFileName name) = some (encodeAll entries)
  headThere : folder (segmentFileName name (lastOf entries).segment.toNat) ≠ none
  headLength : (segmentBytes folder name (lastOf entries).segment.toNat).length =
    (lastOf entries).offset.toNat

/-- The files of a table at rest: backed entries, in step with the head. -/
structure Whole (folder : Folder) (name : String) (entries : List IndexEntry) : Prop
    extends Backed folder name entries, InStep folder name entries

theorem Whole.there (h : Whole folder name entries) {id : Nat}
    (hle : (firstOf entries).segment.toNat ≤ id) (hhead : id ≤ (lastOf entries).segment.toNat) :
    folder (segmentFileName name id) ≠ none := by
  rcases Nat.lt_or_eq_of_le hhead with hlt | rfl
  · exact h.history id hle hlt
  · exact h.headThere

theorem Whole.file_there (h : Whole folder name entries) {file : String}
    (hfile : IsFileWithin name (firstOf entries).segment.toNat (lastOf entries).segment.toNat
      file) : folder file ≠ none := by
  rcases hfile with rfl | ⟨id, hlow, hhigh, rfl⟩
  · simp [h.index]
  · exact h.there hlow hhigh

theorem whole_sentinel (hindex : folder (indexFileName name) = some (encodeAll [.sentinel]))
    (hhead : folder (segmentFileName name 0) = some []) : Whole folder name [.sentinel] where
  ne_nil := by simp
  unpruned := rfl
  storable := by simp [isStorable_sentinel]
  ordered := by simp
  reaches := by simp [sentinel]
  history id hlow hlt := by
    rw [lastOf, firstOf] at *
    exact absurd hlt (Nat.not_lt.2 hlow)
  index := hindex
  headThere := by
    change folder (segmentFileName name 0) ≠ none
    simp [hhead]
  headLength := by
    change (segmentBytes folder name 0).length = 0
    simp [segmentBytes, hhead]

/-! ### What a repair keeps -/

/-- The whole entries of the index; where there are none, the sentinel counts as written. -/
def written (folder : Folder) (name : String) : List IndexEntry :=
  match Audit.entries ((folder (indexFileName name)).getD []) with
  | [] => [.sentinel]
  | first :: bounds => first :: bounds

/-- Whether an entry reaches past the end of its segment. -/
def dangles (folder : Folder) (name : String) (entry : IndexEntry) : Bool :=
  (segmentBytes folder name entry.segment.toNat).length < entry.offset.toNat

/-- The entries without those at the end that reach past the end of their segments; entry zero is
kept in any case. -/
def keep (folder : Folder) (name : String) : List IndexEntry → List IndexEntry
  | [] => []
  | first :: bounds => first :: bounds.rdropWhile (dangles folder name)

/-- The entries that a repair keeps. -/
def kept (folder : Folder) (name : String) : List IndexEntry :=
  keep folder name (written folder name)

/-- The entries written are in order and start unpruned, and but for the segment of the last one,
each segment holds what the entries in it reach. -/
structure DamagedAtEnd (folder : Folder) (name : String) : Prop where
  unpruned : (firstOf (written folder name)).offset = 0
  ordered : (written folder name).Pairwise Precedes
  reached : ∀ entry ∈ written folder name,
    entry.segment ≠ (lastOf (written folder name)).segment →
      entry.offset.toNat ≤ (segmentBytes folder name entry.segment.toNat).length

/-- The entries that a repair keeps are these, and they are backed. -/
structure Recovers (folder : Folder) (name : String) (entries : List IndexEntry) : Prop
    extends Backed folder name entries where
  kept : Table.kept folder name = entries

theorem keep_concat_of_dangles (hne : entries ≠ []) {entry : IndexEntry}
    (h : dangles folder name entry = true) :
    keep folder name (entries ++ [entry]) = keep folder name entries := by
  cases entries with
  | nil => exact absurd rfl hne
  | cons first bounds => simp [keep, List.rdropWhile_concat_pos _ _ _ h]

/-- Entries at the end that reach past the end of their segments are not kept. -/
theorem keep_append_of_dangles (hne : entries ≠ []) {more : List IndexEntry}
    (h : ∀ entry ∈ more, dangles folder name entry = true) :
    keep folder name (entries ++ more) = keep folder name entries := by
  induction more using List.reverseRecOn with
  | nil => rw [List.append_nil]
  | append_singleton more entry ih =>
      rw [← List.append_assoc, keep_concat_of_dangles (by simp [hne]) (h entry (by simp)),
        ih fun e he => h e (by simp [he])]

theorem keep_of_not_dangles (h : dangles folder name (lastOf entries) = false) :
    keep folder name entries = entries := by
  cases entries with
  | nil => rfl
  | cons first bounds =>
      rw [keep, List.rdropWhile_eq_self_iff.2]
      intro hbounds
      rw [lastOf_cons first hbounds, lastOf, List.getLastD_eq_getLast?,
        List.getLast?_eq_some_getLast hbounds, Option.getD_some] at h
      simp [h]

/-- The last entry kept does not dangle, unless it is entry zero. -/
theorem lastOf_keep (folder : Folder) (name : String) (entries : List IndexEntry) :
    dangles folder name (lastOf (keep folder name entries)) = false ∨
      keep folder name entries = [firstOf entries] ∨ entries = [] := by
  cases entries with
  | nil => exact .inr (.inr rfl)
  | cons first bounds =>
      by_cases hnil : bounds.rdropWhile (dangles folder name) = []
      · exact .inr (.inl (by rw [keep, hnil, firstOf_cons]))
      · left
        have hlast := List.rdropWhile_last_not _ _ hnil
        rw [keep, lastOf_cons first hnil, lastOf, List.getLastD_eq_getLast?,
          List.getLast?_eq_some_getLast hnil]
        simpa using hlast

theorem keep_ne_nil (hne : entries ≠ []) : keep folder name entries ≠ [] := by
  cases entries with
  | nil => exact absurd rfl hne
  | cons first bounds => simp [keep]

/-- When entry zero bounds no bytes, the last entry kept does not dangle. -/
theorem dangles_lastOf_keep (folder : Folder) (name : String)
    (hstart : (firstOf entries).offset = 0) (hne : entries ≠ []) :
    dangles folder name (lastOf (keep folder name entries)) = false := by
  rcases lastOf_keep folder name entries with hreaches | hone | hnil
  · exact hreaches
  · simp [hone, lastOf, dangles, hstart]
  · exact absurd hnil hne

theorem keep_begins (folder : Folder) (name : String) (entries : List IndexEntry) :
    keep folder name entries <+: entries := by
  cases entries with
  | nil => exact List.prefix_rfl
  | cons first bounds => exact List.prefix_cons_inj first |>.2 (List.rdropWhile_prefix _ _)

theorem dangles_of_mem_drop_keep {entry : IndexEntry}
    (h : entry ∈ entries.drop (keep folder name entries).length) :
    dangles folder name entry = true := by
  induction entries using List.reverseRecOn with
  | nil => simp at h
  | append_singleton init last ih =>
      by_cases hdangles : dangles folder name last = true
      · cases init with
        | nil => simp [keep] at h
        | cons first bounds =>
            have hle := (keep_begins folder name (first :: bounds)).length_le
            rw [keep_concat_of_dangles (by simp) hdangles, List.drop_append_of_le_length hle] at h
            rcases List.mem_append.1 h with h | h
            · exact ih h
            · rwa [List.mem_singleton.1 h]
      · rw [keep_of_not_dangles (by rw [lastOf_concat]; simpa using hdangles)] at h
        simp at h

theorem firstOf_keep (folder : Folder) (name : String) (entries : List IndexEntry) :
    firstOf (keep folder name entries) = firstOf entries := by
  cases entries <;> rfl

theorem keep_congr (h : ∀ id, (segmentBytes folder' name id).length =
    (segmentBytes folder name id).length) (entries : List IndexEntry) :
    keep folder' name entries = keep folder name entries := by
  have hdangles : dangles folder' name = dangles folder name := by
    funext entry
    simp only [dangles, h]
  cases entries with
  | nil => rfl
  | cons first bounds => rw [keep, keep, hdangles]

theorem written_eq {data : Bytes} (h : folder (indexFileName name) = some data) :
    written folder name = if Audit.entries data = [] then [.sentinel] else Audit.entries data := by
  rw [written, h, Option.getD_some]
  cases Audit.entries data <;> rfl

theorem written_of_missing (h : folder (indexFileName name) = none) :
    written folder name = [.sentinel] := by
  rw [written, h]
  rfl

theorem written_ne_nil (folder : Folder) (name : String) : written folder name ≠ [] := by
  unfold written
  split <;> simp

theorem isStorable_of_mem_written {entry : IndexEntry} (h : entry ∈ written folder name) :
    entry.IsStorable := by
  unfold written at h
  split at h
  · rw [List.mem_singleton.1 h]
    exact isStorable_sentinel
  · next hentries => exact Audit.isStorable_of_mem_entries (hentries ▸ h)

/-- Behind the form of entries the reading of an index goes on. -/
theorem written_append (hne : entries ≠ []) (hstorable : ∀ entry ∈ entries, entry.IsStorable)
    {more : Bytes} (h : folder (indexFileName name) = some (encodeAll entries ++ more)) :
    written folder name = entries ++ Audit.entries more := by
  have hmod : (encodeAll entries).length % width = 0 := by
    rw [length_encodeAll]
    exact Nat.mul_mod_right _ _
  unfold written
  rw [h, Option.getD_some, Audit.entries_append hmod, Audit.entries_encodeAll hstorable]
  cases entries with
  | nil => exact absurd rfl hne
  | cons => rfl

/-- An index that is the form of entries has these written. -/
theorem written_of_index (hne : entries ≠ []) (hstorable : ∀ entry ∈ entries, entry.IsStorable)
    (h : folder (indexFileName name) = some (encodeAll entries)) :
    written folder name = entries := by
  rw [← List.append_nil (encodeAll entries)] at h
  rw [written_append hne hstorable h, Audit.entries_of_length_lt (by decide), List.append_nil]

/-- The entries in an index to which a part of another was added. -/
theorem written_cut (hne : entries ≠ []) (hstorable : ∀ entry ∈ entries, entry.IsStorable)
    {entry : IndexEntry} (hentry : entry.IsStorable) {part : Nat}
    (hindex : folder (indexFileName name) = some (encodeAll entries ++ entry.encode.take part)) :
    written folder name = if width ≤ part then entries ++ [entry] else entries := by
  rw [written_append hne hstorable hindex]
  by_cases hpart : width ≤ part
  · rw [if_pos hpart, List.take_of_length_le (by rwa [length_encode]), ← encodeAll_singleton,
      Audit.entries_encodeAll (by simpa using hentry)]
  · have hshort : (entry.encode.take part).length < width := by
      rw [List.length_take]
      omega
    rw [if_neg hpart, Audit.entries_of_length_lt hshort, List.append_nil]

/-- A table at rest is kept as it is. -/
theorem Whole.recovers (h : Whole folder name entries) : Recovers folder name entries where
  toBacked := h.toBacked
  kept := by
    rw [Table.kept, written_of_index h.ne_nil h.storable h.index]
    exact keep_of_not_dangles (by simp [dangles, h.headLength])

/-- Where there is no index, the sentinel is kept. -/
theorem recovers_of_index_missing (h : folder (indexFileName name) = none) :
    Recovers folder name [.sentinel] where
  ne_nil := by simp
  unpruned := rfl
  storable := by simp [isStorable_sentinel]
  ordered := List.pairwise_singleton _ _
  reaches := by simp [sentinel]
  history _ hle hlt := absurd hle (Nat.not_le.2 hlt)
  kept := by
    rw [Table.kept, written_of_missing h]
    rfl

/-! ### Other files -/

/-- The files of a table hold the same as in another folder. -/
structure SameFiles (folder folder' : Folder) (name : String) : Prop where
  index : folder' (indexFileName name) = folder (indexFileName name)
  segment : ∀ id, folder' (segmentFileName name id) = folder (segmentFileName name id)

namespace SameFiles

theorem segmentBytes (h : SameFiles folder folder' name) (id : Nat) :
    Table.segmentBytes folder' name id = Table.segmentBytes folder name id := by
  rw [Table.segmentBytes, Table.segmentBytes, h.segment]

theorem agrees (h : SameFiles folder folder' name) (entries : List IndexEntry) :
    Agrees folder folder' name entries :=
  ⟨fun id _ _ => h.segment id, by rw [h.segmentBytes]⟩

theorem refl (folder : Folder) (name : String) : SameFiles folder folder name :=
  ⟨rfl, fun _ => rfl⟩

theorem symm (h : SameFiles folder folder' name) : SameFiles folder' folder name :=
  ⟨h.index.symm, fun id => (h.segment id).symm⟩

theorem trans {folder'' : Folder} (h : SameFiles folder folder' name)
    (h' : SameFiles folder' folder'' name) : SameFiles folder folder'' name :=
  ⟨h'.index.trans h.index, fun id => (h'.segment id).trans (h.segment id)⟩

theorem after (h : SameFiles folder folder' name) (changes : List Change) :
    SameFiles (folder.after changes) (folder'.after changes) name :=
  ⟨Folder.after_congr h.index changes, fun id => Folder.after_congr (h.segment id) changes⟩

theorem of_isFileOf (h : SameFiles folder folder' name) {file : String}
    (hfile : IsFileOf name file) : folder' file = folder file := by
  rcases hfile with rfl | ⟨id, -, rfl⟩
  · exact h.index
  · exact h.segment id

theorem written (h : SameFiles folder folder' name) :
    Table.written folder' name = Table.written folder name := by
  rw [Table.written, Table.written, h.index]

theorem kept (h : SameFiles folder folder' name) :
    Table.kept folder' name = Table.kept folder name := by
  rw [Table.kept, Table.kept, h.written]
  exact keep_congr (fun id => by rw [h.segmentBytes]) _

end SameFiles

theorem DamagedAtEnd.congr (h : DamagedAtEnd folder name)
    (hsame : SameFiles folder folder' name) : DamagedAtEnd folder' name := by
  refine ⟨?_, ?_, ?_⟩
  · rw [hsame.written]
    exact h.unpruned
  · rw [hsame.written]
    exact h.ordered
  · rw [hsame.written]
    intro entry hmem hsegment
    rw [hsame.segmentBytes]
    exact h.reached entry hmem hsegment

theorem Recovers.congr (h : Recovers folder name entries) (hsame : SameFiles folder folder' name) :
    Recovers folder' name entries :=
  ⟨h.toBacked.of_agrees (hsame.agrees _), hsame.kept.trans h.kept⟩

theorem Whole.congr (h : Whole folder name entries) (hsame : SameFiles folder folder' name) :
    Whole folder' name entries := by
  refine ⟨h.toBacked.of_agrees (hsame.agrees _), hsame.index.trans h.index, ?_, ?_⟩
  · rw [hsame.segment]
    exact h.headThere
  · rw [hsame.segmentBytes]
    exact h.headLength

end BlockArchive.Table
