import Mathlib.Data.List.DropRight
import BlockArchive.Audit

/-! # The entries of an index file

An index file is the row of its entries' forms, possibly with a torn one at the end.

* **Reading.** `Audit.entries` gives the whole entries of a content; the torn bytes at its end are
  left out.
* **Writing.** `IndexEntry.encodeAll` is the content of an index without torn bytes.  On the entries
  that can be stored the two undo one another (`entries_encodeAll`, `encodeAll_entries`).
* **Induction.** A content without torn bytes is empty, or an entry with such a content behind it
  (`whole_induction`).
* **Cutting and adding** by whole entries is taking and adding entries (`entries_take`,
  `entries_append`).
* **Order.** `IndexEntry.Precedes` orders entries by segment and, in one segment, by offset.
  `IndexEntry.Climbs` says that no segment was left out. -/

namespace BlockArchive

namespace IndexEntry

/-- The content of an index with these entries. -/
def encodeAll (entries : List IndexEntry) : Bytes :=
  entries.flatMap encode

/-- Whether the id of the entry's segment fits its sixteen bits. -/
def IsStorable (entry : IndexEntry) : Prop :=
  entry.segment.toNat ≤ 65535

/-- The one entry names an earlier segment than the other, or an earlier place of the same. -/
def Precedes (a b : IndexEntry) : Prop :=
  a.segment.toNat < b.segment.toNat ∨ (a.segment = b.segment ∧ a.offset.toNat ≤ b.offset.toNat)

theorem Precedes.refl (a : IndexEntry) : a.Precedes a :=
  .inr ⟨rfl, Nat.le_refl _⟩

theorem Precedes.trans {a b c : IndexEntry} (hab : a.Precedes b) (hbc : b.Precedes c) :
    a.Precedes c := by
  rcases hab with hab | ⟨hab, hle⟩
  · rcases hbc with hbc | ⟨hbc, -⟩
    · exact .inl (by omega)
    · exact .inl (by rwa [← hbc])
  · rcases hbc with hbc | ⟨hbc, hle'⟩
    · exact .inl (by rwa [hab])
    · exact .inr ⟨hab.trans hbc, by omega⟩

instance : Trans Precedes Precedes Precedes := ⟨Precedes.trans⟩

theorem Precedes.segment_le {a b : IndexEntry} (h : a.Precedes b) :
    a.segment.toNat ≤ b.segment.toNat := by
  rcases h with h | ⟨h, -⟩
  · exact Nat.le_of_lt h
  · exact Nat.le_of_eq (congrArg UInt32.toNat h)

@[simp] theorem position_zero : position 0 = 0 := by simp [position]

theorem position_succ (n : Nat) : position (n + 1) = width + position n := by
  rw [position, position, Nat.succ_mul, Nat.add_comm]

theorem position_le_position {m n : Nat} (h : m ≤ n) : position m ≤ position n :=
  Nat.mul_le_mul_right _ h

theorem isStorable_sentinel : sentinel.IsStorable := Nat.zero_le _

theorem decode_encode_of_isStorable {entry : IndexEntry} (h : entry.IsStorable) :
    decode entry.encode = entry := by
  have hlt : entry.segment.toNat % 65536 = entry.segment.toNat :=
    Nat.mod_eq_of_lt (Nat.lt_succ_of_le h)
  rw [decode_encode, hlt, UInt32.ofNat_toNat]

theorem isStorable_decode (data : Bytes) : (decode data).IsStorable := by
  have hlt := Bytes.ofBigEndian_lt (data.take 2)
  have hshort : (data.take 2).length ≤ 2 := by
    rw [List.length_take]
    exact Nat.min_le_left _ _
  have hlen : Nat.pow 256 (data.take 2).length ≤ 65536 := Nat.pow_le_pow_right (by decide) hshort
  have hle : Bytes.ofBigEndian (data.take 2) ≤ 65535 := Nat.le_of_lt_succ (hlt.trans_le hlen)
  simp only [IsStorable, decode, UInt32.toNat_ofNat']
  omega

theorem decode_encode_eq_self {entry : IndexEntry} :
    decode entry.encode = entry ↔ entry.IsStorable := by
  refine ⟨fun h => ?_, decode_encode_of_isStorable⟩
  rw [← h]
  exact isStorable_decode _

/-- Two entries are stored with the same id if it is the same segment that is read from them. -/
theorem take_eq_take_iff {data data' : Bytes} (h : data.length = width)
    (h' : data'.length = width) :
    data.take 2 = data'.take 2 ↔ (decode data).segment = (decode data').segment := by
  have hid : ∀ bytes : Bytes, bytes.length = width →
      bytes.take 2 = Bytes.bigEndian 2 (decode bytes).segment.toNat := by
    intro bytes hbytes
    calc bytes.take 2 = (decode bytes).encode.take 2 := by rw [encode_decode hbytes]
      _ = Bytes.bigEndian 2 (decode bytes).segment.toNat := by simp [encode]
  constructor
  · intro heq
    rw [decode, decode, heq]
  · intro heq
    rw [hid data h, hid data' h', heq]

@[simp] theorem length_encodeAll (entries : List IndexEntry) :
    (encodeAll entries).length = width * entries.length := by
  induction entries with
  | nil => rfl
  | cons entry entries ih =>
      simp only [encodeAll, List.flatMap_cons, List.length_append, length_encode,
        List.length_cons] at ih ⊢
      rw [ih, Nat.mul_succ, Nat.add_comm]

theorem encodeAll_append (first second : List IndexEntry) :
    encodeAll (first ++ second) = encodeAll first ++ encodeAll second := by
  simp [encodeAll]

@[simp] theorem encodeAll_singleton (entry : IndexEntry) : encodeAll [entry] = entry.encode := by
  simp [encodeAll]

theorem take_encodeAll (entries : List IndexEntry) (n : Nat) :
    (encodeAll entries).take (position n) = encodeAll (entries.take n) := by
  induction entries generalizing n with
  | nil => simp [encodeAll]
  | cons entry entries ih =>
      cases n with
      | zero => simp [encodeAll, position]
      | succ n =>
          have hlen : entry.encode.length = width := length_encode entry
          have hpos : position (n + 1) = entry.encode.length + position n := by
            rw [position_succ, hlen]
          rw [List.take_succ_cons, hpos]
          simp only [encodeAll, List.flatMap_cons] at ih ⊢
          rw [List.take_length_add_append, ih]

/-- An index that is cut at an entry's border holds the entries before it. -/
theorem resize_encodeAll_of_le {entries : List IndexEntry} {n : Nat} (h : n ≤ entries.length) :
    (encodeAll entries).resize (position n) = encodeAll (entries.take n) := by
  have hle : position n ≤ (encodeAll entries).length := by
    rw [length_encodeAll, position, Nat.mul_comm]
    exact Nat.mul_le_mul_left _ h
  rw [Bytes.resize_of_le hle, take_encodeAll]

/-! ### The first and the last entry -/

/-- The first of some entries; an index always has one, and at least the sentinel. -/
def firstOf (entries : List IndexEntry) : IndexEntry :=
  entries.headD sentinel

/-- The last of some entries. -/
def lastOf (entries : List IndexEntry) : IndexEntry :=
  entries.getLastD sentinel

variable {entries : List IndexEntry}

@[simp] theorem firstOf_cons (entry : IndexEntry) (more : List IndexEntry) :
    firstOf (entry :: more) = entry := rfl

@[simp] theorem lastOf_concat (entries : List IndexEntry) (entry : IndexEntry) :
    lastOf (entries ++ [entry]) = entry := by
  simp [lastOf]

theorem lastOf_cons (entry : IndexEntry) (h : entries ≠ []) :
    lastOf (entry :: entries) = lastOf entries := by
  cases entries with
  | nil => exact absurd rfl h
  | cons => simp [lastOf]

theorem firstOf_append (h : entries ≠ []) (more : List IndexEntry) :
    firstOf (entries ++ more) = firstOf entries := by
  cases entries with
  | nil => exact absurd rfl h
  | cons => rfl

theorem firstOf_take (entries : List IndexEntry) (n : Nat) :
    firstOf (entries.take (n + 1)) = firstOf entries := by
  cases entries <;> rfl

theorem firstOf_mem (h : entries ≠ []) : firstOf entries ∈ entries := by
  cases entries with
  | nil => exact absurd rfl h
  | cons => simp

theorem lastOf_mem (h : entries ≠ []) : lastOf entries ∈ entries := by
  rw [lastOf, List.getLastD_eq_getLast?, List.getLast?_eq_some_getLast h]
  exact List.getLast_mem h

theorem getElem?_eq_firstOf (h : entries ≠ []) : entries[0]? = some (firstOf entries) := by
  cases entries with
  | nil => exact absurd rfl h
  | cons => rfl

theorem getElem?_eq_lastOf (h : entries ≠ []) :
    entries[entries.length - 1]? = some (lastOf entries) := by
  rw [lastOf, List.getLastD_eq_getLast?, ← List.getLast?_eq_getElem?,
    List.getLast?_eq_some_getLast h]
  rfl

theorem lastOf_take {n : Nat} {entry : IndexEntry} (h : entries[n]? = some entry) :
    lastOf (entries.take (n + 1)) = entry := by
  obtain ⟨hn, rfl⟩ := List.getElem?_eq_some_iff.1 h
  rw [List.take_add_one, List.getElem?_eq_getElem hn]
  exact lastOf_concat _ _

theorem pairwise_of_getElem?
    (h : ∀ n before after, entries[n]? = some before → entries[n + 1]? = some after →
      before.Precedes after) : entries.Pairwise Precedes := by
  refine List.isChain_iff_pairwise.1 (List.isChain_iff_getElem.2 fun n hn => ?_)
  exact h n _ _ (List.getElem?_eq_getElem _) (List.getElem?_eq_getElem hn)

/-- Where no segment id decreases, those of the first and the last entry bound all others. -/
theorem segment_le_of_pairwise (h : entries.Pairwise fun a b => a.segment ≤ b.segment)
    {entry : IndexEntry} (hmem : entry ∈ entries) :
    (firstOf entries).segment.toNat ≤ entry.segment.toNat ∧
      entry.segment.toNat ≤ (lastOf entries).segment.toNat := by
  constructor
  · cases entries with
    | nil => simp at hmem
    | cons first more =>
        rcases List.mem_cons.1 hmem with rfl | hmem
        · exact Nat.le_refl _
        · exact UInt32.le_iff_toNat_le.1 ((List.pairwise_cons.1 h).1 entry hmem)
  · induction entries using List.reverseRecOn with
    | nil => simp at hmem
    | append_singleton init last _ =>
        rw [lastOf_concat]
        rcases List.mem_append.1 hmem with hmem | hmem
        · exact UInt32.le_iff_toNat_le.1 ((List.pairwise_append.1 h).2.2 entry hmem last (by simp))
        · rw [List.mem_singleton.1 hmem]

/-- In ordered entries all precede the last one. -/
theorem precedes_lastOf (h : entries.Pairwise Precedes) {entry : IndexEntry}
    (hmem : entry ∈ entries) : entry.Precedes (lastOf entries) := by
  induction entries using List.reverseRecOn with
  | nil => simp at hmem
  | append_singleton init last _ =>
      rw [lastOf_concat]
      rcases List.mem_append.1 hmem with hmem | hmem
      · exact (List.pairwise_append.1 h).2.2 entry hmem last (by simp)
      · rw [List.mem_singleton.1 hmem]
        exact Precedes.refl last

theorem firstOf_precedes (h : entries.Pairwise Precedes) {entry : IndexEntry}
    (hmem : entry ∈ entries) : (firstOf entries).Precedes entry := by
  cases entries with
  | nil => simp at hmem
  | cons first more =>
      rcases List.mem_cons.1 hmem with rfl | hmem
      · exact Precedes.refl _
      · exact (List.pairwise_cons.1 h).1 entry hmem

theorem pairwise_concat (h : entries.Pairwise Precedes) {entry : IndexEntry}
    (hlast : (lastOf entries).Precedes entry) : (entries ++ [entry]).Pairwise Precedes := by
  refine List.pairwise_append.2 ⟨h, List.pairwise_singleton _ _, fun a ha b hb => ?_⟩
  rw [List.mem_singleton.1 hb]
  exact (precedes_lastOf h ha).trans hlast

/-- Every item begins one new segment at most, so that no entry is of a later segment than its
place among the entries tells. -/
def Climbs (entries : List IndexEntry) : Prop :=
  ∀ (n : Nat) (entry : IndexEntry), entries[n]? = some entry → entry.segment.toNat ≤ n

theorem climbs_sentinel : Climbs [sentinel] := by
  intro n entry hentry
  obtain ⟨hn, rfl⟩ := List.getElem?_eq_some_iff.1 hentry
  simp [sentinel]

theorem Climbs.take (h : Climbs entries) (n : Nat) : Climbs (entries.take n) := by
  intro m entry hentry
  rw [List.getElem?_take] at hentry
  split at hentry
  · exact h m entry hentry
  · simp at hentry

theorem Climbs.concat (h : Climbs entries) {entry : IndexEntry}
    (hentry : entry.segment.toNat ≤ entries.length) : Climbs (entries ++ [entry]) := by
  intro n found hfound
  rcases Nat.lt_or_ge n entries.length with hn | hn
  · rw [List.getElem?_append_left hn] at hfound
    exact h n found hfound
  · obtain ⟨hlt, rfl⟩ := List.getElem?_eq_some_iff.1 hfound
    simp only [List.length_append, List.length_singleton] at hlt
    obtain rfl : n = entries.length := by omega
    simpa using hentry

theorem Climbs.lastOf_lt (h : Climbs entries) (hne : entries ≠ []) :
    (lastOf entries).segment.toNat < entries.length := by
  have hle := h _ _ (getElem?_eq_lastOf hne)
  have hpos := List.length_pos_iff.2 hne
  omega

end IndexEntry

namespace Audit

open IndexEntry

/-- Fewer bytes than an entry has are no entry. -/
theorem entries_of_length_lt {data : Bytes} (h : data.length < width) : entries data = [] := by
  unfold entries
  split
  · simp [width] at h
    omega
  · rfl

theorem entries_of_width_append {data more : Bytes} (h : data.length = width) :
    entries (data ++ more) = decode data :: entries more := by
  match data, h with
  | [_, _, _, _, _, _], _ => rfl

theorem lt_or_exists_append (data : Bytes) :
    data.length < width ∨ ∃ entry more, data = entry ++ more ∧ entry.length = width := by
  by_cases h : data.length < width
  · exact .inl h
  · refine .inr ⟨data.take width, data.drop width, (List.take_append_drop _ _).symm, ?_⟩
    rw [List.length_take]
    omega

/-- A content without torn bytes is the row of its entries. -/
theorem whole_induction {motive : (data : Bytes) → data.length % width = 0 → Prop}
    (nil : motive [] rfl)
    (append : ∀ (entry rest : Bytes) (_ : entry.length = width) (hrest : rest.length % width = 0)
      (hall : (entry ++ rest).length % width = 0), motive rest hrest → motive (entry ++ rest) hall)
    (data : Bytes) (h : data.length % width = 0) : motive data h := by
  induction hn : data.length using Nat.strongRecOn generalizing data with
  | _ n ih =>
      rcases lt_or_exists_append data with hlt | ⟨entry, rest, rfl, hentry⟩
      · obtain rfl : data = [] := by
          rw [Nat.mod_eq_of_lt hlt] at h
          exact List.length_eq_zero_iff.1 h
        exact nil
      · have hlength : (entry ++ rest).length = width + rest.length := by
          rw [List.length_append, hentry]
        have hrest : rest.length % width = 0 := by rwa [hlength, Nat.add_mod_left] at h
        have hlt : rest.length < n := by
          rw [← hn, hlength]
          simp [width]
        exact append entry rest hentry hrest h (ih _ hlt rest hrest rfl)

theorem length_entries (data : Bytes) : (entries data).length = data.length / width := by
  induction h : data.length using Nat.strongRecOn generalizing data with
  | _ n ih =>
      rcases lt_or_exists_append data with hlt | ⟨entry, more, rfl, hentry⟩
      · rw [entries_of_length_lt hlt, List.length_nil, ← h, Nat.div_eq_of_lt hlt]
      · have hmore : more.length < n := by
          rw [← h, List.length_append, hentry]
          simp [width]
        rw [entries_of_width_append hentry, List.length_cons, ih _ hmore more rfl, ← h,
          List.length_append, hentry, Nat.add_div_left _ (by decide)]

/-- Behind whole entries the reading goes on with what follows. -/
theorem entries_append {data more : Bytes} (h : data.length % width = 0) :
    entries (data ++ more) = entries data ++ entries more := by
  induction data, h using whole_induction with
  | nil => simp [entries]
  | append entry rest hentry hrest hall ih =>
      rw [List.append_assoc, entries_of_width_append hentry, entries_of_width_append hentry, ih,
        List.cons_append]

/-- Cutting at an entry's border takes the entries before it. -/
theorem entries_take (data : Bytes) (n : Nat) :
    entries (data.take (position n)) = (entries data).take n := by
  induction n generalizing data with
  | zero => simp [position, entries]
  | succ n ih =>
      rcases lt_or_exists_append data with hlt | ⟨entry, more, rfl, hentry⟩
      · rw [entries_of_length_lt hlt, entries_of_length_lt, List.take_nil]
        rw [List.length_take]
        omega
      · have hpos : position (n + 1) = entry.length + position n := by
          rw [position_succ, hentry]
        rw [hpos, List.take_length_add_append, entries_of_width_append hentry,
          entries_of_width_append hentry, ih, List.take_succ_cons]

theorem entries_take_whole (data : Bytes) :
    entries (data.take (position (data.length / width))) = entries data := by
  rw [entries_take, ← length_entries, List.take_length]

/-- An entry is read from the bytes at its position. -/
theorem getElem?_entries (data : Bytes) (n : Nat) :
    (entries data)[n]? = (data.slice? (position n) width).map decode := by
  induction n generalizing data with
  | zero =>
      rcases lt_or_exists_append data with hlt | ⟨entry, more, rfl, hentry⟩
      · rw [entries_of_length_lt hlt]
        simp [position, Bytes.slice?, width] at hlt ⊢
        omega
      · rw [entries_of_width_append hentry]
        have hlen : width ≤ (entry ++ more).length := by simp [hentry]
        have htake : (entry ++ more).take width = entry := by
          rw [← hentry, List.take_left']
          rfl
        simp only [List.getElem?_cons_zero, position_zero, Bytes.slice?, Nat.zero_add, hlen,
          List.drop_zero, htake]
        rfl
  | succ n ih =>
      rcases lt_or_exists_append data with hlt | ⟨entry, more, rfl, hentry⟩
      · rw [entries_of_length_lt hlt]
        have hno : ¬ position (n + 1) + width ≤ data.length := by
          rw [position_succ]
          omega
        simp [Bytes.slice?, hno, show width ≠ 0 by decide]
      · have hpos : position (n + 1) = entry.length + position n := by
          rw [position_succ, hentry]
        have hdrop : (entry ++ more).drop (entry.length + position n) =
            more.drop (position n) := by
          rw [List.drop_length_add_append]
        have hiff : position (n + 1) + width ≤ (entry ++ more).length ↔
            position n + width ≤ more.length := by
          rw [hpos, List.length_append]
          omega
        rw [entries_of_width_append hentry, List.getElem?_cons_succ, ih]
        simp only [Bytes.slice?, hiff]
        rw [hpos, hdrop]

/-- What is read from an index can be stored in one. -/
theorem isStorable_of_mem_entries {data : Bytes} {entry : IndexEntry} (h : entry ∈ entries data) :
    entry.IsStorable := by
  obtain ⟨n, hn⟩ := List.getElem?_of_mem h
  rw [getElem?_entries] at hn
  obtain ⟨bytes, -, rfl⟩ := Option.map_eq_some_iff.1 hn
  exact isStorable_decode bytes

/-- Written entries are read back. -/
theorem entries_encodeAll {written : List IndexEntry} (h : ∀ entry ∈ written, entry.IsStorable) :
    entries (encodeAll written) = written := by
  induction written with
  | nil => rfl
  | cons entry written ih =>
      have hentry : entry.encode.length = width := length_encode entry
      rw [encodeAll, List.flatMap_cons, entries_of_width_append hentry,
        decode_encode_of_isStorable (h entry (by simp))]
      exact congrArg _ (ih fun e he => h e (by simp [he]))

/-- Whole entries are written back as they were read. -/
theorem encodeAll_entries {data : Bytes} (h : data.length % width = 0) :
    encodeAll (entries data) = data := by
  induction data, h using whole_induction with
  | nil => simp [entries, encodeAll]
  | append entry rest hentry hrest hall ih =>
      simp only [encodeAll] at ih ⊢
      rw [entries_of_width_append hentry, List.flatMap_cons, ih, encode_decode hentry]

/-- What is written back of a content are its bytes without the torn ones. -/
theorem encodeAll_entries_eq_take (data : Bytes) :
    encodeAll (entries data) = data.take (position (data.length / width)) := by
  have hle : position (data.length / width) ≤ data.length := Nat.div_mul_le_self _ _
  rw [← entries_take_whole, encodeAll_entries]
  rw [List.length_take, Nat.min_eq_left hle]
  exact Nat.mul_mod_left _ _

theorem encodeAll_take_entries {data : Bytes} {n : Nat} (h : n ≤ (entries data).length) :
    position n ≤ data.length ∧ encodeAll ((entries data).take n) = data.take (position n) := by
  rw [length_entries] at h
  have hle : position n ≤ position (data.length / width) := position_le_position h
  refine ⟨Nat.le_trans hle (Nat.div_mul_le_self _ _), ?_⟩
  rw [← take_encodeAll, encodeAll_entries_eq_take, List.take_take, Nat.min_eq_left hle]

end Audit

end BlockArchive
