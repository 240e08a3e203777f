import BlockArchive.Proofs.Table.Appending
import BlockArchive.Proofs.Table.Cutting
import BlockArchive.Proofs.Table.Reading

/-! # Tables of which every segment ends with its last item

* **`endIn`** is where the last of some entries ends that names a segment.  The segments of backed
  entries need as many bytes for these ends as the items have together (`Backed.endsBelow_eq`).
* **`Fills`**: each segment from the tail to the head ends there.  Items that are added or cut away
  leave it so (`Fills.appending`, `Fills.cutting`), and what the segments have are the bytes of the
  items (`Fills.dataLength_eq`). -/

namespace BlockArchive.Table

open IndexEntry

variable {folder folder' : Folder} {name : String} {entries bounds more : List IndexEntry}
  {tail stop id : Nat}

/-! ### Where the items of a segment end -/

/-- Where the last of these entries ends that names segment `id`, or zero if none does. -/
def endIn (bounds : List IndexEntry) (id : Nat) : Nat :=
  (bounds.reverse.find? fun entry => entry.segment.toNat = id).elim 0 fun entry =>
    entry.offset.toNat

theorem endIn_concat (bounds : List IndexEntry) (entry : IndexEntry) (id : Nat) :
    endIn (bounds ++ [entry]) id =
      if entry.segment.toNat = id then entry.offset.toNat else endIn bounds id := by
  rw [endIn, List.reverse_concat, List.find?_cons]
  by_cases h : entry.segment.toNat = id
  · simp [h]
  · simp [h, endIn]

theorem endIn_append (h : ∀ entry ∈ more, entry.segment.toNat ≠ id) :
    endIn (bounds ++ more) id = endIn bounds id := by
  have hnone : (more.reverse.find? fun entry => entry.segment.toNat = id) = none := by
    simpa using h
  rw [endIn, List.reverse_append, List.find?_append, hnone, Option.none_or, endIn]

theorem endIn_eq_zero (h : ∀ entry ∈ bounds, entry.segment.toNat ≠ id) : endIn bounds id = 0 :=
  show endIn ([] ++ bounds) id = endIn [] id from endIn_append h

theorem Backed.endIn_lastOf (h : Backed folder name entries) :
    endIn (entries.drop 1) (lastOf entries).segment.toNat = (lastOf entries).offset.toNat := by
  cases entries with
  | nil => exact absurd rfl h.ne_nil
  | cons first bounds =>
      rcases List.eq_nil_or_concat bounds with rfl | ⟨bounds, entry, rfl⟩
      · exact h.firstOf_offset.symm
      · rw [List.drop_one, List.tail_cons, List.concat_eq_append, ← List.cons_append, lastOf_concat,
          endIn_concat, if_pos rfl]

theorem Backed.endIn_take (h : Backed folder name entries) {n : Nat}
    (hid : id < (lastOf (entries.take (n + 1))).segment.toNat) :
    endIn ((entries.take (n + 1)).drop 1) id = endIn (entries.drop 1) id := by
  have hne := (h.take n).ne_nil
  have hpos : 1 ≤ (entries.take (n + 1)).length := List.length_pos_iff.2 hne
  have hordered := h.ordered
  rw [← List.take_append_drop (n + 1) entries, List.pairwise_append] at hordered
  have habove : ∀ entry ∈ entries.drop (n + 1), entry.segment.toNat ≠ id := by
    intro entry hmem
    have hle := (hordered.2.2 _ (lastOf_mem hne) entry hmem).segment_le
    omega
  conv_rhs => rw [← List.take_append_drop (n + 1) entries]
  rw [List.drop_append_of_le_length hpos, endIn_append habove]

/-! ### All items together -/

/-- The bytes that the segments from `tail` on and below `stop` need. -/
def endsBelow (bounds : List IndexEntry) (tail stop : Nat) : Nat :=
  ((List.range' tail (stop - tail)).map (endIn bounds)).sum

theorem endsBelow_succ (bounds : List IndexEntry) (hle : tail ≤ stop) :
    endsBelow bounds tail (stop + 1) = endsBelow bounds tail stop + endIn bounds stop := by
  rw [endsBelow, range'_head hle, List.map_append, List.sum_append, List.map_singleton,
    List.sum_singleton, endsBelow]

theorem endsBelow_of_le {stop' : Nat} (hle : tail ≤ stop) (hstop : stop ≤ stop')
    (h : ∀ entry ∈ bounds, entry.segment.toNat < stop) :
    endsBelow bounds tail stop' = endsBelow bounds tail stop := by
  induction stop', hstop using Nat.le_induction with
  | base => rfl
  | succ stop' hstop ih =>
      have hnone : endIn bounds stop' = 0 := endIn_eq_zero fun entry hmem =>
        Nat.ne_of_lt (Nat.lt_of_lt_of_le (h entry hmem) hstop)
      rw [endsBelow_succ bounds (Nat.le_trans hle hstop), ih, hnone, Nat.add_zero]

theorem endsBelow_concat (bounds : List IndexEntry) {entry : IndexEntry}
    (h : tail ≤ entry.segment.toNat) :
    endsBelow (bounds ++ [entry]) tail (entry.segment.toNat + 1) =
      endsBelow bounds tail entry.segment.toNat + entry.offset.toNat := by
  rw [endsBelow_succ _ h, endIn_concat, if_pos rfl, endsBelow, endsBelow]
  congr 2
  refine List.map_congr_left fun id hid => ?_
  obtain ⟨hlow, hlt⟩ := List.mem_range'_1.1 hid
  rw [endIn_concat, if_neg]
  omega

theorem length_between {before after : IndexEntry}
    (h : after.offset.toNat ≤ (segmentBytes folder name after.segment.toNat).length) :
    (between folder name before after).length =
      after.offset.toNat - (Extent.between before after).start := by
  rw [between, List.length_drop, List.length_take]
  exact congrArg (· - _) (Nat.min_eq_left h)

/-- The segments need as many bytes as the items have together. -/
theorem Backed.endsBelow_eq (h : Backed folder name entries) :
    endsBelow (entries.drop 1) (firstOf entries).segment.toNat
        ((lastOf entries).segment.toNat + 1) =
      ((storedItems folder name entries).map List.length).sum := by
  induction entries using List.reverseRecOn with
  | nil => exact absurd rfl h.ne_nil
  | append_singleton entries entry ih =>
      rcases entries.eq_nil_or_concat with rfl | ⟨_, _, hconcat⟩
      · simp [endsBelow, endIn, storedItems, itemsAfter, firstOf, lastOf]
      have hne : entries ≠ [] := by simp [hconcat]
      have hpos : 1 ≤ entries.length := List.length_pos_iff.2 hne
      have hinit : Backed folder name entries := by
        have htake := h.take (entries.length - 1)
        rwa [Nat.sub_add_cancel hpos, List.take_left] at htake
      have hreaches := h.reaches entry (by simp)
      have hprecedes : (lastOf entries).Precedes entry :=
        (List.pairwise_append.1 h.ordered).2.2 _ (lastOf_mem hne) entry (List.mem_singleton_self _)
      have htail := hinit.tail_le_head
      have hlow : (firstOf entries).segment.toNat ≤ entry.segment.toNat :=
        Nat.le_trans htail hprecedes.segment_le
      have hbelow : ∀ other ∈ entries.drop 1,
          other.segment.toNat < (lastOf entries).segment.toNat + 1 := fun other hother =>
        Nat.lt_succ_of_le (hinit.segment_le (List.mem_of_mem_drop hother))
      have hlast := hinit.endIn_lastOf
      have hhead := endsBelow_succ (entries.drop 1) htail
      rw [firstOf_append hne, lastOf_concat, storedItems_concat hne hinit.unpruned,
        List.drop_append_of_le_length hpos, List.map_append, List.sum_append, ← ih hinit,
        endsBelow_concat _ hlow, List.map_singleton, List.sum_singleton, length_between hreaches,
        Extent.between]
      -- the item starts where the last one ends, or a segment with it
      rcases hprecedes with hlt | ⟨hsegment, hle⟩
      · have hdiffer : (lastOf entries).segment ≠ entry.segment := fun heq =>
          absurd hlt (heq ▸ Nat.lt_irrefl _)
        rw [if_neg hdiffer, endsBelow_of_le (Nat.le_succ_of_le htail) hlt hbelow]
        rfl
      · rw [if_pos hsegment, ← hsegment, hhead, hlast]
        dsimp only
        omega

/-! ### Filled tables -/

/-- Each segment from the tail to the head is as long as the items reach in it. -/
def Fills (folder : Folder) (name : String) (entries : List IndexEntry) : Prop :=
  ∀ id, (firstOf entries).segment.toNat ≤ id → id ≤ (lastOf entries).segment.toNat →
    (segmentBytes folder name id).length = endIn (entries.drop 1) id

namespace Fills

theorem congr (h : Fills folder name entries) (hsame : SameFiles folder folder' name) :
    Fills folder' name entries := by
  intro id hlow hhigh
  rw [hsame.segmentBytes]
  exact h id hlow hhigh

theorem of_no_items (h : Whole folder name entries) (hone : entries.length = 1) :
    Fills folder name entries := by
  obtain ⟨first, rfl⟩ := List.length_eq_one_iff.1 hone
  intro id hlow hhigh
  obtain rfl : id = first.segment.toNat := Nat.le_antisymm hhigh hlow
  exact h.headLength.trans h.firstOf_offset

/-- The segments of a filled table have the bytes of its items. -/
theorem dataLength_eq (h : Fills folder name entries) (hbacked : Backed folder name entries) :
    dataLength folder name (firstOf entries).segment.toNat (lastOf entries).segment.toNat =
      ((storedItems folder name entries).map List.length).sum := by
  rw [← hbacked.endsBelow_eq, dataLength, endsBelow]
  congr 1
  refine List.map_congr_left fun id hid => ?_
  obtain ⟨hlow, hlt⟩ := List.mem_range'_1.1 hid
  exact h id hlow (by omega)

/-- After an append a table is filled again. -/
theorem appending {files : FileSystem} {place : Location} {root : Path} {cap : Nat} {table : Table}
    {blob : Bytes} (h : Fills (files.folder place) name entries)
    (hwhole : Whole (files.folder place) name entries)
    (htable : table = opened files place root name cap entries)
    (hroom : table.HasRoom blob.length) :
    Fills ((files.folder place).after (Table.appending (files.folder place) table blob)) name
      (entries ++ [table.entryFor blob.length]) := by
  have hhead : table.headId = (lastOf entries).segment.toNat := by rw [htable, opened_headId]
  have hsegment := hroom.entryFor_segment (hhead ▸ hwhole.head_le)
  have hpos := List.length_pos_iff.2 hwhole.ne_nil
  intro id hlow hhigh
  rw [firstOf_append hwhole.ne_nil] at hlow
  rw [lastOf_concat, hsegment] at hhigh
  rw [List.drop_append_of_le_length hpos, endIn_concat, hsegment, segmentBytes,
    (after_appending htable hwhole.indexed blob).2,
    Function.update_of_ne (Ne.symm (indexFileName_ne_segmentFileName _ _ _))]
  by_cases hid : (table.slot blob.length).1 = id
  · rw [if_pos hid, hid, Function.update_self, Option.getD_some, List.length_append,
      length_baseOf htable, hroom.entryFor_offset]
  · -- the other segments are those up to the head of before
    have hbefore : id ≤ (lastOf entries).segment.toNat := by
      rcases slot_eq htable blob.length with ⟨-, hslot, -⟩ | ⟨-, hslot, -⟩
      · rw [hslot] at hhigh
        omega
      · rw [hslot] at hhigh hid
        simp only at hhigh hid
        omega
    rw [if_neg hid, Function.update_of_ne (segmentFileName_ne (Ne.symm hid))]
    exact h id hlow hbefore

/-- After a cut a table is filled again. -/
theorem cutting {n : Nat} (h : Fills folder name entries) (hwhole : Whole folder name entries)
    (hn : n + 1 < entries.length) :
    Fills (folder.after (Table.cutting name entries n)) name (entries.take (n + 1)) := by
  have hcut := (hwhole.cutting hn).1
  have hlast := hwhole.segment_le (lastOf_take_mem hn)
  intro id hlow hhigh
  rcases Nat.lt_or_eq_of_le hhigh with hlt | rfl
  · rw [firstOf_take] at hlow
    rw [segmentBytes, after_cutting_segment, if_neg (Nat.ne_of_lt hlt), if_neg (by omega),
      ← segmentBytes, h id hlow (by omega), hwhole.toBacked.endIn_take hlt]
  · rw [hcut.headLength, hcut.toBacked.endIn_lastOf]

end Fills

end BlockArchive.Table
