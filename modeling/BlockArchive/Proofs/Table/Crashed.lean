import BlockArchive.Crash
import BlockArchive.Proofs.Table.Filling

/-! # What a crash leaves of one table

A crash does one thing to the files of a table at rest: it lengthens the index or the head, or it
empties the head (`crashing`).

* **Index or head ahead.** What was added at the end of the index is torn or reaches past the head,
  and what was added to the head no entry covers.  A repair keeps all entries.
* **Head emptied.** Every entry of the head then reaches past its end, unless it ends at byte zero.
  A repair keeps the items before the first one that has bytes in the head (`itemsBefore`).

Together: `Whole.recovers_crashing`. -/

namespace BlockArchive.Table

open IndexEntry

variable {folder folder' : Folder} {name : String} {entries : List IndexEntry} {items : List Bytes}

/-! ### The last entry of an index -/

theorem lastEntry?_encodeAll (hne : entries ≠ []) (hstorable : ∀ entry ∈ entries, entry.IsStorable) :
    Crash.lastEntry? (encodeAll entries) = some (lastOf entries) := by
  have hcount : (encodeAll entries).length / width = entries.length := by
    rw [length_encodeAll]
    exact Nat.mul_div_cancel_left _ (by decide)
  have hpos := List.length_pos_iff.2 hne
  unfold Crash.lastEntry?
  rw [hcount, if_neg (Nat.ne_of_gt hpos), ← Audit.getElem?_entries,
    Audit.entries_encodeAll hstorable, getElem?_eq_lastOf hne]

/-! ### Index or head ahead -/

theorem Whole.recovers_index (h : Whole folder name entries) {more : Bytes}
    (hmore : ∀ entry ∈ Audit.entries more, dangles folder name entry = true)
    (hindex : folder' (indexFileName name) = some (encodeAll entries ++ more))
    (hsegment : ∀ id, folder' (segmentFileName name id) = folder (segmentFileName name id)) :
    Recovers folder' name entries ∧
      storedItems folder' name entries = storedItems folder name entries := by
  have hbytes : ∀ id, segmentBytes folder' name id = segmentBytes folder name id := fun id => by
    rw [segmentBytes, segmentBytes, hsegment]
  have hagree : Agrees folder folder' name entries :=
    ⟨fun id _ _ => hsegment id, by rw [hbytes]⟩
  refine ⟨⟨h.toBacked.of_agrees hagree, ?_⟩, h.toBacked.storedItems_eq hagree⟩
  rw [kept, written_append h.ne_nil h.storable hindex,
    keep_congr fun id => congrArg List.length (hbytes id), keep_append_of_dangles h.ne_nil hmore]
  exact keep_of_not_dangles (by simp [dangles, h.headLength])

theorem Whole.recovers_head (h : Whole folder name entries) {more : Bytes}
    (hindex : folder' (indexFileName name) = folder (indexFileName name))
    (hhead : folder' (segmentFileName name (lastOf entries).segment.toNat) =
      some (segmentBytes folder name (lastOf entries).segment.toNat ++ more))
    (hothers : ∀ id ≠ (lastOf entries).segment.toNat,
      folder' (segmentFileName name id) = folder (segmentFileName name id)) :
    Recovers folder' name entries ∧
      storedItems folder' name entries = storedItems folder name entries := by
  have hbytes : segmentBytes folder' name (lastOf entries).segment.toNat =
      segmentBytes folder name (lastOf entries).segment.toNat ++ more := by
    rw [segmentBytes, hhead, Option.getD_some]
  have hagree : Agrees folder folder' name entries := by
    refine ⟨fun id _ hlt => hothers id (Nat.ne_of_lt hlt), ?_⟩
    rw [hbytes, ← h.headLength, List.take_left, List.take_length]
  refine ⟨⟨h.toBacked.of_agrees hagree, ?_⟩, h.toBacked.storedItems_eq hagree⟩
  rw [kept, written_of_index h.ne_nil h.storable (hindex.trans h.index)]
  refine keep_of_not_dangles ?_
  simp [dangles, hbytes, h.headLength]

/-! ### Head emptied -/

/-- The number of items before the first one that has bytes in segment `id`; `bounds` are the
entries at which the items end. -/
def itemsBefore (id : UInt32) : List IndexEntry → List Bytes → Nat
  | bound :: bounds, item :: items =>
      if bound.segment = id ∧ item ≠ [] then 0 else itemsBefore id bounds items + 1
  | _, _ => 0

theorem itemsBefore_le (id : UInt32) (bounds : List IndexEntry) (items : List Bytes) :
    itemsBefore id bounds items ≤ bounds.length := by
  induction bounds generalizing items with
  | nil => exact Nat.le_refl _
  | cons bound bounds ih =>
      cases items with
      | nil => exact Nat.zero_le _
      | cons item items =>
          rw [itemsBefore, List.length_cons]
          split
          · exact Nat.zero_le _
          · exact Nat.succ_le_succ (ih items)

theorem offset_of_mem_take_itemsBefore {id : UInt32} {before : IndexEntry} {bounds : List IndexEntry}
    (hbefore : before.segment = id → before.offset.toNat = 0)
    (hreaches : ∀ bound ∈ bounds,
      bound.offset.toNat ≤ (segmentBytes folder name bound.segment.toNat).length)
    {bound : IndexEntry}
    (hmem : bound ∈ bounds.take (itemsBefore id bounds (itemsAfter folder name before bounds)))
    (hid : bound.segment = id) : bound.offset.toNat = 0 := by
  induction bounds generalizing before with
  | nil => simp at hmem
  | cons after rest ih =>
      rw [itemsAfter, itemsBefore] at hmem
      split at hmem
      · simp at hmem
      · next hnone =>
          have hafter : after.segment = id → after.offset.toNat = 0 := by
            intro hsegment
            have hempty : between folder name before after = [] := by
              by_contra hitem
              exact hnone ⟨hsegment, hitem⟩
            have hlength := congrArg List.length hempty
            rw [length_between (hreaches after List.mem_cons_self), List.length_nil,
              Extent.between] at hlength
            by_cases hsame : before.segment = after.segment
            · have hzero := hbefore (hsame.trans hsegment)
              simp only [if_pos hsame] at hlength
              omega
            · simp only [if_neg hsame] at hlength
              omega
          rw [List.take_succ_cons] at hmem
          rcases List.mem_cons.1 hmem with rfl | hmem
          · exact hafter hid
          · exact ih hafter (fun b hb => hreaches b (List.mem_cons_of_mem _ hb)) hmem

/-- From the first item on that has bytes in the last segment, all items end behind its byte
zero. -/
theorem mem_drop_itemsBefore {id : UInt32} {before : IndexEntry} {bounds : List IndexEntry}
    (hordered : bounds.Pairwise Precedes) (hlast : ∀ bound ∈ bounds, bound.segment.toNat ≤ id.toNat)
    {bound : IndexEntry}
    (hmem : bound ∈ bounds.drop (itemsBefore id bounds (itemsAfter folder name before bounds))) :
    bound.segment = id ∧ 0 < bound.offset.toNat := by
  induction bounds generalizing before with
  | nil => simp at hmem
  | cons after rest ih =>
      obtain ⟨hafter, hordered⟩ := List.pairwise_cons.1 hordered
      rw [itemsAfter, itemsBefore] at hmem
      split at hmem
      · next hsome =>
          obtain ⟨rfl, hitem⟩ := hsome
          have hpos : 0 < after.offset.toNat := by
            have hlength := List.length_pos_iff.2 hitem
            rw [between, List.length_drop, List.length_take] at hlength
            simp only [Extent.between] at hlength
            omega
          have hfollows : after.Precedes bound := by
            rcases List.mem_cons.1 hmem with rfl | hmem
            · exact .refl _
            · exact hafter bound hmem
          rcases hfollows with hlt | ⟨hsegment, hle⟩
          · have hle := hlast bound hmem
            omega
          · exact ⟨hsegment.symm, by omega⟩
      · rw [List.drop_succ_cons] at hmem
        exact ih hordered (fun b hb => hlast b (List.mem_cons_of_mem _ hb)) hmem

/-- Of a table with an empty head a repair keeps the items before the first one that has bytes
there. -/
theorem Whole.recovers_emptied (h : Whole folder name entries)
    (hindex : folder' (indexFileName name) = folder (indexFileName name))
    (hhead : folder' (segmentFileName name (lastOf entries).segment.toNat) = some [])
    (hothers : ∀ id ≠ (lastOf entries).segment.toNat,
      folder' (segmentFileName name id) = folder (segmentFileName name id)) {count : Nat}
    (hcount : count = itemsBefore (lastOf entries).segment (entries.drop 1)
      (storedItems folder name entries)) :
    Recovers folder' name (entries.take (count + 1)) ∧
      storedItems folder' name (entries.take (count + 1)) =
        (storedItems folder name entries).take count := by
  obtain ⟨first, bounds, rfl⟩ := List.exists_cons_of_ne_nil h.ne_nil
  generalize hlast : lastOf (first :: bounds) = last at *
  have hfirst : first.offset.toNat = 0 := h.firstOf_offset
  have hunpruned := h.unpruned
  rw [firstOf_cons] at hunpruned
  rw [storedItems_cons hunpruned, List.drop_one, List.tail_cons] at hcount
  have hbytes : ∀ id ≠ last.segment.toNat,
      segmentBytes folder' name id = segmentBytes folder name id := fun id hid => by
    rw [segmentBytes, segmentBytes, hothers id hid]
  have hempty : segmentBytes folder' name last.segment.toNat = [] := by
    rw [segmentBytes, hhead, Option.getD_some]
  have hkeeps : ∀ entry ∈ (first :: bounds).take (count + 1), entry.segment = last.segment →
      entry.offset.toNat = 0 := by
    intro entry hmem hsegment
    rw [List.take_succ_cons] at hmem
    rcases List.mem_cons.1 hmem with rfl | hmem
    · exact hfirst
    · rw [hcount] at hmem
      exact offset_of_mem_take_itemsBefore (fun _ => hfirst)
        (fun bound hbound => h.reaches bound (List.mem_cons_of_mem _ hbound)) hmem hsegment
  have hdrops : ∀ entry ∈ bounds.drop count, dangles folder' name entry = true := by
    intro entry hmem
    rw [hcount] at hmem
    obtain ⟨hsegment, hpos⟩ := mem_drop_itemsBefore (List.pairwise_cons.1 h.ordered).2
      (fun bound hbound => hlast ▸ h.segment_le (List.mem_cons_of_mem _ hbound)) hmem
    simpa [dangles, hsegment, hempty] using hpos
  have hbacked := h.toBacked.take count
  have hmem := lastOf_mem hbacked.ne_nil
  have hle := hlast ▸ h.segment_le (List.mem_of_mem_take hmem)
  have hagree : Agrees folder folder' name ((first :: bounds).take (count + 1)) := by
    refine ⟨fun id _ hlt => hothers id (by omega), ?_⟩
    by_cases hsegment : (lastOf ((first :: bounds).take (count + 1))).segment = last.segment
    · rw [hkeeps _ hmem hsegment, List.take_zero, List.take_zero]
    · rw [hbytes _ fun heq => hsegment (UInt32.toNat_inj.1 heq)]
  refine ⟨⟨hbacked.of_agrees hagree, ?_⟩, ?_⟩
  · have hsplit : first :: bounds = (first :: bounds).take (count + 1) ++ bounds.drop count :=
      (List.take_append_drop (count + 1) _).symm
    have hreaches := (hbacked.of_agrees hagree).reaches _ hmem
    rw [kept, written_of_index h.ne_nil h.storable (hindex.trans h.index)]
    conv_lhs => rw [hsplit]
    rw [keep_append_of_dangles hbacked.ne_nil hdrops]
    exact keep_of_not_dangles (decide_eq_false (Nat.not_lt.2 hreaches))
  · rw [hbacked.storedItems_eq hagree, storedItems_take]

-- an item without bytes is kept, also in the head, as long as none with bytes there comes before it
example : itemsBefore 1 [⟨0, 3⟩, ⟨1, 0⟩, ⟨1, 4⟩, ⟨1, 4⟩] [[1, 2, 3], [], [4, 5, 6, 7], []] = 2 := by
  decide

/-! ### Every shape -/

/-- The changes that a crash is to the files of a table with these entries.  A partial row does not
concern one table alone. -/
def crashing (name : String) (entries : List IndexEntry) : Crash → List Change
  | .dataLost => [.write (indexFileName name) (width * entries.length)
      (encode { lastOf entries with offset := (lastOf entries).offset + 16 })]
  | .entryLost => [.write (segmentFileName name (lastOf entries).segment.toNat)
      (lastOf entries).offset.toNat (List.replicate 24 0xee)]
  | .entryTorn => [.write (indexFileName name) (width * entries.length) [0, 0, 0]]
  | .headEmptied => [.setLength (segmentFileName name (lastOf entries).segment.toNat) 0]
  | .partialRow _ => []

/-- The number of items that a crash spares of those that are stored with these entries. -/
def spared (entries : List IndexEntry) (items : List Bytes) : Crash → Nat
  | .headEmptied => itemsBefore (lastOf entries).segment (entries.drop 1) items
  | _ => items.length

theorem spared_le (crash : Crash) (hlength : entries.length = items.length + 1) :
    spared entries items crash ≤ items.length := by
  have hbefore := itemsBefore_le (lastOf entries).segment (entries.drop 1) items
  rw [List.length_drop, hlength, Nat.add_sub_cancel] at hbefore
  cases crash with
  | headEmptied => exact hbefore
  | dataLost | entryLost | entryTorn | partialRow => exact Nat.le_refl _

theorem Whole.fits_crashing (h : Whole folder name entries) (crash : Crash) :
    folder.Fits (crashing name entries crash) := by
  have hindex : folder (indexFileName name) ≠ none := by simp [h.index]
  cases crash with
  | dataLost => exact ⟨hindex, trivial⟩
  | entryLost => exact ⟨h.headThere, trivial⟩
  | entryTorn => exact ⟨hindex, trivial⟩
  | headEmptied => exact ⟨h.headThere, trivial⟩
  | partialRow columns => trivial

theorem Whole.isFileOf_of_mem_crashing (h : Whole folder name entries) {crash : Crash}
    {change : Change} (hmem : change ∈ crashing name entries crash) :
    IsFileOf name change.name := by
  cases crash with
  | dataLost => exact List.mem_singleton.1 hmem ▸ isFileOf_index name
  | entryLost => exact List.mem_singleton.1 hmem ▸ isFileOf_segment name h.head_le
  | entryTorn => exact List.mem_singleton.1 hmem ▸ isFileOf_index name
  | headEmptied => exact List.mem_singleton.1 hmem ▸ isFileOf_segment name h.head_le
  | partialRow columns => simp [crashing] at hmem

theorem after_segment {change : Change} {id : Nat} (hname : change.name = segmentFileName name id) :
    folder.after [change] (indexFileName name) = folder (indexFileName name) ∧
      ∀ other ≠ id, folder.after [change] (segmentFileName name other) =
        folder (segmentFileName name other) := by
  refine ⟨Change.apply_ne _ _ ?_, fun other hother => Change.apply_ne _ _ ?_⟩
  · exact hname ▸ indexFileName_ne_segmentFileName _ _ _
  · exact hname ▸ segmentFileName_ne hother

theorem Whole.recovers_write_index (h : Whole folder name entries) {more : Bytes}
    (hmore : ∀ entry ∈ Audit.entries more, dangles folder name entry = true) :
    Recovers (folder.after [.write (indexFileName name) (width * entries.length) more]) name
        entries ∧
      storedItems (folder.after [.write (indexFileName name) (width * entries.length) more]) name
        entries = storedItems folder name entries := by
  refine h.recovers_index hmore ?_ fun id => Folder.after_ne fun change hmem => ?_
  · rw [Folder.after_cons, Folder.after_nil, Change.apply, Function.update_self, h.index,
      Option.map_some, ← length_encodeAll, Bytes.overwrite_length]
  · rw [List.mem_singleton.1 hmem]
    exact Ne.symm (indexFileName_ne_segmentFileName _ _ _)

/-- Of a table at rest a repair keeps just the items that the crash spared. -/
theorem Whole.recovers_crashing (h : Whole folder name entries) {crash : Crash}
    (hoffset : crash = .dataLost → (lastOf entries).offset.toNat + 16 < offsetLimit) {count : Nat}
    (hcount : count = spared entries (storedItems folder name entries) crash) :
    Recovers (folder.after (crashing name entries crash)) name (entries.take (count + 1)) ∧
      storedItems (folder.after (crashing name entries crash)) name (entries.take (count + 1)) =
        (storedItems folder name entries).take count := by
  have hpos := List.length_pos_iff.2 h.ne_nil
  -- where all items are spared, all entries are kept
  have hall : ∀ {after : Folder}, count = (storedItems folder name entries).length →
      Recovers after name entries ∧
        storedItems after name entries = storedItems folder name entries →
      Recovers after name (entries.take (count + 1)) ∧
        storedItems after name (entries.take (count + 1)) =
          (storedItems folder name entries).take count := by
    intro after hcount hkept
    have hle : entries.length ≤ count + 1 := by
      rw [length_storedItems] at hcount
      omega
    rwa [List.take_of_length_le hle, List.take_of_length_le (Nat.le_of_eq hcount.symm)]
  obtain ⟨head, hhead⟩ := Option.ne_none_iff_exists'.1 h.headThere
  cases crash with
  | dataLost =>
      have hstorable : IsStorable
          { lastOf entries with offset := (lastOf entries).offset + 16 } :=
        h.storable (lastOf entries) (lastOf_mem h.ne_nil)
      refine hall hcount (h.recovers_write_index fun entry hmem => ?_)
      rw [← encodeAll_singleton, Audit.entries_encodeAll (by simpa using hstorable),
        List.mem_singleton] at hmem
      subst hmem
      have hlt := hoffset rfl
      rw [offsetLimit] at hlt
      have hsum : ((lastOf entries).offset + 16).toNat = (lastOf entries).offset.toNat + 16 := by
        rw [UInt32.toNat_add]
        exact Nat.mod_eq_of_lt hlt
      simp [dangles, h.headLength, hsum]
  | entryLost =>
      have hwrite : folder.after (crashing name entries .entryLost)
          (segmentFileName name (lastOf entries).segment.toNat) =
            some (segmentBytes folder name (lastOf entries).segment.toNat ++
              List.replicate 24 0xee) := by
        rw [crashing, Folder.after_cons, Folder.after_nil, Change.apply, Function.update_self,
          hhead, Option.map_some, ← h.headLength, segmentBytes, hhead, Option.getD_some,
          Bytes.overwrite_length]
      obtain ⟨hindex, hothers⟩ := @after_segment folder name
        (.write (segmentFileName name (lastOf entries).segment.toNat) _ _) _ rfl
      exact hall hcount (h.recovers_head hindex hwrite hothers)
  | entryTorn =>
      refine hall hcount (h.recovers_write_index fun entry hmem => ?_)
      rw [Audit.entries_of_length_lt (by decide)] at hmem
      simp at hmem
  | headEmptied =>
      have hcut : folder.after (crashing name entries .headEmptied)
          (segmentFileName name (lastOf entries).segment.toNat) = some [] := by
        rw [crashing, Folder.after_cons, Folder.after_nil, Change.apply, Function.update_self,
          hhead, Option.map_some]
        simp [Bytes.resize]
      obtain ⟨hindex, hothers⟩ := @after_segment folder name
        (.setLength (segmentFileName name (lastOf entries).segment.toNat) _) _ rfl
      exact h.recovers_emptied hindex hcut hothers hcount
  | partialRow columns => exact hall hcount ⟨h.recovers, rfl⟩

/-- The last entry of a table at rest ends within the bytes of all its items. -/
theorem Backed.offset_lastOf_le (h : Backed folder name entries) :
    (lastOf entries).offset.toNat ≤ ((storedItems folder name entries).map List.length).sum := by
  rw [← h.endsBelow_eq, endsBelow_succ _ h.tail_le_head, h.endIn_lastOf]
  exact Nat.le_add_left _ _

end BlockArchive.Table
