import BlockArchive.Proofs.Growth
import BlockArchive.Proofs.Table.Accepted

/-! # Counters that fit the files

The counters of an open table say how long its files are.  This is so whatever the entries say: they
may be out of order, name segments that are not open, or reach past the end of their segments.

* **`Aligned`**: the index ends behind the entry of the last item, and it is open to be written to,
  and so is the head.  **`Counted`**: the head ends where the counters say.
* **Opening.** Settling looks at lengths only, so the counters of a table that was opened fit its
  files, whatever these held (`counted_of_openIn`).
* **Appending.** With the counters, the bytes of an item come to stand at the end of the head, and
  its entry at the end of the index (`PutsAtEnd`).  An append that fails leaves all as it is, and
  the head is never missing (`Counted.of_append`). -/

namespace BlockArchive.Table

open IndexEntry FileSystem Attempt

variable {names : String → Prop} {place : Location} {root : Path} {name : String} {cap : Nat}
  {table table' : Table} {disk disk' : Disk} {item : Nat} {blob data content : Bytes}
  {last : IndexEntry} {before : Nat} {settled : Settled}

/-- The index ends behind the entry of the last of `items` items.  It is open to be written to, and
so is the head, whatever that holds; no segment above the head is open. -/
structure Aligned (names : String → Prop) (place : Location) (root : Path) (name : String)
    (items : Nat) (table : Table) (disk : Disk) : Prop where
  lodges : disk.files.Lodges names (IsFileOf name) root place
  dir : table.dir = root
  named : table.name = name
  itemOffset_lt : table.itemOffset < offsetLimit
  itemOffset_le : table.itemOffset ≤ items
  index : table.index = some (.file (disk.files.number place (indexFileName name)) true)
  indexed : ∃ data, disk.files.folder place (indexFileName name) = some data ∧
    data.length = position (items - table.itemOffset + 1)
  headId_le : table.headId ≤ lastSegmentId
  head : table.segments.get? table.headId =
    some (.file (disk.files.number place (segmentFileName name table.headId)) true)
  headThere : disk.files.folder place (segmentFileName name table.headId) ≠ none
  above : ∀ id, table.headId < id → table.segments.get? id = none

/-- The counters of an open table fit its files: the index ends behind the entry of the last item,
and the head where the next item starts. -/
structure Counted (names : String → Prop) (place : Location) (root : Path) (name : String)
    (table : Table) (disk : Disk) : Prop
    extends Aligned names place root name table.items table disk where
  headBytes_lt : table.headBytes < offsetLimit
  headBytes : ∃ content, disk.files.folder place (segmentFileName name table.headId) =
    some content ∧ content.length = table.headBytes

/-! ### Opening -/

/-- Whatever bytes are read, the entry that they make names a segment that can be stored. -/
theorem isStorable_of_readEntry {index : Handle} {n : Nat} {entry : IndexEntry}
    (h : (readEntry index n).outcome disk = (.ok entry, disk')) :
    entry.IsStorable ∧ disk' = disk := by
  have hsame := (onlyReads_readEntry index n).of_outcome h
  unfold readEntry at h
  obtain ⟨bytes, disk₁, -, h⟩ := exists_of_outcome_bind h
  obtain ⟨rfl, -⟩ := by simpa [outcome_pure] using h
  exact ⟨isStorable_decode bytes, hsame⟩

/-- What settling leaves, whatever the entries say: the index ends behind the last entry, and the
segment that this one names is as long as is told. -/
structure SettledAt (names : String → Prop) (place : Location) (root : Path) (name : String)
    (disk : Disk) (settled : Settled) (disk' : Disk) : Prop where
  lodges : disk'.files.Lodges names (IsFileOf name) root place
  number : disk'.files.number place (indexFileName name) =
    disk.files.number place (indexFileName name)
  storable : settled.last.IsStorable
  indexed : ∃ data, disk'.files.folder place (indexFileName name) = some data ∧
    data.length = position (settled.before + 1)
  length_lt : settled.length < offsetLimit
  head : ∃ content, disk'.files.folder place
    (segmentFileName name settled.last.segment.toNat) = some content ∧
      content.length = settled.length

section settle

variable (hlodges : disk.files.Lodges names (IsFileOf name) root place)
  (hlast : names (segmentFileName name last.segment.toNat)) (hstorable : last.IsStorable)
  (hindex : disk.files.folder place (indexFileName name) = some data)
  (hlength : data.length = position (before + 1))
  (hhead : disk.files.folder place (segmentFileName name last.segment.toNat) = some content)
include hlodges hlast hstorable hindex hlength hhead

theorem settledAt_setLength {length : Nat} (hlt : length < offsetLimit) :
    SettledAt names place root name disk ⟨before, last, length⟩
      (disk.change place (.setLength (segmentFileName name last.segment.toNat) length)) := by
  have hsets := Disk.sets_setLength hlodges hlast hhead length
  have hne := indexFileName_ne_segmentFileName name name last.segment.toNat
  exact ⟨hsets.lodges, hsets.number_of_ne hne, hstorable,
    ⟨data, (hsets.folder_of_ne hne).trans hindex, hlength⟩, hlt,
    ⟨_, hsets.folder_self, Bytes.length_resize _ _⟩⟩

theorem settledAt_of_le (hle : last.offset.toNat ≤ content.length)
    (hrun : (settle root name (.file (disk.files.number place (indexFileName name)) true) before
      last (.file (disk.files.number place (segmentFileName name last.segment.toNat)) true)
      content.length).outcome disk = (.ok settled, disk')) :
    SettledAt names place root name disk settled disk' := by
  have hoffset : last.offset.toNat < offsetLimit := last.offset.toNat_lt
  rw [settle_of_le _ _ _ _ hle] at hrun
  split at hrun
  · rw [outcome_bind_ok (Handle.outcome_setLength _ _ _ _)] at hrun
    obtain ⟨rfl, rfl⟩ := by simpa [outcome_pure] using hrun
    exact settledAt_setLength hlodges hlast hstorable hindex hlength hhead hoffset
  · next hge =>
    obtain ⟨rfl, rfl⟩ := by simpa [outcome_pure] using hrun
    exact ⟨hlodges, rfl, hstorable, ⟨data, hindex, hlength⟩, hoffset,
      ⟨content, hhead, Nat.le_antisymm (Nat.not_lt.1 hge) hle⟩⟩

theorem settledAt_of_outcome (hfile : names (indexFileName name))
    (hrun : (settle root name (.file (disk.files.number place (indexFileName name)) true) before
      last (.file (disk.files.number place (segmentFileName name last.segment.toNat)) true)
      content.length).outcome disk = (.ok settled, disk')) :
    SettledAt names place root name disk settled disk' := by
  induction before generalizing disk last data content with
  | zero =>
      by_cases hle : last.offset.toNat ≤ content.length
      · exact settledAt_of_le hlodges hlast hstorable hindex hlength hhead hle hrun
      rw [settle_zero_of_lt _ _ _ _ (Nat.lt_of_not_le hle)] at hrun
      split at hrun
      · rw [outcome_bind_ok (Handle.outcome_setLength _ _ _ _)] at hrun
        obtain ⟨rfl, rfl⟩ := by simpa [outcome_pure] using hrun
        exact settledAt_setLength hlodges hlast hstorable hindex hlength hhead (by decide)
      · next hempty =>
        obtain ⟨rfl, rfl⟩ := by simpa [outcome_pure] using hrun
        exact ⟨hlodges, rfl, hstorable, ⟨data, hindex, hlength⟩, show 0 < offsetLimit by decide,
          ⟨content, hhead, by simpa using hempty⟩⟩
  | succ before ih =>
      by_cases hle : last.offset.toNat ≤ content.length
      · exact settledAt_of_le hlodges hlast hstorable hindex hlength hhead hle hrun
      rw [settle_succ_of_lt _ _ _ _ (Nat.lt_of_not_le hle),
        outcome_bind_ok (Handle.outcome_setLength _ _ _ _)] at hrun
      -- the last entry is dropped
      have hsets := Disk.sets_setLength hlodges hfile hindex (position (before + 1))
      have hnumber : ∀ file, (disk.change place (.setLength (indexFileName name)
          (position (before + 1)))).files.number place file = disk.files.number place file :=
        fun file => Change.number_effect (by simp)
      have hhead₁ := (hsets.folder_of_ne (Ne.symm (indexFileName_ne_segmentFileName _ _ _))).trans
        hhead
      generalize disk.change place _ = disk₁ at *
      obtain ⟨previous, disk₂, hread, hrest⟩ := exists_of_outcome_bind hrun
      clear hrun
      obtain ⟨hstorable', rfl⟩ := isStorable_of_readEntry hread
      rw [← hnumber (indexFileName name)] at hrest
      split at hrest
      · next hsegment =>
        rw [← hnumber, ← hsegment] at hrest
        have hsettled := ih hsets.lodges (hsegment ▸ hlast) hstorable' hsets.folder_self
          (Bytes.length_resize _ _) (hsegment ▸ hhead₁) hrest
        exact { hsettled with number := hsettled.number.trans (hnumber _) }
      · obtain ⟨⟨head, length⟩, disk₃, hopen, hrest⟩ := exists_of_outcome_bind hrest
        have hprevious := names_of_openHead hsets.lodges hstorable' hopen
        obtain ⟨disk₄, htidied, hfolder, hothers, hopen'⟩ :=
          exists_openHead hsets.lodges.toHouses hstorable' hprevious
        rw [hopen] at hopen'
        obtain ⟨⟨rfl, rfl⟩, rfl⟩ := by simpa using hopen'
        have hne := indexFileName_ne_segmentFileName name name previous.segment.toNat
        rw [← hothers _ hne] at hrest
        have hsettled := ih (htidied.lodges hsets.lodges) hprevious hstorable'
          (by rw [hfolder, Function.update_of_ne hne, hsets.folder_self])
          (Bytes.length_resize _ _) (by rw [hfolder, Function.update_self]) hrest
        exact { hsettled with number := hsettled.number.trans ((hothers _ hne).trans (hnumber _)) }

end settle

/-- The counters of a table that was opened fit its files, whatever the files held. -/
theorem counted_of_openIn (hlodges : disk.files.Lodges names (IsFileOf name) root place)
    (hrun : (openIn root name cap).outcome disk = (.ok table, disk')) :
    Counted names place root name table disk' := by
  have hne := written_ne_nil (disk.files.folder place) name
  have hstorable : ∀ entry ∈ written (disk.files.folder place) name, entry.IsStorable :=
    fun _ hmem => isStorable_of_mem_written hmem
  obtain ⟨hfile, disk₁, ⟨head, length⟩, disk₂, settled, disk₃, history, disk₄, reopened, hlodges₁,
    hindexed, hhead, hsettle, hhistory, hreopen, rfl⟩ := exists_steps_of_openIn hlodges hrun rfl
  generalize written (disk.files.folder place) name = all at *
  have hpos := List.length_pos_iff.2 hne
  have hid := hstorable _ (lastOf_mem hne)
  have hlast := names_of_openHead hlodges₁ hid hhead
  obtain ⟨disk₅, htidied, hfolder, hothers, hhead'⟩ := exists_openHead hlodges₁.toHouses hid hlast
  rw [hhead] at hhead'
  obtain ⟨⟨rfl, rfl⟩, rfl⟩ := by simpa using hhead'
  have hindex := indexFileName_ne_segmentFileName name name (lastOf all).segment.toNat
  rw [← hothers _ hindex] at hsettle
  have hsettled := settledAt_of_outcome (htidied.lodges hlodges₁) hlast hid
    (by rw [hfolder, Function.update_of_ne hindex, hindexed])
    (by rw [length_encodeAll, position, Nat.sub_add_cancel hpos, Nat.mul_comm])
    (by rw [hfolder, Function.update_self]) hfile hsettle
  obtain ⟨content, hcontent, -⟩ := hsettled.head
  have hthere : disk₃.files.folder place (segmentFileName name settled.last.segment.toNat) ≠
      none := by
    simp [hcontent]
  obtain ⟨rfl, hget, hsegments⟩ :=
    segments_of_openHistory hsettled.lodges hsettled.storable hthere hhistory hreopen
  exact {
    lodges := hsettled.lodges
    dir := rfl
    named := rfl
    itemOffset_lt := (firstOf all).offset.toNat_lt
    itemOffset_le := Nat.le_add_right _ _
    index := by rw [hsettled.number, hothers _ hindex]
    indexed := by simpa using hsettled.indexed
    headId_le := hsettled.storable
    head := hget
    headThere := hthere
    headBytes_lt := hsettled.length_lt
    headBytes := hsettled.head
    above := by
      intro id habove
      by_contra hopen
      obtain ⟨handle, hopen⟩ := Option.ne_none_iff_exists'.1 hopen
      exact absurd (hsegments id handle hopen).1 (Nat.not_le.2 habove) }

namespace Aligned

variable {items : Nat} (h : Aligned names place root name items table disk)
include h

theorem names_index : names (indexFileName name) := by
  obtain ⟨data, hdata, -⟩ := h.indexed
  exact h.lodges.names_of_folder (isFileOf_index name) (by simp [hdata])

theorem names_head : names (segmentFileName name table.headId) :=
  h.lodges.names_of_folder (isFileOf_segment name h.headId_le) h.headThere

theorem le_of_mem {segment : Nat × Handle} (hmem : segment ∈ table.segments) :
    segment.1 ≤ table.headId := by
  by_contra hlt
  have hnone := h.above segment.1 (Nat.not_le.1 hlt)
  simpa using List.lookup_eq_none_iff.1 hnone segment hmem

theorem equipped : Equipped table where
  index := by
    intro handle hindex
    obtain rfl := Option.some.inj (h.index.symm.trans hindex)
    exact ⟨_, rfl⟩
  head := by
    intro handle hhead
    obtain rfl := Option.some.inj (h.head.symm.trans hhead)
    exact ⟨_, rfl⟩
  above id hid hopen := absurd (h.above id hid) hopen

end Aligned

namespace Counted

variable (h : Counted names place root name table disk)
include h

/-! ### Appending -/

/-- The next segment can be opened afresh unless a directory is in the way, and then the head can be
opened to be read. -/
theorem of_openFile_fresh (hlast : table.headId < lastSegmentId) {next : Handle}
    (hnext : (Disk.openFile (segmentPath table.dir table.name (table.headId + 1)) .fresh).outcome
      disk = (.ok next, disk')) :
    next = .file (disk'.files.number place (segmentFileName name (table.headId + 1))) true ∧
      disk'.files.Lodges names (IsFileOf name) root place ∧
      disk'.files.folder place = Function.update (disk.files.folder place)
        (segmentFileName name (table.headId + 1)) (some []) ∧
      (∀ file ≠ segmentFileName name (table.headId + 1), Grows place file disk disk') ∧
      (Disk.openFile (segmentPath table.dir table.name table.headId) .readOnly).outcome disk' =
        (.ok (.file (disk'.files.number place (segmentFileName name table.headId)) false),
          disk') := by
  rw [h.dir, h.named] at hnext ⊢
  have hfile := Disk.names_of_openFile h.lodges (isFileOf_segment name hlast) (by decide) hnext
  obtain ⟨disk₁, hsets, hrun⟩ := Disk.exists_openFile_fresh h.lodges hfile
  rw [segmentPath, hrun] at hnext
  obtain ⟨rfl, rfl⟩ := by simpa using hnext
  have hne : segmentFileName name table.headId ≠ segmentFileName name (table.headId + 1) :=
    segmentFileName_ne (Nat.ne_of_lt (Nat.lt_succ_self _))
  exact ⟨rfl, hsets.lodges, hsets.folder, fun _ => hsets.grows,
    Disk.outcome_openFile_readOnly_of_some hsets.lodges.toHouses h.names_head
      ((hsets.grows hne).there h.headThere)⟩

theorem eq_of_rotates_error {e : Error} (hrotates : Rotates table disk (.error e) table' disk') :
    table' = table ∧ disk' = disk := by
  cases hrotates with
  | exhausted => exact ⟨rfl, rfl⟩
  | blocked =>
      rw [erase_eq_self (h.above _ (Nat.lt_succ_self _))]
      exact ⟨rfl, rfl⟩
  | lost hnext hold hlast =>
      obtain ⟨-, -, -, -, hopen⟩ := h.of_openFile_fresh hlast hnext
      rw [hold] at hopen
      simp at hopen

theorem of_rotates (hrotates : Rotates table disk (.ok ()) table' disk') :
    Counted names place root name table' disk' ∧ table'.items = table.items ∧
      table'.itemOffset = table.itemOffset ∧ table'.headId = table.headId + 1 ∧
      disk'.files.folder place = Function.update (disk.files.folder place)
        (segmentFileName name (table.headId + 1)) (some []) := by
  cases hrotates with
  | @done next _ old hnext hold hlast =>
      obtain ⟨rfl, hlodges, hfolder, hgrows, -⟩ := h.of_openFile_fresh hlast hnext
      have hget := get?_withNext_insert table
        (.file (disk'.files.number place (segmentFileName name (table.headId + 1))) true) old
      have hne := indexFileName_ne_segmentFileName name name (table.headId + 1)
      refine ⟨?_, rfl, rfl, rfl, hfolder⟩
      exact {
        lodges := hlodges
        dir := h.dir
        named := h.named
        itemOffset_lt := h.itemOffset_lt
        itemOffset_le := h.itemOffset_le
        index := by rw [(hgrows _ hne).number, h.index]
        indexed := by rw [hfolder, Function.update_of_ne hne]; exact h.indexed
        headId_le := hlast
        head := by rw [hget, if_neg (Nat.succ_ne_self _), if_pos rfl]
        headThere := by simp [hfolder]
        headBytes_lt := show 0 < offsetLimit by decide
        headBytes := ⟨[], by rw [hfolder, Function.update_self], rfl⟩
        above := by
          intro id hid
          have hlt : table.headId < id := Nat.lt_of_succ_lt hid
          rw [hget, if_neg (Nat.ne_of_gt hlt), if_neg (Nat.ne_of_gt hid), h.above id hlt] }

theorem of_writes (hwrites : Writes table blob disk disk') :
    Counted names place root name { table with
      headBytes := table.headBytes + blob.length
      items := table.items + 1 } disk' ∧
    ∃ content data,
      disk.files.folder place (segmentFileName name table.headId) = some content ∧
      disk.files.folder place (indexFileName name) = some data ∧
      disk'.files.folder place = Function.update (Function.update (disk.files.folder place)
        (segmentFileName name table.headId) (some (content ++ blob)))
          (indexFileName name) (some (data ++ (table.headEntry blob.length).encode)) ∧
      ∀ file, Grows place file disk disk' := by
  obtain ⟨hroom, index, head, disk₁, hindex, hhead, hblob, hentry⟩ := hwrites
  obtain rfl := Option.some.inj (h.index.symm.trans hindex)
  obtain rfl := Option.some.inj (h.head.symm.trans hhead)
  obtain ⟨content, hcontent, hlength⟩ := h.headBytes
  obtain ⟨data, hdata, hposition⟩ := h.indexed
  obtain ⟨disk₂, hblob', hlodges, hfolder, hgrows⟩ :=
    Disk.exists_write_end h.lodges h.names_head hcontent blob
  rw [← hlength, hblob'] at hblob
  obtain rfl := (Prod.mk.inj hblob).2
  have hne := indexFileName_ne_segmentFileName name name table.headId
  have hindexed : disk₂.files.folder place (indexFileName name) = some data := by
    rw [hfolder, Function.update_of_ne hne, hdata]
  obtain ⟨disk₃, hentry', hlodges', hfolder', hgrows'⟩ := Disk.exists_write_end hlodges
    h.names_index hindexed (table.headEntry blob.length).encode
  rw [← hposition, ← (hgrows (indexFileName name)).number, hentry'] at hentry
  obtain rfl := (Prod.mk.inj hentry).2
  have hall : ∀ file, Grows place file disk disk₃ := fun file => (hgrows file).trans (hgrows' file)
  refine ⟨?_, content, data, hcontent, hdata, by rw [hfolder', hfolder], hall⟩
  have hhead' : disk₃.files.folder place (segmentFileName name table.headId) =
      some (content ++ blob) := by
    rw [hfolder', Function.update_of_ne (Ne.symm hne), hfolder, Function.update_self]
  exact {
    lodges := hlodges'
    dir := h.dir
    named := h.named
    itemOffset_lt := h.itemOffset_lt
    itemOffset_le := Nat.le_succ_of_le h.itemOffset_le
    index := by rw [(hall _).number, h.index]
    indexed := by
      refine ⟨_, by rw [hfolder', Function.update_self], ?_⟩
      rw [List.length_append, hposition, length_encode, Nat.sub_add_comm h.itemOffset_le]
      exact (Nat.succ_mul _ _).symm
    headId_le := h.headId_le
    head := by rw [(hall _).number, h.head]
    headThere := by simp [hhead']
    headBytes_lt := hroom
    headBytes := ⟨_, hhead', by rw [List.length_append, hlength]⟩
    above := h.above }

end Counted

/-- The bytes of an item come to stand at the end of the head, and its entry at the end of the
index.  An item that overflows the head finds an empty one, under the next id. -/
structure PutsAtEnd (place : Location) (name : String) (blob : Bytes)
    (state state' : Table × Disk) : Prop where
  items : state'.1.items = state.1.items + 1
  itemOffset : state'.1.itemOffset = state.1.itemOffset
  headId : state'.1.headId =
    if state.1.overflows blob.length then state.1.headId + 1 else state.1.headId
  folder : ∃ content data,
    (if state.1.overflows blob.length then content = []
      else state.2.files.folder place (segmentFileName name state.1.headId) = some content) ∧
    state.2.files.folder place (indexFileName name) = some data ∧
    state'.1.headBytes = content.length + blob.length ∧
    state'.2.files.folder place = Function.update (Function.update (state.2.files.folder place)
      (segmentFileName name state'.1.headId) (some (content ++ blob)))
        (indexFileName name)
        (some (data ++ (⟨.ofNat state'.1.headId, .ofNat state'.1.headBytes⟩ : IndexEntry).encode))

namespace Counted

variable (h : Counted names place root name table disk)
include h

/-- An append that fails leaves all as it is, and not because of a missing head. -/
theorem of_append {answer : Except Error Unit}
    (hrun : (append item blob).outcome (table, disk) = (answer, (table', disk'))) :
    (∃ e, answer = .error e ∧ ∀ owner id, e ≠ .missingSegment owner id) ∧
        table' = table ∧ disk' = disk ∨
      answer = .ok () ∧ Counted names place root name table' disk' ∧
        PutsAtEnd place name blob (table, disk) (table', disk') := by
  cases h.equipped.appends hrun with
  | refused e hmissing =>
      refine .inl ⟨⟨e, rfl, fun owner id he => ?_⟩, rfl, rfl⟩
      rw [h.head] at hmissing
      simpa using hmissing owner id he
  | @unrotated e _ _ hindex hrotate =>
      have hrotates := rotates_of_outcome hrotate
      refine .inl ⟨⟨e, rfl, fun owner id he => ?_⟩, h.eq_of_rotates_error hrotates⟩
      subst he
      cases hrotates
  | fitted hitem hover hwrites =>
      obtain ⟨hcounted, content, data, hcontent, hdata, hfolder, -⟩ := h.of_writes hwrites
      obtain ⟨_, hcontent', hlength⟩ := h.headBytes
      obtain rfl := Option.some.inj (hcontent.symm.trans hcontent')
      refine .inr ⟨rfl, hcounted, rfl, rfl, by simp [hover], content, data, ?_, hdata, ?_, hfolder⟩
      · simpa [hover] using hcontent
      · simp [hlength]
  | @rotated start disk₁ _ hitem hover hrotate hwrites =>
      obtain ⟨hstart, hitems, hoffset, hid, hfolder₁⟩ := h.of_rotates (rotates_of_outcome hrotate)
      obtain ⟨hcounted, content, data, hcontent, hdata, hfolder, -⟩ := hstart.of_writes hwrites
      obtain ⟨_, hcontent', hlength⟩ := hstart.headBytes
      obtain rfl := Option.some.inj (hcontent.symm.trans hcontent')
      have hempty : content = [] := by
        rw [hid, hfolder₁, Function.update_self] at hcontent
        exact (Option.some.inj hcontent).symm
      refine .inr ⟨rfl, hcounted, congrArg (· + 1) hitems, hoffset, by simp [hover, hid], content,
        data, by simpa [hover] using hempty, ?_, by simp [hlength], ?_⟩
      · rw [← hdata, hfolder₁, Function.update_of_ne (indexFileName_ne_segmentFileName _ _ _)]
      · rw [hfolder, hfolder₁, ← hid, Function.update_idem]
        rfl

end Counted

end BlockArchive.Table
