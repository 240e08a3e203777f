import BlockArchive.Proofs.Archive.Files
import BlockArchive.Proofs.Listing
import BlockArchive.Proofs.Table.Counting

/-! # Tables that grow

While items are appended to a table, those that could be read are read as before, whatever shape the
table was in when it was opened.

* **`Lasts`**: all that is open can be read as before.  Then so can the items
  (`Lasts.answer_retrieve`).
* **One append.** A table that is ready (`Ready`) is so again after a rotation (`Ready.of_rotates`)
  and after an item was written (`Ready.of_writes`), and what could be read can be read then.  A
  segment that is begun was not open before, so it does not matter what its file held.  The item
  starts where the head ended, and is read as it was given (`Ready.answer_retrieve_of_writes`).  An
  append that fails leaves all as it is.
* **Run.** By induction on the requests this is true of any number of them
  (`exists_ready_served`), and so of all tables that opening accepts (`items_last_of_openIn`). -/

namespace BlockArchive.Table

open IndexEntry FileSystem Attempt

variable {names : String → Prop} {place : Location} {root : Path} {name : String} {cap : Nat}
  {entries : List IndexEntry} {table table' : Table} {disk disk' : Disk} {item : Nat}
  {blob data : Bytes}

/-! ### Items that last -/

/-- All that is open of the one table can be read in the other, which counts at least as many
items. -/
structure Lasts (state state' : Table × Disk) : Prop where
  itemOffset : state'.1.itemOffset = state.1.itemOffset
  items : state.1.items ≤ state'.1.items
  index : ∀ index, state.1.index = some index → ∃ index', state'.1.index = some index' ∧
    Handle.Lasts (index, state.2) (index', state'.2)
  segments : ∀ id segment, state.1.segments.get? id = some segment →
    ∃ segment', state'.1.segments.get? id = some segment' ∧
      Handle.Lasts (segment, state.2) (segment', state'.2)

instance : IsPreorder (Table × Disk) Lasts where
  refl state := ⟨rfl, Nat.le_refl _, fun index h => ⟨index, h, refl_of Handle.Lasts _⟩,
    fun _ segment h => ⟨segment, h, refl_of Handle.Lasts _⟩⟩
  trans _ _ _ h h' := by
    refine ⟨h'.itemOffset.trans h.itemOffset, Nat.le_trans h.items h'.items, ?_, ?_⟩
    · intro index hindex
      obtain ⟨index', hindex', hlasts⟩ := h.index index hindex
      obtain ⟨index'', hindex'', hlasts'⟩ := h'.index index' hindex'
      exact ⟨index'', hindex'', trans_of Handle.Lasts hlasts hlasts'⟩
    · intro id segment hsegment
      obtain ⟨segment', hsegment', hlasts⟩ := h.segments id segment hsegment
      obtain ⟨segment'', hsegment'', hlasts'⟩ := h'.segments id segment' hsegment'
      exact ⟨segment'', hsegment'', trans_of Handle.Lasts hlasts hlasts'⟩

theorem answer_readEntry_eq_ok {index : Handle} {n : Nat} {entry : IndexEntry} :
    ((readEntry index n).outcome disk).1 = .ok entry ↔
      ∃ bytes, ((index.read (position n) width).outcome disk).1 = .ok bytes ∧
        decode bytes = entry := by
  unfold readEntry
  rw [(index.onlyReads_read _ _).answer_bind_eq_ok]
  simp [outcome_pure]

theorem answer_extent_eq_ok {index : Handle} {n : Nat} {place : Extent} :
    ((extent index n).outcome disk).1 = .ok place ↔
      ∃ stop, ((readEntry index (n + 1)).outcome disk).1 = .ok stop ∧
        (n = 0 ∧ place = ⟨stop.segment.toNat, 0, stop.offset.toNat⟩ ∨
          n ≠ 0 ∧ ∃ start, ((readEntry index n).outcome disk).1 = .ok start ∧
            place = Extent.between start stop) := by
  unfold extent
  rw [(onlyReads_readEntry _ _).answer_bind_eq_ok]
  refine exists_congr fun stop => and_congr_right fun _ => ?_
  by_cases hzero : n = 0
  · simp [hzero, outcome_pure, eq_comm]
  · rw [if_neg hzero, (onlyReads_readEntry _ _).answer_bind_eq_ok]
    simp [hzero, outcome_pure, eq_comm]

theorem answer_openIndex_eq_ok {state : Table × Disk} {index : Handle} :
    (openIndex.outcome state).1 = .ok index ↔ state.1.index = some index := by
  obtain ⟨table, disk⟩ := state
  cases hindex : table.index with
  | none => simp [outcome_openIndex_of_closed hindex]
  | some opened => simp [outcome_openIndex hindex]

theorem answer_openSegment_eq_ok {state : Table × Disk} {id : Nat} {segment : Handle} :
    ((openSegment id).outcome state).1 = .ok segment ↔
      state.1.segments.get? id = some segment := by
  obtain ⟨table, disk⟩ := state
  cases hsegment : table.segments.get? id with
  | none => simp [outcome_openSegment_missing hsegment]
  | some opened => simp [outcome_openSegment hsegment]

theorem answer_retrieve_eq_ok {state : Table × Disk} :
    ((retrieve item).outcome state).1 = .ok data ↔
      (state.1.itemOffset ≤ item ∧ item < state.1.items) ∧
      ∃ index, state.1.index = some index ∧
      ∃ place, ((extent index (item - state.1.itemOffset)).outcome state.2).1 = .ok place ∧
      ∃ segment, state.1.segments.get? place.segment = some segment ∧
        place.start ≤ place.stop ∧
        ((segment.read place.start (place.stop - place.start)).outcome state.2).1 = .ok data := by
  obtain ⟨table, disk⟩ := state
  unfold retrieve
  rw [onlyReads_openIndex.answer_bind_eq_ok]
  by_cases hrange : table.items ≤ item ∨ item < table.itemOffset
  · constructor
    · rintro ⟨index, -, h⟩
      rw [outcome_bind_ok (outcome_current _ _), if_pos hrange,
        outcome_bind_error (outcome_throw _ _)] at h
      simp at h
    · rintro ⟨⟨hlow, hhigh⟩, -⟩
      simp only at hlow hhigh
      omega
  rw [and_iff_right (by simp only; omega)]
  refine exists_congr fun index => and_congr answer_openIndex_eq_ok ?_
  rw [outcome_bind_ok (outcome_current _ _), if_neg hrange,
    (onlyReads_onSecond (onlyReads_extent _ _)).answer_bind_eq_ok]
  refine exists_congr fun place => and_congr Iff.rfl ?_
  rw [(onlyReads_openSegment _).answer_bind_eq_ok]
  refine exists_congr fun segment => and_congr answer_openSegment_eq_ok ?_
  by_cases horder : place.stop < place.start
  · rw [if_pos horder, outcome_bind_error (outcome_throw _ _)]
    constructor
    · simp
    · rintro ⟨hle, -⟩
      omega
  · rw [if_neg horder, and_iff_right (Nat.le_of_not_lt horder)]
    exact Iff.rfl

/-- What was read from a table is read again after a time in which all that is open lasts. -/
theorem Lasts.answer_retrieve {state state' : Table × Disk} (h : Lasts state state')
    (hrun : ((retrieve item).outcome state).1 = .ok data) :
    ((retrieve item).outcome state').1 = .ok data := by
  obtain ⟨⟨hlow, hhigh⟩, index, hindex, place, hplace, segment, hsegment, hle, hread⟩ :=
    answer_retrieve_eq_ok.1 hrun
  obtain ⟨index', hindex', hlasts⟩ := h.index index hindex
  obtain ⟨segment', hsegment', hlasts'⟩ := h.segments _ segment hsegment
  have hentry : ∀ n entry, ((readEntry index n).outcome state.2).1 = .ok entry →
      ((readEntry index' n).outcome state'.2).1 = .ok entry := by
    intro n entry hread
    obtain ⟨bytes, hbytes, hdecode⟩ := answer_readEntry_eq_ok.1 hread
    exact answer_readEntry_eq_ok.2 ⟨bytes, hlasts _ _ _ hbytes, hdecode⟩
  refine answer_retrieve_eq_ok.2 ⟨?_, index', hindex', place, ?_, segment', hsegment', hle,
    hlasts' _ _ _ hread⟩
  · rw [h.itemOffset]
    exact ⟨hlow, Nat.lt_of_lt_of_le hhigh h.items⟩
  · rw [h.itemOffset]
    obtain ⟨stop, hstop, hplace⟩ := answer_extent_eq_ok.1 hplace
    refine answer_extent_eq_ok.2 ⟨stop, hentry _ _ hstop, hplace.imp_right ?_⟩
    rintro ⟨hn, start, hstart, hbetween⟩
    exact ⟨hn, start, hentry _ _ hstart, hbetween⟩

/-! ### One append -/

namespace Ready

variable (h : Ready names place root name entries table disk)
include h

theorem ne_nil : entries ≠ [] := by
  have hitems := h.items
  rintro rfl
  simp at hitems

theorem headThere : disk.files.folder place (segmentFileName name table.headId) ≠ none := by
  obtain ⟨content, hcontent, -⟩ := h.headBytes
  simp [hcontent]

theorem headBytes_eq_zero (hzero : table.items = 0) : table.headBytes = 0 := by
  obtain ⟨first, rfl⟩ := List.length_eq_one_iff.1 (h.items.trans (congrArg (· + 1) hzero))
  have hoffset : (lastOf [first]).offset.toNat = 0 := congrArg UInt32.toNat h.unpruned
  rw [h.start, hoffset, ite_self]

theorem counted : Counted names place root name table disk where
  lodges := h.lodges
  dir := h.dir
  named := h.named
  itemOffset_lt := by
    rw [h.itemOffset]
    decide
  itemOffset_le := by
    rw [h.itemOffset]
    exact Nat.zero_le _
  index := h.index
  indexed := by
    refine ⟨_, h.indexed, ?_⟩
    rw [length_encodeAll, h.items, h.itemOffset, position, Nat.mul_comm, Nat.sub_zero]
  headId_le := h.headId_le
  head := h.head
  headThere := h.headThere
  headBytes_lt := by
    rw [h.start]
    split
    · exact (lastOf entries).offset.toNat_lt
    · decide
  headBytes := h.headBytes
  above := by
    intro id hid
    by_contra hopen
    obtain ⟨handle, hget⟩ := Option.ne_none_iff_exists'.1 hopen
    exact absurd (h.segments id handle hget).1 (Nat.not_le.2 hid)

theorem index_of_grows (hgrows : Grows place (indexFileName name) disk disk') :
    table.index = some (.file (disk'.files.number place (indexFileName name)) true) ∧
      ∀ index, table.index = some index → ∃ index', table.index = some index' ∧
        Handle.Lasts (index, disk) (index', disk') := by
  have hindex : table.index =
      some (.file (disk'.files.number place (indexFileName name)) true) := by
    rw [hgrows.number, h.index]
  refine ⟨hindex, fun index hopen => ⟨_, hindex, ?_⟩⟩
  obtain rfl := Option.some.inj (h.index.symm.trans hopen)
  exact hgrows.lasts (by simp [h.indexed]) true true

/-- After a rotation the next item goes to a new head, and all that was open can be read. -/
theorem of_rotates (hrotates : Rotates table disk (.ok ()) table' disk') :
    Ready names place root name entries table' disk' ∧ Lasts (table, disk) (table', disk') ∧
      table'.items = table.items := by
  cases hrotates with
  | @done next _ old hnext hold hlast =>
      obtain ⟨rfl, hlodges, hfolder, hgrows, hopen⟩ := h.counted.of_openFile_fresh hlast hnext
      rw [hold] at hopen
      obtain rfl := by simpa using hopen
      have hget := get?_withNext_insert table
        (.file (disk'.files.number place (segmentFileName name (table.headId + 1))) true)
        (.file (disk'.files.number place (segmentFileName name table.headId)) false)
      have hne : ∀ id ≤ table.headId,
          segmentFileName name id ≠ segmentFileName name (table.headId + 1) :=
        fun id hid => segmentFileName_ne (Nat.ne_of_lt (Nat.lt_succ_of_le hid))
      obtain ⟨hindex, hlasts⟩ := h.index_of_grows
        (hgrows _ (indexFileName_ne_segmentFileName name name (table.headId + 1)))
      refine ⟨?_, ⟨rfl, Nat.le_refl _, hlasts, fun id segment hsegment => ?_⟩, rfl⟩
      · exact {
          lodges := hlodges
          dir := h.dir
          named := h.named
          storable := h.storable
          unpruned := h.unpruned
          indexed := by
            rw [hfolder, Function.update_of_ne (indexFileName_ne_segmentFileName _ _ _), h.indexed]
          index := hindex
          itemOffset := h.itemOffset
          items := h.items
          headId_le := hlast
          head := by rw [hget, if_neg (Nat.succ_ne_self _), if_pos rfl]
          headBytes := ⟨[], by rw [hfolder, Function.update_self], rfl⟩
          last_le := Nat.le_succ_of_le h.last_le
          start := (if_neg (Nat.ne_of_lt (Nat.lt_succ_of_le h.last_le))).symm
          segments := by
            intro id handle hsegment
            rw [hget] at hsegment
            split at hsegment
            · next hid =>
              subst hid
              obtain rfl := Option.some.inj hsegment
              exact ⟨Nat.le_succ _,
                .file false ((hgrows _ (hne _ (Nat.le_refl _))).there h.headThere)⟩
            split at hsegment
            · next hid =>
              subst hid
              obtain rfl := Option.some.inj hsegment
              exact ⟨Nat.le_refl _, .file true (by simp [hfolder])⟩
            · obtain ⟨hle, hopens⟩ := h.segments id handle hsegment
              exact ⟨Nat.le_succ_of_le hle, (hopens.of_grows (hgrows _ (hne id hle))).1⟩ }
      · obtain ⟨hle, hopens⟩ := h.segments id segment hsegment
        have hgrow := hgrows _ (hne id hle)
        by_cases hid : id = table.headId
        · subst hid
          obtain rfl := Option.some.inj (h.head.symm.trans hsegment)
          exact ⟨_, (hget _).trans (if_pos rfl), hgrow.lasts h.headThere true false⟩
        · refine ⟨segment, (hget id).trans ?_, (hopens.of_grows hgrow).2⟩
          rw [if_neg hid, if_neg (Nat.ne_of_lt (Nat.lt_succ_of_le hle)), hsegment]

theorem exists_folder_of_writes (hwrites : Writes table blob disk disk') :
    ∃ content, content.length = table.headBytes ∧
      disk'.files.Lodges names (IsFileOf name) root place ∧
      disk'.files.folder place = Function.update (Function.update (disk.files.folder place)
        (segmentFileName name table.headId) (some (content ++ blob)))
          (indexFileName name) (some (encodeAll (entries ++ [table.headEntry blob.length]))) ∧
      ∀ file, Grows place file disk disk' := by
  obtain ⟨hcounted, content, data, hcontent, hdata, hfolder, hgrows⟩ := h.counted.of_writes hwrites
  obtain rfl := Option.some.inj (h.indexed.symm.trans hdata)
  obtain ⟨_, hcontent', hlength⟩ := h.headBytes
  obtain rfl := Option.some.inj (hcontent.symm.trans hcontent')
  refine ⟨content, hlength, hcounted.lodges, ?_, hgrows⟩
  rw [hfolder, encodeAll_append, encodeAll_singleton]

/-- With an item written, the table is ready for the next one. -/
theorem of_writes (hwrites : Writes table blob disk disk') :
    Ready names place root name (entries ++ [table.headEntry blob.length]) { table with
      headBytes := table.headBytes + blob.length
      items := table.items + 1 } disk' := by
  obtain ⟨content, hlength, hlodges, hfolder, hgrows⟩ := h.exists_folder_of_writes hwrites
  have hsegment := headEntry_segment h.headId_le blob.length
  exact {
    lodges := hlodges
    dir := h.dir
    named := h.named
    storable := by
      intro entry hmem
      rcases List.mem_append.1 hmem with hmem | hmem
      · exact h.storable entry hmem
      · rw [List.mem_singleton.1 hmem]
        exact Nat.le_trans (Nat.le_of_eq hsegment) h.headId_le
    unpruned := by rw [firstOf_append h.ne_nil, h.unpruned]
    indexed := by rw [hfolder, Function.update_self]
    index := (h.index_of_grows (hgrows _)).1
    itemOffset := h.itemOffset
    items := by rw [List.length_append, List.length_singleton, h.items]
    headId_le := h.headId_le
    head := by rw [(hgrows _).number, h.head]
    headBytes := by
      refine ⟨content ++ blob, ?_, by rw [List.length_append, hlength]⟩
      rw [hfolder, Function.update_of_ne (Ne.symm (indexFileName_ne_segmentFileName _ _ _)),
        Function.update_self]
    last_le := by rw [lastOf_concat, hsegment]
    start := by rw [lastOf_concat, if_pos hsegment, headEntry_offset hwrites.room]
    segments := fun id handle hget =>
      ⟨(h.segments id handle hget).1, ((h.segments id handle hget).2.of_grows (hgrows _)).1⟩ }

theorem lasts_of_writes (hwrites : Writes table blob disk disk') :
    Lasts (table, disk) ({ table with
      headBytes := table.headBytes + blob.length
      items := table.items + 1 }, disk') := by
  obtain ⟨-, -, -, -, hgrows⟩ := h.exists_folder_of_writes hwrites
  refine ⟨rfl, Nat.le_succ _, (h.index_of_grows (hgrows _)).2, fun id segment hget => ?_⟩
  exact ⟨segment, hget, ((h.segments id segment hget).2.of_grows (hgrows _)).2⟩

/-- The item that was written is read. -/
theorem answer_retrieve_of_writes (hwrites : Writes table blob disk disk') :
    ((retrieve table.items).outcome ({ table with
      headBytes := table.headBytes + blob.length
      items := table.items + 1 }, disk')).1 = .ok blob := by
  obtain ⟨content, hlength, hlodges, hfolder, hgrows⟩ := h.exists_folder_of_writes hwrites
  have hready := h.of_writes hwrites
  have hsegment := headEntry_segment h.headId_le blob.length
  have hoffset := headEntry_offset hwrites.room
  have hentry : ∀ n entry, (entries ++ [table.headEntry blob.length])[n]? = some entry →
      ((readEntry (.file (disk'.files.number place (indexFileName name)) true) n).outcome
        disk').1 = .ok entry := by
    intro n entry hn
    rw [outcome_readEntry_of_index hready.indexed (by
      rwa [Audit.entries_encodeAll hready.storable])]
  have hnew := hentry (table.items + 1) _ (by rw [← h.items]; exact List.getElem?_concat_length)
  have hlast := hentry table.items (lastOf entries) (by
    have hcount : table.items = entries.length - 1 := by
      rw [h.items, Nat.add_sub_cancel]
    rw [List.getElem?_append_left (by rw [h.items]; exact Nat.lt_succ_self _), hcount,
      getElem?_eq_lastOf h.ne_nil])
  -- the item starts where the head ended
  have hplace : ((extent (.file (disk'.files.number place (indexFileName name)) true)
      table.items).outcome disk').1 =
        .ok ⟨table.headId, table.headBytes, table.headBytes + blob.length⟩ := by
    refine answer_extent_eq_ok.2 ⟨_, hnew, ?_⟩
    by_cases hzero : table.items = 0
    · refine .inl ⟨hzero, ?_⟩
      rw [hsegment, hoffset, h.headBytes_eq_zero hzero]
    · refine .inr ⟨hzero, _, hlast, ?_⟩
      have hsame : (lastOf entries).segment = (table.headEntry blob.length).segment ↔
          (lastOf entries).segment.toNat = table.headId := by
        rw [← UInt32.toNat_inj, hsegment]
      simp only [Extent.between, hsegment, hoffset, hsame, ← h.start]
  have hcontent : disk'.files.folder place (segmentFileName name table.headId) =
      some (content ++ blob) := by
    rw [hfolder, Function.update_of_ne (Ne.symm (indexFileName_ne_segmentFileName _ _ _)),
      Function.update_self]
  refine answer_retrieve_eq_ok.2 ⟨⟨Nat.le_trans (Nat.le_of_eq h.itemOffset) (Nat.zero_le _),
    Nat.lt_succ_self _⟩, _, hready.index,
    ⟨table.headId, table.headBytes, table.headBytes + blob.length⟩, ?_, _, hready.head,
    Nat.le_add_right _ _, ?_⟩
  · show ((extent _ (table.items - table.itemOffset)).outcome disk').1 = _
    rw [h.itemOffset]
    exact hplace
  · show ((Handle.read _ table.headBytes (table.headBytes + blob.length - table.headBytes)).outcome
      disk').1 = _
    rw [Nat.add_sub_cancel_left, Handle.outcome_read_of_content (content_of_folder hcontent),
      ← hlength, Bytes.slice?_length]

theorem of_append {answer : Except Error Unit}
    (hrun : (append item blob).outcome (table, disk) = (answer, (table', disk'))) :
    (∃ e, answer = .error e) ∧ table' = table ∧ disk' = disk ∨
      answer = .ok () ∧ (∃ entries', Ready names place root name entries' table' disk') ∧
        Lasts (table, disk) (table', disk') ∧
        ((retrieve item).outcome (table', disk')).1 = .ok blob := by
  cases h.counted.equipped.appends hrun with
  | refused e => exact .inl ⟨⟨e, rfl⟩, rfl, rfl⟩
  | @unrotated e _ _ hindex hrotate =>
      exact .inl ⟨⟨e, rfl⟩, h.counted.eq_of_rotates_error (rotates_of_outcome hrotate)⟩
  | fitted hitem hover hwrites =>
      subst hitem
      exact .inr ⟨rfl, ⟨_, h.of_writes hwrites⟩, h.lasts_of_writes hwrites,
        h.answer_retrieve_of_writes hwrites⟩
  | rotated hitem hover hrotate hwrites =>
      obtain ⟨hstart, hlasts, hitems⟩ := h.of_rotates (rotates_of_outcome hrotate)
      rw [← hitems] at hitem
      subst hitem
      exact .inr ⟨rfl, ⟨_, hstart.of_writes hwrites⟩,
        trans_of Lasts hlasts (hstart.lasts_of_writes hwrites),
        hstart.answer_retrieve_of_writes hwrites⟩

end Ready

/-! ### Any number of appends -/

/-- Whether the request is to append, or only reads. -/
def Request.grows : Request → Bool
  | .append _ _ => true
  | request => request.reads

theorem Ready.serve (h : Ready names place root name entries table disk) {request : Request}
    (hgrows : request.grows = true) {answer : Except Error Answer}
    (hrun : (serve root name request).outcome (table, disk) = (answer, (table', disk'))) :
    (∃ entries', Ready names place root name entries' table' disk') ∧
      Lasts (table, disk) (table', disk') := by
  cases steps_of_serve hrun with
  | rests => exact ⟨⟨entries, h⟩, refl_of Lasts _⟩
  | appends happend =>
      rcases h.of_append happend with ⟨-, rfl, rfl⟩ | ⟨-, hready, hlasts, -⟩
      · exact ⟨⟨entries, h⟩, refl_of Lasts _⟩
      · exact ⟨hready, hlasts⟩
  | cuts | closes | reopens | unopened => simp [Request.grows, Request.reads] at hgrows

/-- While items are appended, the table stays ready and what was read can be read. -/
theorem exists_ready_served (state : Table × Disk)
    (h : ∃ entries, Ready names place root name entries state.1 state.2) {requests : List Request}
    (hgrows : ∀ request ∈ requests, request.grows = true) :
    (∃ entries, Ready names place root name entries (served root name requests state).1
      (served root name requests state).2) ∧
        Lasts state (served root name requests state) := by
  induction requests generalizing state with
  | nil => exact ⟨h, refl_of Lasts state⟩
  | cons request requests ih =>
      obtain ⟨entries, hready⟩ := h
      obtain ⟨hready₁, hlasts₁⟩ := hready.serve (hgrows request (by simp)) (Prod.ext rfl rfl)
      obtain ⟨hready', hlasts'⟩ := ih _ hready₁ fun later hlater => hgrows later (by simp [hlater])
      exact ⟨hready', trans_of Lasts hlasts₁ hlasts'⟩

/-- However damaged the files are that opening succeeded on: while items are appended to the table,
those that could be read at first are read as before, and those that were appended are read as they
were given. -/
theorem items_last_of_openIn (hlodges : disk.files.Lodges names (IsFileOf name) root place)
    (hopen : (openIn root name cap).outcome disk = (.ok table, disk'))
    (hoffset : table.itemOffset = 0) {requests : List Request}
    (hgrows : ∀ request ∈ requests, request.grows = true) :
    (∀ item data, ((retrieve item).outcome (table, disk')).1 = .ok data →
      ((retrieve item).outcome (served root name requests (table, disk'))).1 = .ok data) ∧
    ∀ earlier later item blob, requests = earlier ++ .append item blob :: later →
      ((append item blob).outcome (served root name earlier (table, disk'))).1 = .ok () →
        ((retrieve item).outcome (served root name requests (table, disk'))).1 = .ok blob := by
  have hready := exists_ready_of_openIn hlodges hopen hoffset
  refine ⟨fun item data => (exists_ready_served (table, disk') hready hgrows).2.answer_retrieve, ?_⟩
  rintro earlier later item blob rfl happend
  have hearlier : ∀ request ∈ earlier, request.grows = true :=
    fun request hmem => hgrows request (by simp [hmem])
  obtain ⟨⟨entries, hready₁⟩, -⟩ := exists_ready_served (table, disk') hready hearlier
  rw [served_append]
  generalize served root name earlier (table, disk') = state at *
  rcases hready₁.of_append (Prod.ext happend rfl) with ⟨⟨e, herror⟩, -⟩ | ⟨-, hready₂, -, hitem⟩
  · simp at herror
  · rw [served, snd_serve_append]
    have hlater : ∀ request ∈ later, request.grows = true :=
      fun request hmem => hgrows request (by simp [hmem])
    exact (exists_ready_served _ hready₂ hlater).2.answer_retrieve hitem

/-- Entries that go back to an earlier segment and then reach past its end; a segment that no entry
names, and a directory where the one behind it belongs. -/
def disordered : FileSystem :=
  (Effect.makeDirectory (["a"] ++ [segmentFileName Column.hashes.name 3])).apply (.ofListing
    [(indexFileName Column.hashes.name, encodeAll [⟨0, 0⟩, ⟨0, 1⟩, ⟨1, 2⟩, ⟨0, 5⟩, ⟨1, 1⟩]),
      (segmentFileName Column.hashes.name 0, [7]),
      (segmentFileName Column.hashes.name 1, [1, 2, 3]),
      (segmentFileName Column.hashes.name 2, [8, 8, 8, 8])])

/-- The first item is in order, and stays so.  Of three appends the first goes to the head and the
second to the segment that was left over; the third is refused because of the directory. -/
theorem items_last_disordered :
    ∃ table disk', (openIn ⟨["", "a"]⟩ Column.hashes.name 3).outcome (.ofFiles disordered) =
        (.ok table, disk') ∧
      let state := served ⟨["", "a"]⟩ Column.hashes.name
        [.append 4 [4, 4], .append 5 [5, 5], .append 6 [6, 6]] (table, disk')
      ((retrieve 0).outcome state).1 = .ok [7] ∧ ((retrieve 4).outcome state).1 = .ok [4, 4] ∧
        ((retrieve 5).outcome state).1 = .ok [5, 5] := by
  have hhouses := (Archive.houses_ofListing
    [(indexFileName Column.hashes.name, encodeAll [⟨0, 0⟩, ⟨0, 1⟩, ⟨1, 2⟩, ⟨0, 5⟩, ⟨1, 1⟩]),
      (segmentFileName Column.hashes.name 0, [7]),
      (segmentFileName Column.hashes.name 1, [1, 2, 3]),
      (segmentFileName Column.hashes.name 2, [8, 8, 8, 8])]).mono
        fun file (hfile : IsFileOf Column.hashes.name file) => Archive.isFile_of_isFileOf hfile
  have hlodges := hhouses.lodges_makeDirectory
    (isFileOf_segment Column.hashes.name (by decide : 3 ≤ lastSegmentId)) (by decide +kernel)
  have hfacts : let opened :=
        (openIn ⟨["", "a"]⟩ Column.hashes.name 3).outcome (.ofFiles disordered)
      opened.1.toOption.any (fun table => decide (table.itemOffset = 0 ∧
        ((retrieve 0).outcome (table, opened.2)).1 = .ok [7] ∧
        ((append 4 [4, 4]).outcome (table, opened.2)).1 = .ok () ∧
        ((append 5 [5, 5]).outcome (served ⟨["", "a"]⟩ Column.hashes.name [.append 4 [4, 4]]
          (table, opened.2))).1 = .ok ())) = true := by
    decide +kernel
  rcases hopen : (openIn ⟨["", "a"]⟩ Column.hashes.name 3).outcome (.ofFiles disordered) with
    ⟨answer, disk'⟩
  rw [hopen] at hfacts
  cases answer with
  | error e => cases hfacts
  | ok table =>
      obtain ⟨hoffset, hread, hfirst, hsecond⟩ := of_decide_eq_true hfacts
      obtain ⟨hold, hnew⟩ := items_last_of_openIn hlodges hopen hoffset
        (show ∀ request ∈ [.append 4 [4, 4], .append 5 [5, 5], .append 6 [6, 6]],
          Request.grows request = true by simp [Request.grows])
      exact ⟨table, disk', rfl, hold 0 [7] hread, hnew [] _ 4 [4, 4] rfl hfirst,
        hnew [.append 4 [4, 4]] _ 5 [5, 5] rfl hsecond⟩

end BlockArchive.Table
