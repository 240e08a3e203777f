import BlockArchive.Proofs.Lodging
import BlockArchive.Proofs.Table.InUse

/-! # What opening accepts

Opening looks at the last entries and at the segments that these name.  It succeeds on files in
which much else is wrong: entries out of order or past the end of their segments, segments cut
short, segments that nobody named, directories where a segment belongs.

* **`SettledOn`**: what a settling leaves that succeeds (`settledOn_of_outcome`), by induction on
  the entries as they are dropped.  No directory was then in the way of what had to be opened.
* **Steps.** What the steps of an opening that succeeds found and left (`exists_steps_of_openIn`).
* **`Ready`**: what is true of the table that opening answers with, if no items were pruned from it
  (`exists_ready_of_openIn`).  It says where the next item goes, and that what is open is known by
  its name; nothing is said of the items that there are. -/

namespace BlockArchive.Table

open IndexEntry FileSystem Attempt

variable {names : String → Prop} {place : Location} {root : Path} {name : String} {cap : Nat}
  {entries all kept : List IndexEntry} {table : Table} {disk disk' : Disk}

/-! ### Settling -/

theorem TidiedIn.lodges (h : TidiedIn names name place disk disk')
    (hlodges : disk.files.Lodges names (IsFileOf name) root place) :
    disk'.files.Lodges names (IsFileOf name) root place := by
  obtain ⟨changes, hchanges, hnames, rfl⟩ := h
  exact Disk.lodges_after hlodges hnames (fits_of_each_tidies hchanges)

theorem names_of_openHead (hlodges : disk.files.Lodges names (IsFileOf name) root place) {id : Nat}
    (hid : id ≤ lastSegmentId) {head : Handle × Nat}
    (hrun : (openHead root name id).outcome disk = (.ok head, disk')) :
    names (segmentFileName name id) := by
  unfold openHead at hrun
  obtain ⟨handle, disk₁, hopen, -⟩ := exists_of_outcome_bind hrun
  exact Disk.names_of_openFile hlodges (isFileOf_segment name hid) (by decide) hopen

/-- What settling leaves: of all entries the first ones are kept, and the head is in step with
these. -/
structure SettledOn (names : String → Prop) (name : String) (place : Location)
    (all kept : List IndexEntry) (disk : Disk) (settled : Settled) (disk' : Disk) : Prop where
  ne_nil : kept ≠ []
  begins : kept <+: all
  tidied : TidiedIn names name place disk disk'
  inStep : InStep (disk'.files.folder place) name kept
  number : disk'.files.number place (indexFileName name) =
    disk.files.number place (indexFileName name)
  answer : settled = ⟨kept.length - 1, lastOf kept, (lastOf kept).offset.toNat⟩

section settle

variable (hlodges : disk.files.Lodges names (IsFileOf name) root place)
  (hfile : names (indexFileName name)) {last : IndexEntry}
  (hlast : names (segmentFileName name last.segment.toNat))
  (hstorable : ∀ entry ∈ entries ++ [last], entry.IsStorable)
  (hindex : disk.files.folder place (indexFileName name) = some (encodeAll (entries ++ [last])))
  (hthere : disk.files.folder place (segmentFileName name last.segment.toNat) ≠ none)
  {settled : Settled}
  (hrun : (settle root name (.file (disk.files.number place (indexFileName name)) true)
    entries.length last
    (.file (disk.files.number place (segmentFileName name last.segment.toNat)) true)
    (segmentBytes (disk.files.folder place) name last.segment.toNat).length).outcome disk =
      (.ok settled, disk'))
include hlodges hlast hstorable hindex hthere hrun

theorem settledOn_of_not_dangles (hreaches : dangles (disk.files.folder place) name last = false) :
    SettledOn names name place (entries ++ [last]) (entries ++ [last]) disk settled disk' := by
  obtain ⟨disk₁, htidied, hfolder, hnumber, hrun'⟩ :=
    exists_settle_of_not_dangles hlodges.toHouses hlast hstorable hindex hthere hreaches
  rw [hrun'] at hrun
  obtain ⟨rfl, rfl⟩ := by simpa using hrun
  refine ⟨by simp, List.prefix_refl _, htidied, ?_, hnumber _, ?_⟩
  · rw [hfolder]
    exact inStep_settledTo (by rwa [lastOf_concat])
  · rw [lastOf_concat, List.length_append, List.length_singleton, Nat.add_sub_cancel]

include hfile

theorem settledOn_of_outcome (hfirst : (firstOf (entries ++ [last])).offset = 0) :
    ∃ kept, SettledOn names name place (entries ++ [last]) kept disk settled disk' := by
  induction entries using List.reverseRecOn generalizing disk last with
  | nil =>
      have hreaches : dangles (disk.files.folder place) name last = false := by
        have hzero : last.offset = 0 := hfirst
        simp [dangles, hzero]
      exact ⟨_, settledOn_of_not_dangles hlodges hlast hstorable hindex hthere hrun hreaches⟩
  | append_singleton init previous ih =>
      by_cases hdangles : dangles (disk.files.folder place) name last = true
      · have hprevious : names (segmentFileName name previous.segment.toNat) := by
          by_cases hsegment : previous.segment = last.segment
          · rwa [hsegment]
          · obtain ⟨disk₁, htidied₁, -, -, hrun₁⟩ :=
              exists_dropEntry hlodges.toHouses hfile hstorable hindex hdangles
            rw [List.length_append, List.length_singleton, hrun₁, if_neg hsegment] at hrun
            obtain ⟨head, disk₂, hopen, -⟩ := exists_of_outcome_bind hrun
            exact names_of_openHead (htidied₁.lodges hlodges) (hstorable previous (by simp)) hopen
        obtain ⟨disk₁, htidied₁, hindex₁, hthere₁, -, -, hnumber₁, hrun₁⟩ :=
          exists_settle_step hlodges.toHouses hfile hprevious hstorable hindex hthere hdangles
        rw [List.length_append, List.length_singleton, hrun₁] at hrun
        obtain ⟨kept, hsettled⟩ := ih (htidied₁.lodges hlodges) hprevious
          (fun e he => hstorable e (List.mem_append_left _ he)) hindex₁ hthere₁ hrun
          (by rwa [firstOf_append (by simp)] at hfirst)
        exact ⟨kept, hsettled.ne_nil, hsettled.begins.trans (List.prefix_append _ _),
          htidied₁.trans hsettled.tidied hlodges.toHouses, hsettled.inStep,
          hsettled.number.trans hnumber₁, hsettled.answer⟩
      · have hreaches : dangles (disk.files.folder place) name last = false := by
          simpa using hdangles
        exact ⟨_, settledOn_of_not_dangles hlodges hlast hstorable hindex hthere hrun hreaches⟩

end settle

theorem settledOn_of_openHead (hlodges : disk.files.Lodges names (IsFileOf name) root place)
    (hfile : names (indexFileName name)) (hne : all ≠ [])
    (hstorable : ∀ entry ∈ all, entry.IsStorable) (hfirst : (firstOf all).offset = 0)
    (hindex : disk.files.folder place (indexFileName name) = some (encodeAll all))
    {head : Handle} {length : Nat} {disk₁ : Disk} {settled : Settled}
    (hopen : (openHead root name (lastOf all).segment.toNat).outcome disk =
      (.ok (head, length), disk₁))
    (hsettle : (settle root name (.file (disk.files.number place (indexFileName name)) true)
      (all.length - 1) (lastOf all) head length).outcome disk₁ = (.ok settled, disk')) :
    ∃ kept, SettledOn names name place all kept disk settled disk' := by
  obtain ⟨init, last, rfl⟩ : ∃ init last, all = init ++ [last] :=
    ⟨_, _, (List.dropLast_concat_getLast hne).symm⟩
  rw [lastOf_concat] at hopen hsettle
  rw [List.length_append, List.length_singleton, Nat.add_sub_cancel] at hsettle
  have hid := hstorable last (by simp)
  have hlast := names_of_openHead hlodges hid hopen
  obtain ⟨disk₂, htidied, hfolder, hnumber, hopen'⟩ := exists_openHead hlodges.toHouses hid hlast
  rw [hopen] at hopen'
  obtain ⟨⟨rfl, rfl⟩, rfl⟩ := by simpa using hopen'
  obtain ⟨hindex₁, hthere, hbytes⟩ := folder_prepared hindex hfolder
  have hnumber := hnumber _ (indexFileName_ne_segmentFileName name name last.segment.toNat)
  rw [← hnumber, ← hbytes] at hsettle
  obtain ⟨kept, hsettled⟩ := settledOn_of_outcome (htidied.lodges hlodges) hfile hlast hstorable
    hindex₁ hthere hsettle hfirst
  exact ⟨kept, hsettled.ne_nil, hsettled.begins, htidied.trans hsettled.tidied hlodges.toHouses,
    hsettled.inStep, hsettled.number.trans hnumber, hsettled.answer⟩

/-! ### Segments that are read only -/

theorem opens_of_openHistory (hlodges : disk.files.Lodges names (IsFileOf name) root place)
    {ids : List Nat} (hids : ∀ id ∈ ids, id ≤ lastSegmentId) {segments : Segments}
    (hrun : (openHistory root name ids).outcome disk = (.ok segments, disk')) :
    disk' = disk ∧ ∀ segment ∈ segments,
      disk.files.Opens place (segmentFileName name segment.1) segment.2 := by
  induction ids generalizing segments with
  | nil =>
      obtain ⟨rfl, rfl⟩ := by simpa [openHistory, outcome_pure] using hrun
      exact ⟨rfl, by simp⟩
  | cons id ids ih =>
      unfold openHistory at hrun
      obtain ⟨handle, disk₁, hopen, hrun⟩ := exists_of_outcome_bind hrun
      obtain ⟨more, disk₂, hmore, hrun⟩ := exists_of_outcome_bind hrun
      obtain ⟨rfl, rfl⟩ := by simpa [outcome_pure] using hrun
      obtain ⟨rfl, hhandle⟩ := Disk.opens_of_openFile_readOnly hlodges
        (isFileOf_segment name (hids id (by simp))) hopen
      obtain ⟨rfl, hothers⟩ := ih (fun other hother => hids other (by simp [hother])) hmore
      exact ⟨rfl, fun segment hmem => by
        rcases List.mem_cons.1 hmem with rfl | hmem
        · exact hhandle
        · exact hothers segment hmem⟩

/-- The segments that were opened one after the other, and the head behind them, are known by their
names, and none comes after the head. -/
theorem segments_of_openHistory (hlodges : disk.files.Lodges names (IsFileOf name) root place)
    {first headId : Nat} (hid : headId ≤ lastSegmentId)
    (hthere : disk.files.folder place (segmentFileName name headId) ≠ none)
    {history : Segments} {head : Handle} {disk₁ : Disk}
    (hhistory : (openHistory root name (List.range' first (headId - first))).outcome disk =
      (.ok history, disk₁))
    (hhead : (Disk.openFile (segmentPath root name headId) .update).outcome disk₁ =
      (.ok head, disk')) :
    disk' = disk ∧
      Segments.get? (history ++ [(headId, head)]) headId =
        some (.file (disk.files.number place (segmentFileName name headId)) true) ∧
      ∀ id handle, Segments.get? (history ++ [(headId, head)]) id = some handle →
        id ≤ headId ∧ disk.files.Opens place (segmentFileName name id) handle := by
  have hbefore := lt_of_mem_openHistory hhistory
  obtain ⟨rfl, hopens⟩ := opens_of_openHistory hlodges (fun id hmem => by
    have := List.mem_range'_1.1 hmem
    omega) hhistory
  rw [segmentPath, Disk.outcome_openFile_update_of_some hlodges.toHouses
    (hlodges.names_of_folder (isFileOf_segment name hid) hthere) hthere] at hhead
  obtain ⟨rfl, rfl⟩ := by simpa using hhead
  refine ⟨rfl, get?_append_cons _ fun segment hmem => Nat.ne_of_lt (hbefore segment hmem), ?_⟩
  intro id handle hget
  rcases mem_or_eq_of_get?_concat hget with hmem | heq
  · exact ⟨Nat.le_of_lt (hbefore (id, handle) hmem), hopens (id, handle) hmem⟩
  · obtain ⟨rfl, rfl⟩ := Prod.mk.inj heq
    exact ⟨Nat.le_refl _, .file true hthere⟩

/-! ### The steps of an opening -/

/-- The steps of an opening that succeeds: the index is trimmed to the entries written, the head is
settled on them, and the segments are opened. -/
theorem exists_steps_of_openIn (hlodges : disk.files.Lodges names (IsFileOf name) root place)
    (hrun : (openIn root name cap).outcome disk = (.ok table, disk'))
    (hall : all = written (disk.files.folder place) name) :
    names (indexFileName name) ∧ ∃ disk₁ opened disk₂ settled disk₃ history disk₄ head,
      disk₁.files.Lodges names (IsFileOf name) root place ∧
      disk₁.files.folder place (indexFileName name) = some (encodeAll all) ∧
      (openHead root name (lastOf all).segment.toNat).outcome disk₁ = (.ok opened, disk₂) ∧
      (settle root name (.file (disk₁.files.number place (indexFileName name)) true)
        (all.length - 1) (lastOf all) opened.1 opened.2).outcome disk₂ = (.ok settled, disk₃) ∧
      (openHistory root name (List.range' (firstOf all).segment.toNat
        (settled.last.segment.toNat - (firstOf all).segment.toNat))).outcome disk₃ =
          (.ok history, disk₄) ∧
      (Disk.openFile (segmentPath root name settled.last.segment.toNat) .update).outcome disk₄ =
        (.ok head, disk') ∧
      table = {
        dir := root, name, cap
        tailId := (firstOf all).segment.toNat
        headId := settled.last.segment.toNat
        items := (firstOf all).offset.toNat + settled.before
        headBytes := settled.length
        itemOffset := (firstOf all).offset.toNat
        index := some (.file (disk₁.files.number place (indexFileName name)) true)
        segments := history ++ [(settled.last.segment.toNat, head)] } := by
  have hne : all ≠ [] := hall ▸ written_ne_nil (disk.files.folder place) name
  unfold openIn at hrun
  rw [outcome_bind_ok (Disk.outcome_makeDirectories hlodges.toHouses)] at hrun
  obtain ⟨index, _, hindex, -⟩ := exists_of_outcome_bind hrun
  have hfile := Disk.names_of_openFile hlodges (isFileOf_index name) (by decide) hindex
  obtain ⟨disk₀, disk₁, htidied, hfolder, -, hopen, htrim, hread⟩ :=
    exists_openIndex hlodges.toHouses hfile
  rw [← hall] at hfolder htrim hread
  have hfirst : all[0]? = some (firstOf all) := getElem?_eq_firstOf hne
  rw [outcome_bind_ok hopen, outcome_bind_ok htrim, outcome_bind_ok (hread _ _ hfirst),
    outcome_bind_ok (hread _ _ (getElem?_eq_lastOf hne))] at hrun
  obtain ⟨opened, disk₂, hhead, hrun⟩ := exists_of_outcome_bind hrun
  obtain ⟨settled, disk₃, hsettle, hrun⟩ := exists_of_outcome_bind hrun
  obtain ⟨history, disk₄, hhistory, hrun⟩ := exists_of_outcome_bind hrun
  obtain ⟨head, disk₅, hreopen, hrun⟩ := exists_of_outcome_bind hrun
  obtain ⟨rfl, rfl⟩ := by simpa [outcome_pure] using hrun
  exact ⟨hfile, disk₁, opened, disk₂, settled, disk₃, history, disk₄, head,
    htidied.lodges hlodges, by rw [hfolder, Function.update_self], hhead, hsettle, hhistory,
    hreopen, rfl⟩

/-! ### Tables that are ready -/

/-- The table can go on from its entries: the next item goes to the end of the head, and the head
ends where that item starts.  What is open is known by its name. -/
structure Ready (names : String → Prop) (place : Location) (root : Path) (name : String)
    (entries : List IndexEntry) (table : Table) (disk : Disk) : Prop where
  lodges : disk.files.Lodges names (IsFileOf name) root place
  dir : table.dir = root
  named : table.name = name
  storable : ∀ entry ∈ entries, entry.IsStorable
  unpruned : (firstOf entries).offset = 0
  indexed : disk.files.folder place (indexFileName name) = some (encodeAll entries)
  index : table.index = some (.file (disk.files.number place (indexFileName name)) true)
  itemOffset : table.itemOffset = 0
  items : entries.length = table.items + 1
  headId_le : table.headId ≤ lastSegmentId
  head : table.segments.get? table.headId =
    some (.file (disk.files.number place (segmentFileName name table.headId)) true)
  headBytes : ∃ content, disk.files.folder place (segmentFileName name table.headId) =
    some content ∧ content.length = table.headBytes
  last_le : (lastOf entries).segment.toNat ≤ table.headId
  /-- An item in another segment than the one before it starts at byte zero. -/
  start : table.headBytes =
    if (lastOf entries).segment.toNat = table.headId then (lastOf entries).offset.toNat else 0
  segments : ∀ id handle, table.segments.get? id = some handle →
    id ≤ table.headId ∧ disk.files.Opens place (segmentFileName name id) handle

theorem ready_of_inStep (hlodges : disk.files.Lodges names (IsFileOf name) root place)
    (hne : entries ≠ []) (hstorable : ∀ entry ∈ entries, entry.IsStorable)
    (hunpruned : (firstOf entries).offset = 0)
    (hstep : InStep (disk.files.folder place) name entries) {history : Segments} {head : Handle}
    {disk₁ : Disk}
    (hhistory : (openHistory root name (List.range' (firstOf entries).segment.toNat
      ((lastOf entries).segment.toNat - (firstOf entries).segment.toNat))).outcome disk =
        (.ok history, disk₁))
    (hhead : (Disk.openFile (segmentPath root name (lastOf entries).segment.toNat) .update).outcome
      disk₁ = (.ok head, disk')) :
    Ready names place root name entries { opened disk.files place root name cap entries with
      segments := history ++ [((lastOf entries).segment.toNat, head)] } disk' := by
  have hlast : (lastOf entries).segment.toNat ≤ lastSegmentId := hstorable _ (lastOf_mem hne)
  obtain ⟨rfl, hget, hsegments⟩ :=
    segments_of_openHistory hlodges hlast hstep.headThere hhistory hhead
  have hpos := List.length_pos_iff.2 hne
  have hzero : (firstOf entries).offset.toNat = 0 := by
    rw [hunpruned]
    rfl
  exact {
    lodges := hlodges
    dir := rfl
    named := rfl
    storable := hstorable
    unpruned := hunpruned
    indexed := hstep.index
    index := rfl
    itemOffset := hzero
    items := by
      show entries.length = (firstOf entries).offset.toNat + (entries.length - 1) + 1
      omega
    headId_le := hlast
    head := hget
    headBytes := by
      obtain ⟨content, hcontent⟩ := Option.ne_none_iff_exists'.1 hstep.headThere
      have hbytes : segmentBytes (disk'.files.folder place) name (lastOf entries).segment.toNat =
          content := by
        rw [segmentBytes, hcontent, Option.getD_some]
      exact ⟨content, hcontent, congrArg List.length hbytes.symm⟩
    last_le := Nat.le_refl _
    start := hstep.headLength.trans (if_pos rfl).symm
    segments := hsegments }

/-- Whatever opening succeeds on, the table is ready, if no items were pruned from it. -/
theorem exists_ready_of_openIn (hlodges : disk.files.Lodges names (IsFileOf name) root place)
    (hrun : (openIn root name cap).outcome disk = (.ok table, disk'))
    (hoffset : table.itemOffset = 0) :
    ∃ entries, Ready names place root name entries table disk' := by
  have hne := written_ne_nil (disk.files.folder place) name
  have hstorable : ∀ entry ∈ written (disk.files.folder place) name, entry.IsStorable :=
    fun _ hmem => isStorable_of_mem_written hmem
  obtain ⟨hfile, disk₁, ⟨head, length⟩, disk₂, settled, disk₃, history, disk₄, reopened, hlodges₁,
    hindexed, hhead, hsettle, hhistory, hreopen, rfl⟩ := exists_steps_of_openIn hlodges hrun rfl
  generalize written (disk.files.folder place) name = all at *
  -- the count of pruned items is read from the table that comes out
  have hstart : (firstOf all).offset = 0 := UInt32.toNat_inj.1 hoffset
  obtain ⟨kept, hsettled⟩ :=
    settledOn_of_openHead hlodges₁ hfile hne hstorable hstart hindexed hhead hsettle
  have hfirstOf : firstOf kept = firstOf all := by
    obtain ⟨rest, rfl⟩ := hsettled.begins
    exact (firstOf_append hsettled.ne_nil rest).symm
  obtain rfl := hsettled.answer
  rw [← hfirstOf] at hhistory
  have hready := @ready_of_inStep _ _ _ _ cap _ _ _ (hsettled.tidied.lodges hlodges₁)
    hsettled.ne_nil (fun entry hmem => hstorable entry (hsettled.begins.subset hmem))
    (hfirstOf ▸ hstart) hsettled.inStep _ _ _ hhistory hreopen
  simp only [opened, hfirstOf, hsettled.inStep.headLength, hsettled.number] at hready
  exact ⟨kept, hready⟩

end BlockArchive.Table
