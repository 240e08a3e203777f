import BlockArchive.Proofs.Table.InUse

/-! # Appends that fail

An append that begins a new head goes back to the names of the files: it opens the next segment
afresh, lets go of the head and opens that one anew, to read it.  Either of the two may fail when
somebody else has been at the names.

* **Reading.** While the index reads the same, an item is looked for in the same place
  (`LiesAt.congr`).
* **`HeadLost`**: what an append leaves that fails at the second step.  The head was let go, but is
  still the head.
* **Result.** An append that fails leaves the counters as they are.  Unless it fails at the second
  step, it changes nothing, and the next item that fits the head is appended (`failed_append`).
  Else the items in the head cannot be read any more, and no item that fits it can be added. -/

namespace BlockArchive

open Attempt

namespace Handle

/-- What can be read from an open file is the same on both disks. -/
def ReadsSame (handle : Handle) (disk disk' : Disk) : Prop :=
  ∀ id writable, handle = .file id writable → disk'.files.content id = disk.files.content id

theorem ReadsSame.answer_read {handle : Handle} {disk disk' : Disk}
    (h : handle.ReadsSame disk disk') (start len : Nat) :
    ((handle.read start len).outcome disk').1 = ((handle.read start len).outcome disk).1 := by
  cases handle with
  | file id writable =>
      rw [outcome_read_of_content (h id writable rfl), outcome_read_of_content rfl]
      cases (disk.files.content id).slice? start len <;> rfl
  | directory =>
      unfold read
      by_cases hlen : len = 0
      · simp only [if_pos hlen, outcome_pure]
      · simp only [if_neg hlen, outcome_throw]

end Handle

namespace Table

open IndexEntry

variable {root : Path} {name : String} {table table' : Table} {disk disk' : Disk} {item : Nat}
  {blob : Bytes} {place : Extent}

/-! ### What is answered -/

theorem answer_extent_congr {index : Handle} (h : index.ReadsSame disk disk') (n : Nat) :
    ((extent index n).outcome disk').1 = ((extent index n).outcome disk).1 := by
  have hentry : ∀ n, ((readEntry index n).outcome disk').1 = ((readEntry index n).outcome disk).1 :=
    fun n => (index.onlyReads_read _ _).answer_bind_congr (h.answer_read _ _) fun _ _ => rfl
  refine (onlyReads_readEntry _ _).answer_bind_congr (hentry (n + 1)) fun stop _ => ?_
  by_cases hzero : n = 0
  · simp only [if_pos hzero, outcome_pure]
  · simp only [if_neg hzero]
    exact (onlyReads_readEntry _ _).answer_bind_congr (hentry n) fun _ _ => rfl

section kept

variable (hcounters : table' = { table with segments := table'.segments })
  (hindex : ∀ index, table.index = some index → index.ReadsSame disk disk')
include hcounters hindex

/-- An item is looked for in the same place. -/
theorem LiesAt.congr (h : LiesAt table disk item place) : LiesAt table' disk' item place := by
  obtain ⟨hlow, hhigh, index, hopen, hextent⟩ := h
  rw [hcounters]
  refine ⟨hlow, hhigh, index, hopen, ?_⟩
  rw [(onlyReads_extent _ _).outcome_eq, answer_extent_congr (hindex index hopen), hextent]

end kept

theorem LiesAt.answer_retrieve_congr (h : LiesAt table disk item place)
    (h' : LiesAt table' disk' item place)
    (hsame : table'.segments.get? place.segment = table.segments.get? place.segment)
    (hname : table'.name = table.name)
    (hreads : ∀ segment, table.segments.get? place.segment = some segment →
      segment.ReadsSame disk disk') :
    ((retrieve item).outcome (table', disk')).1 = ((retrieve item).outcome (table, disk)).1 := by
  cases hopen : table.segments.get? place.segment with
  | none =>
      rw [h.outcome_retrieve_missing hopen, h'.outcome_retrieve_missing (hsame.trans hopen), hname]
  | some segment =>
      rw [h.outcome_retrieve, h'.outcome_retrieve, outcome_bind_ok (outcome_openSegment hopen disk),
        outcome_bind_ok (outcome_openSegment (hsame.trans hopen) disk')]
      by_cases horder : place.stop < place.start
      · simp only [if_pos horder]
        rfl
      · simp only [if_neg horder]
        exact (hreads segment hopen).answer_read _ _

/-! ### Appends that fail -/

/-- What an append leaves that could begin a new head, but not open the old one anew.  The old one
is still the head, and is not open any more; the new one is open behind it, and its file was
emptied. -/
structure HeadLost (table : Table) (disk : Disk) (table' : Table) (disk' : Disk)
    (emptied : FileId) : Prop where
  unopened : ∃ e, (Disk.openFile (segmentPath table.dir table.name table.headId)
    .readOnly).outcome disk' = (.error e, disk')
  next : table'.segments.get? (table.headId + 1) = some (.file emptied true)
  empty : disk'.files.content emptied = []
  contents : ∀ id ≠ emptied, disk'.files.content id = disk.files.content id
  /-- Items in the head are not found, though they are counted. -/
  inHead : ∀ item place, LiesAt table disk item place → table.index ≠ some (.file emptied true) →
    place.segment = table.headId →
      (retrieve item).outcome (table', disk') =
        (.error (.missingSegment table.name table.headId), (table', disk'))
  /-- Items in other files are answered as before. -/
  others : ∀ item place, LiesAt table disk item place → table.index ≠ some (.file emptied true) →
    place.segment ≠ table.headId → place.segment ≠ table.headId + 1 →
    (∀ writable, table.segments.get? place.segment ≠ some (.file emptied writable)) →
      ((retrieve item).outcome (table', disk')).1 = ((retrieve item).outcome (table, disk)).1
  /-- No item can be added that fits the head. -/
  fitting : ∀ blob, table.overflows blob.length = false →
    (append table.items blob).outcome (table', disk') =
      (.error (.missingSegment table.name table.headId), (table', disk'))

theorem Equipped.exists_append (h : Equipped table) (hindex : table.index ≠ none)
    (hhead : table.segments.get? table.headId ≠ none)
    (hover : table.overflows blob.length = false) (disk : Disk) :
    ∃ state', (Table.append table.items blob).outcome (table, disk) = (.ok (), state') := by
  obtain ⟨index, hindex⟩ := Option.ne_none_iff_exists'.1 hindex
  obtain ⟨head, hhead⟩ := Option.ne_none_iff_exists'.1 hhead
  have hroom := lt_of_not_overflows hover
  obtain ⟨disk', -, hwrite⟩ := exists_writes hindex (h.index index hindex) hhead
    (h.head head hhead) hroom disk
  refine ⟨({ table with
    headBytes := table.headBytes + blob.length, items := table.items + 1 }, disk'), ?_⟩
  rw [outcome_append_next hindex (by omega), hover, if_neg (by decide)]
  exact hwrite

theorem headLost (hequipped : Equipped table) (hindex : table.index ≠ none) {next : Handle}
    {e : Error}
    (hnext : (Disk.openFile (segmentPath table.dir table.name (table.headId + 1)) .fresh).outcome
      disk = (.ok next, disk'))
    (hhead : (Disk.openFile (segmentPath table.dir table.name table.headId) .readOnly).outcome disk' =
      (.error e, disk')) :
    ∃ emptied, HeadLost table disk
      { table with segments := (withNext table next).erase table.headId } disk' emptied := by
  obtain ⟨emptied, rfl, hempty, hcontents⟩ := Disk.exists_of_openFile_fresh hnext
  have hget := get?_withNext_erase table (.file emptied true)
  have hkept : ∀ item place, LiesAt table disk item place →
      table.index ≠ some (.file emptied true) → LiesAt { table with
        segments := (withNext table (.file emptied true)).erase table.headId } disk' item place :=
    fun item place h hne => h.congr rfl fun index hopen =>
      fun id writable hid => hcontents id fun heq => by
        obtain ⟨other, hother⟩ := hequipped.index index hopen
        obtain ⟨rfl, rfl⟩ := Handle.file.inj (hother.symm.trans hid)
        exact hne (by rw [hopen, hother, heq])
  exact ⟨emptied, {
    unopened := ⟨e, hhead⟩
    next := by rw [hget, if_neg (Nat.succ_ne_self _), if_pos rfl]
    empty := hempty
    contents := hcontents
    inHead := by
      intro item place h hne hsegment
      have hrun := (hkept item place h hne).outcome_retrieve_missing (by rw [hget, if_pos hsegment])
      rwa [hsegment] at hrun
    others := by
      intro item place h hne hhead hnext hemptied
      refine h.answer_retrieve_congr (hkept item place h hne) ?_ rfl fun segment hopen => ?_
      · rw [hget, if_neg hhead, if_neg hnext]
      · rintro id writable rfl
        exact hcontents id fun heq => hemptied writable (heq ▸ hopen)
    fitting := fun blob hover =>
      @outcome_append_missing blob
        { table with segments := (withNext table (.file emptied true)).erase table.headId }
        hindex ((hget _).trans (if_pos rfl)) hover disk' }⟩

/-- An append that fails leaves the counters as they are.  If the head was open, then either nothing
was changed at all, so that everything is answered as before and the next item that fits is
appended; or the head was lost. -/
theorem failed_append (h : InUse root name table) {e : Error}
    (hrun : (append item blob).outcome (table, disk) = (.error e, (table', disk'))) :
    table' = { table with segments := table'.segments } ∧
      (table' = table ∧ disk' = disk ∧
          (table.index ≠ none → table.segments.get? table.headId ≠ none →
            ∀ blob, table.overflows blob.length = false →
              ∃ state', (append table.items blob).outcome (table', disk') = (.ok (), state')) ∨
        (∃ emptied, HeadLost table disk table' disk' emptied) ∨
        table.segments.get? table.headId = none ∧ disk' = disk ∧
          table'.segments = table.segments.erase (table.headId + 1)) := by
  have hequipped := h.equipped
  have hsame : ∀ blob, table.index ≠ none → table.segments.get? table.headId ≠ none →
      table.overflows blob.length = false →
        ∃ state', (append table.items blob).outcome (table, disk) = (.ok (), state') :=
    fun blob hindex hhead hover => hequipped.exists_append hindex hhead hover disk
  cases hequipped.appends hrun with
  | refused e => exact ⟨rfl, .inl ⟨rfl, rfl, fun hindex hhead blob => hsame blob hindex hhead⟩⟩
  | unrotated hindex hrotate =>
      cases rotates_of_outcome hrotate with
      | exhausted =>
          exact ⟨rfl, .inl ⟨rfl, rfl, fun hindex hhead blob => hsame blob hindex hhead⟩⟩
      | blocked =>
          by_cases hhead : table.segments.get? table.headId = none
          · exact ⟨rfl, .inr (.inr ⟨hhead, rfl, rfl⟩)⟩
          · -- the next segment was not open either
            have hnext : table.segments.get? (table.headId + 1) = none := by
              by_contra hopen
              exact hhead (hequipped.above _ (Nat.lt_succ_self _) hopen).2
            rw [erase_eq_self hnext]
            exact ⟨rfl, .inl ⟨rfl, rfl, fun hindex hhead blob => hsame blob hindex hhead⟩⟩
      | lost hnext hhead => exact ⟨rfl, .inr (.inl (headLost hequipped hindex hnext hhead))⟩

theorem inUse_served {cap : Nat} {answer : Answer}
    (h : ((serve root name (.reopen cap)).outcome (table, disk)).1 = .ok answer)
    (requests : List Request) :
    InUse root name (served root name (.reopen cap :: requests) (table, disk)).1 := by
  have hserved : ∀ state : Table × Disk, InUse root name state.1 →
      InUse root name (served root name requests state).1 := by
    induction requests with
    | nil => exact fun _ h => h
    | cons request requests ih => exact fun state h => ih _ (h.served (Prod.ext rfl rfl))
  refine hserved _ ?_
  rcases hopen : (openIn root name cap).outcome disk with ⟨opened, disk₁⟩
  cases opened with
  | ok table₁ =>
      rw [outcome_serve_reopen hopen]
      exact .opened hopen
  | error e =>
      unfold serve at h
      rw [outcome_bind_error (outcome_onSecond_of hopen _)] at h
      simp at h

/-- A table with one item, the name of whose head was removed by somebody else. -/
def headRemoved : Table × Disk :=
  let state := served ⟨["", "a"]⟩ Column.hashes.name [.reopen 3, .append 0 [1, 2]]
    (unopened ⟨["", "a"]⟩ Column.hashes.name, Disk.ofFiles (FileSystem.ofListing []))
  (state.1, ((Disk.removeFile (segmentPath ⟨["", "a"]⟩ Column.hashes.name 0)).outcome state.2).2)

/-- An item that does not fit the head is refused, and the head is lost. -/
theorem failed_append_headRemoved :
    ∃ table' disk' emptied,
      (append 1 [3, 4]).outcome headRemoved = (.error (.io .notFound), (table', disk')) ∧
        HeadLost headRemoved.1 headRemoved.2 table' disk' emptied := by
  have hrun : ((append 1 [3, 4]).outcome headRemoved).1 = .error (.io .notFound) := by
    decide +kernel
  have hlost : ((append 1 [3, 4]).outcome headRemoved).2.1.segments.get? 0 = none := by
    decide +kernel
  have hopen : headRemoved.1.segments.get? headRemoved.1.headId ≠ none := by decide +kernel
  have hopen' : headRemoved.1.segments.get? 0 ≠ none := by decide +kernel
  have hserve : ((serve ⟨["", "a"]⟩ Column.hashes.name (.reopen 3)).outcome
      (unopened ⟨["", "a"]⟩ Column.hashes.name, Disk.ofFiles (FileSystem.ofListing []))).1 =
        .ok .done := by
    decide +kernel
  have hinUse : InUse ⟨["", "a"]⟩ Column.hashes.name headRemoved.1 :=
    inUse_served hserve [.append 0 [1, 2]]
  have houtcome : (append 1 [3, 4]).outcome (headRemoved.1, headRemoved.2) =
      (.error (.io .notFound), ((append 1 [3, 4]).outcome headRemoved).2) := Prod.ext hrun rfl
  obtain ⟨-, ⟨hsame, -⟩ | ⟨emptied, hheadLost⟩ | ⟨hclosed, -⟩⟩ := failed_append hinUse houtcome
  · exact absurd (hsame ▸ hlost) hopen'
  · exact ⟨_, _, emptied, houtcome, hheadLost⟩
  · exact absurd hclosed hopen

/-- Before the append that failed the item was read, and one that fits would have been added.
Neither is so afterwards. -/
theorem exists_lost_head :
    let failed := (append 1 [3, 4]).outcome headRemoved
    ((retrieve 0).outcome headRemoved).1 = .ok [1, 2] ∧
      ((append 1 [5]).outcome headRemoved).1 = .ok () ∧
      failed.1 = .error (.io .notFound) ∧ failed.2.1.items = 1 ∧ failed.2.1.headId = 0 ∧
      ((retrieve 0).outcome failed.2).1 = .error (.missingSegment Column.hashes.name 0) ∧
      ((append 1 [5]).outcome failed.2).1 = .error (.missingSegment Column.hashes.name 0) := by
  intro failed
  decide +kernel

end Table

end BlockArchive
