import BlockArchive.Proofs.Table.Serving

/-! # Tables in use

A table that was opened on some disk may be in use while anything happens to that disk.  What it
needs to go on, it has open itself.

* **`InUse`**: the tables that come about by opening one and carrying out requests, with any disk
  each time.
* **`Rotates`**, **`Appends`**: the ways in which beginning a head can go, and appending an item.
  **`Switches`**, **`Cuts`**: the ways in which going to another head can go, and cutting.
  **`Steps`**: what a request may do.
* **`Equipped`**: the index and the head are open to be written to.  Each request keeps it so
  (`Equipped.append`, `Equipped.truncate`, `Equipped.serve`), and hence every table in use is
  equipped (`InUse.equipped`). -/

namespace BlockArchive

open Attempt

/-- An open file that can be written to. -/
def Handle.IsWritable (handle : Handle) : Prop := ∃ id, handle = .file id true

theorem Handle.IsWritable.exists_write {handle : Handle} (h : handle.IsWritable) (start : Nat)
    (data : Bytes) (disk : Disk) :
    ∃ disk', (handle.write start data).outcome disk = (.ok (), disk') := by
  obtain ⟨id, rfl⟩ := h
  unfold Handle.write
  split <;> exact ⟨_, rfl⟩

theorem Handle.IsWritable.exists_setLength {handle : Handle} (h : handle.IsWritable)
    (length : Nat) (disk : Disk) :
    ∃ disk', (handle.setLength length).outcome disk = (.ok (), disk') := by
  obtain ⟨id, rfl⟩ := h
  exact ⟨_, rfl⟩

namespace Table

open IndexEntry

variable {root : Path} {name : String} {table table' : Table} {disk disk' : Disk} {item : Nat}
  {blob : Bytes}

theorem get?_reopened (segments : Segments) (id other : Nat) (handle : Handle) :
    ((segments.erase id).insert id handle).get? other =
      if other = id then some handle else segments.get? other := by
  rw [Segments.get?_insert, Segments.get?_erase]
  by_cases h : other = id <;> simp [h]

/-- Where no segment above an id is open, there is none to be released. -/
theorem above_eq_nil {segments : Segments} {id : Nat}
    (h : ∀ other, id < other → segments.get? other = none) : segments.above id = [] := by
  refine List.filter_eq_nil_iff.2 fun segment hmem habove => ?_
  have hclosed := h segment.1 (by simpa using habove)
  simpa using List.lookup_eq_none_iff.1 hclosed segment hmem

theorem erase_eq_self {segments : Segments} {id : Nat} (h : segments.get? id = none) :
    segments.erase id = segments := by
  refine List.filter_eq_self.2 fun segment hmem => ?_
  have hne := List.lookup_eq_none_iff.1 h segment hmem
  simpa using Ne.symm (bne_iff_ne.1 hne)

/-- The index and the head are open to be written to, so far as they are open at all.  No segment
above the head is open, but that the next one may be when the head was lost. -/
structure Equipped (table : Table) : Prop where
  index : ∀ handle, table.index = some handle → handle.IsWritable
  head : ∀ handle, table.segments.get? table.headId = some handle → handle.IsWritable
  above : ∀ id, table.headId < id → table.segments.get? id ≠ none →
    id = table.headId + 1 ∧ table.segments.get? table.headId = none

/-- A table that was opened on some disk and is in use since.  Between two requests anything may
happen to the disk. -/
inductive InUse (root : Path) (name : String) : Table → Prop where
  | opened {cap : Nat} {disk : Disk} {table : Table} {disk' : Disk} :
      (openIn root name cap).outcome disk = (.ok table, disk') → InUse root name table
  | served {table : Table} {request : Request} {disk : Disk} {answer : Except Error Answer}
      {table' : Table} {disk' : Disk} : InUse root name table →
      (serve root name request).outcome (table, disk) = (answer, (table', disk')) →
        InUse root name table'

/-! ### Rotating -/

/-- The open segments after the next one was opened afresh. -/
abbrev withNext (table : Table) (next : Handle) : Segments :=
  (table.segments.erase (table.headId + 1)).insert (table.headId + 1) next

theorem get?_withNext_erase (table : Table) (next : Handle) (id : Nat) :
    ((withNext table next).erase table.headId).get? id =
      if id = table.headId then none else if id = table.headId + 1 then some next
        else table.segments.get? id := by
  rw [Segments.get?_erase, get?_reopened]

theorem get?_withNext_insert (table : Table) (next old : Handle) (id : Nat) :
    (((withNext table next).erase table.headId).insert table.headId old).get? id =
      if id = table.headId then some old else if id = table.headId + 1 then some next
        else table.segments.get? id := by
  rw [get?_reopened, get?_reopened]

/-- How a rotation goes: what it answers, and the table and the disk that it leaves. -/
inductive Rotates (table : Table) (disk : Disk) : Except Error Unit → Table → Disk → Prop where
  /-- No id is left. -/
  | exhausted : Rotates table disk (.error (.segmentsExhausted table.name)) table disk
  /-- The next segment cannot be opened. -/
  | blocked (cause : IoError) : Rotates table disk (.error (.io cause))
      { table with segments := table.segments.erase (table.headId + 1) } disk
  /-- The head was let go and cannot be opened anew. -/
  | lost {next : Handle} {disk' : Disk} {cause : IoError} :
      (Disk.openFile (segmentPath table.dir table.name (table.headId + 1)) .fresh).outcome disk =
        (.ok next, disk') →
      (Disk.openFile (segmentPath table.dir table.name table.headId) .readOnly).outcome disk' =
        (.error (.io cause), disk') → table.headId < lastSegmentId →
      Rotates table disk (.error (.io cause))
        { table with segments := (withNext table next).erase table.headId } disk'
  | done {next : Handle} {disk' : Disk} {old : Handle} :
      (Disk.openFile (segmentPath table.dir table.name (table.headId + 1)) .fresh).outcome disk =
        (.ok next, disk') →
      (Disk.openFile (segmentPath table.dir table.name table.headId) .readOnly).outcome disk' =
        (.ok old, disk') → table.headId < lastSegmentId →
      Rotates table disk (.ok ())
        { table with
          headBytes := 0
          headId := table.headId + 1
          segments := ((withNext table next).erase table.headId).insert table.headId old } disk'

theorem rotates_of_outcome {answer : Except Error Unit}
    (hrun : rotate.outcome (table, disk) = (answer, (table', disk'))) :
    Rotates table disk answer table' disk' := by
  unfold rotate at hrun
  rw [outcome_bind_ok (outcome_current table disk)] at hrun
  simp only at hrun
  split at hrun
  · rw [outcome_bind_error (outcome_throw _ _)] at hrun
    obtain ⟨rfl, rfl, rfl⟩ := by simpa using hrun
    exact .exhausted
  have hlast : table.headId < lastSegmentId := Nat.lt_of_succ_le (Nat.not_lt.1 ‹_›)
  rcases hnext : (Disk.openFile (segmentPath table.dir table.name (table.headId + 1))
    .fresh).outcome disk with ⟨next, disk₁⟩
  cases next with
  | error e =>
      obtain rfl := Disk.eq_of_openFile_error hnext
      obtain ⟨cause, rfl⟩ := Disk.exists_of_openFile_error hnext
      rw [outcome_bind_error (outcome_reopenSegment_lost hnext)] at hrun
      obtain ⟨rfl, rfl, rfl⟩ := by simpa using hrun
      exact .blocked cause
  | ok next =>
      rw [outcome_bind_ok (outcome_reopenSegment hnext)] at hrun
      rcases hhead : (Disk.openFile (segmentPath table.dir table.name table.headId)
        .readOnly).outcome disk₁ with ⟨old, disk₂⟩
      obtain rfl := (Disk.onlyReads_openFile_readOnly _).of_outcome hhead
      cases old with
      | error e =>
          obtain ⟨cause, rfl⟩ := Disk.exists_of_openFile_error hhead
          rw [outcome_bind_error (outcome_reopenSegment_lost (by exact hhead))] at hrun
          obtain ⟨rfl, rfl, rfl⟩ := by simpa using hrun
          exact .lost hnext hhead hlast
      | ok old =>
          rw [outcome_bind_ok (outcome_reopenSegment (by exact hhead)), outcome_update] at hrun
          obtain ⟨rfl, rfl, rfl⟩ := by simpa using hrun
          exact .done hnext hhead hlast

/-! ### Appending -/

/-- The entry that bounds an item of `len` bytes behind the bytes of the head. -/
def headEntry (table : Table) (len : Nat) : IndexEntry :=
  ⟨.ofNat table.headId, .ofNat (table.headBytes + len)⟩

theorem headEntry_segment (hhead : table.headId ≤ lastSegmentId) (len : Nat) :
    (table.headEntry len).segment.toNat = table.headId := by
  have hle : table.headId ≤ 65535 := hhead
  change (UInt32.ofNat table.headId).toNat = _
  rw [UInt32.toNat_ofNat', Nat.mod_eq_of_lt (by omega)]

theorem headEntry_offset {len : Nat} (hroom : table.headBytes + len < offsetLimit) :
    (table.headEntry len).offset.toNat = table.headBytes + len := by
  have hlt : table.headBytes + len < 2 ^ 32 := hroom
  change (UInt32.ofNat (table.headBytes + len)).toNat = _
  rw [UInt32.toNat_ofNat', Nat.mod_eq_of_lt hlt]

/-- An item is written behind the bytes of the head, and its entry behind those of the index. -/
structure Writes (table : Table) (blob : Bytes) (disk disk' : Disk) : Prop where
  room : table.headBytes + blob.length < offsetLimit
  written : ∃ index head disk₁, table.index = some index ∧
    table.segments.get? table.headId = some head ∧
    (head.write table.headBytes blob).outcome disk = (.ok (), disk₁) ∧
    (index.write (position (table.items - table.itemOffset + 1))
      (table.headEntry blob.length).encode).outcome disk₁ = (.ok (), disk')

/-- Where the head is open, an item is written and its entry is. -/
theorem exists_writes {index head : Handle} (hindex : table.index = some index)
    (hopen : index.IsWritable) (hhead : table.segments.get? table.headId = some head)
    (hopen' : head.IsWritable) (hroom : table.headBytes + blob.length < offsetLimit) (disk : Disk) :
    ∃ disk', Writes table blob disk disk' ∧
      (writeItem index table.items blob).outcome (table, disk) =
        (.ok (), ({ table with
          headBytes := table.headBytes + blob.length
          items := table.items + 1 }, disk')) := by
  obtain ⟨disk₁, hdata⟩ := hopen'.exists_write table.headBytes blob disk
  obtain ⟨disk₂, hentry⟩ := hopen.exists_write (position (table.items - table.itemOffset + 1))
    (table.headEntry blob.length).encode disk₁
  exact ⟨disk₂, ⟨hroom, index, head, disk₁, hindex, hhead, hdata, hentry⟩,
    outcome_writeItem hhead hroom hdata hentry⟩

/-- How an append goes: what it answers, and the table and the disk that it leaves. -/
inductive Appends (table : Table) (disk : Disk) (item : Nat) (blob : Bytes) :
    Except Error Unit → Table → Disk → Prop where
  /-- Nothing is done.  If a segment is missing, it is the head. -/
  | refused (e : Error) :
      (∀ owner id, e = .missingSegment owner id → table.segments.get? table.headId = none) →
      Appends table disk item blob (.error e) table disk
  /-- No head could be begun for the item. -/
  | unrotated {e : Error} {table' : Table} {disk' : Disk} : table.index ≠ none →
      rotate.outcome (table, disk) = (.error e, (table', disk')) →
      Appends table disk item blob (.error e) table' disk'
  /-- The item fits the head. -/
  | fitted {disk' : Disk} : item = table.items → table.overflows blob.length = false →
      Writes table blob disk disk' → Appends table disk item blob (.ok ())
        { table with headBytes := table.headBytes + blob.length, items := table.items + 1 } disk'
  /-- The item begins a new head. -/
  | rotated {start : Table} {disk₁ disk' : Disk} : item = table.items →
      table.overflows blob.length = true → rotate.outcome (table, disk) = (.ok (), (start, disk₁)) →
      Writes start blob disk₁ disk' → Appends table disk item blob (.ok ())
        { start with headBytes := start.headBytes + blob.length, items := start.items + 1 } disk'

theorem Rotates.get?_head {answer : Except Error Unit}
    (h : Rotates table disk answer table' disk') (hok : answer = .ok ()) :
    table'.headBytes = 0 ∧ table'.index = table.index ∧ table'.items = table.items ∧
      ∃ next, table'.segments.get? table'.headId = some next ∧ next.IsWritable := by
  cases h with
  | exhausted | blocked | lost => simp at hok
  | done hnext hold hlast =>
      obtain ⟨id, rfl, -⟩ := Disk.exists_of_openFile_fresh hnext
      refine ⟨rfl, rfl, rfl, .file id true, ?_, id, rfl⟩
      rw [get?_withNext_insert, if_neg (Nat.succ_ne_self _), if_pos rfl]

theorem Equipped.appends (h : Equipped table) {answer : Except Error Unit}
    (hrun : (append item blob).outcome (table, disk) = (answer, (table', disk'))) :
    Appends table disk item blob answer table' disk' := by
  by_cases hblob : offsetLimit ≤ blob.length
  · rw [outcome_append_tooLarge hblob] at hrun
    obtain ⟨rfl, rfl, rfl⟩ := by simpa using hrun
    exact .refused _ (by simp)
  have hlt := Nat.lt_of_not_le hblob
  cases hindex : table.index with
  | none =>
      rw [outcome_append_of_closed hindex hlt] at hrun
      obtain ⟨rfl, rfl, rfl⟩ := by simpa using hrun
      exact .refused _ (by simp)
  | some index =>
      have hwritable := h.index index hindex
      by_cases hitem : item = table.items
      · subst hitem
        rw [outcome_append_next hindex hlt] at hrun
        cases hover : table.overflows blob.length with
        | true =>
            rw [hover, if_pos rfl] at hrun
            rcases hrotate : rotate.outcome (table, disk) with ⟨rotated, start, disk₁⟩
            cases rotated with
            | error e =>
                rw [outcome_bind_error hrotate] at hrun
                obtain ⟨rfl, rfl, rfl⟩ := by simpa using hrun
                exact .unrotated (by simp [hindex]) hrotate
            | ok u =>
                obtain ⟨hbytes, hsame, hitems, next, hnext, hopen⟩ :=
                  (rotates_of_outcome hrotate).get?_head rfl
                obtain ⟨disk₂, hwrites, hrun'⟩ := exists_writes (hsame.trans hindex) hwritable hnext
                  hopen (by rw [hbytes, Nat.zero_add]; exact hlt) disk₁
                rw [hitems] at hrun'
                rw [outcome_bind_ok hrotate, hrun'] at hrun
                obtain ⟨rfl, rfl, rfl⟩ := by simpa using hrun
                have happends := Appends.rotated rfl hover hrotate hwrites
                rwa [hitems] at happends
        | false =>
            cases hhead : table.segments.get? table.headId with
            | none =>
                rw [← outcome_append_next hindex hlt,
                  outcome_append_missing (by simp [hindex]) hhead hover] at hrun
                obtain ⟨rfl, rfl, rfl⟩ := by simpa using hrun
                exact .refused _ fun _ _ _ => hhead
            | some head =>
                obtain ⟨disk₁, hwrites, hrun'⟩ := exists_writes hindex hwritable hhead
                  (h.head head hhead) (lt_of_not_overflows hover) disk
                rw [hover, if_neg Bool.false_ne_true, hrun'] at hrun
                obtain ⟨rfl, rfl, rfl⟩ := by simpa using hrun
                exact .fitted rfl hover hwrites
      · rw [outcome_append_of_ne hindex hlt hitem] at hrun
        obtain ⟨rfl, rfl, rfl⟩ := by simpa using hrun
        exact .refused _ (by simp)

/-! ### Cutting -/

/-- The open segments after one was opened anew and those above it were let go. -/
abbrev switched (table : Table) (new : Nat) (handle : Handle) : Segments :=
  ((table.segments.erase new).insert new handle).upTo new

theorem get?_switched (table : Table) (new : Nat) (handle : Handle) (id : Nat) :
    (switched table new handle).get? id =
      if id ≤ new then if id = new then some handle else table.segments.get? id else none := by
  rw [Segments.get?_upTo, get?_reopened]

theorem above_reopened (segments : Segments) (id : Nat) (handle : Handle) :
    ((segments.erase id).insert id handle).above id = segments.above id := by
  have hbelow : Segments.above ((segments.erase id).filter (·.1 < id)) id = [] := by
    refine List.filter_eq_nil_iff.2 fun segment hmem => ?_
    have hlt := (List.mem_filter.1 hmem).2
    simp only [decide_eq_true_eq] at hlt ⊢
    exact Nat.lt_asymm hlt
  have herase : Segments.above (segments.erase id) id = segments.above id := by
    unfold Segments.above Segments.erase
    rw [List.filter_filter]
    refine List.filter_congr fun segment _ => ?_
    by_cases hlt : id < segment.1
    · simp [hlt, Nat.ne_of_gt hlt]
    · simp [hlt]
  have htwice : Segments.above ((segments.erase id).above id) id = (segments.erase id).above id := by
    simp [Segments.above]
  calc ((segments.erase id).insert id handle).above id
      = Segments.above ((segments.erase id).filter (·.1 < id)) id ++
          Segments.above ((segments.erase id).above id) id := by
        simp [Segments.insert, Segments.above]
    _ = segments.above id := by rw [hbelow, htwice, herase, List.nil_append]

/-- How another segment becomes the head: what that answers, and the table and the disk that it
leaves. -/
inductive Switches (table : Table) (disk : Disk) (new : Nat) :
    Except Error Unit → Table → Disk → Prop where
  /-- The segment cannot be opened. -/
  | blocked {e : Error} :
      (Disk.openFile (segmentPath table.dir table.name new) .update).outcome disk =
        (.error e, disk) →
      Switches table disk new (.error e) { table with segments := table.segments.erase new } disk
  /-- A segment above it cannot be deleted. -/
  | held {handle : Handle} {disk₁ disk' : Disk} {e : Error} :
      (Disk.openFile (segmentPath table.dir table.name new) .update).outcome disk =
        (.ok handle, disk₁) →
      (deleteSegments table.dir table.name ((table.segments.above new).map Prod.fst)).outcome
        disk₁ = (.error e, disk') →
      Switches table disk new (.error e) { table with segments := switched table new handle } disk'
  | done {handle : Handle} {disk₁ disk' : Disk} :
      (Disk.openFile (segmentPath table.dir table.name new) .update).outcome disk =
        (.ok handle, disk₁) →
      (deleteSegments table.dir table.name ((table.segments.above new).map Prod.fst)).outcome
        disk₁ = (.ok (), disk') →
      Switches table disk new (.ok ())
        { table with segments := switched table new handle, headId := new } disk'

theorem switches_of_outcome {new : Nat} {answer : Except Error Unit}
    (hrun : (switchHead new).outcome (table, disk) = (answer, (table', disk'))) :
    Switches table disk new answer table' disk' := by
  unfold switchHead at hrun
  rcases hopen : (Disk.openFile (segmentPath table.dir table.name new) .update).outcome disk with
    ⟨opened, disk₁⟩
  cases opened with
  | error e =>
      obtain rfl := Disk.eq_of_openFile_error hopen
      rw [outcome_bind_error (outcome_reopenSegment_lost hopen)] at hrun
      obtain ⟨rfl, rfl, rfl⟩ := by simpa using hrun
      exact .blocked hopen
  | ok handle =>
      rw [outcome_bind_ok (outcome_reopenSegment hopen)] at hrun
      rcases hdelete : (deleteSegments table.dir table.name
        ((table.segments.above new).map Prod.fst)).outcome disk₁ with ⟨deleted, disk₂⟩
      have hrelease := @outcome_releaseAbove disk₁ disk₂
        { table with segments := (table.segments.erase new).insert new handle } new deleted
        (by rwa [above_reopened])
      cases deleted with
      | error e =>
          rw [outcome_bind_error hrelease] at hrun
          obtain ⟨rfl, rfl, rfl⟩ := by simpa using hrun
          exact .held hopen hdelete
      | ok u =>
          rw [outcome_bind_ok hrelease, outcome_update] at hrun
          obtain ⟨rfl, rfl, rfl⟩ := by simpa using hrun
          exact .done hopen hdelete

/-- With which head a cut goes on: with the head that there is, or with another one. -/
inductive GoesOn (table : Table) (disk : Disk) : Nat → Table → Disk → Prop where
  | same : GoesOn table disk table.headId table disk
  | switched {new : Nat} {table' : Table} {disk' : Disk} : new ≠ table.headId →
      Switches table disk new (.ok ()) table' disk' → GoesOn table disk new table' disk'

/-- The entries behind that of the last item kept are dropped. -/
structure Shortens (table : Table) (items : Nat) (index : Handle) (disk disk' : Disk) : Prop where
  itemOffset_le : table.itemOffset ≤ items
  items_lt : items < table.items
  isOpen : table.index = some index
  cut : (index.setLength (position (items - table.itemOffset + 1))).outcome disk = (.ok (), disk')

/-- How a cut goes: what it answers, and the table and the disk that it leaves. -/
inductive Cuts (table : Table) (disk : Disk) (items : Nat) :
    Except Error Unit → Table → Disk → Prop where
  /-- Nothing is done. -/
  | kept (answer : Except Error Unit) : Cuts table disk items answer table disk
  /-- The last entry kept cannot be read. -/
  | unread {index : Handle} {disk₁ : Disk} {e : Error} : Shortens table items index disk disk₁ →
      (readEntry index (items - table.itemOffset)).outcome disk₁ = (.error e, disk₁) →
      Cuts table disk items (.error e) table disk₁
  /-- Its segment cannot be made the head. -/
  | unswitched {index : Handle} {disk₁ disk' : Disk} {last : IndexEntry} {e : Error}
      {table' : Table} : Shortens table items index disk disk₁ →
      (readEntry index (items - table.itemOffset)).outcome disk₁ = (.ok last, disk₁) →
      last.segment.toNat ≠ table.headId →
      Switches table disk₁ last.segment.toNat (.error e) table' disk' →
      Cuts table disk items (.error e) table' disk'
  /-- Its segment is the head, but was lost before. -/
  | missing {index : Handle} {disk₁ disk' : Disk} {last : IndexEntry} {table' : Table} :
      Shortens table items index disk disk₁ →
      (readEntry index (items - table.itemOffset)).outcome disk₁ = (.ok last, disk₁) →
      GoesOn table disk₁ last.segment.toNat table' disk' →
      table'.segments.get? last.segment.toNat = none →
      Cuts table disk items (.error (.missingSegment table'.name last.segment.toNat)) table' disk'
  | done {index head : Handle} {disk₁ disk₂ disk' : Disk} {last : IndexEntry} {start : Table} :
      Shortens table items index disk disk₁ →
      (readEntry index (items - table.itemOffset)).outcome disk₁ = (.ok last, disk₁) →
      GoesOn table disk₁ last.segment.toNat start disk₂ →
      start.segments.get? last.segment.toNat = some head →
      (head.setLength last.offset.toNat).outcome disk₂ = (.ok (), disk') →
      Cuts table disk items (.ok ())
        { start with items, headBytes := last.offset.toNat } disk'

/-! ### What tables in use have open -/

theorem map_fst_of_openHistory {dir : Path} {ids : List Nat} {segments : Segments}
    (h : (openHistory dir name ids).outcome disk = (.ok segments, disk')) :
    segments.map Prod.fst = ids := by
  induction ids generalizing segments disk disk' with
  | nil =>
      obtain ⟨rfl, -⟩ := by simpa [openHistory, outcome_pure] using h
      rfl
  | cons id ids ih =>
      unfold openHistory at h
      obtain ⟨handle, disk₁, -, h⟩ := exists_of_outcome_bind h
      obtain ⟨more, disk₂, hmore, h⟩ := exists_of_outcome_bind h
      obtain ⟨rfl, -⟩ := by simpa [outcome_pure] using h
      rw [List.map_cons, ih hmore]

/-- The segments before the head have smaller ids. -/
theorem lt_of_mem_openHistory {dir : Path} {low high : Nat} {history : Segments}
    (h : (openHistory dir name (List.range' low (high - low))).outcome disk =
      (.ok history, disk')) : ∀ segment ∈ history, segment.1 < high := by
  intro segment hmem
  have hid := List.mem_map_of_mem (f := Prod.fst) hmem
  rw [map_fst_of_openHistory h, List.mem_range'_1] at hid
  omega

/-- A table is opened with its index and its head to be written to. -/
theorem equipped_of_openIn {cap : Nat}
    (h : (openIn root name cap).outcome disk = (.ok table, disk')) : Equipped table := by
  cases openSteps_of_outcome h with
  | steps hmake hindex htrim hfirst hlast hhead hsettle hhistory hreopen =>
  have hlt := lt_of_mem_openHistory hhistory
  constructor
  · rintro _ ⟨⟩
    exact Disk.exists_of_openFile_update hindex
  · intro handle hget
    rw [get?_append_cons _ fun segment hmem => Nat.ne_of_lt (hlt segment hmem)] at hget
    obtain rfl := Option.some.inj hget
    exact Disk.exists_of_openFile_update hreopen
  · intro id hid hopen
    obtain ⟨handle, hget⟩ := Option.ne_none_iff_exists'.1 hopen
    rcases mem_or_eq_of_get?_concat hget with hmem | heq
    · exact absurd (hlt _ hmem) (Nat.lt_asymm hid)
    · obtain ⟨rfl, -⟩ := Prod.mk.inj heq
      exact absurd hid (Nat.lt_irrefl _)

namespace Equipped

theorem rotates (h : Equipped table) {answer : Except Error Unit}
    (hrotates : Rotates table disk answer table' disk') : Equipped table' := by
  cases hrotates with
  | exhausted => exact h
  | blocked =>
      have hget := Segments.get?_erase table.segments (table.headId + 1)
      refine ⟨h.index, fun handle hhead => h.head handle ?_, fun id hid hopen => ?_⟩
      · rwa [hget, if_neg (Nat.ne_of_lt (Nat.lt_succ_self _))] at hhead
      · rw [hget] at hopen ⊢
        split at hopen
        · exact absurd rfl hopen
        · next hne => exact absurd (h.above id hid hopen).1 hne
  | @lost next _ _ hnext hhead =>
      have hget := get?_withNext_erase table next
      refine ⟨h.index, fun handle hhead => ?_, fun id hid hopen => ⟨?_, ?_⟩⟩
      · rw [hget, if_pos rfl] at hhead
        simp at hhead
      · by_contra hne
        rw [hget, if_neg (Nat.ne_of_gt hid), if_neg hne] at hopen
        exact hne (h.above id hid hopen).1
      · rw [hget, if_pos rfl]
  | done hnext hold hlast =>
      have hrotates : Rotates table disk (.ok ()) _ _ := .done hnext hold hlast
      obtain ⟨-, -, -, handle, hhead, hwritable⟩ := hrotates.get?_head rfl
      refine ⟨h.index, fun handle' hhead' => ?_, fun id hid hopen => ?_⟩
      · obtain rfl := Option.some.inj (hhead.symm.trans hhead')
        exact hwritable
      · have hlt : table.headId < id := Nat.lt_of_succ_lt hid
        rw [get?_withNext_insert, if_neg (Nat.ne_of_gt hlt), if_neg (Nat.ne_of_gt hid)] at hopen
        exact absurd (h.above id hlt hopen).1 (Nat.ne_of_gt hid)

theorem append (h : Equipped table) {answer : Except Error Unit}
    (hrun : (Table.append item blob).outcome (table, disk) = (answer, (table', disk'))) :
    Equipped table' := by
  cases h.appends hrun with
  | refused e => exact h
  | unrotated hindex hrotate => exact h.rotates (rotates_of_outcome hrotate)
  | fitted hitem hover hwrites => exact ⟨h.index, h.head, h.above⟩
  | rotated hitem hover hrotate hwrites =>
      have hstart := h.rotates (rotates_of_outcome hrotate)
      exact ⟨hstart.index, hstart.head, hstart.above⟩

/-- Another segment, before the head or behind it, becomes the head. -/
theorem switches (h : Equipped table) {new : Nat} (hne : new ≠ table.headId)
    {answer : Except Error Unit} (hswitches : Switches table disk new answer table' disk') :
    Equipped table' := by
  cases hswitches with
  | blocked =>
      have hget := Segments.get?_erase table.segments new
      refine ⟨h.index, fun handle hhead => h.head handle ?_, fun id hid hthere => ?_⟩
      · rwa [hget, if_neg (Ne.symm hne)] at hhead
      · rw [hget] at hthere
        split at hthere
        · exact absurd rfl hthere
        · rw [hget, if_neg (Ne.symm hne)]
          exact h.above id hid hthere
  | @held handle _ _ _ hopen hdelete =>
      have hget := get?_switched table new handle
      rcases Nat.lt_or_gt_of_ne hne with hlt | hgt
      · refine ⟨h.index, fun handle hhead => ?_, fun id hid hthere => ?_⟩
        · rw [hget, if_neg (Nat.not_le.2 hlt)] at hhead
          simp at hhead
        · rw [hget, if_neg (Nat.not_le.2 (Nat.lt_trans hlt hid))] at hthere
          exact absurd rfl hthere
      · -- above a segment that comes after the head there is nothing to delete
        rw [above_eq_nil fun other hother => ?_] at hdelete
        · simp [deleteSegments, outcome_pure] at hdelete
        · by_contra hthere
          have := (h.above other (Nat.lt_trans hgt hother) hthere).1
          omega
  | @done handle _ _ hopen hdelete =>
      have hget := get?_switched table new handle
      refine ⟨h.index, fun handle' hhead => ?_, fun id hid hthere => ?_⟩
      · rw [hget, if_pos (Nat.le_refl _), if_pos rfl] at hhead
        obtain rfl := Option.some.inj hhead
        exact Disk.exists_of_openFile_update hopen
      · rw [hget, if_neg (Nat.not_le.2 hid)] at hthere
        exact absurd rfl hthere

theorem goesOn (h : Equipped table) {new : Nat} (hgoes : GoesOn table disk new table' disk') :
    Equipped table' ∧ table'.headId = new := by
  cases hgoes with
  | same => exact ⟨h, rfl⟩
  | switched hne hswitches =>
      refine ⟨h.switches hne hswitches, ?_⟩
      cases hswitches
      rfl

theorem cuts_of_goesOn (h : Equipped table) {items : Nat} {index : Handle} {disk₁ disk₂ : Disk}
    {last : IndexEntry} {start : Table} (hshort : Shortens table items index disk disk₁)
    (hread : (readEntry index (items - table.itemOffset)).outcome disk₁ = (.ok last, disk₁))
    (hgoes : GoesOn table disk₁ last.segment.toNat start disk₂) {answer : Except Error Unit}
    (hrun : (do
      let head ← openSegment last.segment.toNat
      onSecond (head.setLength last.offset.toNat)
      update fun table => { table with items, headBytes := last.offset.toNat } :
        Action (Table × Disk) Unit).outcome (start, disk₂) = (answer, (table', disk'))) :
    Cuts table disk items answer table' disk' := by
  obtain ⟨hstart, hheadId⟩ := h.goesOn hgoes
  cases hget : start.segments.get? last.segment.toNat with
  | none =>
      rw [outcome_bind_error (outcome_openSegment_missing hget disk₂)] at hrun
      obtain ⟨rfl, rfl, rfl⟩ := by simpa using hrun
      exact .missing hshort hread hgoes hget
  | some head =>
      have hwritable := hstart.head head (by rw [hheadId, hget])
      obtain ⟨disk₃, hcut⟩ := hwritable.exists_setLength last.offset.toNat disk₂
      rw [outcome_bind_ok (outcome_openSegment hget disk₂),
        outcome_bind_ok (outcome_onSecond_of hcut _), outcome_update] at hrun
      obtain ⟨rfl, rfl, rfl⟩ := by simpa using hrun
      exact .done hshort hread hgoes hget hcut

theorem cuts (h : Equipped table) {items : Nat} {answer : Except Error Unit}
    (hrun : (Table.truncate items).outcome (table, disk) = (answer, (table', disk'))) :
    Cuts table disk items answer table' disk' := by
  unfold Table.truncate at hrun
  cases hindex : table.index with
  | none =>
      rw [outcome_bind_error (outcome_openIndex_of_closed hindex disk)] at hrun
      obtain ⟨-, rfl, rfl⟩ := by simpa using hrun
      exact .kept answer
  | some index =>
      rw [outcome_bind_ok (outcome_openIndex hindex disk), outcome_bind_ok (outcome_current _ _)]
        at hrun
      split at hrun
      · obtain ⟨-, rfl, rfl⟩ := by simpa [outcome_pure] using hrun
        exact .kept answer
      next hlt =>
      split at hrun
      · rw [outcome_bind_error (outcome_throw _ _)] at hrun
        obtain ⟨-, rfl, rfl⟩ := by simpa using hrun
        exact .kept answer
      next hle =>
      obtain ⟨disk₁, hcut⟩ := (h.index index hindex).exists_setLength
        (position (items - table.itemOffset + 1)) disk
      rw [outcome_bind_ok (outcome_onSecond_of hcut _)] at hrun
      have hshort : Shortens table items index disk disk₁ :=
        ⟨Nat.le_of_not_lt hle, Nat.lt_of_not_le hlt, hindex, hcut⟩
      rcases hread : (readEntry index (items - table.itemOffset)).outcome disk₁ with ⟨last, disk₂⟩
      obtain rfl := (onlyReads_readEntry _ _).of_outcome hread
      cases last with
      | error e =>
          rw [outcome_bind_error (outcome_onSecond_of hread _)] at hrun
          obtain ⟨rfl, rfl, rfl⟩ := by simpa using hrun
          exact .unread hshort hread
      | ok last =>
          rw [outcome_bind_ok (outcome_onSecond_of hread _)] at hrun
          simp only at hrun
          split at hrun
          · next hne =>
            rw [switchHead_bind] at hrun
            rcases hswitch : (switchHead last.segment.toNat).outcome (table, disk₂) with
              ⟨switched, start, disk₃⟩
            have hswitches := switches_of_outcome hswitch
            cases switched with
            | error e =>
                rw [outcome_bind_error hswitch] at hrun
                obtain ⟨rfl, rfl, rfl⟩ := by simpa using hrun
                exact .unswitched hshort hread hne hswitches
            | ok u =>
                rw [outcome_bind_ok hswitch] at hrun
                exact h.cuts_of_goesOn hshort hread (.switched hne hswitches) hrun
          · next heq =>
            have hgoes : GoesOn table disk₂ last.segment.toNat table disk₂ := by
              rw [not_not.1 heq]
              exact .same
            exact h.cuts_of_goesOn hshort hread hgoes hrun

theorem truncate (h : Equipped table) {items : Nat} {answer : Except Error Unit}
    (hrun : (Table.truncate items).outcome (table, disk) = (answer, (table', disk'))) :
    Equipped table' := by
  cases h.cuts hrun with
  | kept | unread => exact h
  | unswitched hshort hread hne hswitches => exact h.switches hne hswitches
  | missing hshort hread hgoes hlost => exact (h.goesOn hgoes).1
  | done hshort hread hgoes hhead hcut =>
      obtain ⟨hstart, -⟩ := h.goesOn hgoes
      exact ⟨hstart.index, hstart.head, hstart.above⟩

end Equipped

/-! ### One request -/

/-- What a request may do to a table and its disk. -/
inductive Steps (root : Path) (name : String) (table : Table) (disk : Disk) :
    Request → Table → Disk → Prop where
  /-- Nothing is changed. -/
  | rests (request : Request) : Steps root name table disk request table disk
  | appends {item : Nat} {blob : Bytes} {answer : Except Error Unit} {table' : Table}
      {disk' : Disk} : (append item blob).outcome (table, disk) = (answer, (table', disk')) →
      Steps root name table disk (.append item blob) table' disk'
  | cuts {items : Nat} {answer : Except Error Unit} {table' : Table} {disk' : Disk} :
      (truncate items).outcome (table, disk) = (answer, (table', disk')) →
      Steps root name table disk (.truncate items) table' disk'
  | closes : Steps root name table disk .close { table with index := none, segments := [] } disk
  | reopens {cap : Nat} {table' : Table} {disk' : Disk} :
      (openIn root name cap).outcome disk = (.ok table', disk') →
      Steps root name table disk (.reopen cap) table' disk'
  /-- The table is as it was, but its files may have been repaired. -/
  | unopened {cap : Nat} {e : Error} {disk' : Disk} :
      (openIn root name cap).outcome disk = (.error e, disk') →
      Steps root name table disk (.reopen cap) table disk'

theorem steps_of_serve {request : Request} {answer : Except Error Answer}
    (hrun : (serve root name request).outcome (table, disk) = (answer, (table', disk'))) :
    Steps root name table disk request table' disk' := by
  cases request with
  | append item blob =>
      have hstate := snd_serve_append root name item blob (table, disk)
      rw [hrun] at hstate
      exact .appends (Prod.ext rfl hstate.symm)
  | truncate items =>
      have hstate := snd_serve_truncate root name items (table, disk)
      rw [hrun] at hstate
      exact .cuts (Prod.ext rfl hstate.symm)
  | close =>
      have hstate := snd_serve_close root name (table, disk)
      rw [hrun] at hstate
      by_cases hindex : table.index = none
      · unfold Table.close at hstate
        rw [outcome_bind_error (outcome_openIndex_of_closed hindex disk)] at hstate
        obtain ⟨rfl, rfl⟩ := by simpa using hstate
        exact .rests _
      · rw [outcome_close hindex disk] at hstate
        obtain ⟨rfl, rfl⟩ := by simpa using hstate
        exact .closes
  | reopen cap =>
      rcases hopen : (openIn root name cap).outcome disk with ⟨opened, disk₁⟩
      cases opened with
      | ok table₁ =>
          rw [outcome_serve_reopen hopen] at hrun
          obtain ⟨-, rfl, rfl⟩ := by simpa using hrun
          exact .reopens hopen
      | error e =>
          unfold Table.serve at hrun
          rw [outcome_bind_error (outcome_onSecond_of hopen _)] at hrun
          obtain ⟨-, rfl, rfl⟩ := by simpa using hrun
          exact .unopened hopen
  | retrieve | size | sync =>
      rw [(onlyReads_serve root name rfl).outcome_eq] at hrun
      obtain ⟨-, rfl, rfl⟩ := by simpa using hrun
      exact .rests _

/-- Whatever is asked of a table, it goes on with what it needs. -/
theorem Equipped.serve (h : Equipped table) {request : Request} {answer : Except Error Answer}
    (hrun : (Table.serve root name request).outcome (table, disk) = (answer, (table', disk'))) :
    Equipped table' := by
  cases steps_of_serve hrun with
  | rests | unopened => exact h
  | appends happend => exact h.append happend
  | cuts hcut => exact h.truncate hcut
  | closes => constructor <;> simp [Segments.get?]
  | reopens hopen => exact equipped_of_openIn hopen

theorem InUse.equipped (h : InUse root name table) : Equipped table := by
  induction h with
  | opened hopen => exact equipped_of_openIn hopen
  | served _ hserve ih => exact ih.serve hserve

end Table

end BlockArchive
