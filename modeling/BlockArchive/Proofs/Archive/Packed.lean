import BlockArchive.Proofs.Archive.Lasting
import BlockArchive.Proofs.Archive.Ledger
import BlockArchive.Proofs.Table.Packing

/-! # The files of an archive tell nothing of its history

An archive that was made in an empty directory, and always opened with the same cap, has the files
that an archive has to which just the surviving rows were appended.

* **What lasts.** Rows that are added or cut away leave the packed form of each table
  (`lasts_isPacked`).
* **One step.** `LiesPacked` says that the files are the packed form of the columns of some rows.
  After a request they are the packed form of the rows that survive it (`LiesPacked.serve`).
* **A whole run.** The files of two runs are the same for each column of which they leave the same
  items (`sameFiles_of_survivors`). -/

namespace BlockArchive

/-- Whether an archive that is opened by the request is opened with this cap. -/
def Request.HasCap (cap : Nat) : Request → Prop
  | reopen settings => settings.cap = cap
  | _ => True

/-- Whether the request only reads. -/
def Request.reads : Request → Bool
  | get .. | getNamed .. | count => true
  | append .. | truncate _ | close | reopen _ => false

namespace Archive

open IndexEntry Table

/-- The rows that survive a request that was answered so. -/
def surviving (rows : List Row) : Request → Except Error Answer → List Row
  | .append _ hash body receipts transactions interchain, .ok _ =>
      rows ++ [{ hashes := hash, bodies := body, transactions, receipts, interchain }]
  | .truncate blocks, .ok _ => rows.take blocks
  | _, _ => rows

/-- The rows that survive a list of requests. -/
def survivors (root : Path) : List Request → List Row → Archive × Disk → List Row
  | [], rows, _ => rows
  | request :: requests, rows, state =>
      survivors root requests (surviving rows request ((serve root request).outcome state).1)
        ((serve root request).outcome state).2

variable {archive : Archive} {disk : Disk} {root root' : Path} {place place' : Location}
  {cap : Nat} {rows : List Row} {settings settings' : Settings} {files files' : FileSystem}
  {state : Archive × Disk} {request : Request}

/-! ### The packed form of some rows -/

/-- Appends and cuts leave the packed form. -/
theorem lasts_isPacked (cap : Nat) :
    Lasts cap fun folder name _ items => IsPacked folder name cap items where
  congr h hsame := h.congr hsame
  appending h hwhole htable hroom := h.appending hwhole htable hroom
  cutting h hwhole _ hn := h.cutting hwhole hn

/-- The archive is open and holds just these rows, and the files of each table are the packed form
of its column. -/
def StoresPacked (archive : Archive) (disk : Disk) (root : Path) (place : Location) (cap : Nat)
    (rows : List Row) : Prop :=
  ∃ entries, archive.IsOpen disk root place cap entries (columnsOf rows) ∧
    archive.blocks = rows.length ∧ (∀ c : Column, Climbs (entries.get c)) ∧
      ∀ c : Column, IsPacked (disk.files.folder place) c.name cap ((columnsOf rows).get c)

/-- Nobody works on the files at `place`, and those of each table are the packed form of its column
of these rows. -/
structure KeepsPacked (disk : Disk) (root : Path) (place : Location) (cap : Nat)
    (rows : List Row) : Prop where
  houses : disk.files.Houses IsFile root place
  locked : disk.locked = []
  lockThere : disk.files.folder place DirectoryLock.fileName ≠ none
  rests : ∃ entries, Rests (disk.files.folder place) entries rows ∧
    ∀ c : Column, Climbs (entries.get c)
  packed : ∀ c : Column, IsPacked (disk.files.folder place) c.name cap ((columnsOf rows).get c)

namespace StoresPacked

theorem storesWith (h : archive.StoresPacked disk root place cap rows) :
    archive.StoresWith (fun folder name _ items => IsPacked folder name cap items) disk root place
      cap rows := h

theorem stores (h : archive.StoresPacked disk root place cap rows) :
    archive.Stores disk root place rows := h.storesWith.stores

theorem exists_append (h : archive.StoresPacked disk root place cap rows) (row : Row) :
    ∃ answer archive' disk',
      (append rows.length row).outcome (archive, disk) = (answer, (archive', disk')) ∧
      (answer = .ok () ∧ archive'.StoresPacked disk' root place cap (rows ++ [row]) ∨
        (∃ e, answer = .error e) ∧ archive'.StoresPacked disk' root place cap rows ∧
          ¬∀ c : Column, IsPackable cap ((columnsOf (rows ++ [row])).get c)) := by
  obtain ⟨answer, archive', disk', hrun, hadded | ⟨hanswer, hrefused, hfull⟩⟩ :=
    h.storesWith.exists_append (lasts_isPacked cap) row
  · exact ⟨answer, archive', disk', hrun, .inl hadded⟩
  · obtain ⟨entries, hopen, -, -, hpacked⟩ := h
    refine ⟨answer, archive', disk', hrun, .inr ⟨hanswer, hrefused, fun hpackable => hfull ?_⟩⟩
    intro c
    have hc := hpackable c
    rw [← concatIn_columnsOf, get_concatIn, if_pos (Column.mem_all c)] at hc
    exact ((hpacked c).hasRoom_iff (hopen.whole c) (hopen.table_eq c) (row.get c)).2 hc

theorem exists_truncate (h : archive.StoresPacked disk root place cap rows) (blocks : Nat) :
    ∃ archive' disk', (truncate blocks).outcome (archive, disk) = (.ok (), (archive', disk')) ∧
      archive'.StoresPacked disk' root place cap (rows.take blocks) :=
  h.storesWith.exists_truncate (lasts_isPacked cap) blocks

theorem exists_close (h : archive.StoresPacked disk root place cap rows) :
    ∃ archive' disk', close.outcome (archive, disk) = (.ok (), (archive', disk')) ∧
      archive'.closed = true ∧ KeepsPacked disk' root place cap rows := by
  obtain ⟨entries, hopen, -, hclimbs, hpacked⟩ := h
  exact ⟨archive.shut, _, hopen.outcome_close, rfl, hopen.houses, rfl, hopen.lockThere,
    ⟨entries, hopen.rests, hclimbs⟩, hpacked⟩

end StoresPacked

theorem KeepsPacked.keeps (h : KeepsPacked disk root place cap rows) :
    Keeps disk root place rows := by
  obtain ⟨entries, hrests, hclimbs⟩ := h.rests
  exact ⟨h.houses, h.locked, entries, hrests.restores, hclimbs⟩

theorem KeepsPacked.exists_openAt (h : KeepsPacked disk root place cap rows)
    (hcap : settings.cap = cap) :
    ∃ archive disk', (openAt root settings).outcome disk = (.ok archive, disk') ∧
      archive.StoresPacked disk' root place cap rows := by
  obtain ⟨entries, hrests, hclimbs⟩ := h.rests
  obtain ⟨archive, hrun, hopen, hblocks⟩ :=
    hrests.exists_openAt h.houses h.locked h.lockThere settings
  rw [hcap] at hopen
  exact ⟨archive, _, hrun, entries, hopen, hblocks, hclimbs, h.packed⟩

theorem EmptyRoot.exists_storesPacked (h : EmptyRoot files root place) (settings : Settings) :
    ∃ archive disk, (openAt root settings).outcome (Disk.ofFiles files) = (.ok archive, disk) ∧
      archive.StoresPacked disk root place settings.cap [] := by
  obtain ⟨hhouses, hlocked, entries, hrestores, hclimbs⟩ := h.keeps
  obtain ⟨archive, _, disk, hrun, -, -, habove, hopen, hblocks⟩ :=
    Archive.exists_openAt hhouses hlocked hrestores settings
  have hmissing : ∀ file, files.folder place file = none := fun file => by
    simp [FileSystem.folder, h.empty]
  refine ⟨archive, disk, hrun, entries, hopen, hblocks, hclimbs, fun c => ?_⟩
  have hentries : entries.get c = [.sentinel] := by
    rw [hrestores.entries_eq]
    exact congrArg (List.take 1) (recovers_of_index_missing (hmissing _)).kept
  have hwritten : written (files.folder place) c.name = [.sentinel] :=
    written_of_missing (hmissing _)
  have hwhole := hopen.whole c
  rw [hentries] at hwhole
  rw [get_columnsOf, List.map_nil]
  refine isPacked_nil hwhole (fun id hid => ?_) settings.cap
  have hsame := habove c id fun entry hentry => by
    have hfiles : (Disk.ofFiles files).files.folder place = files.folder place := rfl
    rw [hfiles, hwritten, List.mem_singleton] at hentry
    rwa [hentry]
  rw [hsame]
  exact hmissing _

/-! ### One step -/

/-- The archive is open or was closed, and the files of each table are the packed form of its column
of these rows. -/
inductive LiesPacked (root : Path) (place : Location) (cap : Nat) (rows : List Row) :
    Archive × Disk → Prop where
  | opened {archive : Archive} {disk : Disk} (h : archive.StoresPacked disk root place cap rows) :
      LiesPacked root place cap rows (archive, disk)
  | closed {archive : Archive} {disk : Disk} (hclosed : archive.closed = true)
      (h : KeepsPacked disk root place cap rows) : LiesPacked root place cap rows (archive, disk)

theorem LiesPacked.exists_represents (h : LiesPacked root place cap rows state) :
    ∃ isOpen, Represents root place ⟨rows, isOpen⟩ state := by
  cases h with
  | opened h => exact ⟨true, .opened h.stores⟩
  | closed hclosed h => exact ⟨false, .closed hclosed h.keeps⟩

theorem LiesPacked.packed (h : LiesPacked root place cap rows state) (c : Column) :
    IsPacked (state.2.files.folder place) c.name cap (rows.map fun row => row.get c) := by
  rw [← get_columnsOf]
  cases h with
  | opened h =>
      obtain ⟨_, -, -, -, hpacked⟩ := h
      exact hpacked c
  | closed hclosed h => exact h.packed c

theorem Represents.serve_of_reads {ledger : Ledger} (h : Represents root place ledger state)
    (hreads : request.reads = true) : ((serve root request).outcome state).2 = state := by
  obtain ⟨archive, disk⟩ := state
  cases request with
  | get c number =>
      obtain ⟨answer, hrun, -⟩ := h.serves_get c number
      rw [serve, outcome_bytes hrun]
  | getNamed name number =>
      cases hname : Column.ofName? name with
      | some c =>
          obtain ⟨answer, hrun, -⟩ := h.serves_get c number
          rw [serve, outcome_bytes ((outcome_getNamed hname number).trans hrun)]
      | none => rw [serve, outcome_bytes (outcome_getNamed_of_none hname number)]
  | count =>
      cases h with
      | opened hstores =>
          rw [serve, Attempt.outcome_bind_ok hstores.outcome_count]
          rfl
      | closed hclosed _ => rw [outcome_serve_of_closed hclosed rfl]
  | append | truncate | close | reopen => simp [Request.reads] at hreads

theorem surviving_of_error (rows : List Row) (request : Request) (e : Error) :
    surviving rows request (.error e) = rows := by
  cases request <;> rfl

theorem surviving_of_reads (hreads : request.reads = true) (rows : List Row)
    (answer : Except Error Answer) : surviving rows request answer = rows := by
  cases request with
  | get | getNamed | count => rfl
  | append | truncate | close | reopen => simp [Request.reads] at hreads

/-- After a request to an open archive the files are the packed form of the rows that survive it. -/
theorem StoresPacked.serve (h : archive.StoresPacked disk root place cap rows)
    (hreads : request.reads = false) :
    LiesPacked root place cap
      (surviving rows request ((serve root request).outcome (archive, disk)).1)
      ((serve root request).outcome (archive, disk)).2 := by
  cases request with
  | append number hash body receipts transactions interchain =>
      by_cases hnumber : number = rows.length
      · subst hnumber
        obtain ⟨answer, archive', disk', hrun, ⟨rfl, hadded⟩ | ⟨⟨e, rfl⟩, hrefused, -⟩⟩ :=
          h.exists_append { hashes := hash, bodies := body, transactions, receipts, interchain }
        · rw [outcome_serve_append hrun]
          exact .opened hadded
        · rw [outcome_serve_append hrun]
          exact .opened hrefused
      · rw [outcome_serve_append (h.stores.outcome_append_of_ne hnumber _)]
        exact .opened h
  | truncate blocks =>
      obtain ⟨archive', disk', hrun, hcut⟩ := h.exists_truncate blocks
      rw [Archive.serve, outcome_done hrun]
      exact .opened hcut
  | close =>
      obtain ⟨archive', disk', hrun, hclosed, hkeeps⟩ := h.exists_close
      rw [Archive.serve, outcome_done hrun]
      exact .closed hclosed hkeeps
  | reopen settings =>
      rw [h.stores.outcome_reopen settings]
      exact .opened h
  | get | getNamed | count => simp [Request.reads] at hreads

theorem KeepsPacked.serve (h : KeepsPacked disk root place cap rows)
    (hclosed : archive.closed = true) (hcap : request.HasCap cap)
    (hreads : request.reads = false) :
    LiesPacked root place cap
      (surviving rows request ((Archive.serve root request).outcome (archive, disk)).1)
      ((Archive.serve root request).outcome (archive, disk)).2 := by
  by_cases hneeds : request.needsOpen = true
  · rw [outcome_serve_of_closed hclosed hneeds, surviving_of_error]
    exact .closed hclosed h
  cases request with
  | close =>
      rw [Archive.serve, outcome_done (outcome_close_of_closed hclosed disk)]
      exact .closed hclosed h
  | reopen settings =>
      obtain ⟨archive', disk', hrun, hstores⟩ := h.exists_openAt hcap
      rw [outcome_reopen archive hrun]
      exact .opened hstores
  | append | truncate => exact absurd rfl hneeds
  | get | getNamed | count => simp [Request.reads] at hreads

/-- After a request the files are the packed form of the rows that survive it. -/
theorem LiesPacked.serve (h : LiesPacked root place cap rows state) (hcap : request.HasCap cap) :
    LiesPacked root place cap (surviving rows request ((serve root request).outcome state).1)
      ((serve root request).outcome state).2 := by
  by_cases hreads : request.reads = true
  · obtain ⟨_, hrepresents⟩ := h.exists_represents
    rw [hrepresents.serve_of_reads hreads, surviving_of_reads hreads]
    exact h
  rw [Bool.not_eq_true] at hreads
  cases h with
  | opened hstores => exact hstores.serve hreads
  | closed hclosed hkeeps => exact hkeeps.serve hclosed hcap hreads

/-! ### A whole run -/

theorem hasCap_of_mem_appends {number : Nat} (h : request ∈ appends number rows) :
    request.HasCap cap := by
  induction rows generalizing number with
  | nil => simp [appends] at h
  | cons row rows ih =>
      rcases List.mem_cons.1 h with rfl | h
      · trivial
      · exact ih h

/-- After all requests the files are the packed form of the rows that survive them. -/
theorem LiesPacked.left {requests : List Request} (h : LiesPacked root place cap rows state)
    (hcap : ∀ request ∈ requests, request.HasCap cap) :
    LiesPacked root place cap (survivors root requests rows state)
      (left root requests state) := by
  induction requests generalizing rows state with
  | nil => exact h
  | cons request requests ih =>
      exact ih (h.serve (hcap request List.mem_cons_self)) fun later hlater =>
        hcap later (List.mem_cons_of_mem _ hlater)

theorem StoresPacked.appends {more : List Row} (h : archive.StoresPacked disk root place cap rows)
    (hmore : ∀ c : Column, IsPackable cap ((columnsOf (rows ++ more)).get c)) :
    (∀ answer ∈ answers root (appends rows.length more) (archive, disk), answer = .ok .done) ∧
      survivors root (Archive.appends rows.length more) rows (archive, disk) = rows ++ more := by
  induction more generalizing archive disk rows with
  | nil => exact ⟨by simp [Archive.appends, answers], (List.append_nil _).symm⟩
  | cons row more ih =>
      have hall : rows ++ [row] ++ more = rows ++ row :: more := by simp
      obtain ⟨answer, archive', disk', hrun, ⟨rfl, hadded⟩ | ⟨-, -, hfull⟩⟩ := h.exists_append row
      · have hserve : (Archive.serve root (.append rows.length row.hashes row.bodies row.receipts
            row.transactions row.interchain)).outcome (archive, disk) =
              (.ok .done, (archive', disk')) := outcome_serve_append hrun
        obtain ⟨hanswers, hsurvivors⟩ := ih hadded (by rwa [hall])
        rw [List.length_append, List.length_singleton] at hanswers hsurvivors
        rw [Archive.appends, answers, survivors, hserve]
        refine ⟨fun answer hanswer => ?_, hsurvivors.trans hall⟩
        rcases List.mem_cons.1 hanswer with rfl | hanswer
        · rfl
        · exact hanswers answer hanswer
      · refine absurd (fun c => ?_) hfull
        have htake := (hmore c).take (rows ++ [row]).length
        rwa [get_columnsOf, ← List.map_take, ← hall, List.take_left, ← get_columnsOf] at htake

/-- The files depend only on the rows that survive: another archive that is made with the same cap,
and to which just these rows are appended, takes them all and then has the same table files.  And
the files of one table depend only on its column: they are the same after any two runs that leave
the same items there. -/
theorem sameFiles_of_survivors (h : EmptyRoot files root place)
    (h' : EmptyRoot files' root' place') (hcap : settings'.cap = settings.cap) :
    ∃ start start' : Archive × Disk,
      (openAt root settings).outcome (Disk.ofFiles files) = (.ok start.1, start.2) ∧
      (openAt root' settings').outcome (Disk.ofFiles files') = (.ok start'.1, start'.2) ∧
      ∀ requests, (∀ request ∈ requests, request.HasCap settings.cap) →
        ((∀ answer ∈ answers root' (appends 0 (survivors root requests [] start)) start',
            answer = .ok .done) ∧
          ∀ c : Column, SameFiles ((left root requests start).2.files.folder place)
            ((left root' (appends 0 (survivors root requests [] start)) start').2.files.folder
              place') c.name) ∧
        ∀ requests', (∀ request ∈ requests', request.HasCap settings.cap) → ∀ c : Column,
          ((survivors root requests [] start).map fun row => row.get c) =
              ((survivors root' requests' [] start').map fun row => row.get c) →
            SameFiles ((left root requests start).2.files.folder place)
              ((left root' requests' start').2.files.folder place') c.name := by
  obtain ⟨archive, disk, hrun, hstores⟩ := h.exists_storesPacked settings
  obtain ⟨archive', disk', hrun', hstores'⟩ := h'.exists_storesPacked settings'
  rw [hcap] at hstores'
  have hcolumn : ∀ requests, (∀ request ∈ requests, request.HasCap settings.cap) →
      ∀ requests', (∀ request ∈ requests', request.HasCap settings.cap) → ∀ c : Column,
        ((survivors root requests [] (archive, disk)).map fun row => row.get c) =
            ((survivors root' requests' [] (archive', disk')).map fun row => row.get c) →
          SameFiles ((left root requests (archive, disk)).2.files.folder place)
            ((left root' requests' (archive', disk')).2.files.folder place') c.name := by
    intro requests hrequests requests' hrequests' c hitems
    have hpacked := (LiesPacked.opened hstores).left hrequests |>.packed c
    have hpacked' := (LiesPacked.opened hstores').left hrequests' |>.packed c
    rw [← hitems] at hpacked'
    exact hpacked.sameFiles hpacked'
  refine ⟨(archive, disk), (archive', disk'), hrun, hrun', fun requests hrequests =>
    ⟨?_, hcolumn requests hrequests⟩⟩
  have hlies := (LiesPacked.opened hstores).left hrequests
  obtain ⟨hanswers, hsurvivors⟩ := hstores'.appends fun c => show IsPackable settings.cap
      ((columnsOf (survivors root requests [] (archive, disk))).get c) by
    rw [get_columnsOf]
    exact (hlies.packed c).packable
  refine ⟨hanswers, fun c => hcolumn requests hrequests _ (fun request hrequest => ?_) c ?_⟩
  · exact hasCap_of_mem_appends hrequest
  · exact (congrArg (List.map fun row => row.get c) hsurvivors).symm

/-- Two rows are appended, the second is cut away, and the archive is closed and opened again before
another one is appended in its place. -/
def secondThoughts : List Request :=
  [.append 0 [1] [2, 3] [] [4] [], .append 1 [5] [6] [7] [8] [9, 10, 11], .truncate 1, .close,
    .reopen { cap := 2 }, .append 1 [5, 6] [] [] [] []]

theorem sameFiles_of_survivors_oneDirectory :
    ∃ start start' : Archive × Disk,
      (openAt ⟨["", "a"]⟩ { cap := 2 }).outcome (Disk.ofFiles oneDirectory) =
        (.ok start.1, start.2) ∧
      (openAt ⟨["", "a"]⟩ { cap := 2 }).outcome (Disk.ofFiles oneDirectory) =
        (.ok start'.1, start'.2) ∧
      ∀ c : Column, SameFiles ((left ⟨["", "a"]⟩ secondThoughts start).2.files.folder ["a"])
        ((left ⟨["", "a"]⟩ (appends 0 (survivors ⟨["", "a"]⟩ secondThoughts [] start))
          start').2.files.folder ["a"]) c.name := by
  obtain ⟨start, start', hrun, hrun', hall⟩ := @sameFiles_of_survivors _ _ _ _ { cap := 2 }
    { cap := 2 } _ _ emptyRoot_oneDirectory emptyRoot_oneDirectory rfl
  exact ⟨start, start', hrun, hrun', (hall secondThoughts
    (by simp [secondThoughts, Request.HasCap])).1.2⟩

end Archive

end BlockArchive
