import BlockArchive.Proofs.Archive.Serving

/-! # An archive as a ledger

To those who use it, an archive is a list of rows that is open or closed.

* **Requests.** `serve` carries out one request, and `answers` a list of them.
* **`Ledger.Serves`** lists what a ledger may answer to a request, and which ledger it is then.
* **One step.** An archive that represents a ledger answers as this one may, and represents the
  ledger that comes of it (`Represents.exists_serve`).
* **A whole run.** An archive that was opened in an empty directory follows the ledger that has no
  rows at first (`follows_of_emptyRoot`).
* **`IsSound`** is what there is to see of an archive that stores its rows: they can be read, an
  audit finds nothing, and from then on it follows the ledger of these rows. -/

namespace BlockArchive

/-- What is asked of an archive. -/
inductive Request where
  | append (number : Nat) (hash body receipts transactions interchain : Bytes)
  | get (c : Column) (number : Nat)
  | getNamed (name : String) (number : Nat)
  | truncate (blocks : Nat)
  | count
  | close
  | reopen (settings : Settings)

/-- Whether a closed archive refuses the request. -/
def Request.needsOpen : Request → Bool
  | append .. | get .. | truncate _ | count => true
  | getNamed .. | close | reopen _ => false

/-- What is answered, if nothing went wrong. -/
inductive Answer where
  | done
  | number (n : Nat)
  | bytes (data : Bytes)

/-- The rows of an archive, and whether it is open. -/
structure Ledger where
  rows : List Row
  isOpen : Bool

namespace Ledger

/-- What a ledger may answer to a request, and which ledger it is then. -/
inductive Serves (root : Path) : Ledger → Request → Except Error Answer → Ledger → Prop where
  | count (rows : List Row) :
      Serves root ⟨rows, true⟩ .count (.ok (.number rows.length)) ⟨rows, true⟩
  | get {rows : List Row} (c : Column) {number : Nat} {row : Row} (hpos : 0 < number)
      (hrow : rows[number - 1]? = some row) :
      Serves root ⟨rows, true⟩ (.get c number) (.ok (.bytes (row.get c))) ⟨rows, true⟩
  /-- There is no block zero, and none above the last. -/
  | outside {rows : List Row} (c : Column) {number : Nat}
      (h : number = 0 ∧ rows.length ≤ Archive.maxNumber ∨ rows.length < number) :
      Serves root ⟨rows, true⟩ (.get c number)
        (.error (.outOfBounds (Archive.itemOf number) 0 rows.length)) ⟨rows, true⟩
  /-- If there were more rows than a count of 64 bits tells, the last of these would pass for block
  zero. -/
  | uncounted {rows : List Row} (c : Column) {row : Row}
      (hrow : rows[Archive.maxNumber]? = some row) :
      Serves root ⟨rows, true⟩ (.get c 0) (.ok (.bytes (row.get c))) ⟨rows, true⟩
  | getNamed {ledger : Ledger} {name : String} {c : Column} {number : Nat}
      {answer : Except Error Answer} (hname : Column.ofName? name = some c)
      (h : Serves root ledger (.get c number) answer ledger) :
      Serves root ledger (.getNamed name number) answer ledger
  | unknown (ledger : Ledger) {name : String} (number : Nat)
      (hname : Column.ofName? name = none) :
      Serves root ledger (.getNamed name number) (.error (.unknownTable name)) ledger
  | append (rows : List Row) (hash body receipts transactions interchain : Bytes) :
      Serves root ⟨rows, true⟩
        (.append rows.length hash body receipts transactions interchain) (.ok .done)
        ⟨rows ++ [{ hashes := hash, bodies := body, transactions, receipts, interchain }], true⟩
  /-- A table that has no place for its item refuses the row. -/
  | refused (rows : List Row) {hash body receipts transactions interchain : Bytes} {e : Error}
      (h : Archive.Refuses rows.length
        { hashes := hash, bodies := body, transactions, receipts, interchain } e) :
      Serves root ⟨rows, true⟩
        (.append rows.length hash body receipts transactions interchain) (.error e) ⟨rows, true⟩
  | outOfSequence {rows : List Row} {number : Nat}
      (hash body receipts transactions interchain : Bytes) (h : number ≠ rows.length) :
      Serves root ⟨rows, true⟩ (.append number hash body receipts transactions interchain)
        (.error (.sequence rows.length number)) ⟨rows, true⟩
  | truncate (rows : List Row) (blocks : Nat) :
      Serves root ⟨rows, true⟩ (.truncate blocks) (.ok .done) ⟨rows.take blocks, true⟩
  | close (rows : List Row) (isOpen : Bool) :
      Serves root ⟨rows, isOpen⟩ .close (.ok .done) ⟨rows, false⟩
  | closed (rows : List Row) {request : Request} (h : request.needsOpen = true) :
      Serves root ⟨rows, false⟩ request (.error .closed) ⟨rows, false⟩
  | reopen (rows : List Row) (settings : Settings) :
      Serves root ⟨rows, false⟩ (.reopen settings) (.ok .done) ⟨rows, true⟩
  /-- An open archive holds the lock of its directory. -/
  | locked (rows : List Row) (settings : Settings) :
      Serves root ⟨rows, true⟩ (.reopen settings)
        (.error (.locked (root.join DirectoryLock.fileName))) ⟨rows, true⟩

/-- Each of the answers is one that the ledger may give at its turn. -/
inductive Follows (root : Path) : Ledger → List Request → List (Except Error Answer) → Prop where
  | nil (ledger : Ledger) : Follows root ledger [] []
  | cons {ledger ledger' : Ledger} {request : Request} {requests : List Request}
      {answer : Except Error Answer} {answers : List (Except Error Answer)}
      (hserves : Serves root ledger request answer ledger')
      (hrest : Follows root ledger' requests answers) :
      Follows root ledger (request :: requests) (answer :: answers)

end Ledger

namespace Archive

open IndexEntry Table

/-- Carries out a request on the archive at `root`. -/
def serve (root : Path) : Request → Action (Archive × Disk) Answer
  | .append number hash body receipts transactions interchain => do
      appendBlock number hash body receipts transactions interchain
      return .done
  | .get c number => return .bytes (← get c number)
  | .getNamed name number => return .bytes (← getNamed name number)
  | .truncate blocks => do
      truncate blocks
      return .done
  | .count => return .number (← count)
  | .close => do
      close
      return .done
  | .reopen settings => do
      let archive ← Attempt.onSecond (openAt root settings)
      Attempt.update fun _ => archive
      return .done

/-- The answers to a list of requests, each served on what the one before it left. -/
def answers (root : Path) : List Request → Archive × Disk → List (Except Error Answer)
  | [], _ => []
  | request :: requests, state =>
      ((serve root request).outcome state).1 ::
        answers root requests ((serve root request).outcome state).2

/-- What a list of requests leaves. -/
def left (root : Path) : List Request → Archive × Disk → Archive × Disk
  | [], state => state
  | request :: requests, state => left root requests ((serve root request).outcome state).2

/-- The requests with which rows are appended, the first of them as row `number`. -/
def appends : Nat → List Row → List Request
  | _, [] => []
  | number, row :: rows =>
      .append number row.hashes row.bodies row.receipts row.transactions row.interchain ::
        appends (number + 1) rows

/-- The archive and the files stand for this ledger. -/
inductive Represents (root : Path) (place : Location) : Ledger → Archive × Disk → Prop where
  | opened {archive : Archive} {disk : Disk} {rows : List Row}
      (h : archive.Stores disk root place rows) :
      Represents root place ⟨rows, true⟩ (archive, disk)
  | closed {archive : Archive} {disk : Disk} {rows : List Row} (hclosed : archive.closed = true)
      (h : Keeps disk root place rows) :
      Represents root place ⟨rows, false⟩ (archive, disk)

variable {archive : Archive} {disk : Disk} {root : Path} {place : Location} {rows : List Row}
  {ledger : Ledger} {state : Archive × Disk} {files : FileSystem}

/-! ### One step -/

theorem Stores.serves_get (h : archive.Stores disk root place rows) (c : Column) (number : Nat) :
    ∃ answer, (get c number).outcome (archive, disk) = (answer, (archive, disk)) ∧
      Ledger.Serves root ⟨rows, true⟩ (.get c number) (answer.map .bytes) ⟨rows, true⟩ := by
  obtain ⟨cap, entries, hopen, -⟩ := h
  have hget := hopen.outcome_get c number
  rw [get_columnsOf, itemAnswer, List.getElem?_map, List.length_map] at hget
  refine ⟨_, hget, ?_⟩
  cases hrow : rows[itemOf number]? with
  | some row =>
      unfold itemOf at hrow
      split at hrow
      · next hzero =>
          subst hzero
          exact .uncounted c hrow
      · next hpos => exact .get c (Nat.pos_of_ne_zero hpos) hrow
  | none =>
      refine .outside c ?_
      rw [List.getElem?_eq_none_iff] at hrow
      unfold itemOf at hrow
      split at hrow
      · next hzero => exact .inl ⟨hzero, hrow⟩
      · right
        omega

theorem outcome_serve_of_closed (hclosed : archive.closed = true) {request : Request}
    (h : request.needsOpen = true) (root : Path) (disk : Disk) :
    (serve root request).outcome (archive, disk) = (.error .closed, (archive, disk)) := by
  have hrefuse := outcome_ensureOpen_of_closed hclosed disk
  cases request with
  | append number hash body receipts transactions interchain =>
      unfold serve appendBlock
      rw [Attempt.outcome_bind_error (Attempt.outcome_bind_error hrefuse _)]
  | get c number =>
      unfold serve get
      rw [Attempt.outcome_bind_error (Attempt.outcome_bind_error hrefuse _)]
  | truncate blocks =>
      unfold serve truncate
      rw [Attempt.outcome_bind_error (Attempt.outcome_bind_error hrefuse _)]
  | count =>
      unfold serve count
      rw [Attempt.outcome_bind_error (Attempt.outcome_bind_error hrefuse _)]
  | getNamed | close | reopen => simp [Request.needsOpen] at h

theorem Represents.serves_get (h : Represents root place ledger (archive, disk)) (c : Column)
    (number : Nat) :
    ∃ answer, (get c number).outcome (archive, disk) = (answer, (archive, disk)) ∧
      Ledger.Serves root ledger (.get c number) (answer.map .bytes) ledger := by
  cases h with
  | opened hstores => exact hstores.serves_get c number
  | closed hclosed hkeeps =>
      refine ⟨.error .closed, ?_, .closed _ rfl⟩
      unfold get
      rw [Attempt.outcome_bind_error (outcome_ensureOpen_of_closed hclosed disk)]

theorem outcome_bytes {action : Action (Archive × Disk) Bytes} {answer : Except Error Bytes}
    {state : Archive × Disk} (h : action.outcome state = (answer, state)) :
    (do return Answer.bytes (← action) : Action (Archive × Disk) Answer).outcome state =
      (answer.map .bytes, state) := by
  rw [Attempt.outcome_bind, h]
  cases answer <;> rfl

theorem outcome_getNamed {name : String} {c : Column} (hname : Column.ofName? name = some c)
    (number : Nat) : (getNamed name number).outcome state = (get c number).outcome state := by
  rw [getNamed, Column.ofName, hname, Attempt.outcome_bind_ok (Attempt.outcome_ofExcept _ _)]

theorem outcome_getNamed_of_none {name : String} (hname : Column.ofName? name = none)
    (number : Nat) :
    (getNamed name number).outcome state = (.error (.unknownTable name), state) := by
  rw [getNamed, Column.ofName, hname, Attempt.outcome_bind_error (Attempt.outcome_ofExcept _ _)]

theorem Represents.exists_serve_getNamed (h : Represents root place ledger (archive, disk))
    (name : String) (number : Nat) :
    ∃ answer ledger' state',
      (serve root (.getNamed name number)).outcome (archive, disk) = (answer, state') ∧
      Ledger.Serves root ledger (.getNamed name number) answer ledger' ∧
      Represents root place ledger' state' := by
  cases hname : Column.ofName? name with
  | some c =>
      obtain ⟨answer, hrun, hserves⟩ := h.serves_get c number
      rw [← outcome_getNamed hname] at hrun
      exact ⟨_, ledger, _, outcome_bytes hrun, .getNamed hname hserves, h⟩
  | none =>
      exact ⟨_, ledger, _, outcome_bytes (outcome_getNamed_of_none hname number),
        .unknown ledger number hname, h⟩

theorem outcome_done {action : Action (Archive × Disk) Unit} {answer : Except Error Unit}
    {state' : Archive × Disk} (h : action.outcome state = (answer, state')) :
    (do
      action
      return Answer.done : Action (Archive × Disk) Answer).outcome state =
        (answer.map fun _ => .done, state') := by
  rw [Attempt.outcome_bind, h]
  cases answer <;> rfl

theorem outcome_serve_append {number : Nat} {hash body receipts transactions interchain : Bytes}
    {answer : Except Error Unit} {state' : Archive × Disk}
    (h : (append number
        { hashes := hash, bodies := body, transactions, receipts, interchain }).outcome state =
      (answer, state')) :
    (serve root (.append number hash body receipts transactions interchain)).outcome state =
      (answer.map fun _ => .done, state') := by
  unfold append at h
  exact outcome_done h

theorem outcome_reopen {settings : Settings} {opened : Archive} {disk' : Disk} (archive : Archive)
    (h : (openAt root settings).outcome disk = (.ok opened, disk')) :
    (serve root (.reopen settings)).outcome (archive, disk) = (.ok .done, (opened, disk')) := by
  unfold serve
  rw [Attempt.outcome_bind_ok (Attempt.outcome_onSecond_of h _),
    Attempt.outcome_bind_ok (Attempt.outcome_update _ _ _)]
  rfl

theorem Stores.outcome_reopen (h : archive.Stores disk root place rows) (settings : Settings) :
    (serve root (.reopen settings)).outcome (archive, disk) =
      (.error (.locked (root.join DirectoryLock.fileName)), (archive, disk)) := by
  unfold serve
  rw [Attempt.outcome_bind_error (Attempt.outcome_onSecond_of (h.outcome_openAt settings) _)]

/-- An open archive answers as the ledger may that has its rows, and then represents the ledger that
comes of it. -/
theorem Stores.exists_serve (h : archive.Stores disk root place rows) (request : Request) :
    ∃ answer ledger' state', (serve root request).outcome (archive, disk) = (answer, state') ∧
      Ledger.Serves root ⟨rows, true⟩ request answer ledger' ∧
      Represents root place ledger' state' := by
  cases request with
  | get c number =>
      obtain ⟨answer, hrun, hserves⟩ := h.serves_get c number
      exact ⟨_, _, _, outcome_bytes hrun, hserves, .opened h⟩
  | getNamed name number => exact (Represents.opened h).exists_serve_getNamed name number
  | count =>
      refine ⟨_, _, _, ?_, .count rows, .opened h⟩
      unfold serve
      rw [Attempt.outcome_bind_ok h.outcome_count]
      rfl
  | append number hash body receipts transactions interchain =>
      by_cases hnumber : number = rows.length
      · subst hnumber
        obtain ⟨answer, archive', disk', hrun, ⟨rfl, hadded⟩ | ⟨e, rfl, hrefuses, hsame⟩⟩ :=
          h.exists_append { hashes := hash, bodies := body, transactions, receipts, interchain }
        · exact ⟨_, _, _, outcome_serve_append hrun, .append _ _ _ _ _ _, .opened hadded⟩
        · exact ⟨_, _, _, outcome_serve_append hrun, .refused _ hrefuses, .opened hsame⟩
      · exact ⟨_, _, _, outcome_serve_append (h.outcome_append_of_ne hnumber _),
          .outOfSequence _ _ _ _ _ hnumber, .opened h⟩
  | truncate blocks =>
      obtain ⟨archive', disk', hrun, hcut⟩ := h.exists_truncate blocks
      exact ⟨_, _, _, outcome_done hrun, .truncate _ _, .opened hcut⟩
  | close =>
      obtain ⟨archive', disk', hrun, hclosed, hkeeps⟩ := h.exists_close
      exact ⟨_, _, _, outcome_done hrun, .close _ _, .closed hclosed hkeeps⟩
  | reopen settings => exact ⟨_, _, _, h.outcome_reopen settings, .locked _ settings, .opened h⟩

theorem Keeps.exists_serve (h : Keeps disk root place rows) (hclosed : archive.closed = true)
    (request : Request) :
    ∃ answer ledger' state', (serve root request).outcome (archive, disk) = (answer, state') ∧
      Ledger.Serves root ⟨rows, false⟩ request answer ledger' ∧
      Represents root place ledger' state' := by
  by_cases hneeds : request.needsOpen = true
  · exact ⟨_, _, _, outcome_serve_of_closed hclosed hneeds root disk, .closed _ hneeds,
      .closed hclosed h⟩
  cases request with
  | getNamed name number =>
      exact (Represents.closed hclosed h).exists_serve_getNamed name number
  | close =>
      exact ⟨_, _, _, outcome_done (outcome_close_of_closed hclosed disk), .close _ _,
        .closed hclosed h⟩
  | reopen settings =>
      obtain ⟨archive', disk', hrun, hstores⟩ := h.exists_openAt settings
      exact ⟨_, _, _, outcome_reopen archive hrun, .reopen _ settings, .opened hstores⟩
  | append | get | truncate | count => exact absurd rfl hneeds

/-- An archive answers to a request as the ledger may that it represents, and then represents the
ledger that comes of it. -/
theorem Represents.exists_serve (h : Represents root place ledger state) (request : Request) :
    ∃ answer ledger' state', (serve root request).outcome state = (answer, state') ∧
      Ledger.Serves root ledger request answer ledger' ∧ Represents root place ledger' state' := by
  cases h with
  | opened hstores => exact hstores.exists_serve request
  | closed hclosed hkeeps => exact hkeeps.exists_serve hclosed request

/-! ### A whole run -/

/-- An archive answers to all requests as the ledger may that it represents. -/
theorem Represents.follows (h : Represents root place ledger state) (requests : List Request) :
    Ledger.Follows root ledger requests (answers root requests state) := by
  induction requests generalizing ledger state with
  | nil => exact .nil ledger
  | cons request requests ih =>
      obtain ⟨answer, ledger', state', hrun, hserves, h'⟩ := h.exists_serve request
      rw [answers, hrun]
      exact .cons hserves (ih h')

/-! ### What is seen of an archive that stores rows -/

/-- The rows can be read, an audit of the files finds nothing, and the archive goes on from these
rows. -/
structure IsSound (archive : Archive) (disk : Disk) (root : Path) (rows : List Row) : Prop
    extends Reads archive disk rows where
  audit : ∃ report, Audit.archive disk.files root = .ok report ∧ report.findingCount = 0
  append : ∀ row : Row, ∃ answer archive' disk',
    (append rows.length row).outcome (archive, disk) = (answer, (archive', disk')) ∧
      (answer = .ok () ∧ archive'.Reads disk' (rows ++ [row]) ∨
        ∃ e, answer = .error e ∧ Refuses rows.length row e ∧ archive'.Reads disk' rows)
  /-- Whatever is asked from then on, also of rows that are appended later, is answered as it would
  be from these rows. -/
  follows : ∀ requests : List Request,
    Ledger.Follows root ⟨rows, true⟩ requests (answers root requests (archive, disk))

theorem Stores.isSound (h : archive.Stores disk root place rows) :
    archive.IsSound disk root rows := by
  refine ⟨h.reads, ?_, fun row => ?_, (Represents.opened h).follows⟩
  · obtain ⟨cap, entries, hopen, -⟩ := h
    exact hopen.rests.exists_audit hopen.houses
  · obtain ⟨answer, archive', disk', hrun, hanswer⟩ := h.exists_append row
    refine ⟨answer, archive', disk', hrun, ?_⟩
    rcases hanswer with ⟨hok, hstores⟩ | ⟨e, herror, hrefuses, hstores⟩
    · exact .inl ⟨hok, hstores.reads⟩
    · exact .inr ⟨e, herror, hrefuses, hstores.reads⟩

theorem Stores.stores_left_appends {more : List Row} (h : archive.Stores disk root place rows)
    (hrows : rows.length + more.length ≤ lastSegmentId)
    (hshort : ∀ row ∈ more, ∀ c : Column, (row.get c).length < offsetLimit) :
    (left root (appends rows.length more) (archive, disk)).1.Stores
      (left root (appends rows.length more) (archive, disk)).2 root place (rows ++ more) := by
  induction more generalizing archive disk rows with
  | nil => rwa [List.append_nil]
  | cons row more ih =>
      rw [List.length_cons] at hrows
      obtain ⟨archive', disk', hrun, hadded⟩ :=
        h.exists_append_of_short (by omega) (hshort row List.mem_cons_self)
      have hrest := ih hadded (by rw [List.length_append, List.length_singleton]; omega)
        fun later hlater => hshort later (List.mem_cons_of_mem _ hlater)
      rw [List.length_append, List.length_singleton, List.append_assoc] at hrest
      rw [appends, left, outcome_serve_append hrun]
      exact hrest

/-! ### From an empty directory on -/

/-- `root` leads to an empty directory, and paths into it are not too long. -/
structure EmptyRoot (files : FileSystem) (root : Path) (place : Location) : Prop where
  named : files.resolve .name root = .ok place
  directory : files.node? place = some .directory
  /-- Relative paths start in a directory. -/
  home : files.node? files.home = some .directory
  empty : ∀ name, files.node? (place ++ [name]) = none
  fits : root.text.utf8ByteSize + maxFileNameBytes < FileSystem.maxPathBytes

theorem EmptyRoot.houses (h : EmptyRoot files root place) :
    files.Houses IsFile root place where
  named := h.named
  directory := h.directory
  home := h.home
  entry _ hname := isEntryName_of_isFile hname
  fits name hname := by
    have := utf8ByteSize_le_of_isFile hname
    have := h.fits
    omega
  takes name _ := .inl (h.empty name)
  numbered name id hnode := by
    rw [h.empty] at hnode
    simp at hnode
  apart a b id hnode _ := by
    rw [h.empty] at hnode
    simp at hnode

/-- A file system with nothing but an empty directory in it. -/
def oneDirectory : FileSystem := ⟨[(["a"], .directory)], #[], []⟩

theorem emptyRoot_oneDirectory : EmptyRoot oneDirectory ⟨["", "a"]⟩ ["a"] where
  named := by decide +kernel
  directory := by decide
  home := by decide
  empty name := by simp [oneDirectory, FileSystem.node?, List.lookup_cons]
  fits := by decide

/-- In an empty directory there are no rows. -/
theorem EmptyRoot.keeps (h : EmptyRoot files root place) :
    Keeps (Disk.ofFiles files) root place [] := by
  have hrecovers : ∀ c : Column, Recovers (files.folder place) c.name [.sentinel] := fun c =>
    recovers_of_index_missing (by simp [FileSystem.folder, h.empty])
  have hkept : ∀ c : Column, kept (files.folder place) c.name = [.sentinel] := fun c =>
    (hrecovers c).kept
  obtain ⟨entries, rows, hrestores⟩ := exists_restores fun c => by
    rw [hkept]
    exact hrecovers c
  obtain ⟨c, hlength⟩ := hrestores.shortest
  rw [hkept, List.length_singleton, Nat.right_eq_add, List.length_eq_zero_iff] at hlength
  have hclimbs : ∀ c : Column, Climbs (kept (files.folder place) c.name) := fun c => by
    rw [hkept]
    exact climbs_sentinel
  exact ⟨h.houses, rfl, entries, hlength ▸ hrestores, hrestores.climbs hclimbs⟩

/-- An archive that was opened in an empty directory follows the ledger without rows. -/
theorem follows_of_emptyRoot (h : EmptyRoot files root place) (settings : Settings)
    (requests : List Request) :
    ∃ archive disk, (openAt root settings).outcome (Disk.ofFiles files) = (.ok archive, disk) ∧
      Ledger.Follows root ⟨[], true⟩ requests (answers root requests (archive, disk)) := by
  obtain ⟨archive, disk, hrun, hstores⟩ := h.keeps.exists_openAt settings
  exact ⟨archive, disk, hrun, (Represents.opened hstores).follows requests⟩

/-- A row that was appended is cut away again. -/
theorem follows_of_oneDirectory :
    ∃ archive disk, (openAt ⟨["", "a"]⟩ {}).outcome (Disk.ofFiles oneDirectory) =
        (.ok archive, disk) ∧
      Ledger.Follows ⟨["", "a"]⟩ ⟨[], true⟩
        [.append 0 [1] [2, 3] [] [4] [], .get .receipts 1, .truncate 0, .count]
        (answers ⟨["", "a"]⟩ [.append 0 [1] [2, 3] [] [4] [], .get .receipts 1, .truncate 0, .count]
          (archive, disk)) :=
  follows_of_emptyRoot emptyRoot_oneDirectory {} _

end Archive

end BlockArchive
