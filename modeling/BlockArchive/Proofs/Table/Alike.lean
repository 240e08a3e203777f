import BlockArchive.Proofs.Table.Serving
import BlockArchive.Proofs.Table.Twins
import Mathlib.Data.List.Forall2

/-! # A table answers the same wherever it finds the same

All that is done to a table is alike on two disks on which the table finds the same, and confined to
its own files.

* **`SameTable`**: two open tables have the same counters, and their open files stand for each
  other.
* **One lemma per action.** From the smallest, such as reading an entry, up to appending, cutting
  and opening.  An action may keep a handle while more is done: pairs are only added, so that it
  still stands for its partner.
* **`agree_serve`** puts them together: it is all that the rest has to know about tables. -/

namespace BlockArchive.Table

open FileSystem Attempt View

/-! ### Tables that look the same -/

/-- The table without its open files. -/
def shut (table : Table) : Table := { table with index := none, segments := [] }

/-- The segments have the same ids, and their files stand for each other. -/
abbrev SameSegments (pairs : Pairing) : Segments → Segments → Prop :=
  List.Forall₂ fun segment segment' =>
    segment.1 = segment'.1 ∧ SameHandle pairs segment.2 segment'.2

/-- The tables lie at the site, have the same counters, and their open files stand for each
other. -/
structure SameTable (site : Site) (pairs : Pairing) (table table' : Table) : Prop where
  dir : table.dir = site.root
  name : table.name = site.name
  shut : table'.shut = table.shut
  index : Option.Rel (SameHandle pairs) table.index table'.index
  segments : SameSegments pairs table.segments table'.segments

variable {site : Site} {pairs pairs' : Pairing} {table table' : Table}
  {segments segments' : Segments}

namespace SameSegments

variable (h : SameSegments pairs segments segments')
include h

theorem mono (hle : pairs ≤ pairs') : SameSegments pairs' segments segments' :=
  h.imp fun _ _ hsame => ⟨hsame.1, hsame.2.mono hle⟩

/-- What is kept is told by the ids, which are the same. -/
theorem filter (keep : Nat → Bool) :
    SameSegments pairs (segments.filter fun segment => keep segment.1)
      (segments'.filter fun segment => keep segment.1) := by
  induction h with
  | nil => exact .nil
  | @cons segment segment' _ _ hsame _ ih =>
      rw [List.filter_cons, List.filter_cons, ← hsame.1]
      split
      · exact .cons hsame ih
      · exact ih

theorem insert {id : Nat} {handle handle' : Handle} (hhandle : SameHandle pairs handle handle') :
    SameSegments pairs (segments.insert id handle) (segments'.insert id handle') :=
  List.rel_append (filter h fun key => decide (key < id))
    (.cons ⟨rfl, hhandle⟩ (filter h fun key => decide (id < key)))

theorem get? (id : Nat) :
    Option.Rel (SameHandle pairs) (segments.get? id) (segments'.get? id) := by
  unfold Segments.get?
  induction h with
  | nil => exact .none
  | @cons segment segment' _ _ hsame _ ih =>
      obtain ⟨key, handle⟩ := segment
      obtain ⟨key', handle'⟩ := segment'
      obtain ⟨rfl, hhandle⟩ := hsame
      rw [List.lookup_cons, List.lookup_cons]
      cases id == key with
      | true => exact .some hhandle
      | false => exact ih

theorem ids : segments.map Prod.fst = segments'.map Prod.fst := by
  induction h with
  | nil => rfl
  | cons hsame _ ih => rw [List.map_cons, List.map_cons, hsame.1, ih]

end SameSegments

namespace SameTable

variable (h : SameTable site pairs table table')
include h

theorem mono (hle : pairs ≤ pairs') : SameTable site pairs' table table' where
  dir := h.dir
  name := h.name
  shut := h.shut
  index := by
    have hindex := h.index
    generalize table.index = index at hindex
    generalize table'.index = index' at hindex
    cases hindex with
    | none => exact .none
    | some hhandle => exact .some (hhandle.mono hle)
  segments := h.segments.mono hle

/-- The tables differ in nothing but what they have open. -/
theorem exists_eq : ∃ index segments, table' = { table with index, segments } := by
  have hshut := h.shut
  obtain ⟨dir, name, cap, items, headId, headBytes, tailId, itemOffset, index, segments⟩ := table
  obtain ⟨dir', name', cap', items', headId', headBytes', tailId', itemOffset', index',
    segments'⟩ := table'
  simp only [Table.shut, Table.mk.injEq, and_true] at hshut
  obtain ⟨rfl, rfl, rfl, rfl, rfl, rfl, rfl, rfl⟩ := hshut
  exact ⟨index', segments', rfl⟩

end SameTable

/-- The handle is one of those that the table has open. -/
def HasOpen (table : Table) (handle : Handle) : Prop :=
  table.index = some handle ∨ ∃ id, (id, handle) ∈ table.segments

/-- A table stands for itself if all that it has open does. -/
theorem sameTable_self_iff : SameTable site pairs table table ↔
    table.dir = site.root ∧ table.name = site.name ∧
      ∀ handle, table.HasOpen handle → SameHandle pairs handle handle := by
  constructor
  · intro h
    refine ⟨h.dir, h.name, fun handle hopen => ?_⟩
    rcases hopen with hindex | ⟨id, hsegment⟩
    · have hsame := h.index
      rw [hindex] at hsame
      cases hsame with
      | some hhandle => exact hhandle
    · exact (List.forall₂_same.1 h.segments _ hsegment).2
  · rintro ⟨hdir, hname, hopen⟩
    refine ⟨hdir, hname, rfl, ?_, List.forall₂_same.2 fun segment hmem => ⟨rfl, ?_⟩⟩
    · cases hindex : table.index with
      | none => exact .none
      | some handle => exact .some (hopen handle (.inl hindex))
    · exact hopen segment.2 (.inr ⟨segment.1, hmem⟩)

/-- What a table sees of itself and of its disk. -/
def Site.tables (site : Site) : View (Table × Disk) where
  site := site
  files state := state.2.files
  Same pairs state state' :=
    SameTable site pairs state.1 state'.1 ∧ Twins site pairs state.2.files state'.2.files

section actions

variable {α : Type} {same : Pairing → α → α → Prop}

theorem agree_onSecond {first second : Action Disk α}
    (h : site.disks.Agree pairs same first second) :
    site.tables.Agree pairs same (onSecond first) (onSecond second) := by
  rintro pairs₀ hle ⟨table, disk⟩ ⟨table', disk'⟩ ⟨htable, hs⟩
  obtain ⟨pairs₁, hwithin, hs₁, hanswer⟩ := h pairs₀ hle disk disk' hs
  exact ⟨pairs₁, hwithin, ⟨htable.mono hwithin.keeps, hs₁⟩, hanswer⟩

theorem agree_current :
    site.tables.Agree pairs (SameTable site) (current : Action (Table × Disk) Table) current :=
  agree_of_unchanged fun _ _ _ _ hs => ⟨_, _, rfl, rfl, .ok hs.1⟩

theorem agree_update {f f' : Table → Table}
    (h : ∀ pairs₀, pairs ≤ pairs₀ → ∀ table table', SameTable site pairs₀ table table' →
      SameTable site pairs₀ (f table) (f' table')) :
    site.tables.Agree pairs (fun _ => Eq) (update f : Action (Table × Disk) Unit) (update f') :=
  fun pairs₀ hle _ _ hs => ⟨pairs₀, .refl _ _ _, ⟨h pairs₀ hle _ _ hs.1, hs.2⟩, .ok rfl⟩

end actions

/-! ### Reading -/

theorem agree_readEntry {index index' : Handle} (h : SameHandle pairs index index') (n : Nat) :
    site.disks.Agree pairs (fun _ => Eq) (readEntry index n) (readEntry index' n) :=
  (agree_read h _ _).bind_eq fun _ _ _ => agree_pure fun _ _ => rfl

theorem agree_extent {index index' : Handle} (h : SameHandle pairs index index') (before : Nat) :
    site.disks.Agree pairs (fun _ => Eq) (extent index before) (extent index' before) := by
  refine (agree_readEntry h _).bind_eq fun pairs' hle stop =>
    agree_ite (agree_pure fun _ _ => rfl) ?_
  exact (agree_readEntry (h.mono hle) _).bind_eq fun _ _ _ => agree_pure fun _ _ => rfl

theorem agree_openIndex : site.tables.Agree pairs SameHandle openIndex openIndex := by
  refine agree_current.bind fun pairs' hle table table' htable => ?_
  have hindex := htable.index
  generalize table.index = index at hindex
  generalize table'.index = index' at hindex
  cases hindex with
  | none => exact agree_throw _
  | some hhandle => exact agree_pure fun _ hle => hhandle.mono hle

theorem agree_openSegment (id : Nat) :
    site.tables.Agree pairs SameHandle (openSegment id) (openSegment id) := by
  refine agree_current.bind fun pairs' hle table table' htable => ?_
  have hsegment := htable.segments.get? id
  obtain ⟨index', segments', rfl⟩ := htable.exists_eq
  generalize table.segments.get? id = segment at hsegment
  simp only at hsegment ⊢
  generalize segments'.get? id = segment' at hsegment
  cases hsegment with
  | none => exact agree_throw _
  | some hhandle => exact agree_pure fun _ hle => hhandle.mono hle

theorem agree_retrieve (item : Nat) : site.tables.Alike pairs (retrieve item) := by
  refine agree_openIndex.bind fun pairs₁ hle₁ index index' hindex =>
    agree_current.bind fun pairs₂ hle₂ table table' htable => ?_
  obtain ⟨index'', segments', rfl⟩ := htable.exists_eq
  refine agree_when (agree_throw _) fun pairs₃ hle₃ _ => ?_
  refine (agree_onSecond (agree_extent (hindex.mono (hle₂.trans hle₃)) _)).bind_eq
    fun pairs₄ hle₄ place => (agree_openSegment _).bind fun pairs₅ hle₅ segment segment' hsegment =>
      agree_when (agree_throw _) fun pairs₆ hle₆ _ => ?_
  exact agree_onSecond (agree_read (hsegment.mono hle₆) _ _)

theorem agree_lengths (h : SameSegments pairs segments segments') :
    site.tables.Agree pairs (fun _ => Eq)
      (segments.mapM fun segment => (onSecond segment.2.length : Action (Table × Disk) Nat))
      (segments'.mapM fun segment => onSecond segment.2.length) := by
  induction segments generalizing pairs segments' with
  | nil =>
      cases h
      rw [List.mapM_nil]
      exact agree_pure fun _ _ => rfl
  | cons segment segments ih =>
      cases h with
      | cons hsame hrest =>
          rw [List.mapM_cons, List.mapM_cons]
          refine (agree_onSecond (agree_length hsame.2)).bind_eq fun pairs' hle _ => ?_
          exact (ih (SameSegments.mono hrest hle)).bind_eq fun _ _ _ => agree_pure fun _ _ => rfl

theorem agree_size : site.tables.Alike pairs size := by
  refine agree_openIndex.bind fun pairs₁ hle₁ index index' hindex =>
    agree_current.bind fun pairs₂ hle₂ table table' htable => ?_
  refine (agree_lengths htable.segments).bind_eq fun pairs₃ hle₃ lengths => ?_
  exact (agree_onSecond (agree_length (hindex.mono (hle₂.trans hle₃)))).bind_eq fun _ _ _ =>
    agree_pure fun _ _ => rfl

theorem agree_sync : site.tables.Alike pairs sync :=
  agree_openIndex.bind fun _ _ _ _ _ => agree_pure fun _ _ => rfl

theorem agree_close : site.tables.Alike pairs close := by
  refine agree_openIndex.bind fun _ _ _ _ _ => agree_update fun _ _ table table' htable => ?_
  exact ⟨htable.dir, htable.name, htable.shut, .none, .nil⟩

/-! ### Appending -/

theorem agree_reopenSegment (id : Nat) (mode : OpenMode) :
    site.tables.Alike pairs (reopenSegment id mode) := by
  refine (agree_update fun _ _ table table' htable => ?_).bind_eq fun _ _ _ =>
    agree_current.bind fun pairs' _ table table' htable => ?_
  · exact ⟨htable.dir, htable.name, htable.shut, htable.index,
      htable.segments.filter fun key => decide (key ≠ id)⟩
  obtain ⟨index', segments', rfl⟩ := htable.exists_eq
  have hpath : segmentPath table.dir table.name id =
      site.root.join (fileName site.name (.segment id)) := by
    rw [htable.dir, htable.name]
    rfl
  simp only [hpath]
  refine (agree_onSecond (agree_openFile _ _)).bind fun _ _ handle handle' hhandle =>
    agree_update fun _ hle table table' htable => ?_
  exact ⟨htable.dir, htable.name, htable.shut, htable.index,
    htable.segments.insert (hhandle.mono hle)⟩

theorem agree_rotate : site.tables.Alike pairs rotate := by
  refine agree_current.bind fun pairs' _ table table' htable => ?_
  obtain ⟨index', segments', rfl⟩ := htable.exists_eq
  refine agree_when (agree_throw _) fun _ _ _ => ?_
  refine (agree_reopenSegment _ _).bind_eq fun _ _ _ =>
    (agree_reopenSegment _ _).bind_eq fun _ _ _ => agree_update fun _ _ table table' htable => ?_
  obtain ⟨index', segments', rfl⟩ := htable.exists_eq
  exact ⟨htable.dir, htable.name, rfl, htable.index, htable.segments⟩

theorem agree_append (item : Nat) (blob : Bytes) : site.tables.Alike pairs (append item blob) := by
  refine agree_when (agree_throw _) fun _ _ _ => agree_openIndex.bind
    fun pairs₁ _ index index' hindex => agree_current.bind fun pairs₂ hle₂ table table' htable => ?_
  obtain ⟨_, _, rfl⟩ := htable.exists_eq
  refine agree_when (agree_throw _) fun pairs₃ hle₃ _ => agree_when agree_rotate
    fun pairs₄ hle₄ _ => agree_current.bind fun pairs₅ hle₅ table table' htable => ?_
  obtain ⟨_, _, rfl⟩ := htable.exists_eq
  refine (agree_openSegment _).bind fun pairs₆ hle₆ head head' hhead =>
    agree_when (agree_throw _) fun pairs₇ hle₇ _ => ?_
  refine (agree_onSecond (agree_write (hhead.mono hle₇) _ _)).bind_eq fun pairs₈ hle₈ _ => ?_
  -- the index was opened before all this, and its partner is still the same
  have hindex := hindex.mono
    (hle₂.trans (hle₃.trans (hle₄.trans (hle₅.trans (hle₆.trans (hle₇.trans hle₈))))))
  refine (agree_onSecond (agree_write hindex _ _)).bind_eq fun _ _ _ =>
    agree_update fun _ _ table table' htable => ?_
  obtain ⟨_, _, rfl⟩ := htable.exists_eq
  exact ⟨htable.dir, htable.name, rfl, htable.index, htable.segments⟩

/-! ### Cutting -/

theorem agree_deleteSegments (ids : List Nat) :
    site.disks.Alike pairs (deleteSegments site.root site.name ids) := by
  induction ids generalizing pairs with
  | nil => exact agree_pure fun _ _ => rfl
  | cons id ids ih =>
      refine ((agree_removeFile (.segment id)).tryCatch fun e => ?_).bind_eq fun _ _ _ => ih
      exact agree_ite (agree_pure fun _ _ => rfl) (agree_throw _)

theorem agree_releaseAbove (id : Nat) : site.tables.Alike pairs (releaseAbove id) := by
  refine agree_current.bind fun pairs' _ table table' htable =>
    (agree_update fun _ _ table table' htable => ?_).bind_eq fun _ _ _ => ?_
  · exact ⟨htable.dir, htable.name, htable.shut, htable.index,
      htable.segments.filter fun key => decide (key ≤ id)⟩
  have hids := (htable.segments.filter fun key => decide (id < key)).ids
  obtain ⟨_, _, rfl⟩ := htable.exists_eq
  simp only [htable.dir, htable.name]
  refine agree_onSecond ?_
  unfold Segments.above
  rw [hids]
  exact agree_deleteSegments _

theorem agree_cutHead (id length items : Nat) : site.tables.Alike pairs (do
    let head ← openSegment id
    onSecond (head.setLength length)
    update fun table => { table with items, headBytes := length }) := by
  refine (agree_openSegment _).bind fun _ _ head head' hhead =>
    (agree_onSecond (agree_setLength hhead _)).bind_eq fun _ _ _ =>
      agree_update fun _ _ table table' htable => ?_
  obtain ⟨_, _, rfl⟩ := htable.exists_eq
  exact ⟨htable.dir, htable.name, rfl, htable.index, htable.segments⟩

theorem agree_truncate (items : Nat) : site.tables.Alike pairs (truncate items) := by
  refine agree_openIndex.bind fun pairs₁ _ index index' hindex =>
    agree_current.bind fun pairs₂ hle₂ table table' htable => ?_
  obtain ⟨_, _, rfl⟩ := htable.exists_eq
  refine agree_ite (agree_pure fun _ _ => rfl) (agree_when (agree_throw _) fun pairs₃ hle₃ _ => ?_)
  have hindex := hindex.mono (hle₂.trans hle₃)
  refine (agree_onSecond (agree_setLength hindex _)).bind_eq fun pairs₄ hle₄ _ =>
    (agree_onSecond (agree_readEntry (hindex.mono hle₄) _)).bind_eq fun pairs₅ hle₅ last => ?_
  refine agree_ite ((agree_reopenSegment _ _).bind_eq fun _ _ _ =>
    (agree_releaseAbove _).bind_eq fun _ _ _ => ?_) (agree_cutHead _ _ _)
  refine (agree_update fun _ _ table table' htable => ?_).bind_eq fun _ _ _ => agree_cutHead _ _ _
  obtain ⟨_, _, rfl⟩ := htable.exists_eq
  exact ⟨htable.dir, htable.name, rfl, htable.index, htable.segments⟩

/-! ### Opening -/

theorem agree_trimIndex {index index' : Handle} (h : SameHandle pairs index index') :
    site.disks.Agree pairs (fun _ => Eq) (trimIndex index) (trimIndex index') := by
  refine (agree_length h).bind_eq fun pairs₁ hle₁ length =>
    agree_when (agree_setLength (h.mono hle₁) _) fun pairs₂ hle₂ _ => ?_
  exact agree_when (agree_write (h.mono (hle₁.trans hle₂)) _ _) fun _ _ _ =>
    agree_pure fun _ _ => rfl

/-- A handle and a length. -/
def SameHead (pairs : Pairing) (head head' : Handle × Nat) : Prop :=
  SameHandle pairs head.1 head'.1 ∧ head.2 = head'.2

theorem agree_openHead (id : Nat) :
    site.disks.Agree pairs SameHead (openHead site.root site.name id)
      (openHead site.root site.name id) :=
  (agree_openFile (.segment id) .update).bind fun _ _ _ _ hhead =>
    (agree_length hhead).bind_eq fun _ hle _ => agree_pure fun _ hle' =>
      ⟨hhead.mono (hle.trans hle'), rfl⟩

theorem agree_settle {index index' head head' : Handle} (hindex : SameHandle pairs index index')
    (hhead : SameHandle pairs head head') (before : Nat) (last : IndexEntry) (length : Nat) :
    site.disks.Agree pairs (fun _ => Eq) (settle site.root site.name index before last head length)
      (settle site.root site.name index' before last head' length) := by
  induction before generalizing pairs last head head' length with
  | zero =>
      rw [settle.eq_def, settle.eq_def]
      simp only
      refine agree_ite (agree_pure fun _ _ => rfl) (agree_ite ?_ ?_)
      · exact (agree_setLength hhead _).bind_eq fun _ _ _ => agree_pure fun _ _ => rfl
      · exact agree_when (agree_setLength hhead _) fun _ _ _ => agree_pure fun _ _ => rfl
  | succ before ih =>
      rw [settle.eq_def, settle.eq_def]
      simp only
      refine agree_ite (agree_pure fun _ _ => rfl) (agree_ite ?_ ?_)
      · exact (agree_setLength hhead _).bind_eq fun _ _ _ => agree_pure fun _ _ => rfl
      · refine (agree_setLength hindex _).bind_eq fun pairs₁ hle₁ _ =>
          (agree_readEntry (hindex.mono hle₁) _).bind_eq fun pairs₂ hle₂ previous => ?_
        have hle := hle₁.trans hle₂
        refine agree_ite (ih (hindex.mono hle) (hhead.mono hle) _ _) ?_
        refine (agree_openHead _).bind fun pairs₃ hle₃ head head' hsame => ?_
        obtain ⟨handle, length⟩ := head
        obtain ⟨handle', length'⟩ := head'
        obtain ⟨hhandle, rfl⟩ := hsame
        exact ih (hindex.mono (hle.trans hle₃)) hhandle _ _

theorem agree_openHistory (ids : List Nat) :
    site.disks.Agree pairs SameSegments (openHistory site.root site.name ids)
      (openHistory site.root site.name ids) := by
  induction ids generalizing pairs with
  | nil => exact agree_pure fun _ _ => .nil
  | cons id ids ih =>
      refine (agree_openFile (.segment id) .readOnly).bind fun _ _ _ _ hhandle =>
        ih.bind fun _ hle _ _ hsegments => agree_pure fun _ hle' => ?_
      exact .cons ⟨rfl, hhandle.mono (hle.trans hle')⟩ (SameSegments.mono hsegments hle')

theorem agree_openIn (cap : Nat) :
    site.disks.Agree pairs (SameTable site) (openIn site.root site.name cap)
      (openIn site.root site.name cap) := by
  refine agree_makeDirectories.bind_eq fun _ _ _ => (agree_openFile .index .update).bind
    fun pairs₁ _ index index' hindex => (agree_trimIndex hindex).bind_eq
      fun pairs₂ hle₂ before => ?_
  have hindex := hindex.mono hle₂
  refine (agree_readEntry hindex _).bind_eq fun pairs₃ hle₃ first =>
    (agree_readEntry (hindex.mono hle₃) _).bind_eq fun pairs₄ hle₄ last =>
      (agree_openHead _).bind fun pairs₅ hle₅ head head' hsame => ?_
  obtain ⟨handle, length⟩ := head
  obtain ⟨handle', length'⟩ := head'
  obtain ⟨hhandle, rfl⟩ := hsame
  have hindex := hindex.mono (hle₃.trans (hle₄.trans hle₅))
  refine (agree_settle hindex hhandle _ _ _).bind_eq fun pairs₆ hle₆ settled =>
    (agree_openHistory _).bind fun pairs₇ hle₇ history history' hhistory =>
      (agree_openFile (.segment settled.last.segment.toNat) .update).bind
        fun pairs₈ hle₈ head head' hhead => agree_pure fun pairs₉ hle₉ => ?_
  exact {
    dir := rfl
    name := rfl
    shut := rfl
    index := .some (hindex.mono (hle₆.trans (hle₇.trans (hle₈.trans hle₉))))
    segments := List.rel_append (SameSegments.mono hhistory (hle₈.trans hle₉))
      (.cons ⟨rfl, hhead.mono hle₉⟩ .nil) }

/-! ### Requests -/

/-- A request is answered the same wherever the table finds the same. -/
theorem agree_serve (request : Request) :
    site.tables.Alike pairs (serve site.root site.name request) := by
  cases request with
  | append item blob =>
      exact (agree_append item blob).bind_eq fun _ _ _ => agree_pure fun _ _ => rfl
  | retrieve item => exact (agree_retrieve item).bind_eq fun _ _ _ => agree_pure fun _ _ => rfl
  | truncate items => exact (agree_truncate items).bind_eq fun _ _ _ => agree_pure fun _ _ => rfl
  | size => exact agree_size.bind_eq fun _ _ _ => agree_pure fun _ _ => rfl
  | sync => exact agree_sync.bind_eq fun _ _ _ => agree_pure fun _ _ => rfl
  | close => exact agree_close.bind_eq fun _ _ _ => agree_pure fun _ _ => rfl
  | reopen cap =>
      refine (agree_onSecond (agree_openIn cap)).bind fun pairs' _ table table' htable => ?_
      exact (agree_update fun _ hle _ _ _ => htable.mono hle).bind_eq fun _ _ _ =>
        agree_pure fun _ _ => rfl

end BlockArchive.Table
