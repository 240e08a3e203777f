import Mathlib.Data.List.Chain
import BlockArchive.Proofs.Table.Mirroring
import BlockArchive.Proofs.Table.Packing

/-! # Where the items of a table lie

* **`extents`** are the places of the items that entries bound, and `inSegment` those of them that
  lie in one segment.
* **`Placed`**: entries climb from segment to segment by one step at most, the items of each segment
  tile it, no segment is longer than the cap unless it is one item that is longer by itself, and a
  segment is begun only when the item did not fit in the one before.
* **Packed items are placed** (`placed_packed`), by induction on the items: one more item is put
  behind the items of the segment it goes to, which is the head or a new one
  (`between_lastOf_packed`, `tiles_rotated`).
* **Runs.** `Packs` says that the files of a table are the packed form of the items it stands for.
  Whatever is asked of a table with one cap leaves it so (`Packs.exists_serve`), and at each point
  of a run its items are placed (`exists_liesPlaced_of_missing`). -/

namespace BlockArchive.Table

open IndexEntry

/-- The number of bytes of an item that lies there. -/
def Extent.length (extent : Extent) : Nat := extent.stop - extent.start

/-- Where the items lie that the entries bound. -/
def extents : List IndexEntry → List Extent
  | before :: after :: rest => Extent.between before after :: extents (after :: rest)
  | _ => []

/-- Where the items lie that are in the segment `id`. -/
def inSegment (id : Nat) (entries : List IndexEntry) : List Extent :=
  (extents entries).filter (·.segment = id)

/-- The bytes that lie there. -/
def Extent.bytesIn (folder : Folder) (name : String) (extent : Extent) : Bytes :=
  ((segmentBytes folder name extent.segment).take extent.stop).drop extent.start

/-- The extents follow one another from one byte to another, without a gap and without overlap. -/
def Tiles : Nat → Nat → List Extent → Prop
  | start, stop, [] => start = stop
  | start, stop, extent :: rest =>
      extent.start = start ∧ start ≤ extent.stop ∧ Tiles extent.stop stop rest

/-- Items are placed whole, one behind the other, and in a new segment only if need be. -/
structure Placed (segments : Nat → Option Bytes) (cap : Nat) (entries : List IndexEntry) :
    Prop where
  /-- An entry names the segment of the one before it, or the segment after that. -/
  climbs : entries.IsChain fun before after =>
    after.segment.toNat = before.segment.toNat ∨ after.segment.toNat = before.segment.toNat + 1
  there : ∀ entry ∈ entries, segments entry.segment.toNat ≠ none
  /-- The items of a segment tile it from its first byte to its last. -/
  tiles : ∀ id bytes, segments id = some bytes → Tiles 0 bytes.length (inSegment id entries)
  /-- Only an item that is longer than the cap by itself makes a segment longer, on its own. -/
  capped : ∀ id bytes, segments id = some bytes →
    bytes.length ≤ cap ∨ ∃ extent, inSegment id entries = [extent] ∧ cap < extent.length
  /-- A segment is begun by an item that would have made the one before it longer than the cap. -/
  greedy : entries.IsChain fun before after =>
    after.segment.toNat = before.segment.toNat + 1 →
      ∀ bytes, segments before.segment.toNat = some bytes →
        cap < bytes.length + (Extent.between before after).length

variable {entries : List IndexEntry} {entry : IndexEntry} {id cap : Nat} {items : List Bytes}
  {item : Bytes}

/-! ### Extents -/

theorem extents_concat (hne : entries ≠ []) (entry : IndexEntry) :
    extents (entries ++ [entry]) = extents entries ++ [.between (lastOf entries) entry] := by
  induction entries with
  | nil => exact absurd rfl hne
  | cons before rest ih =>
      cases rest with
      | nil => rfl
      | cons after rest =>
          rw [lastOf_cons before (List.cons_ne_nil after rest)]
          exact congrArg (Extent.between before after :: ·) (ih (List.cons_ne_nil after rest))

theorem itemsAfter_eq_map_extents (folder : Folder) (name : String) (before : IndexEntry)
    (bounds : List IndexEntry) :
    itemsAfter folder name before bounds =
      (extents (before :: bounds)).map (·.bytesIn folder name) := by
  induction bounds generalizing before with
  | nil => rfl
  | cons after rest ih => exact congrArg (between folder name before after :: ·) (ih after)

theorem storedItems_eq_map_extents {folder : Folder} {name : String}
    (hfirst : (firstOf entries).offset = 0) :
    storedItems folder name entries = (extents entries).map (·.bytesIn folder name) := by
  rw [← storedItems_grounded, grounded_eq_self hfirst]
  cases entries with
  | nil => rfl
  | cons first bounds =>
      rw [firstOf_cons] at hfirst
      rw [storedItems_cons hfirst, itemsAfter_eq_map_extents]

theorem inSegment_concat (hne : entries ≠ []) (entry : IndexEntry) (id : Nat) :
    inSegment id (entries ++ [entry]) = inSegment id entries ++
      if entry.segment.toNat = id then [.between (lastOf entries) entry] else [] := by
  have hsegment : (Extent.between (lastOf entries) entry).segment = entry.segment.toNat := rfl
  rw [inSegment, extents_concat hne, List.filter_append, inSegment, List.filter_singleton, hsegment]
  congr 1
  by_cases hid : entry.segment.toNat = id <;> simp [hid]

theorem inSegment_eq_nil (h : ∀ entry ∈ entries, entry.segment.toNat ≠ id) :
    inSegment id entries = [] := by
  induction entries using List.reverseRecOn with
  | nil => rfl
  | append_singleton entries entry ih =>
      by_cases hne : entries = []
      · rw [hne]
        rfl
      · rw [inSegment_concat hne, ih fun e he => h e (List.mem_append_left _ he),
          if_neg (h entry (by simp)), List.append_nil]

theorem Tiles.concat {start stop stop' : Nat} {tiles : List Extent} (h : Tiles start stop tiles)
    (segment : Nat) (hle : stop ≤ stop') :
    Tiles start stop' (tiles ++ [⟨segment, stop, stop'⟩]) := by
  induction tiles generalizing start with
  | nil =>
      obtain rfl : start = stop := h
      exact ⟨rfl, hle, rfl⟩
  | cons first rest ih => exact ⟨h.1, h.2.1, ih h.2.2⟩

/-! ### One more item -/

theorem IsPackable.init (h : IsPackable cap (items ++ [item])) : IsPackable cap items := by
  have hinit := h.take items.length
  rwa [List.take_left] at hinit

theorem entries_packed_ne_nil (cap : Nat) (items : List Bytes) : (packed cap items).entries ≠ [] :=
  List.ne_nil_of_length_pos (length_entries_packed cap items ▸ Nat.succ_pos _)

section concat

variable (h : IsPackable cap (items ++ [item]))
include h

theorem IsPackable.entry_concat :
    ∃ entry, (packed cap (items ++ [item])).entries = (packed cap items).entries ++ [entry] ∧
      entry.segment.toNat = ((packed cap items).rotated cap item.length).full.length ∧
      entry.offset.toNat =
        ((packed cap items).rotated cap item.length).head.length + item.length := by
  refine ⟨lastOf (packed cap (items ++ [item])).entries, ?_, ?_, ?_⟩
  · rw [packed_concat, Packing.add_entries, lastOf_concat]
  · rw [h.lastOf_segment, packed_concat, Packing.add_full]
  · rw [h.lastOf_offset, packed_concat, Packing.add, Packing.push, List.length_append]

/-- One more item lies behind what the segment holds that it goes to. -/
theorem between_lastOf_packed
    (hsegment : entry.segment.toNat = ((packed cap items).rotated cap item.length).full.length)
    (hoffset : entry.offset.toNat =
      ((packed cap items).rotated cap item.length).head.length + item.length) :
    Extent.between (lastOf (packed cap items).entries) entry =
      ⟨((packed cap items).rotated cap item.length).full.length,
        ((packed cap items).rotated cap item.length).head.length,
        ((packed cap items).rotated cap item.length).head.length + item.length⟩ := by
  have hlast := h.init.lastOf_segment
  rw [Extent.between, hsegment, hoffset]
  unfold Packing.rotated at hsegment ⊢
  split at hsegment
  · next hfits =>
      rw [if_pos hfits, if_pos (UInt32.toNat_inj.1 (hlast.trans hsegment.symm)),
        h.init.lastOf_offset]
  · next hfull =>
      have hne : (lastOf (packed cap items).entries).segment ≠ entry.segment := by
        intro heq
        rw [← heq, hlast, List.length_append] at hsegment
        exact absurd hsegment (Nat.ne_of_lt (Nat.lt_succ_self _))
      rw [if_neg hfull, if_neg hne]
      rfl

omit h in
/-- The items of the segment that one more item goes to tile it. -/
theorem tiles_rotated (len : Nat)
    (htiles : Tiles 0 (packed cap items).head.length
      (inSegment (packed cap items).full.length (packed cap items).entries)) :
    Tiles 0 ((packed cap items).rotated cap len).head.length
      (inSegment ((packed cap items).rotated cap len).full.length (packed cap items).entries) := by
  unfold Packing.rotated
  split
  · exact htiles
  · rw [inSegment_eq_nil fun entry hmem => ?_]
    · rfl
    · have hle := segment_le_of_mem_packed hmem
      simp only [List.length_append, List.length_singleton]
      omega

end concat

/-! ### Packed items -/

theorem isChain_concat {step : IndexEntry → IndexEntry → Prop} (h : entries.IsChain step)
    (hlast : step (lastOf entries) entry) :
    (entries ++ [entry]).IsChain step := by
  refine h.append (List.isChain_singleton entry) fun last hmem next hnext => ?_
  obtain rfl : lastOf entries = last := by
    rw [lastOf, List.getLastD_eq_getLast?, hmem, Option.getD_some]
  obtain rfl : entry = next := by simpa using hnext
  exact hlast

theorem Placed.concat {segments segments' : Nat → Option Bytes} {target : Nat} {base : Bytes}
    (h : Placed segments cap entries) (hne : entries ≠ [])
    (hle : ∀ e ∈ entries, e.segment.toNat ≤ (lastOf entries).segment.toNat)
    (hsegments : ∀ id, segments' id = if id = target then some (base ++ item) else segments id)
    (hbetween : Extent.between (lastOf entries) entry =
      ⟨target, base.length, base.length + item.length⟩)
    (htiles : Tiles 0 base.length (inSegment target entries))
    (hroom : target = (lastOf entries).segment.toNat ∧ (base ++ item).length ≤ cap ∨
      target = (lastOf entries).segment.toNat + 1 ∧ base = [] ∧
        ∀ bytes, segments (lastOf entries).segment.toNat = some bytes →
          cap < bytes.length + item.length) :
    Placed segments' cap (entries ++ [entry]) := by
  have hsegment : entry.segment.toNat = target := congrArg Extent.segment hbetween
  have hlength : (Extent.between (lastOf entries) entry).length = item.length := by
    rw [hbetween, Extent.length, Nat.add_sub_cancel_left]
  have hinside : ∀ id, inSegment id (entries ++ [entry]) = inSegment id entries ++
      if target = id then [⟨target, base.length, base.length + item.length⟩] else [] := by
    intro id
    rw [inSegment_concat hne, hsegment, hbetween]
  have hother : ∀ {id}, id ≠ target → segments' id = segments id ∧
      inSegment id (entries ++ [entry]) = inSegment id entries := by
    intro id hid
    rw [hsegments, if_neg hid, hinside, if_neg (Ne.symm hid), List.append_nil]
    exact ⟨rfl, rfl⟩
  have htarget : ∀ {bytes}, segments' target = some bytes → base ++ item = bytes := by
    intro bytes hbytes
    rw [hsegments, if_pos rfl] at hbytes
    exact Option.some.inj hbytes
  refine ⟨isChain_concat h.climbs ?_, fun e hmem => ?_, fun id bytes hbytes => ?_,
    fun id bytes hbytes => ?_, isChain_concat ?_ fun hstep bytes hbytes => ?_⟩
  · rcases hroom with ⟨hsame, -⟩ | ⟨hnext, -⟩
    · exact .inl (hsegment.trans hsame)
    · exact .inr (hsegment.trans hnext)
  · rw [hsegments]
    split
    · simp
    · next hid =>
        rcases List.mem_append.1 hmem with hmem | hmem
        · exact h.there e hmem
        · rw [List.mem_singleton.1 hmem] at hid
          exact absurd hsegment hid
  · by_cases hid : id = target
    · subst hid
      rw [hinside, if_pos rfl, ← htarget hbytes, List.length_append]
      exact htiles.concat id (Nat.le_add_right _ _)
    · rw [(hother hid).2]
      exact h.tiles id bytes ((hother hid).1 ▸ hbytes)
  · by_cases hid : id = target
    · subst hid
      rw [← htarget hbytes]
      rcases hroom with ⟨-, hfits⟩ | ⟨hnext, rfl, -⟩
      · exact .inl hfits
      · have hnone : inSegment id entries = [] := inSegment_eq_nil fun e hmem => by
          have := hle e hmem
          omega
        rw [hinside, hnone, if_pos rfl, List.nil_append, List.nil_append]
        by_cases hlong : item.length ≤ cap
        · exact .inl hlong
        · exact .inr ⟨_, rfl, by simpa [Extent.length] using hlong⟩
    · rw [(hother hid).2]
      exact h.capped id bytes ((hother hid).1 ▸ hbytes)
  · -- of the segments before the last entry's none is the one that the item goes to
    refine h.greedy.imp_of_mem_imp fun before after _ hafter hstep hnext bytes hbytes => ?_
    have hlast := hle after hafter
    have hid : before.segment.toNat ≠ target := by omega
    exact hstep hnext bytes ((hother hid).1 ▸ hbytes)
  · rw [hlength]
    rcases hroom with ⟨hsame, -⟩ | ⟨hnext, -, hfull⟩
    · omega
    · refine hfull bytes ?_
      rwa [(hother (by omega)).1] at hbytes

/-- Packed items are placed whole, one behind the other, and in a new segment only if need be. -/
theorem placed_packed (hcap : cap < offsetLimit) (h : IsPackable cap items) :
    Placed (fun id => (packed cap items).segments[id]?) cap (packed cap items).entries := by
  induction items using List.reverseRecOn with
  | nil =>
      have hbytes : ∀ {id : Nat} {bytes : Bytes},
          (packed cap []).segments[id]? = some bytes → bytes = [] := by
        intro id bytes hbytes
        exact List.mem_singleton.1 (List.mem_of_getElem? hbytes)
      refine ⟨List.isChain_singleton _, ?_, fun id bytes h => ?_, fun id bytes h => ?_,
        List.isChain_singleton _⟩
      · intro entry hmem
        rw [List.mem_singleton.1 hmem]
        simp [packed, Packing.empty, Packing.segments, sentinel]
      · rw [hbytes h]
        rfl
      · rw [hbytes h]
        exact .inl (Nat.zero_le _)
  | append_singleton items item ih =>
      have hplaced := ih h.init
      obtain ⟨entry, hentries, hsegment, hoffset⟩ := h.entry_concat
      have hlast := h.init.lastOf_segment
      have hhead : (packed cap items).segments[(packed cap items).full.length]? =
          some (packed cap items).head := by
        rw [Packing.getElem?_segments, if_pos rfl]
      rw [hentries]
      refine hplaced.concat (entries_packed_ne_nil cap items)
        (fun e hmem => hlast ▸ segment_le_of_mem_packed hmem)
        (fun id => ?_) (between_lastOf_packed h hsegment hoffset)
        (tiles_rotated item.length (hplaced.tiles _ _ hhead)) ?_
      · rw [packed_concat, Packing.getElem?_segments_add]
      · rw [hlast]
        unfold Packing.rotated
        split
        · next hfits => exact .inl ⟨rfl, by simpa using hfits.2⟩
        · next hfull =>
            refine .inr ⟨by simp, rfl, fun bytes hbytes => ?_⟩
            obtain rfl : (packed cap items).head = bytes := Option.some.inj (hhead ▸ hbytes)
            unfold Packing.Fits at hfull
            omega

/-! ### One step -/

/-- Whether a table that is opened by the request is opened with this cap. -/
def Request.HasCap (cap : Nat) : Request → Prop
  | .reopen cap' => cap' = cap
  | _ => True

/-- The table and its files stand for the list, and the files are the packed form of its items. -/
structure Packs (place : Location) (root : Path) (name : String) (cap : Nat) (list : ItemList)
    (state : Table × Disk) : Prop where
  keeping : Keeping (IsFileOf name) place root name (packed cap list.items).entries list state
  isPacked : IsPacked (state.2.files.folder place) name cap list.items
  cap_eq : list.isOpen = true → state.1.cap = cap

variable {place : Location} {root : Path} {name : String} {list : ItemList} {state : Table × Disk}
  {table : Table} {disk : Disk} {request : Request}

theorem Keeping.packs (h : Keeping (IsFileOf name) place root name entries list state)
    (hpacked : IsPacked (state.2.files.folder place) name cap list.items)
    (hcap : list.isOpen = true → state.1.cap = cap) : Packs place root name cap list state := by
  refine ⟨?_, hpacked, hcap⟩
  rwa [← hpacked.entries_eq h.whole]

namespace Packs

theorem table_eq (h : Packs place root name cap ⟨items, true⟩ (table, disk)) :
    table = opened disk.files place root name cap (packed cap items).entries := by
  obtain ⟨cap', htable⟩ := h.keeping.exists_cap
  obtain rfl : cap' = cap := by
    rw [← h.cap_eq rfl, htable, opened_cap]
  exact htable

/-- An item is packed with the others, or has no place and is refused. -/
theorem append (h : Packs place root name cap ⟨items, true⟩ (table, disk)) (item : Nat)
    (blob : Bytes) :
    ∃ items', Packs place root name cap ⟨items', true⟩
      ((Table.append item blob).outcome (table, disk)).2 := by
  have htable := h.table_eq
  have hcount : table.items = items.length := h.keeping.items_eq rfl
  have hindex : table.index = some (.file (disk.files.number place (indexFileName name)) true) := by
    rw [htable, opened_index]
  by_cases hlarge : offsetLimit ≤ blob.length
  · rw [outcome_append_tooLarge hlarge]
    exact ⟨items, h⟩
  by_cases hitem : item = items.length
  · by_cases hroom : table.HasRoom blob.length
    · obtain ⟨entries', state', hrun, hkeeping⟩ := h.keeping.exists_append (fun _ => id) hroom
      obtain ⟨happend, hfolder⟩ := h.keeping.outcome_append (fun _ => id) htable hroom rfl
      rw [hrun] at happend
      obtain ⟨-, rfl⟩ := Prod.mk.inj happend
      have hpacked := h.isPacked.appending h.keeping.whole htable hroom
      rw [← hfolder] at hpacked
      rw [hitem, hrun]
      exact ⟨_, hkeeping.packs hpacked fun _ => opened_cap _ _ _ _ _ _⟩
    · rw [hitem, ← hcount, outcome_append_error hindex hroom]
      exact ⟨items, h⟩
  · rw [outcome_append_of_ne hindex (Nat.lt_of_not_le hlarge) (hcount ▸ hitem)]
    exact ⟨items, h⟩

theorem truncate (h : Packs place root name cap ⟨items, true⟩ (table, disk)) (count : Nat) :
    ∃ items', Packs place root name cap ⟨items', true⟩
      ((Table.truncate count).outcome (table, disk)).2 := by
  have htable := h.table_eq
  by_cases hcount : count < items.length
  · obtain ⟨entries', state', hrun, hkeeping⟩ := h.keeping.exists_truncate (fun _ => id) hcount
    obtain ⟨htruncate, hfolder⟩ := h.keeping.outcome_truncate (fun _ => id) htable hcount rfl
    rw [hrun] at htruncate
    obtain ⟨-, rfl⟩ := Prod.mk.inj htruncate
    have hpacked := h.isPacked.cutting h.keeping.whole hcount
    rw [← hfolder] at hpacked
    rw [hrun]
    exact ⟨_, hkeeping.packs hpacked fun _ => opened_cap _ _ _ _ _ _⟩
  · have hindex : table.index =
        some (.file (disk.files.number place (indexFileName name)) true) := by
      rw [htable, opened_index]
    have hle : table.items ≤ count := by
      have hitems : table.items = items.length := h.keeping.items_eq rfl
      omega
    rw [outcome_truncate_of_le hindex hle]
    exact ⟨items, h⟩

theorem reopen (h : Packs place root name cap list state) :
    Packs place root name cap ⟨list.items, true⟩
      ((serve root name (.reopen cap)).outcome state).2 := by
  obtain ⟨state', hrun, hsame, hreached⟩ := h.keeping.represents.exists_reopen (fun _ => id) cap
  have hreopen := h.keeping.represents.outcome_reopen (fun _ => id) cap
  rw [hrun] at hreopen
  obtain ⟨-, rfl⟩ := Prod.mk.inj hreopen
  rw [hrun]
  exact ⟨⟨hreached.represents, h.keeping.fills⟩, h.isPacked, fun _ => opened_cap _ _ _ _ _ _⟩

theorem close (h : Packs place root name cap ⟨items, true⟩ (table, disk)) :
    Packs place root name cap ⟨items, false⟩ (Table.close.outcome (table, disk)).2 := by
  obtain ⟨state', hrun, hkeeping⟩ := h.keeping.exists_close
  have hopen : table.index ≠ none := by simp [h.table_eq]
  have hclose := outcome_close hopen disk
  rw [hrun] at hclose
  obtain ⟨-, rfl⟩ := Prod.mk.inj hclose
  rw [hrun]
  exact ⟨hkeeping, h.isPacked, by simp⟩

/-- After a request the files are the packed form of some items again. -/
theorem exists_serve (h : Packs place root name cap list state) (hcap : request.HasCap cap) :
    ∃ list', Packs place root name cap list' ((serve root name request).outcome state).2 := by
  by_cases hreopen : ∃ cap', request = .reopen cap'
  · obtain ⟨cap', rfl⟩ := hreopen
    obtain rfl : cap' = cap := hcap
    exact ⟨_, h.reopen⟩
  have hother : ∀ cap', request ≠ .reopen cap' := fun cap' heq => hreopen ⟨cap', heq⟩
  obtain ⟨items, isOpen⟩ := list
  obtain ⟨table, disk⟩ := state
  cases isOpen with
  | false =>
      obtain ⟨e, -, hrun⟩ := exists_refused_of_closed (h.keeping.represents.whenClosed rfl) hother
        root name items disk
      rw [hrun]
      exact ⟨_, h⟩
  | true =>
      cases request with
      | reopen cap' => exact absurd rfl (hother cap')
      | append item blob =>
          obtain ⟨items', hpacks⟩ := h.append item blob
          rw [snd_serve_append]
          exact ⟨_, hpacks⟩
      | truncate count =>
          obtain ⟨items', hpacks⟩ := h.truncate count
          rw [snd_serve_truncate]
          exact ⟨_, hpacks⟩
      | close =>
          rw [snd_serve_close]
          exact ⟨_, h.close⟩
      | retrieve | size | sync =>
          rw [(onlyReads_serve root name rfl).outcome_eq]
          exact ⟨_, h⟩

/-! ### A whole run -/

theorem exists_served {requests : List Request} (h : Packs place root name cap list state)
    (hcap : ∀ request ∈ requests, request.HasCap cap) :
    ∃ list', Packs place root name cap list' (served root name requests state) := by
  induction requests generalizing list state with
  | nil => exact ⟨list, h⟩
  | cons request requests ih =>
      obtain ⟨list', hpacks⟩ := h.exists_serve (hcap request List.mem_cons_self)
      exact ih hpacks fun later hlater => hcap later (List.mem_cons_of_mem _ hlater)

end Packs

theorem packs_of_missing (hhouses : disk.files.Houses (IsFileOf name) root place)
    (hindex : disk.files.folder place (indexFileName name) = none)
    (hsegments : ∀ id, disk.files.folder place (segmentFileName name id) = none) (table : Table) :
    Packs place root name cap ⟨[], true⟩
      ((serve root name (.reopen cap)).outcome (table, disk)).2 := by
  obtain ⟨disk', htidied, hwhole, habove, hrun⟩ :=
    (recovers_of_index_missing hindex).exists_openIn cap hhouses fun _ => id
  obtain ⟨state', hserve, hrepresents, -⟩ :=
    exists_reopen_of_missing (fun _ => id) hhouses hindex cap table
  have hopened := outcome_serve_reopen hrun table
  rw [hserve] at hopened
  obtain ⟨-, rfl⟩ := Prod.mk.inj hopened
  rw [hserve]
  refine ⟨⟨hrepresents, .of_no_items hwhole rfl⟩, isPacked_nil hwhole (fun id hid => ?_) cap,
    fun _ => opened_cap _ _ _ _ _ _⟩
  rw [habove id fun entry hmem => ?_, hsegments]
  rw [written_of_missing hindex, List.mem_singleton] at hmem
  rw [hmem]
  exact Nat.ne_of_lt hid

/-- The files of a table show where its items are placed, and while it is open, an item is read as
the bytes that lie there. -/
structure LiesPlaced (place : Location) (name : String) (cap : Nat) (entries : List IndexEntry)
    (state : Table × Disk) : Prop where
  index : state.2.files.folder place (indexFileName name) = some (encodeAll entries)
  placed : Placed (fun id => state.2.files.folder place (segmentFileName name id)) cap entries
  read : state.1.index ≠ none → ∀ item, (retrieve item).outcome state =
    (itemAnswer ((extents entries).map (·.bytesIn (state.2.files.folder place) name)) item, state)

theorem Packs.liesPlaced (h : Packs place root name cap list state) (hcap : cap < offsetLimit) :
    LiesPlaced place name cap (packed cap list.items).entries state := by
  obtain ⟨items, isOpen⟩ := list
  obtain ⟨table, disk⟩ := state
  have hplaced := placed_packed hcap h.isPacked.packable
  refine ⟨h.isPacked.index, ?_, fun hopen item => ?_⟩
  · rwa [funext h.isPacked.segment]
  · cases isOpen with
    | false => exact absurd (h.keeping.represents.whenClosed rfl) hopen
    | true =>
        have hitems := h.keeping.represents.items
        rw [h.keeping.outcome_retrieve item, ← storedItems_eq_map_extents h.keeping.whole.unpruned]
        exact congrArg (fun items => (itemAnswer items item, _)) hitems

/-- A table that is made in a directory without any of its files, and always opened with the same
cap, places its items whole, one behind the other, and in a new segment only if need be, at each
point of what is done to it. -/
theorem exists_liesPlaced_of_missing (cap : UInt32)
    (hhouses : disk.files.Houses (IsFileOf name) root place)
    (hindex : disk.files.folder place (indexFileName name) = none)
    (hsegments : ∀ id, disk.files.folder place (segmentFileName name id) = none) (table : Table)
    {requests : List Request} (hcap : ∀ request ∈ requests, request.HasCap cap.toNat) :
    ∃ entries, LiesPlaced place name cap.toNat entries
      (served root name (.reopen cap.toNat :: requests) (table, disk)) := by
  obtain ⟨list, hpacks⟩ := (packs_of_missing hhouses hindex hsegments table).exists_served hcap
  exact ⟨_, hpacks.liesPlaced (UInt32.toNat_lt cap)⟩

/-- In an empty directory, under a cap of three bytes: an item of four, one that is cut away, and
empty ones. -/
theorem exists_liesPlaced_of_missing_emptyDirectory :
    (Disk.ofFiles (FileSystem.ofListing [])).files.folder ["a"]
        (indexFileName Column.hashes.name) = none ∧
      (∀ id, (Disk.ofFiles (FileSystem.ofListing [])).files.folder ["a"]
        (segmentFileName Column.hashes.name id) = none) ∧
      ∃ entries, LiesPlaced ["a"] Column.hashes.name 3 entries
        (served ⟨["", "a"]⟩ Column.hashes.name
          [.reopen 3, .append 0 [1, 2, 3, 4], .append 1 [], .append 2 [5, 6], .truncate 2, .close,
            .reopen 3, .append 2 [7, 8, 9], .append 3 []]
          (unopened ⟨["", "a"]⟩ Column.hashes.name, Disk.ofFiles (FileSystem.ofListing []))) := by
  have hmissing : ∀ file,
      (Disk.ofFiles (FileSystem.ofListing [])).files.folder ["a"] file = none := by
    intro file
    rw [Disk.ofFiles, FileSystem.folder_ofListing]
    rfl
  have hhouses : (Disk.ofFiles (FileSystem.ofListing [])).files.Houses
      (IsFileOf Column.hashes.name) ⟨["", "a"]⟩ ["a"] :=
    (Archive.houses_ofListing []).mono fun _ => Archive.isFile_of_isFileOf
  refine ⟨hmissing _, fun id => hmissing _, ?_⟩
  exact exists_liesPlaced_of_missing 3 hhouses (hmissing _) (fun id => hmissing _) _
    (by simp [Request.HasCap])

end BlockArchive.Table
