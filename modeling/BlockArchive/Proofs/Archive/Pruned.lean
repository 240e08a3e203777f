import BlockArchive.Proofs.Archive.Serving

/-! # Cutting tables of which items were pruned

The tables are cut one after the other, and a table refuses a cut into the items that were pruned
from it.  So a cut to too few items stops at the first table that refuses: the tables before it are
cut by then, and stay so.

* **Cutting.** `IsOpenOn.exists_cutTables` and `IsOpenOn.exists_cutTables_refused` say what is left
  when no table refuses, and when one does.
* **Where it happens.** `truncate` cuts an open archive (`truncate_in_order`), and opening evens out
  the tables (`openAt_in_order`); `failed_cut_in_order` has both for a cut that fails.
* **Uneven.** `exists_uneven_truncate` is a cut that fails and leaves tables with one item and with
  three. -/

namespace BlockArchive.Archive

open IndexEntry Table

variable {names : String → Prop} {archive archive' : Archive} {disk disk' : Disk} {root : Path}
  {place : Location} {cap count : Nat} {entries : ByColumn (List IndexEntry)} {c : Column}
  {done rest : List Column} {settings : Settings}

/-! ### Cutting all tables -/

theorem IsOpenOn.outcome_cutColumn_of_lt (h : archive.IsOpenOn names disk root place cap entries)
    (hlt : count < (archive.tables.get c).itemOffset) :
    (Archive.onTable c (Table.truncate count)).outcome (archive, disk) =
      (.error (.outOfBounds count (archive.tables.get c).itemOffset (archive.tables.get c).items),
        (archive, disk)) := by
  have hindex : (archive.tables.get c).index =
      some (.file (disk.files.number place (indexFileName c.name)) true) := by
    rw [h.table_eq, opened_index]
  have hitems : count < (archive.tables.get c).items := by
    rw [h.table_eq, opened_itemOffset] at hlt
    rw [h.table_eq, opened_items]
    omega
  rw [Archive.onTable, Attempt.outcome_onFirst, outcome_truncate_of_lt hindex hitems hlt]
  simp only [set_tables_get]

/-- What a cut of some tables leaves: they have `count` items at most, and the others are as they
were. -/
structure CutsBack (done : List Column) (count : Nat) (place : Location) (archive : Archive)
    (disk : Disk) (archive' : Archive) (disk' : Disk) : Prop where
  cut : ∀ c ∈ done, (archive'.tables.get c).items = min count (archive.tables.get c).items
  left : ∀ c ∉ done, archive'.tables.get c = archive.tables.get c ∧
    SameFiles (disk.files.folder place) (disk'.files.folder place) c.name

theorem length_keepTo_sub_one (all : List IndexEntry) (count : Nat) :
    (keepTo count all).length - 1 =
      min (count - (firstOf all).offset.toNat) (all.length - 1) := by
  rw [keepTo, List.length_take]
  omega

theorem IsOpenOn.exists_cutsBack (h : archive.IsOpenOn names disk root place cap entries)
    (hnodup : done.Nodup) (hdone : ∀ d ∈ done, (archive.tables.get d).itemOffset ≤ count) :
    ∃ archive' disk',
      (∀ rest : List Column,
        ((done ++ rest).forM fun c => Archive.onTable c (Table.truncate count)).outcome
            (archive, disk) =
          (rest.forM fun c => Archive.onTable c (Table.truncate count)).outcome
            (archive', disk')) ∧
      archive'.IsOpenOn names disk' root place cap (keepIn done count entries) ∧
      archive'.blocks = archive.blocks ∧ disk'.locked = disk.locked ∧
      CutsBack done count place archive disk archive' disk' := by
  obtain ⟨archive', disk', hrun, hopen', htouches, -⟩ :=
    h.exists_cutColumns hnodup fun d hd _ => hdone d hd
  obtain ⟨changes, -, hdisk'⟩ := htouches.changed
  refine ⟨archive', disk', hrun, hopen', htouches.blocks, ?_, fun d hd => ?_, fun d hd => ?_⟩
  · rw [hdisk', Disk.locked_after]
  · have hoffset := hdone d hd
    rw [h.table_eq, opened_itemOffset] at hoffset
    rw [hopen'.table_eq, h.table_eq, opened_items, opened_items, get_keepIn, if_pos hd,
      length_keepTo_sub_one, keepTo, firstOf_take]
    omega
  · exact ⟨(htouches.others d hd).1, (htouches.others d hd).2.files⟩

theorem IsOpenOn.exists_cutTables (h : archive.IsOpenOn names disk root place cap entries)
    (hcount : ∀ c : Column, (archive.tables.get c).itemOffset ≤ count) :
    ∃ archive' disk', (cutTables count).outcome (archive, disk) = (.ok (), (archive', disk')) ∧
      archive'.IsOpenOn names disk' root place cap (keepIn Column.all count entries) ∧
      CutsBack Column.all count place archive disk archive' disk' := by
  obtain ⟨archive', disk', hrun, hopen', -, -, hcuts⟩ :=
    h.exists_cutsBack (show Column.all.Nodup by decide) fun d _ => hcount d
  have hrun := hrun []
  rw [List.append_nil] at hrun
  exact ⟨archive', disk', hrun, hopen', hcuts⟩

/-- The tables before the first one that refuses are cut, and no others. -/
theorem IsOpenOn.exists_cutTables_refused (h : archive.IsOpenOn names disk root place cap entries)
    (hall : Column.all = done ++ c :: rest)
    (hdone : ∀ d ∈ done, (archive.tables.get d).itemOffset ≤ count)
    (hlt : count < (archive.tables.get c).itemOffset) :
    ∃ archive' disk', (cutTables count).outcome (archive, disk) =
        (.error (.outOfBounds count (archive.tables.get c).itemOffset
          (archive.tables.get c).items), (archive', disk')) ∧
      archive'.IsOpenOn names disk' root place cap (keepIn done count entries) ∧
      archive'.blocks = archive.blocks ∧ disk'.locked = disk.locked ∧
      CutsBack done count place archive disk archive' disk' := by
  have hnodup : (done ++ c :: rest).Nodup := hall ▸ (by decide : Column.all.Nodup)
  obtain ⟨hnodup, -, hdisjoint⟩ := List.nodup_append.1 hnodup
  obtain ⟨archive', disk', hrun, hopen', hblocks, hlocked, hcuts⟩ :=
    h.exists_cutsBack hnodup hdone
  have hc : c ∉ done := fun hmem => hdisjoint c hmem c List.mem_cons_self rfl
  have htable := (hcuts.left c hc).1
  refine ⟨archive', disk', ?_, hopen', hblocks, hlocked, hcuts⟩
  rw [← htable] at hlt ⊢
  rw [cutTables, hall, hrun, List.forM,
    Attempt.outcome_bind_error (hopen'.outcome_cutColumn_of_lt hlt)]

/-! ### Where tables are cut -/

/-- Cutting an archive goes through the tables in the order of the columns, up to the first that
refuses. -/
theorem truncate_in_order (h : archive.IsOpenOn names disk root place cap entries)
    (hblocks : count < archive.blocks) :
    ((∀ c : Column, (archive.tables.get c).itemOffset ≤ count) →
      ∃ archive' disk', (truncate count).outcome (archive, disk) =
          (.ok (), ({ archive' with blocks := count }, disk')) ∧
        CutsBack Column.all count place archive disk archive' disk') ∧
    ∀ {done : List Column} {c : Column} {rest : List Column}, Column.all = done ++ c :: rest →
      (∀ d ∈ done, (archive.tables.get d).itemOffset ≤ count) →
      count < (archive.tables.get c).itemOffset →
      ∃ archive' disk', (truncate count).outcome (archive, disk) =
          (.error (.outOfBounds count (archive.tables.get c).itemOffset
            (archive.tables.get c).items), (archive', disk')) ∧
        archive'.blocks = archive.blocks ∧
        CutsBack done count place archive disk archive' disk' := by
  have hrun : (truncate count).outcome (archive, disk) =
      (do cutTables count
          Attempt.update fun archive => { archive with blocks := count } :
        Action (Archive × Disk) Unit).outcome (archive, disk) := by
    unfold truncate
    rw [Attempt.outcome_bind_ok (outcome_ensureOpen h.closed disk),
      Attempt.outcome_bind_ok (Attempt.outcome_current _ _), if_neg (Nat.not_le.2 hblocks)]
  rw [hrun]
  refine ⟨fun hcount => ?_, fun hall hdone hlt => ?_⟩
  · obtain ⟨archive', disk', hcut, -, hcuts⟩ := h.exists_cutTables hcount
    exact ⟨archive', disk', by rw [Attempt.outcome_bind_ok hcut]; rfl, hcuts⟩
  · obtain ⟨archive', disk', hcut, -, hblocks', -, hcuts⟩ :=
      h.exists_cutTables_refused hall hdone hlt
    exact ⟨archive', disk', Attempt.outcome_bind_error hcut _, hblocks', hcuts⟩

/-- The number of items of a table with these entries, pruned ones included. -/
def itemsOf (all : List IndexEntry) : Nat :=
  (firstOf all).offset.toNat + (all.length - 1)

/-- Opening evens out the tables in the same way: if one of them refuses, opening fails, and the
tables before it have been cut. -/
theorem openAt_in_order (hhouses : disk.files.Houses IsFile root place) (hlocked : disk.locked = [])
    (h : ∀ c : Column, Intact (disk.files.folder place) c.name (entries.get c))
    (hle : ∀ c : Column, count ≤ itemsOf (entries.get c))
    (hshortest : ∃ c : Column, itemsOf (entries.get c) = count)
    (hall : Column.all = done ++ c :: rest)
    (hdone : ∀ d ∈ done, (firstOf (entries.get d)).offset.toNat ≤ count)
    (hlt : count < (firstOf (entries.get c)).offset.toNat) (settings : Settings) :
    ∃ disk', (openAt root settings).outcome disk =
        (.error (.outOfBounds count (firstOf (entries.get c)).offset.toNat
          (itemsOf (entries.get c))), disk') ∧
      disk'.locked = [] ∧
      (∀ d ∈ done,
        Intact (disk'.files.folder place) d.name (keepTo count (entries.get d))) ∧
      ∀ d ∉ done, SameFiles (disk.files.folder place) (disk'.files.folder place) d.name := by
  obtain ⟨uneven, disk₁, hopen, -, hsame, hrun⟩ := exists_uneven hhouses hlocked h settings
  have hitems : ∀ d : Column, (uneven.tables.get d).items = itemsOf (entries.get d) := fun d => by
    rw [hopen.table_eq, opened_items, itemsOf]
  have hoffset : ∀ d : Column,
      (uneven.tables.get d).itemOffset = (firstOf (entries.get d)).offset.toNat := fun d => by
    rw [hopen.table_eq, opened_itemOffset]
  have hcount : shortest uneven.tables = count :=
    shortest_eq (fun d => by rw [hitems]; exact hle d)
      (hshortest.imp fun d hd => by rw [hitems, hd])
  obtain ⟨archive', disk₂, hcut, hopen', -, hlocked₂, hcuts⟩ :=
    hopen.exists_cutTables_refused hall (fun d hd => by rw [hoffset]; exact hdone d hd)
      (by rw [hoffset]; exact hlt)
  rw [hoffset, hitems] at hcut
  have heven : evenOut.outcome (uneven, disk₁) = (.error (.outOfBounds count
      (firstOf (entries.get c)).offset.toNat (itemsOf (entries.get c))), (archive', disk₂)) := by
    unfold evenOut
    rw [Attempt.outcome_bind_ok (Attempt.outcome_current _ _)]
    simp only [hcount]
    rw [Attempt.outcome_bind_error hcut]
  rw [heven] at hrun
  refine ⟨_, hrun, ?_, fun d hd => ?_, fun d hd => (hsame d).trans (hcuts.left d hd).2⟩
  · simp only [hlocked₂, hopen.locked]
    simp
  · have hintact := hopen'.intact d
    rwa [get_keepIn, if_pos hd] at hintact

/-! ### A cut that fails -/

/-- What a cut leaves that stops at a table from which more than `count` items were pruned.  The
tables before it have been cut, whether an archive is cut that is open, or one that is being
opened; the others are as they were. -/
theorem failed_cut_in_order (hall : Column.all = done ++ c :: rest) (count : Nat) :
    (∀ {names : String → Prop} {archive : Archive} {disk : Disk} {root : Path} {place : Location}
        {cap : Nat} {entries : ByColumn (List IndexEntry)},
      archive.IsOpenOn names disk root place cap entries → count < archive.blocks →
      (∀ d ∈ done, (archive.tables.get d).itemOffset ≤ count) →
      count < (archive.tables.get c).itemOffset →
      ∃ archive' disk', (truncate count).outcome (archive, disk) =
          (.error (.outOfBounds count (archive.tables.get c).itemOffset
            (archive.tables.get c).items), (archive', disk')) ∧
        archive'.blocks = archive.blocks ∧
        CutsBack done count place archive disk archive' disk') ∧
    ∀ {disk : Disk} {root : Path} {place : Location} {entries : ByColumn (List IndexEntry)},
      disk.files.Houses IsFile root place → disk.locked = [] →
      (∀ d : Column, Intact (disk.files.folder place) d.name (entries.get d)) →
      (∀ d : Column, count ≤ itemsOf (entries.get d)) →
      (∃ d : Column, itemsOf (entries.get d) = count) →
      (∀ d ∈ done, (firstOf (entries.get d)).offset.toNat ≤ count) →
      count < (firstOf (entries.get c)).offset.toNat → ∀ settings,
      ∃ disk', (openAt root settings).outcome disk =
          (.error (.outOfBounds count (firstOf (entries.get c)).offset.toNat
            (itemsOf (entries.get c))), disk') ∧
        disk'.locked = [] ∧
        (∀ d ∈ done,
          Intact (disk'.files.folder place) d.name (keepTo count (entries.get d))) ∧
        ∀ d ∉ done, SameFiles (disk.files.folder place) (disk'.files.folder place) d.name :=
  ⟨fun h hblocks hdone hlt => (truncate_in_order h hblocks).2 hall hdone hlt,
    fun hhouses hlocked h hle hshortest hdone hlt settings =>
      openAt_in_order hhouses hlocked h hle hshortest hall hdone hlt settings⟩

/-- Three items in each table but the last, of which two were pruned from the bodies. -/
def prunedEntries (last : Nat) : ByColumn (List IndexEntry) :=
  .ofFn fun c => match c with
    | .bodies => [⟨0, 2⟩, ⟨0, 1⟩]
    | .interchain => [⟨0, 0⟩, ⟨0, 1⟩, ⟨0, 2⟩, ⟨0, 3⟩].take (last + 1)
    | _ => [⟨0, 0⟩, ⟨0, 1⟩, ⟨0, 2⟩, ⟨0, 3⟩]

/-- The files of these tables. -/
def prunedBodies (last : Nat) : List (String × Bytes) :=
  (DirectoryLock.fileName, []) :: Column.all.flatMap fun c =>
    [(indexFileName c.name, encodeAll ((prunedEntries last).get c)),
      (segmentFileName c.name 0, [170, 187, 204].take
        (lastOf ((prunedEntries last).get c)).offset.toNat)]

theorem intact_prunedBodies {last : Nat} (hlast : last = 1 ∨ last = 3) (c : Column) :
    Intact ((FileSystem.ofListing (prunedBodies last)).folder ["a"]) c.name
      ((prunedEntries last).get c) := by
  rw [FileSystem.folder_ofListing]
  have hhead : (firstOf (grounded ((prunedEntries last).get c))).segment.toNat = 0 ∧
      (lastOf (grounded ((prunedEntries last).get c))).segment.toNat = 0 := by
    rcases hlast with rfl | rfl <;> cases c <;> decide
  refine ⟨⟨?_, ?_, ?_⟩, ?_, ?_, ?_, ?_, ?_, fun id hlow hlt => ?_⟩
  · rcases hlast with rfl | rfl <;> cases c <;> decide +kernel
  · rcases hlast with rfl | rfl <;> cases c <;> decide +kernel
  · rcases hlast with rfl | rfl <;> cases c <;> decide +kernel
  · rcases hlast with rfl | rfl <;> cases c <;> decide
  · exact firstOf_grounded_offset _
  · rcases hlast with rfl | rfl <;> cases c <;>
      simp [prunedEntries, ByColumn.ofFn, ByColumn.get, grounded, IsStorable]
  · rcases hlast with rfl | rfl <;> cases c <;>
      simp [prunedEntries, ByColumn.ofFn, ByColumn.get, grounded, Precedes]
  · rcases hlast with rfl | rfl <;> cases c <;> decide +kernel
  · omega

/-- Only the hashes are cut to one item, as the bodies refuse. -/
theorem failed_cut_in_order_prunedBodies :
    (∃ archive' disk', (truncate 1).outcome
        (openOn (FileSystem.ofListing (prunedBodies 3)) ["a"] ⟨["", "a"]⟩ 5 (prunedEntries 3) 3,
          diskOn (FileSystem.ofListing (prunedBodies 3)) ["a"]) =
        (.error (.outOfBounds 1 2 3), (archive', disk')) ∧
      archive'.blocks = 3 ∧ (archive'.tables.get .hashes).items = 1) ∧
    ∃ disk', (openAt ⟨["", "a"]⟩ {}).outcome
        (Disk.ofFiles (FileSystem.ofListing (prunedBodies 1))) =
        (.error (.outOfBounds 1 2 3), disk') ∧
      Intact (disk'.files.folder ["a"]) Column.hashes.name [⟨0, 0⟩, ⟨0, 1⟩] := by
  have hlock : (FileSystem.ofListing (prunedBodies 3)).folder ["a"] DirectoryLock.fileName ≠
      none := by
    rw [FileSystem.folder_ofListing]
    decide +kernel
  have hall : Column.all =
      [.hashes] ++ .bodies :: [.transactions, .receipts, .interchain] := rfl
  obtain ⟨htruncate, hopen⟩ := failed_cut_in_order hall 1
  constructor
  · obtain ⟨archive', disk', hrun, hblocks, hcuts⟩ := htruncate
      (isOpenOn_openOn (houses_ofListing _) hlock (intact_prunedBodies (.inr rfl)) 5 3) (by decide)
      (by decide +kernel) (by decide +kernel)
    exact ⟨archive', disk', hrun, hblocks, hcuts.cut .hashes (by simp)⟩
  · obtain ⟨disk', hrun, -, hcut, -⟩ := @hopen (Disk.ofFiles (.ofListing (prunedBodies 1)))
      ⟨["", "a"]⟩ ["a"] (prunedEntries 1) (houses_ofListing _) rfl (intact_prunedBodies (.inl rfl))
      (fun d => by cases d <;> decide) ⟨.interchain, by decide⟩ (by decide) (by decide) {}
    exact ⟨disk', hrun, hcut .hashes (by simp)⟩

/-- An archive is opened whose tables hold three items each, and cut to one block.  The cut fails,
and leaves one hash and three items of interchain data. -/
theorem exists_uneven_truncate :
    ∃ archive disk e archive' disk',
      (openAt ⟨["", "a"]⟩ {}).outcome (Disk.ofFiles (FileSystem.ofListing (prunedBodies 3))) =
        (.ok archive, disk) ∧
      (truncate 1).outcome (archive, disk) = (.error e, (archive', disk')) ∧
      archive.blocks = 3 ∧ (∀ c : Column, (archive.tables.get c).items = 3) ∧
      archive'.blocks = 3 ∧ (archive'.tables.get .hashes).items = 1 ∧
      (archive'.tables.get .interchain).items = 3 := by
  have hcheck : (match (openAt ⟨["", "a"]⟩ {}).outcome
      (Disk.ofFiles (FileSystem.ofListing (prunedBodies 3))) with
    | (.ok archive, disk) =>
        match (truncate 1).outcome (archive, disk) with
        | (.error _, (archive', _)) =>
            decide (archive.blocks = 3 ∧ (∀ c ∈ Column.all, (archive.tables.get c).items = 3) ∧
              archive'.blocks = 3 ∧ (archive'.tables.get .hashes).items = 1 ∧
              (archive'.tables.get .interchain).items = 3)
        | (.ok _, _) => false
    | (.error _, _) => false) = true := by
    decide +kernel
  split at hcheck
  · next archive disk hopen =>
      split at hcheck
      · next e archive' disk' htruncate =>
          obtain ⟨hblocks, hitems, hleft⟩ := of_decide_eq_true hcheck
          exact ⟨archive, disk, e, archive', disk', hopen, htruncate, hblocks,
            fun c => hitems c (Column.mem_all c), hleft⟩
      · simp at hcheck
  · simp at hcheck

end BlockArchive.Archive
