import BlockArchive.Proofs.Archive.Files
import BlockArchive.Proofs.Listing
import BlockArchive.Proofs.Table.Counting

/-! # Counters through any use

A cut goes to the segment that the last entry kept names.  That may be an earlier one, a later one,
or one that is not open; the segments above it are deleted, also those that entries name, and the
segment is cut, or filled up with zeros.

* **`FailsOnly`**: the reasons for which an attempt can fail.
* **Cutting.** Each part of a cut leaves the table aligned (`Counted.aligned_cutIndex`,
  `Aligned.of_switches`), and the last leaves its counters fitting its files
  (`Aligned.counted_of_cutHead`, `Counted.of_truncate`), unless the file system fails.
* **`FitsWords`**: computed with words instead of numbers, all comes out the same.
* **Run.** By induction on the requests, the counters fit the files after any use of a table
  (`counted_served`), and hence of any table that opening accepts (`counters_fit_of_openIn`). -/

namespace BlockArchive

/-! ### Reasons to fail -/

/-- Whether it is the file system that failed. -/
def Error.IsIo (e : Error) : Prop := ∃ cause, e = .io cause

namespace Attempt

variable {ε σ τ α β : Type} {p : ε → Prop}

/-- An attempt that fails for these reasons only. -/
def FailsOnly (p : ε → Prop) (attempt : Attempt ε σ α) : Prop :=
  ∀ s e, (attempt.outcome s).1 = .error e → p e

theorem failsOnly_pure (a : α) : FailsOnly p (pure a : Attempt ε σ α) := by
  intro s e h
  simp [outcome_pure] at h

theorem failsOnly_throw {e : ε} (he : p e) : FailsOnly p (throw e : Attempt ε σ α) := by
  intro s e' h
  obtain rfl : e = e' := by simpa [outcome_throw] using h
  exact he

theorem failsOnly_get : FailsOnly p (get : Attempt ε σ σ) := by
  intro s e h
  simp [outcome_get] at h

theorem failsOnly_ite {c : Prop} [Decidable c] {first second : Attempt ε σ α}
    (hfirst : FailsOnly p first) (hsecond : FailsOnly p second) :
    FailsOnly p (if c then first else second) := by
  split <;> assumption

theorem failsOnly_bind {first : Attempt ε σ α} {next : α → Attempt ε σ β}
    (hfirst : FailsOnly p first) (hnext : ∀ a, FailsOnly p (next a)) :
    FailsOnly p (first >>= next) := by
  intro s e h
  rcases hrun : first.outcome s with ⟨answer, s₁⟩
  cases answer with
  | ok a =>
      rw [outcome_bind_ok hrun] at h
      exact hnext a s₁ e h
  | error e' =>
      rw [outcome_bind_error hrun] at h
      obtain rfl : e' = e := by simpa using h
      exact hfirst s e' (by rw [hrun])

theorem failsOnly_tryCatch {attempt : Attempt ε σ α} {handler : ε → Attempt ε σ α}
    (hattempt : FailsOnly p attempt) (hhandler : ∀ e, p e → FailsOnly p (handler e)) :
    FailsOnly p (tryCatch attempt handler) := by
  intro s e h
  rw [outcome_tryCatch] at h
  rcases hrun : attempt.outcome s with ⟨answer, s₁⟩
  rw [hrun] at h
  cases answer with
  | ok a => simp at h
  | error e' => exact hhandler e' (hattempt s e' (by rw [hrun])) s₁ e h

end Attempt

namespace Table

open IndexEntry FileSystem Attempt

variable {names : String → Prop} {place : Location} {root : Path} {name : String} {cap : Nat}
  {table table' : Table} {disk disk' : Disk} {data : Bytes}

/-! ### Cutting -/

theorem failsOnly_readEntry (index : Handle) (n : Nat) :
    FailsOnly Error.IsIo (readEntry index n) := by
  refine failsOnly_bind ?_ fun _ => failsOnly_pure _
  unfold Handle.read
  cases index with
  | file id writable =>
      refine failsOnly_bind failsOnly_get fun disk => ?_
      split
      · exact failsOnly_pure _
      · exact failsOnly_throw ⟨_, rfl⟩
  | directory => exact failsOnly_ite (failsOnly_pure _) (failsOnly_throw ⟨_, rfl⟩)

theorem failsOnly_deleteSegments (dir : Path) (name : String) (ids : List Nat) :
    FailsOnly Error.IsIo (deleteSegments dir name ids) := by
  induction ids with
  | nil => exact failsOnly_pure _
  | cons id ids ih =>
      refine failsOnly_bind (failsOnly_tryCatch ?_ fun e he => ?_) fun _ => ih
      · exact fun disk e h => (Disk.eq_of_removeFile_error (Prod.ext h rfl)).2
      · exact failsOnly_ite (failsOnly_pure _) (failsOnly_throw he)

theorem Switches.isIo {new : Nat} {e : Error}
    (h : Switches table disk new (.error e) table' disk') : e.IsIo := by
  cases h with
  | blocked hopen => exact Disk.exists_of_openFile_error hopen
  | held hopen hdelete => exact failsOnly_deleteSegments _ _ _ _ e (by rw [hdelete])

theorem lodges_of_deleteSegments (hlodges : disk.files.Lodges names (IsFileOf name) root place)
    {ids : List Nat} (hids : ∀ id ∈ ids, id ≤ lastSegmentId) {answer : Except Error Unit}
    (hrun : (deleteSegments root name ids).outcome disk = (answer, disk')) :
    disk'.files.Lodges names (IsFileOf name) root place ∧
      ∀ file, (∀ id ∈ ids, file ≠ segmentFileName name id) →
        disk'.files.folder place file = disk.files.folder place file ∧
          disk'.files.number place file = disk.files.number place file := by
  induction ids generalizing disk with
  | nil =>
      obtain ⟨-, rfl⟩ := by simpa [deleteSegments, outcome_pure] using hrun
      exact ⟨hlodges, fun file _ => ⟨rfl, rfl⟩⟩
  | cons id ids ih =>
      have hall := isFileOf_segment name (hids id List.mem_cons_self)
      have hrest : ∀ disk₁, Disk.Sets names (IsFileOf name) root place (segmentFileName name id)
          none disk disk₁ → (deleteSegments root name ids).outcome disk₁ = (answer, disk') →
          disk'.files.Lodges names (IsFileOf name) root place ∧
            ∀ file, (∀ other ∈ id :: ids, file ≠ segmentFileName name other) →
              disk'.files.folder place file = disk.files.folder place file ∧
                disk'.files.number place file = disk.files.number place file := by
        intro disk₁ hsets hrun
        obtain ⟨hlodges', hsame⟩ := ih hsets.lodges
          (fun other hother => hids other (List.mem_cons_of_mem _ hother)) hrun
        refine ⟨hlodges', fun file hfile => ?_⟩
        obtain ⟨hfolder, hnumber⟩ := hsame file fun other hother => hfile other (by simp [hother])
        have hne := hfile id List.mem_cons_self
        exact ⟨hfolder.trans (hsets.folder_of_ne hne), hnumber.trans (hsets.number_of_ne hne)⟩
      unfold deleteSegments at hrun
      rw [outcome_bind, outcome_tryCatch] at hrun
      rcases hremove : (Disk.removeFile (segmentPath root name id)).outcome disk with
        ⟨removed, disk₁⟩
      rw [hremove] at hrun
      cases removed with
      | ok u => exact hrest disk₁ (Disk.sets_of_removeFile hlodges hall hremove (.inl rfl)) hrun
      | error e =>
          simp only at hrun
          split_ifs at hrun with he
          · exact hrest disk₁ (Disk.sets_of_removeFile hlodges hall hremove (.inr (by rw [he]))) hrun
          · obtain rfl := (Disk.eq_of_removeFile_error hremove).1
            obtain ⟨-, rfl⟩ := by simpa [outcome_throw] using hrun
            exact ⟨hlodges, fun file _ => ⟨rfl, rfl⟩⟩

namespace Aligned

variable {items : Nat} (h : Aligned names place root name items table disk)
include h

/-- With the head cut to a length, the counters fit the files. -/
theorem counted_of_cutHead {length : Nat} (hlength : length < offsetLimit) {head : Handle}
    (hhead : table.segments.get? table.headId = some head)
    (hcut : (head.setLength length).outcome disk = (.ok (), disk')) :
    Counted names place root name { table with items, headBytes := length } disk' := by
  obtain rfl := Option.some.inj (h.head.symm.trans hhead)
  rw [Handle.outcome_setLength] at hcut
  obtain rfl := (Prod.mk.inj hcut).2
  obtain ⟨content, hcontent⟩ := Option.ne_none_iff_exists'.1 h.headThere
  have hsets := Disk.sets_setLength h.lodges h.names_head hcontent length
  have hnumber : ∀ file, (disk.change place (.setLength (segmentFileName name table.headId)
      length)).files.number place file = disk.files.number place file :=
    fun file => Change.number_effect (by simp)
  exact {
    lodges := hsets.lodges
    dir := h.dir
    named := h.named
    itemOffset_lt := h.itemOffset_lt
    itemOffset_le := h.itemOffset_le
    index := h.index.trans (by rw [hnumber])
    indexed := by
      rw [hsets.folder_of_ne (indexFileName_ne_segmentFileName _ _ _)]
      exact h.indexed
    headId_le := h.headId_le
    head := h.head.trans (by rw [hnumber])
    headThere := by simp [hsets.folder_self]
    headBytes_lt := hlength
    headBytes := ⟨_, hsets.folder_self, Bytes.length_resize _ _⟩
    above := h.above }

/-- Another segment, before the head or behind it, becomes the head. -/
theorem of_switches {new : Nat} (hnew : new ≤ lastSegmentId)
    (hswitches : Switches table disk new (.ok ()) table' disk') :
    Aligned names place root name items table' disk' := by
  cases hswitches with
  | @done handle disk₁ _ hopen hdelete =>
      -- the segment is made if it is missing, and then those above it go
      rw [h.dir, h.named] at hopen hdelete
      have hname := Disk.names_of_openFile h.lodges (isFileOf_segment name hnew) (by decide) hopen
      obtain ⟨disk₂, hsets, hopen'⟩ := Disk.exists_openFile_update h.lodges hname
      rw [segmentPath, hopen'] at hopen
      obtain ⟨rfl, rfl⟩ := by simpa using hopen
      have hids : ∀ id ∈ (table.segments.above new).map Prod.fst,
          new < id ∧ id ≤ lastSegmentId := by
        intro id hmem
        obtain ⟨segment, hsegment, rfl⟩ := List.mem_map.1 hmem
        obtain ⟨hsegment, habove⟩ := List.mem_filter.1 hsegment
        exact ⟨by simpa using habove, Nat.le_trans (h.le_of_mem hsegment) h.headId_le⟩
      obtain ⟨hlodges, hsame⟩ := lodges_of_deleteSegments hsets.lodges
        (fun id hmem => (hids id hmem).2) hdelete
      obtain ⟨hindex, hindex'⟩ := hsame _ fun id _ => indexFileName_ne_segmentFileName name name id
      obtain ⟨hhead, hhead'⟩ := hsame (segmentFileName name new) fun id hmem =>
        segmentFileName_ne (Nat.ne_of_lt (hids id hmem).1)
      have hne := indexFileName_ne_segmentFileName name name new
      have hget := get?_switched table new
        (.file (disk₂.files.number place (segmentFileName name new)) true)
      exact {
        lodges := hlodges
        dir := h.dir
        named := h.named
        itemOffset_lt := h.itemOffset_lt
        itemOffset_le := h.itemOffset_le
        index := by rw [hindex', hsets.number_of_ne hne, h.index]
        indexed := by
          rw [hindex, hsets.folder_of_ne hne]
          exact h.indexed
        headId_le := hnew
        head := by rw [hget, if_pos (Nat.le_refl _), if_pos rfl, hhead']
        headThere := by simp [hhead, hsets.folder_self]
        above := fun id hid => by rw [hget, if_neg (Nat.not_le.2 hid)] }

theorem of_goesOn {new : Nat} (hnew : new ≤ lastSegmentId)
    (hgoes : GoesOn table disk new table' disk') :
    Aligned names place root name items table' disk' := by
  cases hgoes with
  | same => exact h
  | switched hne hswitches => exact h.of_switches hnew hswitches

end Aligned

/-- With entries dropped, the index ends behind that of the last item kept. -/
theorem Counted.aligned_cutIndex (h : Counted names place root name table disk) {items : Nat}
    (hle : table.itemOffset ≤ items) :
    Aligned names place root name items table (disk.change place (.setLength (indexFileName name)
      (position (items - table.itemOffset + 1)))) := by
  obtain ⟨data, hdata, -⟩ := h.indexed
  have hsets := Disk.sets_setLength h.lodges h.names_index hdata
    (position (items - table.itemOffset + 1))
  have hnumber : ∀ file, (disk.change place (.setLength (indexFileName name)
      (position (items - table.itemOffset + 1)))).files.number place file =
        disk.files.number place file :=
    fun file => Change.number_effect (by simp)
  exact {
    lodges := hsets.lodges
    dir := h.dir
    named := h.named
    itemOffset_lt := h.itemOffset_lt
    itemOffset_le := hle
    index := by rw [hnumber, h.index]
    indexed := ⟨_, hsets.folder_self, Bytes.length_resize _ _⟩
    headId_le := h.headId_le
    head := by rw [hnumber, h.head]
    headThere := by
      rw [hsets.folder_of_ne (Ne.symm (indexFileName_ne_segmentFileName _ _ _))]
      exact h.headThere
    above := h.above }

/-- After a cut the counters fit the files, unless the file system failed. -/
theorem Counted.of_truncate (h : Counted names place root name table disk) {items : Nat}
    {answer : Except Error Unit}
    (hrun : (truncate items).outcome (table, disk) = (answer, (table', disk')))
    (hanswer : ∀ e, answer = .error e → ¬e.IsIo) : Counted names place root name table' disk' := by
  have haligned : ∀ index disk₁, Shortens table items index disk disk₁ →
      Aligned names place root name items table disk₁ := by
    rintro index disk₁ ⟨hle, hlt, hindex, hcut⟩
    obtain rfl := Option.some.inj (h.index.symm.trans hindex)
    rw [Handle.outcome_setLength] at hcut
    obtain rfl := (Prod.mk.inj hcut).2
    exact h.aligned_cutIndex hle
  cases h.equipped.cuts hrun with
  | kept => exact h
  | @unread _ _ e hshort hread =>
      exact absurd (failsOnly_readEntry _ _ _ e (by rw [hread])) (hanswer e rfl)
  | @unswitched _ _ _ _ e _ hshort hread hne hswitches =>
      exact absurd hswitches.isIo (hanswer e rfl)
  | missing hshort hread hgoes hlost =>
      have hstart := (haligned _ _ hshort).of_goesOn (isStorable_of_readEntry hread).1 hgoes
      rw [← (h.equipped.goesOn hgoes).2, hstart.head] at hlost
      simp at hlost
  | @done _ _ _ _ _ last _ hshort hread hgoes hhead hcut =>
      have hstart := (haligned _ _ hshort).of_goesOn (isStorable_of_readEntry hread).1 hgoes
      rw [← (h.equipped.goesOn hgoes).2] at hhead
      exact hstart.counted_of_cutHead last.offset.toNat_lt hhead hcut

/-! ### Numbers in words -/

/-- Computed with words, 64 bits wide for items and positions and 32 for ids, the numbers come out
the same: none goes below zero or past the end of a word. -/
structure FitsWords (table : Table) : Prop where
  entry : ∀ item, table.itemOffset ≤ item → item ≤ table.items →
    (UInt64.ofNat item - UInt64.ofNat table.itemOffset + 1).toNat = item - table.itemOffset + 1
  position : ∀ item, table.itemOffset ≤ item → item ≤ table.items →
    ((UInt64.ofNat item - UInt64.ofNat table.itemOffset + 1) * UInt64.ofNat width).toNat =
      position (item - table.itemOffset + 1)
  items : (UInt64.ofNat table.items + 1).toNat = table.items + 1
  headId : (UInt32.ofNat table.headId + 1).toNat = table.headId + 1
  headBytes : (UInt32.ofNat table.headBytes).toNat = table.headBytes

theorem toNat_sub_add_one {m n : Nat} (hle : n ≤ m) (hlt : m + 1 < UInt64.size) :
    (UInt64.ofNat m - UInt64.ofNat n + 1).toNat = m - n + 1 := by
  have hm : (UInt64.ofNat m).toNat = m := UInt64.toNat_ofNat_of_lt' (by omega)
  have hn : (UInt64.ofNat n).toNat = n := UInt64.toNat_ofNat_of_lt' (by omega)
  have hsub : UInt64.ofNat n ≤ UInt64.ofNat m := UInt64.le_iff_toNat_le.2 (by rwa [hm, hn])
  rw [UInt64.toNat_add, UInt64.toNat_sub_of_le _ _ hsub, hm, hn]
  exact Nat.mod_eq_of_lt (Nat.lt_of_le_of_lt (Nat.succ_le_succ (Nat.sub_le _ _)) hlt)

theorem Counted.fitsWords (h : Counted names place root name table disk)
    (hdata : disk.files.folder place (indexFileName name) = some data)
    (hlength : data.length < UInt64.size) : FitsWords table := by
  obtain ⟨_, hdata', hposition⟩ := h.indexed
  obtain rfl := Option.some.inj (hdata.symm.trans hdata')
  rw [hposition, position, width] at hlength
  have hoffset : table.itemOffset < 2 ^ 32 := h.itemOffset_lt
  have hheadId : table.headId ≤ 65535 := h.headId_le
  have hitems : table.items + 1 < 2 ^ 64 := by
    have hsize : UInt64.size = 2 ^ 64 := rfl
    omega
  have hentry : ∀ item, table.itemOffset ≤ item → item ≤ table.items →
      (UInt64.ofNat item - UInt64.ofNat table.itemOffset + 1).toNat = item - table.itemOffset + 1 :=
    fun item hlow hhigh =>
      toNat_sub_add_one hlow (Nat.lt_of_le_of_lt (Nat.succ_le_succ hhigh) hitems)
  refine ⟨hentry, fun item hlow hhigh => ?_, ?_, ?_, UInt32.toNat_ofNat_of_lt' h.headBytes_lt⟩
  · rw [UInt64.toNat_mul, hentry item hlow hhigh]
    refine Nat.mod_eq_of_lt (Nat.lt_of_le_of_lt ?_ hlength)
    exact Nat.mul_le_mul_right _ (Nat.succ_le_succ (Nat.sub_le_sub_right hhigh _))
  · have hsame := @toNat_sub_add_one table.items 0 (Nat.zero_le _) hitems
    simpa using hsame
  · have hid : (UInt32.ofNat table.headId).toNat = table.headId :=
      UInt32.toNat_ofNat_of_lt' (Nat.lt_of_le_of_lt hheadId (by decide))
    rw [UInt32.toNat_add, hid]
    exact Nat.mod_eq_of_lt (Nat.lt_of_le_of_lt (Nat.succ_le_succ hheadId) (by decide))

/-! ### Any number of requests -/

/-- Whether the request leaves the table open, with what it has open: it is none to close the table,
or to open it again. -/
def Request.uses : Request → Bool
  | .append .. | .retrieve _ | .truncate _ | .size | .sync => true
  | .close | .reopen _ => false

/-- Of all requests, no cut fails because of the file system. -/
def CutsWell (root : Path) (name : String) : List Request → Table × Disk → Prop
  | [], _ => True
  | request :: requests, state =>
      (∀ items, request = .truncate items →
        ∀ e, ((truncate items).outcome state).1 = .error e → ¬e.IsIo) ∧
      CutsWell root name requests ((serve root name request).outcome state).2

theorem Counted.serve (h : Counted names place root name table disk) {request : Request}
    (huses : request.uses = true)
    (hcuts : ∀ items, request = .truncate items →
      ∀ e, ((truncate items).outcome (table, disk)).1 = .error e → ¬e.IsIo)
    {answer : Except Error Answer}
    (hrun : (serve root name request).outcome (table, disk) = (answer, (table', disk'))) :
    Counted names place root name table' disk' := by
  cases steps_of_serve hrun with
  | rests => exact h
  | appends happend =>
      rcases h.of_append happend with ⟨-, rfl, rfl⟩ | ⟨-, hcounted, -⟩
      · exact h
      · exact hcounted
  | @cuts items _ _ _ hcut =>
      exact h.of_truncate hcut (by simpa [hcut] using hcuts items rfl)
  | closes | reopens | unopened => simp [Request.uses] at huses

/-- While a table is used, its counters fit its files. -/
theorem counted_served (state : Table × Disk)
    (h : Counted names place root name state.1 state.2) {requests : List Request}
    (huses : ∀ request ∈ requests, request.uses = true)
    (hcuts : CutsWell root name requests state) :
    Counted names place root name (served root name requests state).1
      (served root name requests state).2 := by
  induction requests generalizing state with
  | nil => exact h
  | cons request requests ih =>
      obtain ⟨hcut, hcuts⟩ := hcuts
      exact ih _ (h.serve (huses request List.mem_cons_self) hcut rfl)
        (fun later hlater => huses later (List.mem_cons_of_mem _ hlater)) hcuts

/-- Whatever the files held that opening succeeded on: after any use of the table its counters fit
its files, and none of its numbers needs more than a word.  An append then never finds the head
missing, and if it succeeds, puts its bytes and its entry at the ends of the head and the index. -/
theorem counters_fit_of_openIn (hlodges : disk.files.Lodges names (IsFileOf name) root place)
    (hopen : (openIn root name cap).outcome disk = (.ok table, disk')) {requests : List Request}
    (huses : ∀ request ∈ requests, request.uses = true)
    (hcuts : CutsWell root name requests (table, disk')) :
    let state := served root name requests (table, disk')
    Counted names place root name state.1 state.2 ∧
    (∀ data, state.2.files.folder place (indexFileName name) = some data →
      data.length < UInt64.size → FitsWords state.1) ∧
    ∀ item blob,
      (∀ owner id, ((append item blob).outcome state).1 ≠ .error (.missingSegment owner id)) ∧
      (((append item blob).outcome state).1 = .ok () →
        PutsAtEnd place name blob state ((append item blob).outcome state).2) := by
  have hcounted := counted_served (table, disk') (counted_of_openIn hlodges hopen) huses hcuts
  refine ⟨hcounted, fun data => hcounted.fitsWords, fun item blob => ?_⟩
  generalize served root name requests (table, disk') = state at hcounted
  obtain ⟨table₁, disk₁⟩ := state
  rcases happend : (append item blob).outcome (table₁, disk₁) with ⟨answer, table₂, disk₂⟩
  rcases hcounted.of_append happend with ⟨⟨e, rfl, hmissing⟩, -⟩ | ⟨rfl, -, hputs⟩
  · exact ⟨fun owner id heq => hmissing owner id (Except.error.inj heq), fun hok => by cases hok⟩
  · exact ⟨fun owner id => by simp, fun _ => hputs⟩

/-- Three items were pruned.  The entries go from one segment to another and back, the last one
reaches past the end of its segment, and behind it a byte of a torn entry is left. -/
def scrambled : FileSystem :=
  .ofListing
    [(indexFileName Column.hashes.name,
        encodeAll [⟨0, 3⟩, ⟨2, 2⟩, ⟨0, 1⟩, ⟨1, 3⟩, ⟨1, 9⟩] ++ [7]),
      (segmentFileName Column.hashes.name 0, [7]),
      (segmentFileName Column.hashes.name 1, [1, 2, 3]),
      (segmentFileName Column.hashes.name 2, [8, 8, 8, 8])]

/-- The first cut goes to a later segment that was not open, the append to a new one, and the second
cut back to the first segment, which it fills up with zeros. -/
theorem counters_fit_scrambled :
    ∃ table disk', (openIn ⟨["", "a"]⟩ Column.hashes.name 3).outcome (.ofFiles scrambled) =
        (.ok table, disk') ∧
      let state := served ⟨["", "a"]⟩ Column.hashes.name
        [.truncate 4, .append 4 [4, 4], .retrieve 4, .truncate 3] (table, disk')
      (state.1.items = 3 ∧ state.1.headId = 0 ∧
        ((append 3 [5]).outcome state).1 = .ok ()) ∧
      Counted (IsFileOf Column.hashes.name) ["a"] ⟨["", "a"]⟩ Column.hashes.name state.1 state.2 ∧
      PutsAtEnd ["a"] Column.hashes.name [5] state ((append 3 [5]).outcome state).2 := by
  have hhouses : scrambled.Houses (IsFileOf Column.hashes.name) ⟨["", "a"]⟩ ["a"] :=
    (Archive.houses_ofListing _).mono fun file => Archive.isFile_of_isFileOf
  have hlodges : scrambled.Lodges (IsFileOf Column.hashes.name) (IsFileOf Column.hashes.name)
      ⟨["", "a"]⟩ ["a"] := ⟨hhouses, fun file => .inl⟩
  have hfacts : let opened :=
        (openIn ⟨["", "a"]⟩ Column.hashes.name 3).outcome (.ofFiles scrambled)
      opened.1.toOption.any (fun table =>
        let serve := served ⟨["", "a"]⟩ Column.hashes.name
        let state := serve [.truncate 4, .append 4 [4, 4], .retrieve 4, .truncate 3]
          (table, opened.2)
        decide (((truncate 4).outcome (table, opened.2)).1 = .ok () ∧
          ((truncate 3).outcome (serve [.truncate 4, .append 4 [4, 4], .retrieve 4]
            (table, opened.2))).1 = .ok () ∧
          state.1.items = 3 ∧ state.1.headId = 0 ∧
          ((append 3 [5]).outcome state).1 = .ok ())) = true := by
    decide +kernel
  rcases hopen : (openIn ⟨["", "a"]⟩ Column.hashes.name 3).outcome (.ofFiles scrambled) with
    ⟨answer, disk'⟩
  rw [hopen] at hfacts
  cases answer with
  | error e => cases hfacts
  | ok table =>
      obtain ⟨hfirst, hsecond, hstate⟩ := of_decide_eq_true hfacts
      have hcuts : CutsWell ⟨["", "a"]⟩ Column.hashes.name
          [.truncate 4, .append 4 [4, 4], .retrieve 4, .truncate 3] (table, disk') := by
        refine ⟨?_, by simp, by simp, ?_, trivial⟩
        · rintro _ ⟨⟩ e he
          rw [hfirst] at he
          cases he
        · rintro _ ⟨⟩ e he
          cases hsecond.symm.trans he
      obtain ⟨hcounted, -, hputs⟩ := counters_fit_of_openIn hlodges hopen
        (by simp [Request.uses]) hcuts
      exact ⟨table, disk', rfl, hstate, hcounted, (hputs 3 [5]).2 hstate.2.2⟩

end Table

end BlockArchive
