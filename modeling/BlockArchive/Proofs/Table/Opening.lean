import BlockArchive.Proofs.Table.Intact
import BlockArchive.Proofs.Table.Tidying

/-! # Opening a table

* **Steps.** All that opening does to the files of a table is tidying up: `exists_trimIndex` says so
  of the index, `exists_openHead` of a segment, and `exists_settle` of the two together.  The last
  is an induction on the entries before the last one; what it leaves are the entries kept.  Each
  step asks only for the names of the files that it opens.
* **`settledTo`** is the folder that settling leaves, file by file.  Dropping the last entry and
  making the segment of the one before leads to the same folder (`settledTo_concat`,
  `settledTo_make`).
* **Whole run.** Opening settles any files on the entries that a repair keeps (`exists_inStep`), and
  then opens their segments (`reopening`).  It answers with the table of these entries, if the
  segments before the head are there, and else fails (`exists_openIn`).  On
  files that recover it succeeds, and the table is at rest (`Recovers.exists_openIn`).  Segments
  that no entry from the last one kept on names are left alone. -/

namespace BlockArchive.Table

open IndexEntry

variable {names : String → Prop} {place : Location} {root : Path} {name : String} {cap : Nat}
  {entries : List IndexEntry} {disk : Disk} {change : Change}

theorem Tidies.folder_change (h : Tidies name (disk.files.folder place) change)
    (hhouses : disk.files.Houses names root place) :
    (disk.change place change).files.folder place = change.apply (disk.files.folder place) :=
  Change.folder_effect hhouses h.fits

/-! ### The index alone -/

theorem exists_makeIndex (hhouses : disk.files.Houses names root place)
    (hfile : names (indexFileName name)) :
    ∃ disk', TidiedIn names name place disk disk' ∧
      disk'.files.folder place = Function.update (disk.files.folder place) (indexFileName name)
        (some ((disk.files.folder place (indexFileName name)).getD [])) ∧
      (∀ file, disk.files.folder place file ≠ none →
        disk'.files.number place file = disk.files.number place file) ∧
      (Disk.openFile (indexPath root name) .update).outcome disk =
        (.ok (.file (disk'.files.number place (indexFileName name)) true), disk') := by
  have hchanged : ∀ change ∈ (disk.files.folder place).making (indexFileName name),
      names change.name := fun _ hmem => Folder.name_of_mem_making hmem ▸ hfile
  refine ⟨_, ⟨_, ?_, hchanged, rfl⟩, ?_, fun file hthere => ?_,
    Disk.outcome_openFile_update hhouses hfile⟩
  · unfold Folder.making
    split
    · next hfree => exact ⟨.makeIndex hfree, trivial⟩
    · trivial
  · rw [Disk.folder_after hhouses hchanged Folder.fits_making, Folder.after_making]
  · refine Disk.number_after fun change hmem => ?_
    unfold Folder.making at hmem
    split at hmem
    · next hfree =>
      rw [List.mem_singleton.1 hmem]
      refine ⟨fun heq => hthere ?_, by simp⟩
      rwa [← (Change.make.inj heq)]
    · simp at hmem

theorem exists_cutTorn (hhouses : disk.files.Houses names root place)
    (hfile : names (indexFileName name)) {data : Bytes}
    (hdata : disk.files.folder place (indexFileName name) = some data) :
    ∃ disk', TidiedIn names name place disk disk' ∧
      disk'.files.folder place = Function.update (disk.files.folder place) (indexFileName name)
        (some (encodeAll (Audit.entries data))) ∧
      (∀ file, disk'.files.number place file = disk.files.number place file) ∧
      (data.length % width ≠ 0 → ((Handle.file (disk.files.number place (indexFileName name))
        true).setLength (position (data.length / width))).outcome disk = (.ok (), disk')) ∧
      (¬data.length % width ≠ 0 → disk = disk') := by
  have hle : position (data.length / width) ≤ data.length := Nat.div_mul_le_self _ _
  have hwhole := Audit.encodeAll_entries_eq_take data
  by_cases htorn : data.length % width = 0
  · refine ⟨disk, .refl _ _ _ _, ?_, fun _ => rfl, fun h => absurd htorn h, fun _ => rfl⟩
    have hall : position (data.length / width) = data.length :=
      Nat.div_mul_cancel (Nat.dvd_of_mod_eq_zero htorn)
    rw [hwhole, hall, List.take_length, ← hdata, Function.update_eq_self]
  · have hstep : Tidies name (disk.files.folder place)
        (.setLength (indexFileName name) (position (data.length / width))) := .cutTorn hdata
    refine ⟨_, .of_change hstep hfile, ?_, fun file => Change.number_effect (by simp),
      fun _ => Handle.outcome_setLength _ _ _ _, fun h => absurd htorn h⟩
    rw [hstep.folder_change hhouses, Change.apply, hdata, Option.map_some,
      Bytes.resize_of_le hle, hwhole]

theorem exists_writeSentinel (hhouses : disk.files.Houses names root place)
    (hfile : names (indexFileName name))
    (hindex : disk.files.folder place (indexFileName name) = some (encodeAll entries)) :
    ∃ disk', TidiedIn names name place disk disk' ∧
      disk'.files.folder place = Function.update (disk.files.folder place) (indexFileName name)
        (some (encodeAll (if entries = [] then [.sentinel] else entries))) ∧
      (∀ file, disk'.files.number place file = disk.files.number place file) ∧
      (entries.length = 0 → ((Handle.file (disk.files.number place (indexFileName name))
        true).write 0 IndexEntry.sentinel.encode).outcome disk = (.ok (), disk')) ∧
      (¬entries.length = 0 → disk = disk') := by
  by_cases hnil : entries = []
  · subst hnil
    have hstep : Tidies name (disk.files.folder place)
        (.write (indexFileName name) 0 (sentinel.encode.take width)) := .writeSentinel hindex width
    have hall : sentinel.encode.take width = sentinel.encode :=
      List.take_of_length_le (Nat.le_of_eq (length_encode _))
    have hwrite : encodeAll [] = [] := rfl
    rw [hall] at hstep
    refine ⟨_, .of_change hstep hfile, ?_, fun file => Change.number_effect (by simp),
      fun _ => Handle.outcome_write _ _ _ _ _, fun h => absurd rfl h⟩
    rw [hstep.folder_change hhouses, Change.apply, hindex, Option.map_some,
      if_pos rfl, encodeAll_singleton, hwrite]
    exact congrArg _ (congrArg some (Bytes.overwrite_length [] _))
  · refine ⟨disk, .refl _ _ _ _, ?_, fun _ => rfl, fun h => ?_, fun _ => rfl⟩
    · rw [if_neg hnil, ← hindex, Function.update_eq_self]
    · exact absurd (List.length_eq_zero_iff.1 h) hnil

/-- Trimming leaves the index with the entries written. -/
theorem exists_trimIndex (hhouses : disk.files.Houses names root place)
    (hfile : names (indexFileName name))
    (hthere : disk.files.folder place (indexFileName name) ≠ none) :
    ∃ disk', TidiedIn names name place disk disk' ∧
      disk'.files.folder place = Function.update (disk.files.folder place) (indexFileName name)
        (some (encodeAll (written (disk.files.folder place) name))) ∧
      (∀ file, disk'.files.number place file = disk.files.number place file) ∧
      (trimIndex (.file (disk.files.number place (indexFileName name)) true)).outcome disk =
        (.ok ((written (disk.files.folder place) name).length - 1), disk') := by
  obtain ⟨data, hdata⟩ := Option.ne_none_iff_exists'.1 hthere
  obtain ⟨disk₁, htidied₁, hfolder₁, hnumber₁, hthen₁, helse₁⟩ :=
    exists_cutTorn hhouses hfile hdata
  obtain ⟨disk₂, htidied₂, hfolder₂, hnumber₂, hthen₂, helse₂⟩ :=
    exists_writeSentinel (htidied₁.houses hhouses) hfile
      (show disk₁.files.folder place (indexFileName name) = _ by
        rw [hfolder₁, Function.update_self])
  rw [hnumber₁] at hthen₂
  rw [Audit.length_entries] at hthen₂ helse₂
  have hcount : (written (disk.files.folder place) name).length - 1 = data.length / width - 1 := by
    rw [written_eq hdata, ← Audit.length_entries]
    split
    · next hnil => rw [hnil]; rfl
    · rfl
  refine ⟨disk₂, htidied₁.trans htidied₂ hhouses, ?_,
    fun file => (hnumber₂ file).trans (hnumber₁ file), ?_⟩
  · rw [hfolder₂, hfolder₁, Function.update_idem, written_eq hdata]
  · unfold trimIndex
    rw [Attempt.outcome_bind_ok (Handle.outcome_length hdata true)]
    refine (Attempt.outcome_ite (fun htorn => Attempt.outcome_bind_ok (hthen₁ htorn) _)
      helse₁).trans ?_
    refine (Attempt.outcome_ite (fun hzero => Attempt.outcome_bind_ok (hthen₂ hzero) _)
      helse₂).trans ?_
    rw [hcount]
    rfl

/-! ### The head -/

/-- A segment that is opened for writing is made if it is missing. -/
theorem exists_openHead (hhouses : disk.files.Houses names root place) {id : Nat}
    (hid : id ≤ lastSegmentId) (hfile : names (segmentFileName name id)) :
    ∃ disk', TidiedIn names name place disk disk' ∧
      disk'.files.folder place = Function.update (disk.files.folder place)
        (segmentFileName name id) (some (segmentBytes (disk.files.folder place) name id)) ∧
      (∀ file ≠ segmentFileName name id,
        disk'.files.number place file = disk.files.number place file) ∧
      (openHead root name id).outcome disk =
        (.ok (.file (disk'.files.number place (segmentFileName name id)) true,
          (segmentBytes (disk.files.folder place) name id).length), disk') := by
  have hopen := Disk.outcome_openFile_update hhouses hfile
  have hchanged : ∀ change ∈ (disk.files.folder place).making (segmentFileName name id),
      change.name = segmentFileName name id := fun _ h => Folder.name_of_mem_making h
  have hfolder : (disk.after place ((disk.files.folder place).making
      (segmentFileName name id))).files.folder place =
        Function.update (disk.files.folder place) (segmentFileName name id)
          (some (segmentBytes (disk.files.folder place) name id)) := by
    rw [Disk.folder_after hhouses (fun change hmem => hchanged change hmem ▸ hfile)
      Folder.fits_making, Folder.after_making]
    rfl
  refine ⟨_, ⟨_, ?_, fun change hmem => hchanged change hmem ▸ hfile, rfl⟩, hfolder,
    fun file hne => ?_, ?_⟩
  · unfold Folder.making
    split
    · next hfree => exact ⟨.makeSegment hid hfree, trivial⟩
    · trivial
  · refine Disk.number_after fun change hmem => ?_
    have hne' : change.name ≠ file := by
      rw [hchanged change hmem]
      exact Ne.symm hne
    exact ⟨fun heq => hne' (heq ▸ rfl), fun heq => hne' (heq ▸ rfl)⟩
  · have hbytes := congrFun hfolder (segmentFileName name id)
    rw [Function.update_self] at hbytes
    unfold openHead
    rw [segmentPath, Attempt.outcome_bind_ok hopen,
      Attempt.outcome_bind_ok (Handle.outcome_length hbytes true)]
    rfl

theorem folder_prepared {folder folder' : Folder} {id : Nat}
    (hindex : folder (indexFileName name) = some (encodeAll entries))
    (h : folder' = Function.update folder (segmentFileName name id)
      (some (segmentBytes folder name id))) :
    folder' (indexFileName name) = some (encodeAll entries) ∧
      folder' (segmentFileName name id) ≠ none ∧
      ∀ other, segmentBytes folder' name other = segmentBytes folder name other := by
  refine ⟨?_, by simp [h], fun other => ?_⟩
  · rw [h, Function.update_of_ne (indexFileName_ne_segmentFileName _ _ _), hindex]
  · by_cases hother : other = id
    · rw [hother, segmentBytes, h, Function.update_self, Option.getD_some]
    · rw [segmentBytes, h, Function.update_of_ne (segmentFileName_ne hother), segmentBytes]

/-- The folder with an empty file for every segment that one of these entries names and that is
missing. -/
def prepared (folder : Folder) (name : String) (entries : List IndexEntry) : Folder := fun file =>
  if folder file = none ∧ ∃ entry ∈ entries, file = segmentFileName name entry.segment.toNat then
    some []
  else folder file

/-- The folder after some first entries were kept of all: the index holds just these, the head is
cut to where the last of them ends, and the segments that the others name are there. -/
def settledTo (folder : Folder) (name : String) (all kept : List IndexEntry) : Folder :=
  Function.update
    (Function.update (prepared folder name (all.drop kept.length))
      (segmentFileName name (lastOf kept).segment.toNat)
      (some ((segmentBytes folder name (lastOf kept).segment.toNat).take
        (lastOf kept).offset.toNat)))
    (indexFileName name) (some (encodeAll kept))

section settledTo

variable {folder folder' : Folder} {all kept : List IndexEntry} {file : String}

theorem prepared_nil (folder : Folder) (name : String) : prepared folder name [] = folder := by
  funext file
  simp [prepared]

theorem prepared_of_some {content : Bytes} (h : folder file = some content) :
    prepared folder name entries file = some content := by
  simp [prepared, h]

theorem settledTo_index (folder : Folder) (name : String) (all kept : List IndexEntry) :
    settledTo folder name all kept (indexFileName name) = some (encodeAll kept) :=
  Function.update_self _ _ _

theorem settledTo_head (folder : Folder) (name : String) (all kept : List IndexEntry) :
    settledTo folder name all kept (segmentFileName name (lastOf kept).segment.toNat) =
      some ((segmentBytes folder name (lastOf kept).segment.toNat).take
        (lastOf kept).offset.toNat) := by
  have hne : segmentFileName name (lastOf kept).segment.toNat ≠ indexFileName name :=
    Ne.symm (indexFileName_ne_segmentFileName _ _ _)
  rw [settledTo, Function.update_of_ne hne, Function.update_self]

theorem settledTo_of_ne (hindex : file ≠ indexFileName name)
    (hhead : file ≠ segmentFileName name (lastOf kept).segment.toNat) :
    settledTo folder name all kept file = prepared folder name (all.drop kept.length) file := by
  rw [settledTo, Function.update_of_ne hindex, Function.update_of_ne hhead]

theorem settledTo_congr {folder' : Folder} {all' : List IndexEntry}
    (hbytes : segmentBytes folder' name (lastOf kept).segment.toNat =
      segmentBytes folder name (lastOf kept).segment.toNat)
    (hothers : ∀ file, file ≠ indexFileName name →
      file ≠ segmentFileName name (lastOf kept).segment.toNat →
        prepared folder' name (all'.drop kept.length) file =
          prepared folder name (all.drop kept.length) file) :
    settledTo folder' name all' kept = settledTo folder name all kept := by
  funext file
  by_cases hindex : file = indexFileName name
  · rw [hindex, settledTo_index, settledTo_index]
  by_cases hhead : file = segmentFileName name (lastOf kept).segment.toNat
  · rw [hhead, settledTo_head, settledTo_head, hbytes]
  · rw [settledTo_of_ne hindex hhead, settledTo_of_ne hindex hhead, hothers file hindex hhead]

theorem settledTo_update_index (folder : Folder) (name : String) (content : Option Bytes)
    (all kept : List IndexEntry) :
    settledTo (Function.update folder (indexFileName name) content) name all kept =
      settledTo folder name all kept := by
  refine settledTo_congr (segmentBytes_update_index _ _ _ _) fun file hindex _ => ?_
  rw [prepared, prepared, Function.update_of_ne hindex]

/-- A head that reaches as far as the last entry kept is in step with the entries then. -/
theorem inStep_settledTo (h : dangles folder name (lastOf kept) = false) :
    InStep (settledTo folder name all kept) name kept where
  index := settledTo_index _ _ _ _
  headThere := by
    rw [settledTo_head]
    simp
  headLength := by
    simp only [dangles, decide_eq_false_iff_not, Nat.not_lt] at h
    rw [segmentBytes, settledTo_head, Option.getD_some, List.length_take, Nat.min_eq_left h]

theorem settledTo_segment_of_ne (hbegin : kept <+: all) (hne : kept ≠ []) {id : Nat}
    (h : ∀ entry ∈ all.drop (kept.length - 1), entry.segment.toNat ≠ id) :
    settledTo folder name all kept (segmentFileName name id) = folder (segmentFileName name id) := by
  obtain ⟨rest, rfl⟩ := hbegin
  obtain ⟨init, last, rfl⟩ : ∃ init last, kept = init ++ [last] :=
    ⟨_, _, (List.dropLast_concat_getLast hne).symm⟩
  rw [List.length_append, List.length_singleton, Nat.add_sub_cancel, List.append_assoc,
    List.drop_left] at h
  have hindex : segmentFileName name id ≠ indexFileName name :=
    Ne.symm (indexFileName_ne_segmentFileName _ _ _)
  have hhead : segmentFileName name id ≠
      segmentFileName name (lastOf (init ++ [last])).segment.toNat := fun heq => by
    rw [lastOf_concat] at heq
    exact h last (by simp) (segmentFileName_injective heq).2.symm
  rw [settledTo_of_ne hindex hhead, List.drop_left, prepared, if_neg]
  rintro ⟨-, entry, hmem, heq⟩
  exact h entry (by simp [hmem]) (segmentFileName_injective heq).2.symm

theorem eq_lastOf_or_mem_drop {last : IndexEntry} (hbegin : kept <+: entries ++ [last]) :
    last = lastOf kept ∨ last ∈ (entries ++ [last]).drop kept.length := by
  obtain ⟨rest, hrest⟩ := hbegin
  rw [← hrest, List.drop_left]
  rcases List.eq_nil_or_concat rest with rfl | ⟨init, final, rfl⟩
  · rw [List.append_nil] at hrest
    exact .inl (by rw [hrest, lastOf_concat])
  · rw [List.concat_eq_append, ← List.append_assoc] at hrest
    have heq := List.singleton_inj.1 (List.append_inj' hrest rfl).2
    exact .inr (by simp [heq])

/-- Making the segment of an entry from the last one kept on does not matter. -/
theorem settledTo_make {entry : IndexEntry}
    (hentry : entry = lastOf kept ∨ entry ∈ all.drop kept.length) :
    settledTo (Function.update folder (segmentFileName name entry.segment.toNat)
        (some (segmentBytes folder name entry.segment.toNat))) name all kept =
      settledTo folder name all kept := by
  have hbytes : ∀ id, segmentBytes (Function.update folder
      (segmentFileName name entry.segment.toNat)
      (some (segmentBytes folder name entry.segment.toNat))) name id =
        segmentBytes folder name id := by
    intro id
    by_cases hid : segmentFileName name id = segmentFileName name entry.segment.toNat
    · rw [(segmentFileName_injective hid).2, segmentBytes, Function.update_self, Option.getD_some]
    · rw [segmentBytes, Function.update_of_ne hid, segmentBytes]
  refine settledTo_congr (hbytes _) fun file hindex hhead => ?_
  by_cases hfile : file = segmentFileName name entry.segment.toNat
  · have hdropped := hentry.resolve_left fun heq => hhead (heq ▸ hfile)
    rw [hfile, prepared_of_some (Function.update_self _ _ _), prepared]
    cases hfolder : folder (segmentFileName name entry.segment.toNat) with
    | none =>
        rw [if_pos ⟨rfl, entry, hdropped, rfl⟩, segmentBytes, hfolder]
        rfl
    | some bytes => rw [if_neg (by simp), segmentBytes, hfolder, Option.getD_some]
  · rw [prepared, prepared, Function.update_of_ne hfile]

/-- An entry at the end whose segment is there does not matter when it is not kept. -/
theorem settledTo_concat {last : IndexEntry} (hbegin : kept <+: entries)
    (hthere : folder (segmentFileName name last.segment.toNat) ≠ none) :
    settledTo folder name (entries ++ [last]) kept = settledTo folder name entries kept := by
  refine settledTo_congr rfl fun file _ _ => ?_
  rw [List.drop_append_of_le_length hbegin.length_le, prepared, prepared]
  by_cases hlast : file = segmentFileName name last.segment.toNat
  · rw [if_neg fun h => hthere (hlast ▸ h.1), if_neg fun h => hthere (hlast ▸ h.1)]
  · simp [hlast, or_and_right, exists_or]

theorem settledTo_self
    (hindex : folder (indexFileName name) = some (encodeAll entries)) :
    settledTo folder name entries entries =
      Function.update folder (segmentFileName name (lastOf entries).segment.toNat)
        (some ((segmentBytes folder name (lastOf entries).segment.toNat).take
          (lastOf entries).offset.toNat)) := by
  rw [settledTo, List.drop_length, prepared_nil,
    Function.update_comm (indexFileName_ne_segmentFileName _ _ _).symm, ← hindex,
    Function.update_eq_self]

end settledTo

theorem exists_settle_of_not_dangles (hhouses : disk.files.Houses names root place)
    {last : IndexEntry} (hfile : names (segmentFileName name last.segment.toNat))
    (hstorable : ∀ entry ∈ entries ++ [last], entry.IsStorable)
    (hindex : disk.files.folder place (indexFileName name) = some (encodeAll (entries ++ [last])))
    (hthere : disk.files.folder place (segmentFileName name last.segment.toNat) ≠ none)
    (hreaches : dangles (disk.files.folder place) name last = false) :
    ∃ disk', TidiedIn names name place disk disk' ∧
      disk'.files.folder place =
        settledTo (disk.files.folder place) name (entries ++ [last]) (entries ++ [last]) ∧
      (∀ file, disk'.files.number place file = disk.files.number place file) ∧
      (settle root name (.file (disk.files.number place (indexFileName name)) true) entries.length
          last (.file (disk.files.number place (segmentFileName name last.segment.toNat)) true)
          (segmentBytes (disk.files.folder place) name last.segment.toNat).length).outcome disk =
        (.ok ⟨entries.length, last, last.offset.toNat⟩, disk') := by
  have hle : last.offset.toNat ≤
      (segmentBytes (disk.files.folder place) name last.segment.toNat).length := by
    simpa [dangles] using hreaches
  obtain ⟨content, hcontent⟩ := Option.ne_none_iff_exists'.1 hthere
  have hbytes : segmentBytes (disk.files.folder place) name last.segment.toNat = content := by
    rw [segmentBytes, hcontent, Option.getD_some]
  rw [settledTo_self hindex, lastOf_concat, settle_of_le _ _ _ _ hle]
  rcases Nat.eq_or_lt_of_le hle with heq | hlt
  · refine ⟨disk, .refl _ _ _ _, ?_, fun _ => rfl, ?_⟩
    · rw [heq, List.take_length, hbytes, ← hcontent, Function.update_eq_self]
    · rw [if_neg (Nat.not_lt.2 (Nat.le_of_eq heq.symm))]
      rfl
  · have hstep : Tidies name (disk.files.folder place)
        (.setLength (segmentFileName name last.segment.toNat) last.offset.toNat) := by
      have := Tidies.cutHead (by simp) hstorable hindex (by rwa [lastOf_concat])
        (by rwa [lastOf_concat])
      rwa [lastOf_concat] at this
    have hfolder := hstep.folder_change hhouses
    refine ⟨_, .of_change hstep hfile, ?_, fun file => Change.number_effect (by simp), ?_⟩
    · rw [hfolder, Change.apply, hcontent, Option.map_some, ← hbytes, Bytes.resize_of_le hle]
    · rw [if_pos hlt, Attempt.outcome_bind_ok (Handle.outcome_setLength _ _ _ _)]
      rfl

theorem outcome_settle_of_lt {disk₁ : Disk} (dir : Path) (name : String) {index : Handle}
    (head : Handle) {before length : Nat} {previous last : IndexEntry}
    (hlt : length < last.offset.toNat)
    (hcut : (index.setLength (position (before + 1))).outcome disk = (.ok (), disk₁))
    (hread : (readEntry index before).outcome disk₁ = (.ok previous, disk₁)) :
    (settle dir name index (before + 1) last head length).outcome disk =
      (if previous.segment = last.segment then settle dir name index before previous head length
        else do
          let (head, length) ← openHead dir name previous.segment.toNat
          settle dir name index before previous head length).outcome disk₁ := by
  rw [settle_succ_of_lt _ _ _ _ hlt, Attempt.outcome_bind_ok hcut, Attempt.outcome_bind_ok hread]

theorem exists_dropEntry (hhouses : disk.files.Houses names root place)
    (hfile : names (indexFileName name)) {previous last : IndexEntry}
    (hstorable : ∀ entry ∈ entries ++ [previous] ++ [last], entry.IsStorable)
    (hindex : disk.files.folder place (indexFileName name) =
      some (encodeAll (entries ++ [previous] ++ [last])))
    (hdangles : dangles (disk.files.folder place) name last = true) :
    ∃ disk', TidiedIn names name place disk disk' ∧
      disk'.files.folder place = Function.update (disk.files.folder place) (indexFileName name)
        (some (encodeAll (entries ++ [previous]))) ∧
      (∀ file, disk'.files.number place file = disk.files.number place file) ∧
      ∀ head, (settle root name (.file (disk.files.number place (indexFileName name)) true)
          (entries.length + 1) last head
          (segmentBytes (disk.files.folder place) name last.segment.toNat).length).outcome disk =
        (if previous.segment = last.segment then
            settle root name (.file (disk'.files.number place (indexFileName name)) true)
              entries.length previous head
              (segmentBytes (disk.files.folder place) name last.segment.toNat).length
          else do
            let (head, length) ← openHead root name previous.segment.toNat
            settle root name (.file (disk'.files.number place (indexFileName name)) true)
              entries.length previous head length).outcome disk' := by
  have hlt : (segmentBytes (disk.files.folder place) name last.segment.toNat).length <
      last.offset.toNat := by
    simpa [dangles] using hdangles
  have hlength : (entries ++ [previous]).length = entries.length + 1 := by simp
  have hstep : Tidies name (disk.files.folder place)
      (.setLength (indexFileName name) (position (entries.length + 1))) := by
    rw [← hlength]
    exact .dropEntry (by simp) hstorable hindex hdangles
  have hcut := Handle.outcome_setLength disk place (indexFileName name)
    (position (entries.length + 1))
  have htidied : TidiedIn names name place disk _ := .of_change hstep hfile
  have hfolder := hstep.folder_change hhouses
  have hnumber : ∀ file, (disk.change place (.setLength (indexFileName name)
      (position (entries.length + 1)))).files.number place file =
        disk.files.number place file := fun _ => Change.number_effect (by simp)
  have hcutLength : (encodeAll (entries ++ [previous] ++ [last])).resize
      (position (entries.length + 1)) = encodeAll (entries ++ [previous]) := by
    rw [← hlength, resize_encodeAll_of_le (List.prefix_append _ _).length_le, List.take_left]
  rw [Change.apply, hindex, Option.map_some, hcutLength] at hfolder
  generalize disk.change place (.setLength (indexFileName name)
    (position (entries.length + 1))) = disk₁ at *
  have hread : (readEntry (.file (disk.files.number place (indexFileName name)) true)
      entries.length).outcome disk₁ = (.ok previous, disk₁) := by
    rw [← hnumber]
    refine outcome_readEntry_of_index (by rw [hfolder, Function.update_self]) ?_
    rw [Audit.entries_encodeAll fun e he => hstorable e (List.mem_append_left _ he)]
    simp
  refine ⟨disk₁, htidied, hfolder, hnumber, fun head => ?_⟩
  rw [outcome_settle_of_lt root name head hlt hcut hread, hnumber]

theorem exists_settle_step (hhouses : disk.files.Houses names root place)
    (hfile : names (indexFileName name)) {previous last : IndexEntry}
    (hprevious : names (segmentFileName name previous.segment.toNat))
    (hstorable : ∀ entry ∈ entries ++ [previous] ++ [last], entry.IsStorable)
    (hindex : disk.files.folder place (indexFileName name) =
      some (encodeAll (entries ++ [previous] ++ [last])))
    (hthere : disk.files.folder place (segmentFileName name last.segment.toNat) ≠ none)
    (hdangles : dangles (disk.files.folder place) name last = true) :
    ∃ disk', TidiedIn names name place disk disk' ∧
      disk'.files.folder place (indexFileName name) = some (encodeAll (entries ++ [previous])) ∧
      disk'.files.folder place (segmentFileName name previous.segment.toNat) ≠ none ∧
      (∀ id, segmentBytes (disk'.files.folder place) name id =
        segmentBytes (disk.files.folder place) name id) ∧
      disk'.files.folder place = Function.update
        (Function.update (disk.files.folder place) (indexFileName name)
          (some (encodeAll (entries ++ [previous]))))
        (segmentFileName name previous.segment.toNat)
        (some (segmentBytes (disk.files.folder place) name previous.segment.toNat)) ∧
      disk'.files.number place (indexFileName name) =
        disk.files.number place (indexFileName name) ∧
      (settle root name (.file (disk.files.number place (indexFileName name)) true)
          (entries.length + 1) last
          (.file (disk.files.number place (segmentFileName name last.segment.toNat)) true)
          (segmentBytes (disk.files.folder place) name last.segment.toNat).length).outcome disk =
        (settle root name (.file (disk'.files.number place (indexFileName name)) true)
          entries.length previous
          (.file (disk'.files.number place (segmentFileName name previous.segment.toNat)) true)
          (segmentBytes (disk'.files.folder place) name previous.segment.toNat).length).outcome
            disk' := by
  obtain ⟨disk₁, htidied₁, hfolder₁, hnumber₁, hrun⟩ :=
    exists_dropEntry hhouses hfile hstorable hindex hdangles
  have hindex₁ : disk₁.files.folder place (indexFileName name) =
      some (encodeAll (entries ++ [previous])) := by
    rw [hfolder₁, Function.update_self]
  have hbytes₁ : ∀ id, segmentBytes (disk₁.files.folder place) name id =
      segmentBytes (disk.files.folder place) name id := by
    intro id
    rw [hfolder₁]
    exact segmentBytes_update_index _ _ _ _
  by_cases hsegment : previous.segment = last.segment
  · have hthere₁ : disk₁.files.folder place (segmentFileName name last.segment.toNat) =
        disk.files.folder place (segmentFileName name last.segment.toNat) := by
      rw [hfolder₁, Function.update_of_ne (Ne.symm (indexFileName_ne_segmentFileName _ _ _))]
    refine ⟨disk₁, htidied₁, hindex₁, ?_, hbytes₁, ?_, hnumber₁ _, ?_⟩
    · rw [hsegment, hthere₁]
      exact hthere
    · obtain ⟨content, hcontent⟩ := Option.ne_none_iff_exists'.1 hthere
      rw [← hfolder₁, hsegment, segmentBytes, hcontent, Option.getD_some, ← hcontent, ← hthere₁,
        Function.update_eq_self]
    · rw [hrun, if_pos hsegment, hnumber₁ (segmentFileName name previous.segment.toNat), hbytes₁,
        hsegment]
  · obtain ⟨disk₂, htidied₂, hfolder₂, hnumber₂, hopen⟩ :=
      exists_openHead (htidied₁.houses hhouses) (hstorable previous (by simp)) hprevious
    obtain ⟨hindex₂, hthere₂, hbytes₂⟩ := folder_prepared hindex₁ hfolder₂
    have hnumber := hnumber₂ _
      (indexFileName_ne_segmentFileName name name previous.segment.toNat)
    refine ⟨disk₂, htidied₁.trans htidied₂ hhouses, hindex₂, hthere₂,
      fun id => (hbytes₂ id).trans (hbytes₁ id), by rw [hfolder₂, hbytes₁, hfolder₁],
      hnumber.trans (hnumber₁ _), ?_⟩
    rw [hrun, if_neg hsegment, Attempt.outcome_bind_ok hopen, hnumber, hbytes₂]

/-- Settling keeps the entries before those at the end that dangle, and brings them in step. -/
theorem exists_settle (hhouses : disk.files.Houses names root place)
    (hfile : names (indexFileName name)) {last : IndexEntry}
    (hfiles : ∀ entry ∈ entries ++ [last], names (segmentFileName name entry.segment.toNat))
    (hstorable : ∀ entry ∈ entries ++ [last], entry.IsStorable)
    (hfirst : dangles (disk.files.folder place) name (firstOf (entries ++ [last])) = false)
    (hindex : disk.files.folder place (indexFileName name) = some (encodeAll (entries ++ [last])))
    (hthere : disk.files.folder place (segmentFileName name last.segment.toNat) ≠ none) :
    ∃ disk' kept, kept = keep (disk.files.folder place) name (entries ++ [last]) ∧
      TidiedIn names name place disk disk' ∧
      disk'.files.folder place =
        settledTo (disk.files.folder place) name (entries ++ [last]) kept ∧
      disk'.files.number place (indexFileName name) =
        disk.files.number place (indexFileName name) ∧
      (settle root name (.file (disk.files.number place (indexFileName name)) true) entries.length
          last (.file (disk.files.number place (segmentFileName name last.segment.toNat)) true)
          (segmentBytes (disk.files.folder place) name last.segment.toNat).length).outcome disk =
        (.ok ⟨kept.length - 1, lastOf kept, (lastOf kept).offset.toNat⟩, disk') := by
  induction entries using List.reverseRecOn generalizing disk last with
  | nil =>
      obtain ⟨disk', htidied, hfolder, hnumber, hrun⟩ :=
        exists_settle_of_not_dangles hhouses (hfiles last (by simp)) hstorable hindex hthere hfirst
      exact ⟨disk', [last], rfl, htidied, hfolder, hnumber _, hrun⟩
  | append_singleton init previous ih =>
      by_cases hdangles : dangles (disk.files.folder place) name last = true
      · obtain ⟨disk₁, htidied₁, hindex₁, hthere₁, hbytes₁, hfolder₁, hnumber₁, hrun₁⟩ :=
          exists_settle_step hhouses hfile (hfiles previous (by simp)) hstorable hindex hthere
            hdangles
        have hfirst₁ : dangles (disk₁.files.folder place) name (firstOf (init ++ [previous])) =
            false := by
          rw [firstOf_append (by simp)] at hfirst
          rwa [dangles, hbytes₁]
        obtain ⟨disk', kept, hkept, htidied', hfolder', hnumber', hrun'⟩ :=
          ih (htidied₁.houses hhouses) (fun e he => hfiles e (List.mem_append_left _ he))
            (fun e he => hstorable e (List.mem_append_left _ he)) hfirst₁ hindex₁ hthere₁
        rw [keep_congr fun id => congrArg List.length (hbytes₁ id)] at hkept
        refine ⟨disk', kept, ?_, htidied₁.trans htidied' hhouses, ?_,
          hnumber'.trans hnumber₁, ?_⟩
        · rw [hkept, keep_concat_of_dangles (by simp) hdangles]
        · have hbegin : kept <+: init ++ [previous] := hkept ▸ keep_begins _ _ _
          have hbytes := segmentBytes_update_index (disk.files.folder place) name
            (some (encodeAll (init ++ [previous]))) previous.segment.toNat
          rw [hfolder', hfolder₁, ← hbytes, settledTo_make (eq_lastOf_or_mem_drop hbegin),
            settledTo_update_index, settledTo_concat hbegin hthere]
        · rw [List.length_append, List.length_singleton, hrun₁, hrun']
      · have hreaches : dangles (disk.files.folder place) name last = false := by
          simpa using hdangles
        obtain ⟨disk', htidied, hfolder, hnumber, hrun⟩ :=
          exists_settle_of_not_dangles hhouses (hfiles last (by simp)) hstorable hindex hthere
            hreaches
        refine ⟨disk', init ++ [previous] ++ [last],
          (keep_of_not_dangles (by rwa [lastOf_concat])).symm, htidied, hfolder, hnumber _, ?_⟩
        rw [hrun, lastOf_concat, @List.length_append _ (init ++ [previous]) [last]]
        rfl

/-! ### The whole run -/

theorem outcome_openHistory_error (hhouses : disk.files.Houses names root place) {ids : List Nat}
    (hids : ∀ id ∈ ids, names (segmentFileName name id)) {missing : Nat} (hmem : missing ∈ ids)
    (hmissing : disk.files.folder place (segmentFileName name missing) = none) :
    (openHistory root name ids).outcome disk = (.error (.io .notFound), disk) := by
  induction ids with
  | nil => simp at hmem
  | cons id ids ih =>
      have hname := hids id (by simp)
      by_cases hthere : disk.files.folder place (segmentFileName name id) = none
      · rw [openHistory, segmentPath,
          Attempt.outcome_bind_error (Disk.outcome_openFile_of_none hhouses hname hthere)]
      · have hne : missing ≠ id := fun heq => hthere (heq ▸ hmissing)
        have hopen := Disk.outcome_openFile_readOnly_of_some hhouses hname hthere
        rw [openHistory, segmentPath, Attempt.outcome_bind_ok hopen,
          Attempt.outcome_bind_error (ih (fun other hother => hids other (by simp [hother]))
            ((List.mem_cons.1 hmem).resolve_left hne))]

/-- The index is opened and trimmed, and can be read then. -/
theorem exists_openIndex (hhouses : disk.files.Houses names root place)
    (hfile : names (indexFileName name)) :
    ∃ disk₀ disk', TidiedIn names name place disk disk' ∧
      disk'.files.folder place = Function.update (disk.files.folder place) (indexFileName name)
        (some (encodeAll (written (disk.files.folder place) name))) ∧
      (∀ file, disk.files.folder place file ≠ none →
        disk'.files.number place file = disk.files.number place file) ∧
      (Disk.openFile (indexPath root name) .update).outcome disk =
        (.ok (.file (disk'.files.number place (indexFileName name)) true), disk₀) ∧
      (trimIndex (.file (disk'.files.number place (indexFileName name)) true)).outcome disk₀ =
        (.ok ((written (disk.files.folder place) name).length - 1), disk') ∧
      ∀ n entry, (written (disk.files.folder place) name)[n]? = some entry →
        (readEntry (.file (disk'.files.number place (indexFileName name)) true) n).outcome disk' =
          (.ok entry, disk') := by
  obtain ⟨disk₀, htidied₀, hfolder₀, hnumber₀, hopen⟩ := exists_makeIndex hhouses hfile
  have hwritten : written (disk₀.files.folder place) name =
      written (disk.files.folder place) name := by
    rw [written, written, hfolder₀, Function.update_self, Option.getD_some]
  obtain ⟨disk', htidied', hfolder', hnumber', htrim⟩ :=
    exists_trimIndex (htidied₀.houses hhouses) hfile (by
    rw [hfolder₀, Function.update_self]
    simp)
  rw [hwritten] at hfolder' htrim
  rw [hfolder₀, Function.update_idem] at hfolder'
  rw [← hnumber'] at hopen htrim
  refine ⟨disk₀, disk', htidied₀.trans htidied' hhouses, hfolder',
    fun file hthere => (hnumber' file).trans (hnumber₀ file hthere), hopen, htrim,
    fun n entry hentry => ?_⟩
  have hindex : disk'.files.folder place (indexFileName name) =
      some (encodeAll (written (disk.files.folder place) name)) := by
    rw [hfolder', Function.update_self]
  exact outcome_readEntry_of_index hindex
    (by rwa [Audit.entries_encodeAll fun _ => isStorable_of_mem_written])

theorem exists_settleHead (hhouses : disk.files.Houses names root place)
    (hfile : names (indexFileName name))
    (hfiles : ∀ entry ∈ entries, names (segmentFileName name entry.segment.toNat))
    (hne : entries ≠ []) (hstorable : ∀ entry ∈ entries, entry.IsStorable)
    (hstart : (firstOf entries).offset = 0)
    (hindex : disk.files.folder place (indexFileName name) = some (encodeAll entries)) :
    ∃ disk₁ head length disk' kept, kept = keep (disk.files.folder place) name entries ∧
      TidiedIn names name place disk disk' ∧
      disk'.files.folder place = settledTo (disk.files.folder place) name entries kept ∧
      disk'.files.number place (indexFileName name) =
        disk.files.number place (indexFileName name) ∧
      (openHead root name (lastOf entries).segment.toNat).outcome disk =
        (.ok (head, length), disk₁) ∧
      (settle root name (.file (disk.files.number place (indexFileName name)) true)
          (entries.length - 1) (lastOf entries) head length).outcome disk₁ =
        (.ok ⟨kept.length - 1, lastOf kept, (lastOf kept).offset.toNat⟩, disk') := by
  obtain ⟨init, last, rfl⟩ : ∃ init last, entries = init ++ [last] :=
    ⟨_, _, (List.dropLast_concat_getLast hne).symm⟩
  have hlast : last.segment.toNat ≤ lastSegmentId := hstorable last (by simp)
  obtain ⟨disk₁, htidied₁, hfolder₁, hnumber₁, hopen⟩ :=
    exists_openHead hhouses hlast (hfiles last (by simp))
  have hnumber := hnumber₁ _ (indexFileName_ne_segmentFileName name name last.segment.toNat)
  obtain ⟨hindex₁, hthere₁, hbytes₁⟩ := folder_prepared hindex hfolder₁
  obtain ⟨disk', kept, hkept, htidied', hfolder', hnumber', hsettle⟩ :=
    exists_settle (htidied₁.houses hhouses) hfile hfiles hstorable (by
      rw [dangles, hstart]
      simp) hindex₁ hthere₁
  rw [keep_congr fun id => congrArg List.length (hbytes₁ id)] at hkept
  refine ⟨disk₁, _, _, disk', kept, hkept, htidied₁.trans htidied' hhouses, ?_,
    hnumber'.trans hnumber, by rw [lastOf_concat]; exact hopen, ?_⟩
  · have hbegin : kept <+: init ++ [last] := hkept ▸ keep_begins _ _ _
    rw [hfolder', hfolder₁, settledTo_make (eq_lastOf_or_mem_drop hbegin)]
  · rw [lastOf_concat, List.length_append, List.length_singleton, Nat.add_sub_cancel, ← hnumber,
      ← hbytes₁]
    exact hsettle

theorem outcome_reopening_error (cap : Nat) (hhouses : disk.files.Houses names root place)
    (hnames : ∀ file, IsFileOf name file → names file) (hstorable : (lastOf entries).IsStorable)
    {id : Nat} (hlow : (firstOf entries).segment.toNat ≤ id)
    (hhigh : id < (lastOf entries).segment.toNat)
    (hmissing : disk.files.folder place (segmentFileName name id) = none) :
    (reopening (opened disk.files place root name cap entries)).outcome disk =
      (.error (.io .notFound), disk) := by
  have hopen : (openHistory root name (List.range' (firstOf entries).segment.toNat
      ((lastOf entries).segment.toNat - (firstOf entries).segment.toNat))).outcome disk = _ :=
    outcome_openHistory_error hhouses (fun other hother => by
      obtain ⟨hle, hlt⟩ := List.mem_range'_1.1 hother
      exact hnames _ (isFileOf_segment name (Nat.le_trans (by omega) hstorable)))
      (List.mem_range'_1.2 ⟨hlow, by omega⟩) hmissing
  unfold reopening
  simp only [opened]
  rw [Attempt.outcome_bind_error hopen]

/-- Opening brings the files in step with the entries kept, and then opens their segments. -/
theorem exists_inStep (cap : Nat) (hhouses : disk.files.Houses names root place)
    (hnames : ∀ file, IsFileOf name file → names file)
    (hstart : (firstOf (written (disk.files.folder place) name)).offset = 0) :
    ∃ disk' entries, entries = kept (disk.files.folder place) name ∧
      Tidied name place disk disk' ∧
      disk'.files.folder place = settledTo (disk.files.folder place) name
        (written (disk.files.folder place) name) entries ∧
      dangles (disk.files.folder place) name (lastOf entries) = false ∧
      InStep (disk'.files.folder place) name entries ∧
      (openIn root name cap).outcome disk =
        (reopening (opened disk'.files place root name cap entries)).outcome disk' := by
  have hne := written_ne_nil (disk.files.folder place) name
  have hstorable : ∀ entry ∈ written (disk.files.folder place) name, entry.IsStorable :=
    fun _ hmem => isStorable_of_mem_written hmem
  have hfile := hnames _ (isFileOf_index name)
  have hfiles : ∀ entry ∈ written (disk.files.folder place) name,
      names (segmentFileName name entry.segment.toNat) := fun entry hmem =>
    hnames _ (isFileOf_segment name (hstorable entry hmem))
  obtain ⟨disk₀, disk₁, htidied₁, hfolder₁, -, hopen, htrim, hread⟩ :=
    exists_openIndex hhouses hfile
  have hhouses₁ := htidied₁.houses hhouses
  have hkept : kept (disk.files.folder place) name =
      keep (disk.files.folder place) name (written (disk.files.folder place) name) := rfl
  rw [hkept]
  have hreaches := dangles_lastOf_keep (disk.files.folder place) name hstart hne
  generalize written (disk.files.folder place) name = all at *
  have hindex₁ : disk₁.files.folder place (indexFileName name) = some (encodeAll all) := by
    rw [hfolder₁, Function.update_self]
  obtain ⟨disk₂, head, length, disk', entries, hentries, htidied', hfolder', hnumber', hhead,
    hsettle⟩ := exists_settleHead hhouses₁ hfile hfiles hne hstorable hstart hindex₁
  rw [hfolder₁, keep_congr fun id => congrArg List.length (segmentBytes_update_index _ _ _ id)]
    at hentries
  rw [hfolder₁, settledTo_update_index] at hfolder'
  rw [← hentries] at hreaches
  have hstep : InStep (disk'.files.folder place) name entries := hfolder' ▸ inStep_settledTo hreaches
  have hfirstOf : firstOf entries = firstOf all := by rw [hentries, firstOf_keep]
  have hfirst : all[0]? = some (firstOf all) := getElem?_eq_firstOf hne
  refine ⟨disk', entries, hentries, (htidied₁.trans htidied' hhouses).tidied, hfolder', hreaches,
    hstep, ?_⟩
  unfold openIn
  rw [Attempt.outcome_bind_ok (Disk.outcome_makeDirectories hhouses),
    Attempt.outcome_bind_ok hopen, Attempt.outcome_bind_ok htrim,
    Attempt.outcome_bind_ok (hread _ _ hfirst),
    Attempt.outcome_bind_ok (hread _ _ (getElem?_eq_lastOf hne)), Attempt.outcome_bind_ok hhead]
  simp only
  rw [Attempt.outcome_bind_ok hsettle]
  simp only [reopening, opened, hfirstOf, hstep.headLength, hnumber']

/-- Opening brings the files in step with the entries kept.  It answers with their table if all
segments before the head are there. -/
theorem exists_openIn (cap : Nat) (hhouses : disk.files.Houses names root place)
    (hnames : ∀ file, IsFileOf name file → names file)
    (hstart : (firstOf (written (disk.files.folder place) name)).offset = 0) :
    ∃ disk' entries, entries = kept (disk.files.folder place) name ∧
      Tidied name place disk disk' ∧
      disk'.files.folder place = settledTo (disk.files.folder place) name
        (written (disk.files.folder place) name) entries ∧
      dangles (disk.files.folder place) name (lastOf entries) = false ∧
      ((∀ id, (firstOf entries).segment.toNat ≤ id → id < (lastOf entries).segment.toNat →
          disk'.files.folder place (segmentFileName name id) ≠ none) →
        (openIn root name cap).outcome disk =
          (.ok (opened disk'.files place root name cap entries), disk')) ∧
      (∀ id, (firstOf entries).segment.toNat ≤ id → id < (lastOf entries).segment.toNat →
        disk'.files.folder place (segmentFileName name id) = none →
          (openIn root name cap).outcome disk = (.error (.io .notFound), disk')) := by
  obtain ⟨disk', entries, hentries, htidied, hfolder, hreaches, hstep, hrun⟩ :=
    exists_inStep cap hhouses hnames hstart
  obtain ⟨hhouses', -⟩ := htidied.houses_and_folder hhouses hnames
  have hmem : lastOf entries ∈ written (disk.files.folder place) name := by
    rw [hentries]
    exact (keep_begins _ _ _).subset (lastOf_mem (keep_ne_nil (written_ne_nil _ name)))
  have hstorable : (lastOf entries).IsStorable := isStorable_of_mem_written hmem
  refine ⟨disk', entries, hentries, htidied, hfolder, hreaches, fun hhistory => ?_,
    fun id hlow hhigh hmissing => ?_⟩
  · have hname : ∀ id ≤ (lastOf entries).segment.toNat, names (segmentFileName name id) :=
      fun id hle => hnames _ (isFileOf_segment name (Nat.le_trans hle hstorable))
    rw [hrun, opened_eq_tableOf]
    exact outcome_reopening hhouses'.shows cap (hname _ (Nat.le_refl _)) hstep.headThere
      fun id hlow hhigh => ⟨hname id (Nat.le_of_lt hhigh), hhistory id hlow hhigh⟩
  · rw [hrun, outcome_reopening_error cap hhouses' hnames hstorable hlow hhigh hmissing]

theorem tidied_of_outcome_openIn (hhouses : disk.files.Houses names root place)
    (hnames : ∀ file, IsFileOf name file → names file)
    (hstart : (firstOf (written (disk.files.folder place) name)).offset = 0)
    {answer : Except Error Table} {disk' : Disk}
    (hrun : (openIn root name cap).outcome disk = (answer, disk')) :
    Tidied name place disk disk' := by
  obtain ⟨disk₁, entries, -, htidied, -, -, hok, herror⟩ := exists_openIn cap hhouses hnames hstart
  by_cases hhistory : ∀ id, (firstOf entries).segment.toNat ≤ id →
      id < (lastOf entries).segment.toNat →
        disk₁.files.folder place (segmentFileName name id) ≠ none
  · rw [hok hhistory] at hrun
    exact (Prod.mk.inj hrun).2 ▸ htidied
  · simp only [ne_eq, not_forall, not_not] at hhistory
    obtain ⟨id, hle, hlt, hmissing⟩ := hhistory
    rw [herror id hle hlt hmissing] at hrun
    exact (Prod.mk.inj hrun).2 ▸ htidied

/-- Opening files that recover succeeds, and leaves the table of the entries kept at rest.  Segments
that no entry written names are left alone. -/
theorem Recovers.exists_openIn (cap : Nat) (h : Recovers (disk.files.folder place) name entries)
    (hhouses : disk.files.Houses names root place)
    (hnames : ∀ file, IsFileOf name file → names file) :
    ∃ disk', Tidied name place disk disk' ∧ Whole (disk'.files.folder place) name entries ∧
      (∀ id, (∀ entry ∈ written (disk.files.folder place) name, entry.segment.toNat ≠ id) →
        disk'.files.folder place (segmentFileName name id) =
          disk.files.folder place (segmentFileName name id)) ∧
      (openIn root name cap).outcome disk =
        (.ok (opened disk'.files place root name cap entries), disk') := by
  have hstart : (firstOf (written (disk.files.folder place) name)).offset = 0 := by
    rw [← firstOf_keep (disk.files.folder place) name]
    exact (congrArg (fun entries => (firstOf entries).offset) h.kept).trans h.unpruned
  obtain ⟨disk', entries', hentries, htidied, hfolder, hreaches, hok, -⟩ :=
    Table.exists_openIn cap hhouses hnames hstart
  have hbegin : entries' <+: written (disk.files.folder place) name :=
    hentries ▸ keep_begins _ _ _
  obtain rfl : entries' = entries := hentries.trans h.kept
  obtain ⟨hrecovers, -⟩ := h.tidied htidied hhouses hnames
  refine ⟨disk', htidied, ⟨hrecovers.toBacked, hfolder ▸ inStep_settledTo hreaches⟩,
    fun id hid => ?_, hok hrecovers.history⟩
  rw [hfolder]
  exact settledTo_segment_of_ne hbegin h.ne_nil fun entry hmem =>
    hid entry (List.mem_of_mem_drop hmem)

theorem segment_le_of_mem_drop {all : List IndexEntry} (hbegin : entries <+: all)
    (hne : entries ≠ []) (hordered : all.Pairwise Precedes) {entry : IndexEntry}
    (hmem : entry ∈ all.drop (entries.length - 1)) :
    (lastOf entries).segment.toNat ≤ entry.segment.toNat := by
  obtain ⟨rest, rfl⟩ := hbegin
  rw [List.drop_append_of_le_length (Nat.sub_le _ _)] at hmem
  rcases List.mem_append.1 hmem with hmem | hmem
  · obtain ⟨init, last, rfl⟩ : ∃ init last, entries = init ++ [last] :=
      ⟨_, _, (List.dropLast_concat_getLast hne).symm⟩
    rw [List.length_append, List.length_singleton, Nat.add_sub_cancel, List.drop_left,
      List.mem_singleton] at hmem
    rw [hmem, lastOf_concat]
  · exact ((List.pairwise_append.1 hordered).2.2 _ (lastOf_mem hne) entry hmem).segment_le

theorem recovers_of_outcome_openIn (hhouses : disk.files.Houses names root place)
    (hnames : ∀ file, IsFileOf name file → names file)
    (h : DamagedAtEnd (disk.files.folder place) name) {table : Table} {disk' : Disk}
    (hrun : (openIn root name cap).outcome disk = (.ok table, disk')) :
    Recovers (disk.files.folder place) name (kept (disk.files.folder place) name) := by
  obtain ⟨disk₁, entries, hentries, -, hfolder, hreaches, -, herror⟩ :=
    exists_openIn cap hhouses hnames h.unpruned
  have hne := written_ne_nil (disk.files.folder place) name
  have hkeep : entries = keep (disk.files.folder place) name
    (written (disk.files.folder place) name) := hentries
  have hbegin : entries <+: written (disk.files.folder place) name := hkeep ▸ keep_begins _ _ _
  have hkept : entries ≠ [] := hkeep ▸ keep_ne_nil hne
  have hfirst : (firstOf entries).offset = 0 := by rw [hkeep, firstOf_keep, h.unpruned]
  have hbounds := h.ordered.sublist hbegin.sublist
  rw [← hentries]
  refine ⟨⟨hkept, hfirst, fun e he => isStorable_of_mem_written (hbegin.subset he), hbounds,
    ?_, ?_⟩, hentries.symm⟩
  · intro entry hmem
    by_cases hsegment : entry.segment = (lastOf (written (disk.files.folder place) name)).segment
    · -- an entry of the last segment comes before the last one kept, which does not dangle
      have hlast : (lastOf entries).segment.toNat ≤ entry.segment.toNat := by
        rw [hsegment]
        exact (precedes_lastOf h.ordered (hbegin.subset (lastOf_mem hkept))).segment_le
      rcases precedes_lastOf hbounds hmem with hlt | ⟨hsame, hle⟩
      · omega
      · simp only [dangles, decide_eq_false_iff_not, Nat.not_lt] at hreaches
        rw [hsame]
        omega
    · exact h.reached entry (hbegin.subset hmem) hsegment
  · intro id hle hlt hmissing
    have hothers : disk₁.files.folder place (segmentFileName name id) =
        disk.files.folder place (segmentFileName name id) := by
      rw [hfolder]
      refine settledTo_segment_of_ne hbegin hkept fun entry hmem => ?_
      have hlast := segment_le_of_mem_drop hbegin hkept h.ordered hmem
      omega
    have hrun' := herror id hle hlt (hothers.trans hmissing)
    rw [hrun] at hrun'
    simp at hrun'

end BlockArchive.Table
