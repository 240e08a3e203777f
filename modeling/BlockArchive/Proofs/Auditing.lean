import BlockArchive.Proofs.Archive.Files
import BlockArchive.Proofs.Table.Reading

/-! # Audits of tables at rest

An audit finds nothing amiss with files in which every table is at rest and holds its column of the
same rows (`Rests.exists_audit`).

* **Order.** Entries in order step back nowhere (`orderFindings_eq_nil`).
* **Lengths.** Backed entries need no more bytes than their segments have (`neededLength_le`), so
  that in an indexed table only the head can be of the wrong length (`table_eq`). -/

namespace BlockArchive

namespace Audit

open IndexEntry Table

variable {before : IndexEntry} {entries bounds : List IndexEntry} {n : Nat}

/-- With entries in order nothing is amiss. -/
theorem orderFindings_eq_nil (n : Nat) (h : (before :: bounds).Pairwise Precedes) :
    orderFindings n before bounds = [] := by
  induction bounds generalizing n before with
  | nil => rfl
  | cons entry bounds ih =>
      obtain ⟨hbefore, hrest⟩ := List.pairwise_cons.1 h
      rw [orderFindings, ih _ hrest, List.append_nil]
      have hprecedes := hbefore entry List.mem_cons_self
      rw [if_neg, if_neg]
      · rintro ⟨hsegment, -, hlt⟩
        rw [UInt32.lt_iff_toNat_lt] at hlt
        rcases hprecedes with hprecedes | ⟨-, hle⟩
        · rw [hsegment] at hprecedes
          exact Nat.lt_irrefl _ hprecedes
        · omega
      · rw [UInt32.lt_iff_toNat_lt]
        exact Nat.not_lt.2 hprecedes.segment_le

theorem neededLength_concat (bounds : List IndexEntry) (entry : IndexEntry) (id : Nat) :
    neededLength (bounds ++ [entry]) id =
      if entry.segment.toNat = id then max (neededLength bounds id) entry.offset.toNat
      else neededLength bounds id := by
  simp [neededLength]

/-- A segment needs no more bytes than the entries reach that name it. -/
theorem neededLength_le {id : Nat}
    (h : ∀ entry ∈ bounds, entry.segment.toNat = id → entry.offset.toNat ≤ n) :
    neededLength bounds id ≤ n := by
  induction bounds using List.reverseRecOn with
  | nil => exact Nat.zero_le _
  | append_singleton bounds entry ih =>
      have hbounds := ih fun other hmem => h other (List.mem_append_left _ hmem)
      rw [neededLength_concat]
      split
      · next heq => exact Nat.max_le.2 ⟨hbounds, h entry (by simp) heq⟩
      · exact hbounds

theorem offset_le_neededLength {entry : IndexEntry} (hmem : entry ∈ bounds) :
    entry.offset.toNat ≤ neededLength bounds entry.segment.toNat := by
  induction bounds using List.reverseRecOn with
  | nil => simp at hmem
  | append_singleton bounds last ih =>
      rw [neededLength_concat]
      rcases List.mem_append.1 hmem with hmem | hmem
      · have hle := ih hmem
        split
        · exact Nat.le_trans hle (Nat.le_max_left _ _)
        · exact hle
      · rw [List.mem_singleton.1 hmem, if_pos rfl]
        exact Nat.le_max_right _ _

theorem orderFindings_ground (first : IndexEntry) (bounds : List IndexEntry) :
    orderFindings 1 { first with offset := 0 } bounds = orderFindings 1 first bounds := by
  cases bounds with
  | nil => rfl
  | cons entry bounds => simp [orderFindings]

section table

variable {files : FileSystem} {names : String → Prop} {root : Path} {folder : Folder}
  {number : String → FileId} {name : String}

theorem segments_eq (hshows : files.Shows names root folder number) (bounds : List IndexEntry)
    (last : IndexEntry) {ids : List Nat}
    (h : ∀ id ∈ ids, names (segmentFileName name id) ∧ folder (segmentFileName name id) ≠ none) :
    segments files root name bounds last ids =
      .ok ((ids.map fun id => (segmentBytes folder name id).length).sum,
        ids.flatMap fun id =>
          segmentFindings bounds last id (segmentBytes folder name id).length) := by
  induction ids with
  | nil => rfl
  | cons id ids ih =>
      obtain ⟨hname, hthere⟩ := h id List.mem_cons_self
      obtain ⟨content, hcontent⟩ := Option.ne_none_iff_exists'.1 hthere
      have hbytes : segmentBytes folder name id = content := by
        rw [segmentBytes, hcontent, Option.getD_some]
      have hsegment : segment files root name bounds last id =
          .ok (content.length, segmentFindings bounds last id content.length) := by
        unfold segment
        rw [hshows.length hname hcontent]
      rw [segments, hsegment, ih fun other hother => h other (List.mem_cons_of_mem _ hother)]
      simp only [List.map_cons, List.sum_cons, List.flatMap_cons, hbytes]

/-- What may be amiss with the head of an indexed table: its length. -/
def headFindings (folder : Folder) (name : String) (entries : List IndexEntry) : List Finding :=
  if (segmentBytes folder name (lastOf entries).segment.toNat).length =
      (lastOf entries).offset.toNat then []
  else [.headLength (lastOf entries).segment.toNat
    (segmentBytes folder name (lastOf entries).segment.toNat).length (lastOf entries).offset.toNat]

theorem segmentFindings_history {first : IndexEntry} (h : Indexed folder name (first :: bounds))
    {id : Nat} (hid : id ≠ (lastOf (first :: bounds)).segment.toNat) :
    segmentFindings bounds (lastOf (first :: bounds)) id
      (segmentBytes folder name id).length = [] := by
  rw [segmentFindings, if_neg hid, if_neg]
  refine Nat.not_lt.2 (neededLength_le fun entry hmem heq => ?_)
  have hreaches := h.backed.reaches entry (List.mem_cons_of_mem _ hmem)
  rwa [heq] at hreaches

/-- An indexed table is audited by its entries and the lengths of its segments. -/
theorem table_eq (h : Indexed folder name entries)
    (hshows : files.Shows names root folder number)
    (hnames : ∀ file,
      IsFileWithin name (firstOf entries).segment.toNat (lastOf entries).segment.toNat file →
        names file) :
    table files root name = .ok ⟨name,
      (firstOf entries).offset.toNat + (entries.length - 1), (firstOf entries).segment.toNat,
      (lastOf entries).segment.toNat,
      dataLength folder name (firstOf entries).segment.toNat (lastOf entries).segment.toNat,
      headFindings folder name entries⟩ := by
  have hindex := hshows.read (hnames _ (isFileWithin_index _ _ _)) h.index
  have hmod : (encodeAll entries).length % width = 0 := by
    rw [length_encodeAll, Nat.mul_mod_right]
  have hle := h.tail_le_head
  unfold table indexed
  simp only [hindex, hmod, if_true, entries_encodeAll h.storable]
  cases entries with
  | nil => exact absurd rfl h.ne_nil
  | cons first bounds =>
      rw [firstOf_cons] at hle
      have hlast : bounds.getLastD first = lastOf (first :: bounds) := by
        rw [lastOf, List.getLastD_cons]
      have hsegments := segments_eq hshows bounds (lastOf (first :: bounds))
          fun id (hid : id ∈ List.range' first.segment.toNat
            ((lastOf (first :: bounds)).segment.toNat + 1 - first.segment.toNat)) => by
        obtain ⟨hlow, hhigh⟩ := List.mem_range'_1.1 hid
        have hle : id ≤ (lastOf (first :: bounds)).segment.toNat := by omega
        exact ⟨hnames _ (isFileWithin_segment name hlow hle), h.there hlow hle⟩
      have hfound : ((List.range' first.segment.toNat
          ((lastOf (first :: bounds)).segment.toNat + 1 - first.segment.toNat)).flatMap fun id =>
            segmentFindings bounds (lastOf (first :: bounds)) id
              (segmentBytes folder name id).length) =
          headFindings folder name (first :: bounds) := by
        rw [range'_head hle, List.flatMap_append, List.flatMap_eq_nil_iff.2, List.nil_append,
          List.flatMap_singleton, segmentFindings, if_pos rfl, headFindings]
        intro id hid
        obtain ⟨-, hhigh⟩ := List.mem_range'_1.1 hid
        refine segmentFindings_history h ?_
        omega
      have horder := orderFindings_eq_nil 1 h.backed.ordered
      rw [orderFindings_ground] at horder
      simp only [hlast, hsegments, hfound, horder, firstOf_cons]
      simp [dataLength]

theorem exists_table (h : Intact folder name entries)
    (hshows : files.Shows names root folder number)
    (hnames : ∀ file,
      IsFileWithin name (firstOf entries).segment.toNat (lastOf entries).segment.toNat file →
        names file) :
    ∃ dataBytes, table files root name = .ok ⟨name,
      (firstOf entries).offset.toNat + (entries.length - 1), (firstOf entries).segment.toNat,
      (lastOf entries).segment.toNat, dataBytes, []⟩ := by
  have htable := table_eq h.indexed hshows hnames
  rw [headFindings, if_pos h.headLength] at htable
  exact ⟨_, htable⟩

end table

section archive

variable {files : FileSystem} {root : Path} {report : Column → TableReport}

theorem archive_eq (h : ∀ c : Column, table files root c.name = .ok (report c)) :
    archive files root = .ok ⟨root, Column.all.map report⟩ := by
  unfold archive
  simp only [Column.all, List.map, tables, h]

theorem exists_table_of_tables {names : List String} {reports : List TableReport}
    (h : tables files root names = .ok reports) :
    ∀ name ∈ names, ∃ report, table files root name = .ok report := by
  induction names generalizing reports with
  | nil => simp
  | cons name names ih =>
      unfold tables at h
      split at h
      · simp at h
      next found htable =>
      split at h
      · simp at h
      next others htables =>
      rw [List.forall_mem_cons]
      exact ⟨⟨found, htable⟩, ih htables⟩

theorem exists_table_of_archive {whole : ArchiveReport} (h : archive files root = .ok whole) :
    ∃ report : Column → TableReport, (∀ c : Column, table files root c.name = .ok (report c)) ∧
      whole = ⟨root, Column.all.map report⟩ := by
  have htables : ∀ c : Column, ∃ report, table files root c.name = .ok report := by
    have harchive := h
    unfold archive at harchive
    split at harchive
    · next htables => exact fun c =>
        exists_table_of_tables htables _ (List.mem_map_of_mem (Column.mem_all c))
    · simp at harchive
  choose report hreport using htables
  exact ⟨report, hreport, Except.ok.inj (h.symm.trans (archive_eq hreport))⟩

theorem findingCount_eq_zero (hitems : ∀ c, (report c).items = n)
    (hfindings : ∀ c, (report c).findings = []) :
    (⟨root, Column.all.map report⟩ : ArchiveReport).findingCount = 0 := by
  simp [ArchiveReport.findingCount, ArchiveReport.findings, ArchiveReport.isEven,
    ArchiveReport.allEqual, Column.all, hitems, hfindings]

end archive

end Audit

theorem ArchiveReport.isOk_iff (report : ArchiveReport) :
    report.isOk = true ↔ report.findingCount = 0 := by
  have hsum : ∀ (counts : List Nat) (start : Nat),
      counts.foldl (· + ·) start = 0 ↔ start = 0 ∧ ∀ n ∈ counts, n = 0 := by
    intro counts
    induction counts with
    | nil => simp
    | cons n counts ih =>
        intro start
        rw [List.foldl_cons, ih, Nat.add_eq_zero_iff, List.forall_mem_cons, and_assoc]
  unfold isOk findingCount
  rw [hsum, Bool.and_eq_true]
  unfold findings
  cases report.isEven <;> simp [TableReport.isOk]

namespace Archive

open IndexEntry Table

variable {files : FileSystem} {root : Path} {place : Location}
  {entries : ByColumn (List IndexEntry)} {rows : List Row}

/-- Nothing is amiss with tables at rest that hold the columns of the same rows. -/
theorem Rests.exists_audit (h : Rests (files.folder place) entries rows)
    (hhouses : files.Houses IsFile root place) :
    ∃ report, Audit.archive files root = .ok report ∧ report.findingCount = 0 := by
  have htable : ∀ c : Column, ∃ report, Audit.table files root c.name = .ok report ∧
      report.items = rows.length ∧ report.findings = [] := by
    intro c
    obtain ⟨dataBytes, hreport⟩ := Audit.exists_table (h.whole c).intact hhouses.shows
      fun _ hfile => isFile_of_isFileOf (hfile.isFileOf (h.whole c).head_le)
    refine ⟨_, hreport, ?_, rfl⟩
    rw [(h.whole c).firstOf_offset, h.length_entries, Nat.zero_add, Nat.add_sub_cancel]
  choose report hreport hitems hfindings using htable
  exact ⟨_, Audit.archive_eq hreport, Audit.findingCount_eq_zero hitems hfindings⟩

end Archive

end BlockArchive
