import BlockArchive.Proofs.Auditing
import BlockArchive.Proofs.Unchanged

/-! # An audit is exact

An audit reads an index once, from front to back, and the lengths of the segments; an opening walks
back from the last entry, and each reading looks at two entries of its own.  They agree.

* **Nothing amiss.** Where an audit finds nothing, the table is intact
  (`exists_intact_of_audit`).  So it opens as it is, and all its items are read.
* **Nothing to do.** Where an opening changed nothing, what it has opened is the table of the
  entries in the index (`Table.exists_entries_of_outcome_openIn`), since none of its steps changed
  anything (`Table.steps_of_outcome_openIn`).  If besides no segment id decreases and all items are
  read, the entries are backed (`Table.backed_of_retrieves`), and an audit finds nothing.

The two halves are put together in `Table.audit_exact`. -/

namespace BlockArchive

open IndexEntry FileSystem

variable {files : FileSystem} {root : Path} {name : String}

namespace Audit

variable {before last : IndexEntry} {bounds : List IndexEntry} {n : Nat}

/-! ### What no finding means -/

theorem pairwise_of_orderFindings (hn : 1 ≤ n) (hfirst : n = 1 → before.offset = 0)
    (h : orderFindings n before bounds = []) : (before :: bounds).Pairwise Precedes := by
  induction bounds generalizing n before with
  | nil => exact List.pairwise_singleton _ _
  | cons entry bounds ih =>
      rw [orderFindings, List.append_eq_nil_iff] at h
      obtain ⟨hhere, hrest⟩ := h
      have hentry : before.Precedes entry := by
        split at hhere
        · simp at hhere
        next hback =>
        split at hhere
        · simp at hhere
        next hoffset =>
        rw [UInt32.lt_iff_toNat_lt] at hback
        rcases Nat.lt_or_eq_of_le (Nat.not_lt.1 hback) with hlt | heq
        · exact .inl hlt
        refine .inr ⟨UInt32.toNat_inj.1 heq, ?_⟩
        -- behind entry zero, which has offset zero, every offset will do
        rcases Nat.lt_or_eq_of_le hn with hn | rfl
        · by_contra hlt
          exact hoffset ⟨(UInt32.toNat_inj.1 heq).symm, hn,
            UInt32.lt_iff_toNat_lt.2 (Nat.not_le.1 hlt)⟩
        · rw [hfirst rfl]
          exact Nat.zero_le _
      have hbounds := ih (Nat.le_succ_of_le hn) (fun h => absurd h (by omega)) hrest
      refine List.pairwise_cons.2 ⟨fun other hother => ?_, hbounds⟩
      rcases List.mem_cons.1 hother with rfl | hmem
      · exact hentry
      · exact hentry.trans ((List.pairwise_cons.1 hbounds).1 other hmem)

theorem exists_length_of_segments {ids : List Nat} {total : Nat}
    (h : segments files root name bounds last ids = .ok (total, [])) :
    ∀ id ∈ ids, ∃ length, files.length (root.join (Table.segmentFileName name id)) = .ok length ∧
      segmentFindings bounds last id length = [] := by
  induction ids generalizing total with
  | nil => simp
  | cons id ids ih =>
      rw [segments] at h
      split at h
      · simp at h
      next length found hsegment =>
      split at h
      · simp at h
      next lengths others hsegments =>
      simp only [Except.ok.injEq, Prod.mk.injEq, List.append_eq_nil_iff] at h
      obtain ⟨-, rfl, rfl⟩ := h
      intro other hmem
      rcases List.mem_cons.1 hmem with rfl | hmem
      · unfold segment at hsegment
        split at hsegment
        · next length' hlength =>
            simp only [Except.ok.injEq, Prod.mk.injEq] at hsegment
            exact ⟨length', hlength, hsegment.2⟩
        · simp at hsegment
        · simp at hsegment
      · exact ih hsegments other hmem

end Audit

namespace Table

variable {entries : List IndexEntry}

theorem exists_seen_of_length (hplain : ∀ file, IsFileOf name file → files.IsPlain (root.join file))
    {id length : Nat} (hid : id ≤ lastSegmentId)
    (h : files.length (root.join (segmentFileName name id)) = .ok length) :
    ∃ content, files.seen root (segmentFileName name id) = some content ∧
      content.length = length := by
  obtain ⟨words, last, hwords, hlast⟩ := exists_words_join root (.inr ⟨id, rfl⟩)
  exact FileSystem.exists_seen_of_length hwords hlast (hplain _ (isFileOf_segment name hid)) h

theorem intact_of_segments {folder : Folder} {first : IndexEntry} {bounds : List IndexEntry}
    (hindex : folder (indexFileName name) = some (encodeAll (first :: bounds)))
    (hstorable : ∀ entry ∈ first :: bounds, entry.IsStorable)
    (hordered : (grounded (first :: bounds)).Pairwise Precedes)
    (hsegments : ∀ id, first.segment.toNat ≤ id →
      id ≤ (lastOf (first :: bounds)).segment.toNat →
      ∃ content, folder (segmentFileName name id) = some content ∧
        Audit.segmentFindings bounds (lastOf (first :: bounds)) id content.length = []) :
    Intact folder name (first :: bounds) := by
  have htail : first.segment.toNat ≤ (lastOf (first :: bounds)).segment.toNat := by
    have hle := (firstOf_precedes hordered (lastOf_mem (by simp [grounded]))).segment_le
    rwa [firstOf_grounded_segment, lastOf_grounded_segment] at hle
  obtain ⟨head, hhead, hfindings⟩ := hsegments _ htail (Nat.le_refl _)
  have hlength : head.length = (lastOf (first :: bounds)).offset.toNat := by
    rw [Audit.segmentFindings, if_pos rfl] at hfindings
    by_contra hne
    simp [hne] at hfindings
  refine ⟨⟨hindex, by simp [hhead], by rw [segmentBytes, hhead, Option.getD_some, hlength]⟩,
    ⟨by simp [grounded], firstOf_grounded_offset _, ?_, hordered, ?_, ?_⟩⟩
  · rintro entry hmem
    rcases List.mem_cons.1 hmem with rfl | hmem
    · exact hstorable first List.mem_cons_self
    · exact hstorable entry (List.mem_cons_of_mem _ hmem)
  · intro entry hmem
    rcases List.mem_cons.1 hmem with rfl | hbound
    · exact Nat.zero_le _
    have hlow := (firstOf_precedes hordered hmem).segment_le
    have hlast := precedes_lastOf hordered hmem
    have hend : lastOf (grounded (first :: bounds)) = lastOf (first :: bounds) := by
      rw [grounded, lastOf_cons _ (List.ne_nil_of_mem hbound),
        lastOf_cons _ (List.ne_nil_of_mem hbound)]
    rw [hend] at hlast
    obtain ⟨content, hcontent, hneeded⟩ := hsegments _ hlow hlast.segment_le
    rw [segmentBytes, hcontent, Option.getD_some]
    unfold Audit.segmentFindings at hneeded
    split at hneeded
    · next heq =>
        rcases hlast with hlt | ⟨-, hle⟩
        · exact absurd heq (Nat.ne_of_lt hlt)
        rw [heq, hhead] at hcontent
        rwa [← Option.some.inj hcontent, hlength]
    · refine Nat.le_trans (Audit.offset_le_neededLength hbound) ?_
      by_contra hshort
      simp [Nat.not_le.1 hshort] at hneeded
  · intro id hle hlt
    rw [firstOf_grounded_segment] at hle
    rw [lastOf_grounded_segment] at hlt
    obtain ⟨content, hcontent, -⟩ := hsegments id hle (Nat.le_of_lt hlt)
    simp [hcontent]

/-- A table with which an audit finds nothing amiss is intact. -/
theorem exists_intact_of_audit
    (hplain : ∀ file, IsFileOf name file → files.IsPlain (root.join file)) {report : TableReport}
    (h : Audit.table files root name = .ok report) (hok : report.findings = []) :
    ∃ entries, files.read (root.join (indexFileName name)) = .ok (encodeAll entries) ∧
      Intact (files.seen root) name entries := by
  unfold Audit.table at h
  split at h
  next data hread =>
    unfold Audit.indexed at h
    simp only at h
    split at h
    · obtain rfl := Except.ok.inj h
      simp at hok
    next first bounds hentries =>
    split at h
    · simp at h
    next dataBytes found hsegments =>
    obtain rfl := Except.ok.inj h
    simp only [List.append_eq_nil_iff] at hok
    obtain ⟨⟨htorn, horder⟩, rfl⟩ := hok
    have hwhole : data.length % width = 0 := by
      by_contra hne
      simp [hne] at htorn
    have hencode : encodeAll (first :: bounds) = data := by
      rw [← hentries, Audit.encodeAll_entries hwhole]
    have hstorable : ∀ entry ∈ first :: bounds, entry.IsStorable := fun entry hmem =>
      Audit.isStorable_of_mem_entries (hentries ▸ hmem)
    have hlast : bounds.getLastD first = lastOf (first :: bounds) := by
      rw [lastOf, List.getLastD_cons]
    rw [hlast] at hsegments
    have hindex : files.seen root (indexFileName name) = some data := by
      obtain ⟨words, last, hwords, hlast⟩ := exists_words_join root (.inl rfl)
      exact FileSystem.seen_of_read hwords hlast (hplain _ (isFileOf_index name)) hread
    refine ⟨first :: bounds, by rw [hencode, hread],
      intact_of_segments (by rw [hindex, hencode]) hstorable ?_ fun id hlow hhigh => ?_⟩
    · rw [← Audit.orderFindings_ground] at horder
      exact Audit.pairwise_of_orderFindings (Nat.le_refl 1) (fun _ => rfl) horder
    · have hid : id ≤ lastSegmentId :=
        Nat.le_trans hhigh (hstorable _ (lastOf_mem (List.cons_ne_nil _ _)))
      obtain ⟨length, hlength, hfindings⟩ := Audit.exists_length_of_segments hsegments id
        (List.mem_range'_1.2 ⟨hlow, by omega⟩)
      obtain ⟨content, hcontent, rfl⟩ := exists_seen_of_length hplain hid hlength
      exact ⟨content, hcontent, hfindings⟩
  · obtain rfl := Except.ok.inj h
    simp at hok
  · simp at h

/-! ### What an opening without effects means -/

section opening

theorem steps_of_outcome_openIn {disk disk' : Disk} {table : Table} {cap : Nat}
    (hmake : (Disk.makeDirectories root).outcome disk = (.ok (), disk))
    (h : (openIn root name cap).outcome disk = (.ok table, disk'))
    (heffects : disk'.effects = disk.effects) :
    disk' = disk ∧ ∃ index before first last head length settled history handle,
      (Disk.openFile (indexPath root name) .update).outcome disk = (.ok index, disk) ∧
      (trimIndex index).outcome disk = (.ok before, disk) ∧
      (readEntry index 0).outcome disk = (.ok first, disk) ∧
      (readEntry index before).outcome disk = (.ok last, disk) ∧
      (openHead root name last.segment.toNat).outcome disk = (.ok (head, length), disk) ∧
      (settle root name index before last head length).outcome disk = (.ok settled, disk) ∧
      (openHistory root name (List.range' first.segment.toNat
        (settled.last.segment.toNat - first.segment.toNat))).outcome disk =
          (.ok history, disk) ∧
      (Disk.openFile (segmentPath root name settled.last.segment.toNat) .update).outcome disk =
        (.ok handle, disk) ∧
      table = {
        name := name
        dir := root
        cap := cap
        tailId := first.segment.toNat
        headId := settled.last.segment.toNat
        items := first.offset.toNat + settled.before
        headBytes := settled.length
        itemOffset := first.offset.toNat
        index := some index
        segments := history ++ [(settled.last.segment.toNat, handle)] } := by
  cases openSteps_of_outcome h with
  | steps hmake' hindex htrim hfirst hlast hhead hsettle hhistory hreopen =>
  obtain ⟨-, rfl⟩ := Prod.mk.inj (hmake.symm.trans hmake')
  obtain rfl := (onlyReads_readEntry _ _).of_outcome hfirst
  obtain rfl := (onlyReads_readEntry _ _).of_outcome hlast
  obtain rfl := (onlyReads_openHistory _ _ _).of_outcome hhistory
  -- the journal is as long in the end as in the beginning, so no other step had an effect either
  have back₄ := (Disk.onlyPerforms_openFile _ _).of_outcome hreopen
  have back₃ := ((onlyPerforms_settle _ _ _ _ _ _ _).of_outcome hsettle).trans back₄
  have back₂ := ((onlyPerforms_openHead _ _ _).of_outcome hhead).trans back₃
  have back₁ := ((onlyPerforms_trimIndex _).of_outcome htrim).trans back₂
  have back := ((Disk.onlyPerforms_openFile _ _).of_outcome hindex).trans back₁
  obtain rfl : disk' = disk := back.eq_of_length_le (by rw [List.reverse_injective heffects])
  obtain rfl := ((Disk.onlyPerforms_openFile _ _).of_outcome hindex).eq_of_back back₁
  obtain rfl := ((onlyPerforms_trimIndex _).of_outcome htrim).eq_of_back back₂
  obtain rfl := ((onlyPerforms_openHead _ _ _).of_outcome hhead).eq_of_back back₃
  obtain rfl := ((onlyPerforms_settle _ _ _ _ _ _ _).of_outcome hsettle).eq_of_back back₄
  exact ⟨rfl, _, _, _, _, _, _, _, _, _, hindex, htrim, hfirst, hlast, hhead, hsettle, hhistory,
    hreopen, rfl⟩

variable {disk : Disk} {table : Table} {cap : Nat}
  (hroot : disk.files.isDirectory root = true)
  (hhome : disk.files.node? disk.files.home = some .directory)
  (hplain : ∀ file, IsFileOf name file → disk.files.IsPlain (root.join file))
include hroot hhome hplain

theorem shows_of_isPlain : disk.files.Shows (IsFileOf name) root (disk.files.seen root)
    (disk.files.numberAt root) := by
  refine shows_seen hroot hhome (fun file hfile => ?_) hplain
  rcases hfile with rfl | ⟨id, -, rfl⟩
  · exact exists_words_join root (.inl rfl)
  · exact exists_words_join root (.inr ⟨id, rfl⟩)

theorem exists_entries_of_outcome_openIn {disk' : Disk}
    (h : (openIn root name cap).outcome disk = (.ok table, disk'))
    (heffects : disk'.effects = disk.effects) :
    disk' = disk ∧ ∃ entries, disk.files.seen root (indexFileName name) = some (encodeAll entries) ∧
      entries ≠ [] ∧ (∀ entry ∈ entries, entry.IsStorable) ∧
      (∃ content, disk.files.seen root (segmentFileName name (lastOf entries).segment.toNat) =
          some content ∧
        ((lastOf entries).offset.toNat = content.length ∨
          entries.length = 1 ∧ content.length = 0)) ∧
      (∀ id, (firstOf entries).segment.toNat ≤ id → id < (lastOf entries).segment.toNat →
        disk.files.seen root (segmentFileName name id) ≠ none) ∧
      table = tableOf (disk.files.seen root) (disk.files.numberAt root) root name cap entries := by
  have hshows := shows_of_isPlain hroot hhome hplain
  obtain ⟨rfl, index, before, first, last, head, length, settled, history, handle, hindex, htrim,
    hfirst, hlast, hhead, hsettle, hhistory, hreopen, rfl⟩ :=
      steps_of_outcome_openIn (Disk.outcome_makeDirectories_of_shows hshows) h heffects
  -- the index is there and has entries
  obtain ⟨words, final, hwords, hfinal⟩ := exists_words_join root (.inl rfl)
  obtain ⟨hseen, rfl⟩ := Disk.seen_of_outcome_openFile hwords hfinal
    (hplain _ (isFileOf_index name)) (by decide) hindex
  obtain ⟨data, hdata⟩ := Option.ne_none_iff_exists'.1 hseen
  have hcontent := (seen_eq_some.1 hdata).2
  obtain ⟨hwhole, hcount⟩ := whole_of_outcome_trimIndex hcontent htrim
  have hlength := Audit.length_entries data
  have hne : Audit.entries data ≠ [] := List.ne_nil_of_length_pos (by omega)
  have hstorable : ∀ entry ∈ Audit.entries data, entry.IsStorable := fun entry =>
    Audit.isStorable_of_mem_entries
  -- entry zero and the last entry are read
  obtain rfl : before = (Audit.entries data).length - 1 := by omega
  have hzero : (Audit.entries data)[0]? = some (firstOf (Audit.entries data)) :=
    getElem?_eq_firstOf hne
  have hreadFirst := outcome_readEntry_of_content hcontent hzero
  have hreadLast := outcome_readEntry_of_content hcontent (getElem?_eq_lastOf hne)
  obtain rfl := Except.ok.inj (Prod.mk.inj (hreadFirst.symm.trans hfirst)).1
  obtain rfl := Except.ok.inj (Prod.mk.inj (hreadLast.symm.trans hlast)).1
  -- the head is there, and nothing was settled
  have hhigh := hstorable _ (lastOf_mem hne)
  obtain ⟨content, hheadSeen, rfl, rfl⟩ :=
    seen_of_outcome_openHead (hplain _ (isFileOf_segment name hhigh)) hhead
  obtain ⟨rfl, hends⟩ := eq_of_outcome_settle hsettle
  simp only at hhistory hreopen
  -- so are the segments before it
  obtain ⟨hhistorySeen, rfl⟩ := seen_of_outcome_openHistory (fun id hid => by
    obtain ⟨hlow, hlt⟩ := List.mem_range'_1.1 hid
    exact hplain _ (isFileOf_segment name (Nat.le_trans (by omega) hhigh))) hhistory
  obtain ⟨words, final, hwords, hfinal⟩ :=
    exists_words_join root (.inr ⟨(lastOf (Audit.entries data)).segment.toNat, rfl⟩)
  obtain ⟨-, rfl⟩ := Disk.seen_of_outcome_openFile hwords hfinal
    (hplain _ (isFileOf_segment name hhigh)) (by decide) hreopen
  refine ⟨rfl, Audit.entries data, by rw [Audit.encodeAll_entries hwhole, hdata], hne, hstorable,
    ⟨content, hheadSeen, ?_⟩, fun id hlow hlt => ?_, ?_⟩
  · rcases hends with hends | ⟨hbefore, hempty⟩
    · exact .inl hends
    · have := List.length_pos_iff.2 hne
      exact .inr ⟨by omega, hempty⟩
  · exact hhistorySeen id (List.mem_range'_1.2 ⟨hlow, by omega⟩)
  · rw [tableOf, segmentBytes, hheadSeen]
    rfl

end opening

/-! ### What it means that all items are read -/

section reading

variable {disk : Disk} {cap : Nat}
  (hindex : disk.files.seen root (indexFileName name) = some (encodeAll entries))
  (hstorable : ∀ entry ∈ entries, entry.IsStorable)
  (hfirst : (firstOf entries).offset = 0)
  (hsorted : entries.Pairwise fun a b => a.segment ≤ b.segment)
  (hthere : ∀ id, (firstOf entries).segment.toNat ≤ id → id ≤ (lastOf entries).segment.toNat →
    disk.files.seen root (segmentFileName name id) ≠ none)
include hindex hstorable hfirst hsorted hthere

theorem extent_of_retrieve {n : Nat} {before after : IndexEntry}
    (hbefore : entries[n]? = some before) (hafter : entries[n + 1]? = some after) {data : Bytes}
    (hread : ((retrieve n).outcome (tableOf (disk.files.seen root) (disk.files.numberAt root) root
      name cap entries, disk)).1 = .ok data) :
    (Extent.between before after).start ≤ after.offset.toNat ∧
      (after.offset.toNat = (Extent.between before after).start ∨
        after.offset.toNat ≤
          (segmentBytes (disk.files.seen root) name after.segment.toNat).length) := by
  obtain ⟨hlow, hhigh⟩ := segment_le_of_pairwise hsorted (List.mem_of_getElem? hafter)
  obtain ⟨writable, hget⟩ := exists_get?_segmentsBy (disk.files.numberAt root) name hlow hhigh
  obtain ⟨content, hcontent⟩ := Option.ne_none_iff_exists'.1 (hthere _ hlow hhigh)
  have hentry : ∀ n entry, entries[n]? = some entry →
      (readEntry (.file (disk.files.numberAt root (indexFileName name)) true) n).outcome disk =
        (.ok entry, disk) := fun n entry hentry =>
    outcome_readEntry_of_content (seen_eq_some.1 hindex).2
      (by rwa [Audit.entries_encodeAll hstorable])
  have hoffset : (firstOf entries).offset.toNat = 0 := by
    rw [hfirst]
    rfl
  have hopened : (tableOf (disk.files.seen root) (disk.files.numberAt root) root name cap
      entries).index = some (.file (disk.files.numberAt root (indexFileName name)) true) := rfl
  have hlt := (List.getElem?_eq_some_iff.1 hafter).1
  have hrun := outcome_retrieve_of_get? hopened hentry
    (Nat.add_lt_add_left (Nat.lt_sub_of_add_lt hlt) _) (by rwa [grounded_eq_self hfirst]) hafter hget
  simp only [tableOf, hoffset, Nat.zero_add] at hrun hread
  rw [hrun] at hread
  have hbytes : segmentBytes (disk.files.seen root) name after.segment.toNat =
      disk.files.content (disk.files.numberAt root (segmentFileName name after.segment.toNat)) := by
    rw [segmentBytes, hcontent, Option.getD_some, (seen_eq_some.1 hcontent).2]
  have hstop : (Extent.between before after).stop = after.offset.toNat := rfl
  rw [hbytes]
  rw [hstop] at hread
  split at hread
  · simp at hread
  next hle =>
  refine ⟨Nat.not_lt.1 hle, ?_⟩
  split at hread
  · next hslice =>
      unfold Bytes.slice? at hslice
      split at hslice
      · exact .inl (by omega)
      split at hslice
      · exact .inr (by omega)
      · simp at hslice
  · simp at hread

/-- When all items are read, the entries are backed. -/
theorem backed_of_retrieves (hne : entries ≠ [])
    (hread : ∀ n, n + 1 < entries.length → ∃ data,
      ((retrieve n).outcome (tableOf (disk.files.seen root) (disk.files.numberAt root) root
        name cap entries, disk)).1 = .ok data) :
    Backed (disk.files.seen root) name entries := by
  have hextent : ∀ n before after, entries[n]? = some before → entries[n + 1]? = some after →
      (Extent.between before after).start ≤ after.offset.toNat ∧
        (after.offset.toNat = (Extent.between before after).start ∨
          after.offset.toNat ≤
            (segmentBytes (disk.files.seen root) name after.segment.toNat).length) := by
    intro n before after hbefore hafter
    obtain ⟨data, hdata⟩ := hread n (List.getElem?_eq_some_iff.1 hafter).1
    exact extent_of_retrieve hindex hstorable hfirst hsorted hthere hbefore hafter hdata
  -- from front to back: an item without bytes ends where its predecessor ends, or at byte zero
  have hreaches : ∀ (n : Nat) (entry : IndexEntry), entries[n]? = some entry → entry.offset.toNat ≤
      (segmentBytes (disk.files.seen root) name entry.segment.toNat).length := by
    intro n
    induction n with
    | zero =>
        intro entry hentry
        have hzero : firstOf entries = entry := by
          cases entries with
          | nil => simp at hentry
          | cons => exact Option.some.inj hentry
        rw [← hzero, hfirst]
        exact Nat.zero_le _
    | succ n ih =>
        intro after hafter
        have hn := (List.getElem?_eq_some_iff.1 hafter).1
        have hbefore := List.getElem?_eq_getElem (Nat.lt_of_succ_lt hn)
        obtain ⟨-, hstart | hle⟩ := hextent n _ _ hbefore hafter
        · rw [hstart]
          unfold Extent.between
          split
          · next hsegment =>
              rw [← hsegment]
              exact ih _ hbefore
          · exact Nat.zero_le _
        · exact hle
  refine ⟨hne, hfirst, hstorable, pairwise_of_getElem? fun n before after hbefore hafter => ?_,
    fun entry hmem => ?_, fun id hlow hlt => hthere id hlow (Nat.le_of_lt hlt)⟩
  · obtain ⟨hn, hb⟩ := List.getElem?_eq_some_iff.1 hbefore
    obtain ⟨hn', ha⟩ := List.getElem?_eq_some_iff.1 hafter
    have hle := List.pairwise_iff_getElem.1 hsorted n (n + 1) hn hn' (Nat.lt_succ_self n)
    rw [hb, ha, UInt32.le_iff_toNat_le] at hle
    rcases Nat.lt_or_eq_of_le hle with hlt | heq
    · exact .inl hlt
    · have hsegment := UInt32.toNat_inj.1 heq
      refine .inr ⟨hsegment, ?_⟩
      have hstart := (hextent n before after hbefore hafter).1
      rwa [Extent.between, if_pos hsegment] at hstart
  · obtain ⟨n, hn⟩ := List.getElem?_of_mem hmem
    exact hreaches n entry hn

end reading

/-! ### Both ways -/

/-- The item between the entries `n` and `n + 1` of an index, as the files hold it: the bytes of the
segment that the later entry names, up to where that entry says, and from where the earlier one
says, if it names the same segment.  The first item starts at byte zero. -/
def IsItem (files : FileSystem) (root : Path) (name : String) (index : Bytes) (n : Nat)
    (item : Bytes) : Prop :=
  ∃ before after content,
    (Audit.entries index)[n]? = some before ∧ (Audit.entries index)[n + 1]? = some after ∧
    files.read (root.join (segmentFileName name after.segment.toNat)) = .ok content ∧
    let start := if n = 0 ∨ before.segment ≠ after.segment then 0 else before.offset.toNat
    start ≤ after.offset.toNat ∧ after.offset.toNat ≤ content.length ∧
      item = (content.take after.offset.toNat).drop start

theorem Intact.exists_isItem {names : String → Prop} {folder : Folder} {number : String → FileId}
    (h : Intact folder name entries) (hshows : files.Shows names root folder number)
    (hnames : ∀ file,
      IsFileWithin name (firstOf entries).segment.toNat (lastOf entries).segment.toNat file →
        names file) {n : Nat} (hn : n + 1 < entries.length) :
    ∃ item, (storedItems folder name entries)[n]? = some item ∧
      IsItem files root name (encodeAll entries) n item := by
  have hbefore := List.getElem?_eq_getElem (l := entries) (Nat.lt_of_succ_lt hn)
  have hafter := List.getElem?_eq_getElem hn
  generalize entries[n] = before at hbefore
  generalize entries[n + 1] = after at hafter
  -- the offset of entry zero is no place in a segment
  obtain ⟨before', hbefore', hstart⟩ : ∃ before', (grounded entries)[n]? = some before' ∧
      (Extent.between before' after).start =
        if n = 0 ∨ before.segment ≠ after.segment then 0 else before.offset.toNat := by
    cases n with
    | zero =>
        refine ⟨{ before with offset := 0 }, by rw [getElem?_grounded_zero, hbefore]; rfl, ?_⟩
        simp [Extent.between]
    | succ n =>
        refine ⟨before, by rw [getElem?_grounded_succ, hbefore], ?_⟩
        simp [Extent.between, ite_not]
  have hafter' : (grounded entries)[n + 1]? = some after := by
    rw [getElem?_grounded_succ, hafter]
  obtain ⟨hle, hstop⟩ := h.backed.extent_le hbefore' hafter'
  have hmem := List.mem_of_getElem? hafter
  have hname := hnames _ (isFileWithin_segment name (h.le_segment hmem) (h.segment_le hmem))
  obtain ⟨content, hcontent⟩ :=
    Option.ne_none_iff_exists'.1 (h.there (h.le_segment hmem) (h.segment_le hmem))
  have hbytes : segmentBytes folder name (Extent.between before' after).segment = content := by
    change (folder (segmentFileName name after.segment.toNat)).getD [] = content
    rw [hcontent, Option.getD_some]
  refine ⟨between folder name before' after, ?_, before, after, content, ?_, ?_,
    hshows.read hname hcontent, ?_, ?_, ?_⟩
  · rw [← storedItems_grounded, getElem?_storedItems (firstOf_grounded_offset _), hbefore', hafter']
  · rw [Audit.entries_encodeAll h.storable, hbefore]
  · rw [Audit.entries_encodeAll h.storable, hafter]
  · rwa [← hstart]
  · rwa [hbytes] at hstop
  · rw [← hstart, between, hbytes]
    rfl

/-- An audit of plain files finds nothing amiss with a table exactly when the table can be opened
without an effect on them and then has the tail, the head and the number of items that the audit
tells, and answers with every item that its index bounds.  For the way back, entry zero has to
count no pruned items and no segment id may decrease. -/
theorem audit_exact (hroot : files.isDirectory root = true)
    (hhome : files.node? files.home = some .directory)
    (hplain : ∀ file, IsFileOf name file → files.IsPlain (root.join file)) :
    (∀ report, Audit.table files root name = .ok report → report.findings = [] →
      ∃ index, files.read (root.join (indexFileName name)) = .ok index ∧
        ∀ (cap : Nat) (disk : Disk), disk.files = files →
          ∃ table, (openIn root name cap).outcome disk = (.ok table, disk) ∧
            table.items = report.items ∧ table.tailId = report.tailId ∧
            table.headId = report.headId ∧
            table.itemOffset = (firstOf (Audit.entries index)).offset.toNat ∧
            ∀ item, table.itemOffset ≤ item → item < table.items →
              ∃ data, IsItem files root name index (item - table.itemOffset) data ∧
                (retrieve item).outcome (table, disk) = (.ok data, (table, disk))) ∧
    (∀ (index : Bytes) (cap : Nat) (disk disk' : Disk) (table : Table),
      files.read (root.join (indexFileName name)) = .ok index → disk.files = files →
      (openIn root name cap).outcome disk = (.ok table, disk') → disk'.effects = disk.effects →
      (firstOf (Audit.entries index)).offset = 0 →
      (Audit.entries index).Pairwise (fun a b => a.segment ≤ b.segment) →
      (∀ item, table.itemOffset ≤ item → item < table.items →
        ∃ data, ((retrieve item).outcome (table, disk')).1 = .ok data) →
      ∃ report, Audit.table files root name = .ok report ∧ report.findings = []) := by
  have hnames : ∀ entries : List IndexEntry, (lastOf entries).segment.toNat ≤ lastSegmentId →
      ∀ file, IsFileWithin name (firstOf entries).segment.toNat (lastOf entries).segment.toNat
        file → IsFileOf name file := fun _ hhead _ hfile => hfile.isFileOf hhead
  constructor
  · intro report haudit hok
    obtain ⟨entries, hread, hintact⟩ := exists_intact_of_audit hplain haudit hok
    refine ⟨_, hread, fun cap disk hfiles => ?_⟩
    subst hfiles
    have hshows := shows_of_isPlain hroot hhome hplain
    obtain ⟨dataBytes, hreport⟩ := Audit.exists_table hintact hshows (hnames _ hintact.head_le)
    obtain rfl := Except.ok.inj (haudit.symm.trans hreport)
    refine ⟨_, hintact.outcome_openIn hshows (hnames _ hintact.head_le) cap, rfl, rfl, rfl, ?_,
      fun item hlow hhigh => ?_⟩
    · rw [Audit.entries_encodeAll hintact.storable]
      rfl
    · simp only [tableOf] at hlow hhigh ⊢
      obtain ⟨n, rfl⟩ := Nat.exists_eq_add_of_le hlow
      rw [Nat.add_sub_cancel_left]
      obtain ⟨data, hstored, hitem⟩ := hintact.exists_isItem hshows (hnames _ hintact.head_le)
        (show n + 1 < entries.length by omega)
      exact ⟨data, hitem, hintact.outcome_retrieve hshows.holds (hnames _ hintact.head_le) root cap
        hstored⟩
  · intro index cap disk disk' table hread hfiles hopen heffects hfirst hsorted hall
    subst hfiles
    have hshows := shows_of_isPlain hroot hhome hplain
    obtain ⟨rfl, entries, hindex, hne, hstorable, ⟨head, hhead, hends⟩, hhistory, rfl⟩ :=
      exists_entries_of_outcome_openIn hroot hhome hplain hopen heffects
    obtain rfl : index = encodeAll entries :=
      Except.ok.inj (hread.symm.trans (hshows.read (isFileOf_index name) hindex))
    rw [Audit.entries_encodeAll hstorable] at hfirst hsorted
    have hthere : ∀ id, (firstOf entries).segment.toNat ≤ id →
        id ≤ (lastOf entries).segment.toNat →
        disk'.files.seen root (segmentFileName name id) ≠ none := by
      intro id hlow hhigh
      rcases Nat.lt_or_eq_of_le hhigh with hlt | rfl
      · exact hhistory id hlow hlt
      · simp [hhead]
    have hoffset : (firstOf entries).offset.toNat = 0 := by
      rw [hfirst]
      rfl
    have hbacked := backed_of_retrieves hindex hstorable hfirst hsorted hthere hne fun n hn =>
      hall n (by simp [tableOf, hoffset]) (by simp only [tableOf]; omega)
    have hwhole : Whole (disk'.files.seen root) name entries := by
      refine ⟨hbacked, hindex, by simp [hhead], ?_⟩
      rw [segmentBytes, hhead, Option.getD_some]
      rcases hends with hends | ⟨hone, hempty⟩
      · exact hends.symm
      -- an index of one entry: the last entry is entry zero
      · obtain ⟨first, rfl⟩ := List.length_eq_one_iff.1 hone
        rw [hempty]
        exact hoffset.symm
    obtain ⟨dataBytes, hreport⟩ :=
      Audit.exists_table hwhole.intact hshows (hnames _ hwhole.head_le)
    exact ⟨_, hreport, rfl⟩

/-- A table of two items, each in its own segment. -/
def twoItems : FileSystem :=
  ofListing [(indexFileName Column.hashes.name, encodeAll [.sentinel, ⟨0, 2⟩, ⟨1, 1⟩]),
    (segmentFileName Column.hashes.name 0, [1, 2]), (segmentFileName Column.hashes.name 1, [3])]

/-- Nothing is amiss with the two items: the table opens and answers, and from that alone it follows
that nothing is amiss. -/
theorem audit_exact_twoItems :
    (∃ table, (openIn ⟨["", "a"]⟩ Column.hashes.name 5).outcome (Disk.ofFiles twoItems) =
        (.ok table, Disk.ofFiles twoItems) ∧ table.items = 2 ∧
      ∃ data, IsItem twoItems ⟨["", "a"]⟩ Column.hashes.name
          (encodeAll [.sentinel, ⟨0, 2⟩, ⟨1, 1⟩]) 1 data ∧
        (retrieve 1).outcome (table, Disk.ofFiles twoItems) =
          (.ok data, (table, Disk.ofFiles twoItems))) ∧
    ∃ report, Audit.table twoItems ⟨["", "a"]⟩ Column.hashes.name = .ok report ∧
      report.findings = [] := by
  have hhouses := Archive.houses_ofListing
    [(indexFileName Column.hashes.name, encodeAll [.sentinel, ⟨0, 2⟩, ⟨1, 1⟩]),
      (segmentFileName Column.hashes.name 0, [1, 2]), (segmentFileName Column.hashes.name 1, [3])]
  obtain ⟨hforth, hback⟩ := @audit_exact twoItems ⟨["", "a"]⟩ Column.hashes.name
    hhouses.shows.isDirectory hhouses.home fun file hfile =>
      hhouses.isPlain (Archive.isFile_of_isFileOf hfile)
  have hreport : Audit.table twoItems ⟨["", "a"]⟩ Column.hashes.name =
      .ok ⟨Column.hashes.name, 2, 0, 1, 3, []⟩ := by
    decide +kernel
  obtain ⟨index, hread, hopens⟩ := hforth _ hreport rfl
  have hindex : twoItems.read ((⟨["", "a"]⟩ : Path).join (indexFileName Column.hashes.name)) =
      .ok (encodeAll [.sentinel, ⟨0, 2⟩, ⟨1, 1⟩]) := by
    decide +kernel
  obtain rfl := Except.ok.inj (hread.symm.trans hindex)
  obtain ⟨table, hopen, hitems, -, -, hoffset, hall⟩ := hopens 5 (Disk.ofFiles twoItems) rfl
  have hzero : table.itemOffset = 0 := by
    rw [hoffset]
    decide
  obtain ⟨data, hdata, hretrieve⟩ := hall 1 (by omega) (by rw [hitems]; decide)
  rw [hzero] at hdata
  refine ⟨⟨table, hopen, hitems, data, hdata, hretrieve⟩, ?_⟩
  refine hback _ 5 (Disk.ofFiles twoItems) _ table hread rfl hopen rfl (by decide) (by decide)
    fun item hlow hhigh => ?_
  obtain ⟨data, -, hretrieve⟩ := hall item hlow hhigh
  exact ⟨data, by rw [hretrieve]⟩

end Table

end BlockArchive
