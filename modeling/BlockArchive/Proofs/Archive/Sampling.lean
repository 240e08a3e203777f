import BlockArchive.Workload
import BlockArchive.Proofs.Archive.Undoing

/-! # The tally of a workload

Many samples are appended one after the other, and the workload goes on after a failure.

* **`FillsTo`**: so many samples are added, and the archive then holds the rows that it held and
  these samples behind them.
* **After a failure.** The archive has fewer rows than the workload has counted, so each of the
  remaining samples is out of sequence.  It is refused and nothing is changed
  (`outcome_appendFrom_of_refused`).
* **The tally.** The samples that are added come first, and then those that are not
  (`exists_fillsTo`).

`appendSamples_tallies` puts this together. -/

namespace BlockArchive.Workload

open Archive Table

variable {archive archive' : Archive} {disk disk' : Disk} {root : Path} {place : Location}
  {cap : Nat} {entries : ByColumn (List IndexEntry)} {rows : List Row}
  {state state' : Archive × Disk} {first blocks : Nat} {tally : Tally} {e : Error}

/-! ### One sample -/

theorem outcome_appendSample_of_ok {n : Nat}
    (h : (append n (Row.sample n)).outcome state = (.ok (), state')) :
    (appendSample n).outcome state = (.ok true, state') := by
  unfold appendSample
  rw [Attempt.outcome_tryCatch, Attempt.outcome_bind_ok h]
  rfl

theorem outcome_appendSample_of_error {n : Nat}
    (h : (append n (Row.sample n)).outcome state = (.error e, state')) :
    (appendSample n).outcome state = (.ok false, state') := by
  unfold appendSample
  rw [Attempt.outcome_tryCatch, Attempt.outcome_bind_error h]
  rfl

theorem exists_outcome_appendSample (n : Nat) (state : Archive × Disk) :
    ∃ success state', (appendSample n).outcome state = (.ok success, state') := by
  rcases happend : (append n (Row.sample n)).outcome state with ⟨⟨e⟩ | ⟨⟩, state'⟩
  · exact ⟨false, state', outcome_appendSample_of_error happend⟩
  · exact ⟨true, state', outcome_appendSample_of_ok happend⟩

/-! ### Many samples -/

theorem Tally.total_count (tally : Tally) (success : Bool) :
    (tally.count success).total = tally.total + 1 := by
  cases success <;> simp only [Tally.count, Tally.total] <;> grind

theorem exists_outcome_appendFrom (first blocks : Nat) (tally : Tally) (state : Archive × Disk) :
    ∃ tally' state', (appendFrom first blocks tally).outcome state = (.ok tally', state') ∧
      tally'.total = tally.total + blocks := by
  induction blocks generalizing first tally state with
  | zero => exact ⟨tally, state, rfl, rfl⟩
  | succ blocks ih =>
      obtain ⟨success, state₁, hrun⟩ := exists_outcome_appendSample first state
      obtain ⟨tally', state', hrest, htotal⟩ := ih (first + 1) (tally.count success) state₁
      refine ⟨tally', state', ?_, ?_⟩
      · rw [appendFrom, Attempt.outcome_bind_ok hrun, hrest]
      · rw [htotal, Tally.total_count]
        omega

theorem outcome_appendFrom_add {tally' : Tally} {done : Nat}
    (h : (appendFrom first done tally).outcome state = (.ok tally', state')) (more : Nat) :
    (appendFrom first (done + more) tally).outcome state =
      (appendFrom (first + done) more tally').outcome state' := by
  induction done generalizing first tally state with
  | zero =>
      obtain ⟨⟨rfl⟩, rfl⟩ := Prod.mk.inj h
      rw [Nat.zero_add, Nat.add_zero]
  | succ done ih =>
      obtain ⟨success, state₁, hrun⟩ := exists_outcome_appendSample first state
      rw [appendFrom, Attempt.outcome_bind_ok hrun] at h
      rw [Nat.add_right_comm, appendFrom, Attempt.outcome_bind_ok hrun, ih h, Nat.add_assoc,
        Nat.add_comm 1]

/-- Where every sample is refused and nothing is changed, all of them fail. -/
theorem outcome_appendFrom_of_refused
    (h : ∀ n, first ≤ n → ∃ e, (append n (Row.sample n)).outcome state = (.error e, state))
    (blocks : Nat) (tally : Tally) :
    (appendFrom first blocks tally).outcome state =
      (.ok { tally with failed := tally.failed + blocks }, state) := by
  induction blocks generalizing first tally with
  | zero => rfl
  | succ blocks ih =>
      obtain ⟨e, hrun⟩ := h first (Nat.le_refl _)
      rw [appendFrom, Attempt.outcome_bind_ok (outcome_appendSample_of_error hrun),
        ih fun n hn => h n (Nat.le_of_succ_le hn)]
      simp only [Tally.count, Bool.false_eq_true, if_false, Nat.add_comm blocks, Nat.add_assoc]

theorem outcome_appendSamples (hopen : archive.closed = false) (blocks : Nat) :
    (appendSamples blocks).outcome (archive, disk) =
      (appendFrom archive.blocks blocks ⟨0, 0⟩).outcome (archive, disk) := by
  unfold appendSamples count
  rw [Attempt.outcome_bind, Attempt.outcome_tryCatch,
    Attempt.outcome_bind_ok (outcome_ensureOpen hopen disk)]
  rfl

theorem outcome_appendSamples_of_closed (hclosed : archive.closed = true) (blocks : Nat) :
    (appendSamples blocks).outcome (archive, disk) = (.ok ⟨0, blocks⟩, (archive, disk)) := by
  have hrefuse := outcome_ensureOpen_of_closed hclosed disk
  have hrun : (appendSamples blocks).outcome (archive, disk) =
      (appendFrom 0 blocks ⟨0, 0⟩).outcome (archive, disk) := by
    unfold appendSamples count
    rw [Attempt.outcome_bind, Attempt.outcome_tryCatch, Attempt.outcome_bind_error hrefuse]
    rfl
  rw [hrun, outcome_appendFrom_of_refused fun n _ => ⟨.closed, ?_⟩, Nat.zero_add]
  unfold Archive.append appendBlock
  rw [Attempt.outcome_bind_error hrefuse]

/-! ### The samples that are added -/

/-- `count` samples, numbered from `first` on. -/
def samplesFrom (first count : Nat) : List Row :=
  (List.range' first count).map Row.sample

@[simp] theorem length_samplesFrom (first count : Nat) :
    (samplesFrom first count).length = count := by
  simp [samplesFrom]

theorem samplesFrom_succ (first count : Nat) :
    samplesFrom first (count + 1) = samplesFrom first count ++ [Row.sample (first + count)] := by
  simp [samplesFrom, List.range'_concat]

/-- The first `count` samples are added, and the archive is then open on the rows that it held and
these samples. -/
def FillsTo (archive : Archive) (disk : Disk) (root : Path) (place : Location) (cap : Nat)
    (rows : List Row) (count : Nat) (archive' : Archive) (disk' : Disk) : Prop :=
  (appendFrom rows.length count ⟨0, 0⟩).outcome (archive, disk) =
      (.ok ⟨count, 0⟩, (archive', disk')) ∧
    ∃ entries', archive'.IsOpenBeside disk' root place cap entries'
      (rows ++ samplesFrom rows.length count)

namespace FillsTo

variable {count : Nat}

theorem refl (h : archive.IsOpenBeside disk root place cap entries rows) :
    FillsTo archive disk root place cap rows 0 archive disk :=
  ⟨rfl, entries, by simpa [samplesFrom] using h⟩

/-- One sample after another either goes behind those that are added or is refused, and then so are
all that follow it. -/
theorem step (h : FillsTo archive disk root place cap rows count archive' disk') :
    (∃ archive'' disk'', FillsTo archive disk root place cap rows (count + 1) archive'' disk'') ∨
    ∃ refused, archive'.Reads refused (rows ++ samplesFrom rows.length count) ∧
      (∀ (c : Column) (file : String),
        IsFileWithin c.name (archive'.tables.get c).tailId (archive'.tables.get c).headId file →
          refused.files.folder place file = disk'.files.folder place file) ∧
      ∀ more, (appendFrom rows.length (count + (more + 1)) ⟨0, 0⟩).outcome (archive, disk) =
        (.ok ⟨count, more + 1⟩, (archive', refused)) := by
  obtain ⟨hrun, entries', hbeside⟩ := h
  have hblocks : archive'.blocks = rows.length + count := by
    rw [hbeside.blocks, List.length_append, length_samplesFrom]
  have hnext := outcome_appendFrom_add hrun
  by_cases haccepts : archive'.Accepts disk' place (rows.length + count)
      (Row.sample (rows.length + count))
  · obtain ⟨archive'', disk'', entries'', happend, hbeside'⟩ := hbeside.exists_append haccepts
    refine .inl ⟨archive'', disk'', ?_, entries'', ?_⟩
    · rw [hnext, appendFrom, Attempt.outcome_bind_ok (outcome_appendSample_of_ok happend)]
      rfl
    · rwa [samplesFrom_succ, ← List.append_assoc]
  · obtain ⟨e, refused, happend, -, hbeside', hstays⟩ := hbeside.exists_undo haccepts
    refine .inr ⟨refused, hbeside'.reads, fun c file hfile => ?_, fun more => ?_⟩
    · rw [hbeside.isOpenOn.table_eq, opened_tailId, opened_headId] at hfile
      exact (hstays c).folder_eq (hbeside.isOpenOn.intact c) (hbeside'.isOpenOn.intact c)
        (hbeside.unpruned c) hfile
    · -- the next numbers are beyond the one that the archive waits for
      rw [hnext, appendFrom, Attempt.outcome_bind_ok (outcome_appendSample_of_error happend),
        outcome_appendFrom_of_refused fun n hn =>
          ⟨_, outcome_append_of_ne hbeside'.isOpenOn.closed (by omega)⟩]
      simp [Tally.count, Nat.add_comm]

end FillsTo

/-- The samples that are added come first.  Then come those that fail, and only the first of these
can touch a file, none of them one that is in use. -/
theorem exists_fillsTo (h : archive.IsOpenBeside disk root place cap entries rows) (blocks : Nat) :
    ∃ successful ≤ blocks,
      (∀ count ≤ successful, ∃ archive' disk',
        FillsTo archive disk root place cap rows count archive' disk') ∧
      (successful < blocks → ∃ archive' disk' refused,
        FillsTo archive disk root place cap rows successful archive' disk' ∧
        archive'.Reads refused (rows ++ samplesFrom rows.length successful) ∧
        (∀ (c : Column) (file : String),
          IsFileWithin c.name (archive'.tables.get c).tailId (archive'.tables.get c).headId file →
            refused.files.folder place file = disk'.files.folder place file) ∧
        ∀ more, (appendFrom rows.length (successful + (more + 1)) ⟨0, 0⟩).outcome (archive, disk) =
          (.ok ⟨successful, more + 1⟩, (archive', refused))) := by
  induction blocks with
  | zero =>
      refine ⟨0, Nat.le_refl _, fun count hcount => ?_, fun hlt => absurd hlt (Nat.lt_irrefl _)⟩
      rw [Nat.le_zero.1 hcount]
      exact ⟨archive, disk, .refl h⟩
  | succ blocks ih =>
      obtain ⟨successful, hle, hadded, hrefused⟩ := ih
      rcases Nat.lt_or_eq_of_le hle with hlt | rfl
      · exact ⟨successful, by omega, hadded, fun _ => hrefused hlt⟩
      obtain ⟨archive', disk', hfills⟩ := hadded successful (Nat.le_refl _)
      rcases hfills.step with hmore | ⟨refused, hreads, hfiles, hfail⟩
      · refine ⟨successful + 1, Nat.le_refl _, fun count hcount => ?_,
          fun hlt => absurd hlt (Nat.lt_irrefl _)⟩
        rcases Nat.lt_or_eq_of_le hcount with hlt | rfl
        · exact hadded count (Nat.le_of_lt_succ hlt)
        · exact hmore
      · exact ⟨successful, Nat.le_succ _, hadded, fun _ =>
          ⟨archive', disk', refused, hfills, hreads, hfiles, hfail⟩⟩

/-! ### The whole result -/

/-- A workload counts each of its samples once, as added or as failed.  A closed archive refuses all
of them, and nothing changes.  In an open archive the samples that are added come first, each as the
row of its number behind the rows that were there.  The first that fails leaves the archive as it
is, with the same bytes in the files in use, and all the following fail and change nothing. -/
theorem appendSamples_tallies (archive : Archive) (disk : Disk) (blocks : Nat) :
    (∃ tally state', (appendSamples blocks).outcome (archive, disk) = (.ok tally, state') ∧
      tally.successful + tally.failed = blocks) ∧
    (archive.closed = true →
      (appendSamples blocks).outcome (archive, disk) = (.ok ⟨0, blocks⟩, (archive, disk))) ∧
    ∀ root place cap entries rows, archive.IsOpenBeside disk root place cap entries rows →
      ∃ successful ≤ blocks, ∃ archive' disk',
        (appendSamples blocks).outcome (archive, disk) =
          (.ok ⟨successful, blocks - successful⟩, (archive', disk')) ∧
        archive'.Reads disk' (rows ++ samplesFrom rows.length successful) ∧
        (∀ count ≤ successful, ∃ archive'' disk'',
          (appendSamples count).outcome (archive, disk) =
            (.ok ⟨count, 0⟩, (archive'', disk'')) ∧
          archive''.Reads disk'' (rows ++ samplesFrom rows.length count)) ∧
        (successful < blocks → ∃ before,
          (appendSamples successful).outcome (archive, disk) =
            (.ok ⟨successful, 0⟩, (archive', before)) ∧
          (∀ (c : Column) (file : String),
            IsFileWithin c.name (archive'.tables.get c).tailId (archive'.tables.get c).headId
                file →
              disk'.files.folder place file = before.files.folder place file) ∧
          ∀ count, successful < count →
            (appendSamples count).outcome (archive, disk) =
              (.ok ⟨successful, count - successful⟩, (archive', disk'))) := by
  refine ⟨?_, fun hclosed => outcome_appendSamples_of_closed hclosed blocks,
    fun root place cap entries rows h => ?_⟩
  · cases hclosed : archive.closed with
    | true => exact ⟨_, _, outcome_appendSamples_of_closed hclosed blocks, Nat.zero_add _⟩
    | false =>
        obtain ⟨tally, state', hrun, htotal⟩ :=
          exists_outcome_appendFrom archive.blocks blocks ⟨0, 0⟩ (archive, disk)
        exact ⟨tally, state', (outcome_appendSamples hclosed blocks).trans hrun,
          htotal.trans (Nat.zero_add _)⟩
  have hrun : ∀ count, (appendSamples count).outcome (archive, disk) =
      (appendFrom rows.length count ⟨0, 0⟩).outcome (archive, disk) := fun count => by
    rw [outcome_appendSamples h.isOpenOn.closed, h.blocks]
  have hfilled : ∀ {count archive' disk'},
      FillsTo archive disk root place cap rows count archive' disk' →
        (appendSamples count).outcome (archive, disk) = (.ok ⟨count, 0⟩, (archive', disk')) ∧
          archive'.Reads disk' (rows ++ samplesFrom rows.length count) :=
    fun ⟨houtcome, _, hbeside⟩ => ⟨(hrun _).trans houtcome, hbeside.reads⟩
  obtain ⟨successful, hle, hadded, hrefused⟩ := exists_fillsTo h blocks
  have hprefixes : ∀ count ≤ successful, ∃ archive'' disk'',
      (appendSamples count).outcome (archive, disk) = (.ok ⟨count, 0⟩, (archive'', disk'')) ∧
        archive''.Reads disk'' (rows ++ samplesFrom rows.length count) := fun count hcount =>
    let ⟨archive'', disk'', hfills⟩ := hadded count hcount
    ⟨archive'', disk'', hfilled hfills⟩
  rcases Nat.lt_or_eq_of_le hle with hlt | rfl
  · obtain ⟨archive', before, disk', hfills, hreads, hfiles, hfail⟩ := hrefused hlt
    have hlater : ∀ count, successful < count →
        (appendSamples count).outcome (archive, disk) =
          (.ok ⟨successful, count - successful⟩, (archive', disk')) := by
      intro count hcount
      obtain ⟨more, rfl⟩ := Nat.exists_eq_add_of_lt hcount
      rw [hrun, Nat.add_assoc, hfail, Nat.add_sub_cancel_left]
    exact ⟨successful, hle, archive', disk', hlater blocks hlt, hreads, hprefixes,
      fun _ => ⟨before, (hfilled hfills).1, hfiles, hlater⟩⟩
  · obtain ⟨archive', disk', hrun', hreads⟩ := hprefixes successful (Nat.le_refl _)
    exact ⟨successful, Nat.le_refl _, archive', disk', by rw [hrun', Nat.sub_self], hreads,
      hprefixes, fun hlt => absurd hlt (Nat.lt_irrefl _)⟩

/-- The disk of an archive with no rows, on which a directory has the name of the third segment of
the receipts. -/
def noRowsBlocked : Disk :=
  { diskOn (FileSystem.ofListing noRows) ["a"] with
    files := (Effect.makeDirectory (["a"] ++ [segmentFileName Column.receipts.name 2])).apply
      (FileSystem.ofListing noRows) }

/-- In an archive in which every item gets a segment of its own, one of three samples is added.  The
second has no place for its receipts, and so the third is out of sequence. -/
theorem appendSamples_tallies_noRowsBlocked :
    ∃ archive' disk',
      (appendSamples 3).outcome (openNoRows, noRowsBlocked) = (.ok ⟨1, 2⟩, (archive', disk')) ∧
      archive'.Reads disk' [Row.sample 0] := by
  have hopen := isOpen_openNoRows
  have hnone : (FileSystem.ofListing noRows).node?
      (["a"] ++ [segmentFileName Column.receipts.name 2]) = none := by
    decide +kernel
  have hbeside := (hopen.isOpenBeside rfl).sameButDirectories
    (sameButDirectories_makeDirectory hopen.houses hnone)
  have htally : (match (appendSamples 3).outcome (openNoRows, noRowsBlocked) with
      | (.ok tally, _) => tally == ⟨1, 2⟩
      | (.error _, _) => false) = true := by
    decide +kernel
  obtain ⟨successful, -, archive', disk', hrun, hreads, -⟩ :=
    (appendSamples_tallies openNoRows noRowsBlocked 3).2.2 _ _ _ _ [] hbeside
  rw [hrun] at htally
  obtain ⟨rfl, -⟩ := Tally.mk.inj (eq_of_beq htally)
  exact ⟨archive', disk', hrun, hreads⟩

end BlockArchive.Workload
