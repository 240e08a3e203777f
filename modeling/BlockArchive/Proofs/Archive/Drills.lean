import BlockArchive.RecoveryDrill
import BlockArchive.Proofs.Archive.Crashed
import BlockArchive.Proofs.Archive.Fresh
import BlockArchive.Proofs.Archive.Recovery

/-! # Recovery drills are passed

* **Directories.** Each drill has a directory of its own, and what it does there leaves those of the
  later ones free (`Ground.next`).
* **One drill** fills a new archive with samples, which are then at rest (`Ground.exists_fill`),
  leaves a crash on them, and finds nothing wrong when it looks at what was spared
  (`exists_inspect`).  So it is passed (`Ground.exists_run`).
* **All drills** are passed, whatever the cap (`Ground.exists_runFrom`).

`recovers_of_emptyRoot` says this together with what is true of every archive that was closed: from
a crash of whatever shape it recovers with the rows that were spared. -/

namespace BlockArchive

open IndexEntry Table

namespace RecoveryDrill

open Archive

variable {archive : Archive} {disk disk' : Disk} {root base : Path} {place : Location}
  {crash : Crash} {c : Column} {n count cap : Nat}

/-! ### Directories -/

/-- The name of the directory of drill number `n`. -/
def directoryName (n : Nat) : String := "run-" ++ toString n

theorem toList_directoryName (n : Nat) :
    (directoryName n).toList = ['r', 'u', 'n', '-'] ++ Nat.toDigits 10 n := by
  have hrun : "run-".toList = ['r', 'u', 'n', '-'] := by decide
  simp [directoryName, Nat.repr, hrun]

theorem directoryName_injective {m n : Nat} (h : directoryName m = directoryName n) : m = n := by
  have hdigits := congrArg String.toList h
  rw [toList_directoryName, toList_directoryName, List.append_cancel_left_eq] at hdigits
  rw [← Nat.ofDigitChars_ten_toDigits (n := m), hdigits, Nat.ofDigitChars_ten_toDigits]

/-- The number of drills for whose numbers two digits are enough. -/
def limit : Nat := 100

theorem isDigit_of_mem_toDigits {d : Char} (h : d ∈ Nat.toDigits 10 n) : d.isDigit = true :=
  Nat.isDigit_of_mem_toDigits (by decide) (by decide) h

theorem utf8ByteSize_directoryName (hn : n < limit) : (directoryName n).utf8ByteSize ≤ 6 := by
  have hdigits : (Nat.toDigits 10 n).length ≤ 2 := by
    rwa [Nat.length_toDigits_le_iff (by decide) (by decide)]
  have hsize : (toString n).utf8ByteSize = (Nat.toDigits 10 n).length :=
    Text.utf8ByteSize_ofList_of_isDigit fun _ => isDigit_of_mem_toDigits
  have hrun : "run-".utf8ByteSize = 4 := by decide
  rw [directoryName, String.utf8ByteSize_append, hrun, hsize]
  omega

theorem isEntryName_directoryName (hn : n < limit) :
    FileSystem.IsEntryName (directoryName n) := by
  have hne : Nat.toDigits 10 n ≠ [] := Nat.toDigits_ne_nil
  have hlast : (directoryName n).toList.getLast? = some ((Nat.toDigits 10 n).getLast hne) := by
    rw [toList_directoryName, List.getLast?_append, List.getLast?_eq_getLast_of_ne_nil hne]
    rfl
  have hno : ∀ d : Char, d.isDigit = false → d ∉ Nat.toDigits 10 n := fun d hd hmem => by
    simp [isDigit_of_mem_toDigits hmem] at hd
  refine isEntryName_of_isName (isName_of_getLast? hlast (fun heq => ?_) ?_) ?_ ?_
  · exact hno '.' (by decide) (heq ▸ List.getLast_mem hne)
  · rw [toList_directoryName]
    simp [hno '/' (by decide)]
  · rw [toList_directoryName]
    simp [hno '\x00' (by decide)]
  · exact Nat.le_trans (utf8ByteSize_directoryName hn) (by decide)

/-- Nobody works on the disk, and the directories of drills from number `n` on can be made in the
directory `place`. -/
structure Ground (disk : Disk) (base : Path) (place : Location) (n : Nat) : Prop where
  locked : disk.locked = []
  free : ∀ m < limit, n ≤ m → IsFreeFor disk.files base place (directoryName m)

/-- What is done in the directory of one drill leaves those of the later ones free. -/
theorem Ground.next (h : Ground disk base place n) (hn : n < limit)
    (hsame : (disk.withDirectory (place ++ [directoryName n])).files.SameOutside
      (place ++ [directoryName n]) disk'.files) (hlocked : disk'.locked = []) :
    Ground disk' base place (n + 1) := by
  refine ⟨hlocked, fun m hm hnm => ?_⟩
  have hne : directoryName m ≠ directoryName n := fun heq => by
    have := directoryName_injective heq
    omega
  have hmade := (h.free m hm (Nat.le_of_succ_le hnm)).makeDirectory hne
    (h.free n hn (Nat.le_refl n)).node?_eq_none
  exact hmade.of_sameOutside hne hsame

/-! ### Samples -/

/-- The first samples. -/
def samples (count : Nat) : List Row := (List.range count).map Row.sample

theorem length_samples (count : Nat) : (samples count).length = count := by
  simp [samples]

theorem samples_succ (count : Nat) : samples (count + 1) = samples count ++ [Row.sample count] := by
  simp [samples, List.range_succ]

theorem take_samples (hle : n ≤ count) : (samples count).take n = samples n := by
  rw [samples, samples, ← List.map_take, List.take_range, Nat.min_eq_left hle]

theorem length_sample_lt (hn : n ≤ rows) (c : Column) :
    ((Row.sample n).get c).length < offsetLimit := by
  have hall : ∀ m < rows + 1, ((Row.sample m).get c).length < offsetLimit := by
    cases c <;> decide +kernel
  exact hall n (Nat.lt_succ_of_le hn)

theorem sum_length_samples_lt (c : Column) :
    (((samples rows).map fun row => row.get c).map List.length).sum + 16 < offsetLimit := by
  cases c <;> decide +kernel

/-- Appending the samples with the next numbers adds them. -/
theorem exists_appendSamples (h : archive.Stores disk root place (samples count)) (more : Nat)
    (hle : count + more ≤ rows) :
    ∃ archive' disk', (appendSamples (List.range' count more)).outcome (archive, disk) =
        (.ok (), (archive', disk')) ∧
      archive'.Stores disk' root place (samples (count + more)) ∧
      disk.files.SameOutside place disk'.files := by
  induction more generalizing count archive disk with
  | zero => exact ⟨archive, disk, rfl, h, .refl _ _⟩
  | succ more ih =>
      have hlt : (samples count).length < lastSegmentId := by
        rw [length_samples]
        have : rows < lastSegmentId := by decide
        omega
      obtain ⟨archive₁, disk₁, hrun₁, hstores₁, hsame₁⟩ := h.exists_append_within hlt
        (length_sample_lt (show count ≤ rows by omega))
      rw [length_samples] at hrun₁
      rw [← samples_succ] at hstores₁
      obtain ⟨archive', disk', hrun, hstores, hsame⟩ := ih hstores₁ (by omega)
      rw [Nat.add_right_comm, Nat.add_assoc] at hstores
      refine ⟨archive', disk', ?_, hstores, hsame₁.trans hsame⟩
      rw [appendSamples, List.range'_succ, List.forM, Attempt.outcome_bind_ok hrun₁]
      exact hrun

/-! ### One drill -/

theorem outcome_within {α : Type} {settings : Settings} {work : Action (Archive × Disk) α}
    {archive' : Archive} {disk₁ : Disk} {answer : Except Error α}
    (hopen : (openAt root settings).outcome disk = (.ok archive, disk₁))
    (hwork : work.outcome (archive, disk₁) = (answer, (archive', disk')))
    (hlock : archive'.lock = none) :
    (within root settings work).outcome disk = (answer, disk') := by
  have hdiscard : archive'.discard.outcome disk' = (.ok (), disk') := by
    unfold Archive.discard
    rw [hlock]
    rfl
  unfold within
  rw [Attempt.outcome_bind_ok hopen, Attempt.outcome_bind, Attempt.outcome_split, hwork]
  simp only
  rw [Attempt.outcome_bind_ok hdiscard, Attempt.outcome_ofExcept]

/-- The archive that is filled for a drill is at rest. -/
theorem Ground.exists_fill (h : Ground disk base place n) (hn : n < limit) (cap : Nat) :
    ∃ disk' entries,
      (within (directory base n) { cap } do
        appendSamples (List.range rows)
        close).outcome disk = (.ok (), disk') ∧
      AtRest disk' (directory base n) (place ++ [directoryName n]) entries (samples rows) ∧
      (disk.withDirectory (place ++ [directoryName n])).files.SameOutside
        (place ++ [directoryName n]) disk'.files := by
  obtain ⟨archive, disk₁, hopen, hstores, hsame⟩ :=
    (h.free n hn (Nat.le_refl n)).exists_openAt h.locked { cap } rfl
  obtain ⟨archive', disk₂, happend, hstores', hsame'⟩ :=
    exists_appendSamples (show archive.Stores disk₁ _ _ (samples 0) from hstores) rows (by decide)
  rw [← List.range_eq_range'] at happend
  rw [Nat.zero_add] at hstores'
  obtain ⟨hclose, entries, hrest⟩ := hstores'.exists_atRest
  have hwork : (do
        appendSamples (List.range rows)
        close : Action (Archive × Disk) Unit).outcome (archive, disk₁) =
      (.ok (), (archive'.shut, { disk₂ with locked := [] })) := by
    rw [Attempt.outcome_bind_ok happend, hclose]
  exact ⟨_, entries, outcome_within hopen hwork rfl, hrest, hsame.trans hsame'⟩

theorem outcome_holds {stored : List Row} (h : archive.Reads disk stored) {m : Nat}
    (hm : m < stored.length) :
    (holds stored[m] (m + 1)).outcome (archive, disk) = (.ok true, (archive, disk)) := by
  have hgo : ∀ columns : List Column,
      (holds.go stored[m] (m + 1) columns).outcome (archive, disk) =
        (.ok true, (archive, disk)) := by
    intro columns
    induction columns with
    | nil => rfl
    | cons c columns ih =>
        rw [holds.go, Attempt.outcome_bind_ok (h.get c m hm), if_pos rfl]
        exact ih
  exact hgo Column.all

theorem outcome_firstDifference (h : archive.Reads disk (samples count)) (numbers : List Nat)
    (hnumbers : ∀ m ∈ numbers, m < count) :
    (firstDifference numbers).outcome (archive, disk) = (.ok none, (archive, disk)) := by
  induction numbers with
  | nil => rfl
  | cons m numbers ih =>
      have hm : m < (samples count).length := by
        rw [length_samples]
        exact hnumbers m List.mem_cons_self
      have hholds := outcome_holds h hm
      have hsample : (samples count)[m] = Row.sample m := by simp [samples]
      rw [hsample] at hholds
      rw [firstDifference, Attempt.outcome_bind_ok hholds, if_pos rfl]
      exact ih fun k hk => hnumbers k (List.mem_cons_of_mem m hk)

/-- Where samples are stored, and all of them if all had to survive, nothing is wrong. -/
theorem exists_inspect (h : archive.Stores disk root place (samples count)) (hle : count ≤ rows)
    (crash : Crash) (hall : crash.keepsAllBlocks = true → count = rows) :
    ∃ archive' disk', (inspect crash).outcome (archive, disk) =
        (.ok (count, none), (archive', disk')) ∧ archive'.lock = none ∧ disk'.locked = [] ∧
      disk.files.SameOutside place disk'.files ∧
      ∃ report, Audit.archive disk'.files root = .ok report ∧ report.isOk = true := by
  have hcount := h.outcome_count
  rw [length_samples] at hcount
  have hsure : ¬(rows < count ∨ (crash.keepsAllBlocks ∧ count ≠ rows)) := by
    rintro (hlt | ⟨hkeeps, hne⟩)
    · omega
    · exact hne (hall hkeeps)
  have hdifference := outcome_firstDifference h.reads (List.range count)
    fun m hm => List.mem_range.1 hm
  have hlt : (samples count).length < lastSegmentId := by
    rw [length_samples]
    exact Nat.lt_of_le_of_lt hle (by decide)
  obtain ⟨archive₁, disk₁, happend, hstores, hsame⟩ :=
    h.exists_append_within hlt (length_sample_lt hle)
  rw [length_samples] at happend
  obtain ⟨hclose, -⟩ := hstores.exists_atRest
  obtain ⟨report, haudit, hnone⟩ := hstores.isSound.audit
  refine ⟨archive₁.shut, { disk₁ with locked := [] }, ?_, rfl, rfl, hsame, report, haudit,
    report.isOk_iff.2 hnone⟩
  unfold inspect
  rw [Attempt.outcome_bind_ok hcount, if_neg hsure, Attempt.outcome_bind_ok hdifference]
  simp only
  rw [Attempt.outcome_bind_ok happend, Attempt.outcome_bind_ok hclose]
  rfl

theorem canHappen {entries : ByColumn (List IndexEntry)}
    (h : AtRest disk root place entries (samples rows)) (hcrash : crash ∈ Crash.all) (c : Column) :
    CanHappen entries c crash := by
  have hcolumns : ∀ columns, .partialRow columns ∈ Crash.all → columns < Column.all.length := by
    intro columns hmem
    simp [Crash.all, Column.all] at hmem ⊢
    omega
  cases crash with
  | dataLost =>
      have hle := (h.rests.whole c).toBacked.offset_lastOf_le
      rw [h.rests.items] at hle
      exact Nat.lt_of_le_of_lt (Nat.add_le_add_right hle 16) (sum_length_samples_lt c)
  | partialRow columns => exact hcolumns columns hcrash
  | entryLost | entryTorn | headEmptied => trivial

theorem spared_of_keepsAllBlocks {entries : List IndexEntry} {items : List Bytes}
    (h : crash.keepsAllBlocks = true) : spared entries items crash = items.length := by
  cases crash with
  | headEmptied => simp [Crash.keepsAllBlocks] at h
  | dataLost | entryLost | entryTorn | partialRow => rfl

theorem Ground.exists_attempt (h : Ground disk base place n) (hn : n < limit)
    (hcrash : crash ∈ Crash.all) (c : Column) (cap : Nat) :
    ∃ actual disk', (attempt (directory base n) { cap } crash c).outcome disk =
        (.ok (actual, none), disk') ∧ Ground disk' base place (n + 1) := by
  obtain ⟨disk₁, entries, hfill, hrest, hsame₁⟩ := h.exists_fill hn cap
  generalize hcount : spared (entries.get c) ((samples rows).map fun row => row.get c) crash = count
  have hitems : ((samples rows).map fun row => row.get c).length = rows := by
    rw [List.length_map, length_samples]
  have hlength : (entries.get c).length =
      ((samples rows).map fun row => row.get c).length + 1 := by
    rw [hrest.rests.length_entries, List.length_map]
  have hle := spared_le crash hlength
  rw [hcount, hitems] at hle
  -- no sample is refused
  rcases hrest.exists_apply (canHappen hrest hcrash c) { cap } hcount.symm with
    ⟨disk₂, happly, hkeeps, changes, hfile, hdisk₂⟩ | ⟨-, e, disk₂, -, -, hrefuses⟩
  · rw [take_samples hle] at hkeeps
    have hsame₂ : disk₁.files.SameOutside (place ++ [directoryName n]) disk₂.files := by
      rw [hdisk₂]
      exact sameOutside_after hrest.houses hfile
    obtain ⟨archive, disk₃, hopen, hstores, hsame₃⟩ := hkeeps.exists_openAt_within { cap }
    obtain ⟨archive', disk', hinspect, hlock, hlocked, hsame', report, haudit, hok⟩ :=
      exists_inspect hstores hle crash fun hall => by
        rw [← hcount, spared_of_keepsAllBlocks hall, hitems]
    have hwithin := outcome_within hopen hinspect hlock
    refine ⟨count, disk', ?_, h.next hn (((hsame₁.trans hsame₂).trans hsame₃).trans hsame') hlocked⟩
    unfold attempt
    rw [Attempt.outcome_bind_ok hfill, Attempt.outcome_bind_ok happly,
      Attempt.outcome_bind_ok hwithin]
    simp only [Option.isSome_none, Bool.false_eq_true, if_false]
    rw [Attempt.outcome_bind_ok (Attempt.outcome_get disk'), haudit,
      Attempt.outcome_bind_ok (Attempt.outcome_ofExcept _ _), if_pos hok]
    rfl
  · rw [length_samples] at hrefuses
    cases hrefuses with
    | exhausted d hlast => exact absurd hlast (by decide)
    | tooLarge d hlarge =>
        exact absurd (length_sample_lt (Nat.le_refl rows) d) (Nat.not_lt.2 hlarge)

/-- A drill in a new directory is passed. -/
theorem Ground.exists_run (h : Ground disk base place n) (hn : n < limit)
    (hcrash : crash ∈ Crash.all) (c : Column) (cap : Nat) :
    ∃ result disk', (run base { cap } n crash c).outcome disk = (.ok result, disk') ∧
      result.passed = true ∧ Ground disk' base place (n + 1) := by
  obtain ⟨actual, disk', hattempt, h'⟩ := h.exists_attempt hn hcrash c cap
  refine ⟨⟨true, crash.description c, rows, actual, none⟩, disk', ?_, rfl, h'⟩
  unfold run
  rw [Attempt.outcome_bind, Attempt.outcome_tryCatch, hattempt]
  rfl

/-! ### All drills -/

theorem Ground.exists_runFrom {drills : List (Crash × Column)} (h : Ground disk base place n)
    (hcrash : ∀ drill ∈ drills, drill.1 ∈ Crash.all) (hlimit : n + drills.length ≤ limit)
    (cap : Nat) :
    ∃ results disk', (runFrom base { cap } n drills).outcome disk = (.ok results, disk') ∧
      results.length = drills.length ∧ allPassed results = true := by
  induction drills generalizing n disk with
  | nil => exact ⟨[], disk, rfl, rfl, rfl⟩
  | cons drill drills ih =>
      obtain ⟨crash, c⟩ := drill
      rw [List.length_cons] at hlimit
      obtain ⟨result, disk₁, hrun, hpassed, h₁⟩ :=
        h.exists_run (by omega) (hcrash _ List.mem_cons_self) c cap
      obtain ⟨results, disk', hruns, hlength, hall⟩ := ih h₁
        (fun drill hmem => hcrash drill (List.mem_cons_of_mem _ hmem)) (by omega)
      refine ⟨result :: results, disk', ?_, by rw [List.length_cons, hlength, List.length_cons], ?_⟩
      · rw [runFrom, Attempt.outcome_bind_ok hrun, Attempt.outcome_bind_ok hruns]
        rfl
      · rw [allPassed, List.all_cons, hpassed]
        exact hall

theorem mem_all_of_mem_cases {drill : Crash × Column} (h : drill ∈ cases) :
    drill.1 ∈ Crash.all := by
  obtain ⟨crash, hcrash, hmem⟩ := List.mem_flatMap.1 h
  have heq : drill.1 = crash := by
    cases crash with
    | partialRow columns => rw [List.mem_singleton.1 hmem]
    | dataLost | entryLost | entryTorn | headEmptied =>
        obtain ⟨c, -, rfl⟩ := List.mem_map.1 hmem
        rfl
  exact heq ▸ hcrash

theorem ground_of_emptyRoot {files : FileSystem} (h : EmptyRoot files base place)
    (hempty : ∀ name below, files.node? (place ++ name :: below) = none)
    (hfits : base.text.utf8ByteSize + 7 + maxFileNameBytes < FileSystem.maxPathBytes) :
    Ground (Disk.ofFiles files) base place 0 := by
  refine ⟨rfl, fun m hm _ => ⟨h.named, h.directory, h.home, isEntryName_directoryName hm,
    fun below => hempty _ below, ?_⟩⟩
  have := utf8ByteSize_directoryName hm
  omega

end RecoveryDrill

namespace Archive

variable {files : FileSystem} {root : Path} {place : Location}

/-- Whatever happened to an archive before it was closed, it recovers from a crash of every shape
with the rows spared; a partial row may be refused instead.  And in a directory with nothing in it
all drills are passed, whatever the cap. -/
theorem recovers_of_emptyRoot (h : EmptyRoot files root place) :
    (∀ archive disk,
      Relation.ReflTransGen (Step root place) (.idle files) (.working archive disk) →
      archive.closed = false →
      ∃ rows disk₁, archive.Reads disk rows ∧
        close.outcome (archive, disk) = (.ok (), (archive.shut, disk₁)) ∧
        ∀ crash c settings, CanHappen (entriesAt disk₁.files place) c crash →
          (∃ disk₂, (crash.apply root c settings).outcome disk₁ = (.ok (), disk₂) ∧
              IsRecoverable disk₂ root (rows.take (spared ((entriesAt disk₁.files place).get c)
                (rows.map fun row => row.get c) crash))) ∨
            ∃ columns e disk₂, crash = .partialRow columns ∧
              (crash.apply root c settings).outcome disk₁ = (.error e, disk₂) ∧
              Refuses rows.length (Row.sample rows.length) e) ∧
    ((∀ name below, files.node? (place ++ name :: below) = none) →
      root.text.utf8ByteSize + 7 + maxFileNameBytes < FileSystem.maxPathBytes →
      ∀ cap, ∃ results disk,
        (RecoveryDrill.runFrom root { cap } 0 RecoveryDrill.cases).outcome (Disk.ofFiles files) =
          (.ok results, disk) ∧
        results.length = RecoveryDrill.cases.length ∧
        RecoveryDrill.allPassed results = true) := by
  refine ⟨fun archive disk hsteps hopen => ?_, fun hempty hfits cap => ?_⟩
  · obtain ⟨rows, hstores⟩ := h.exists_stores hsteps hopen
    obtain ⟨hclose, entries, hrest⟩ := hstores.exists_atRest
    refine ⟨rows, _, hstores.reads, hclose, fun crash c settings hcrash => ?_⟩
    rw [hrest.entriesAt_eq] at hcrash ⊢
    exact hrest.isRecoverable_or_refused hcrash settings
  · exact (RecoveryDrill.ground_of_emptyRoot h hempty hfits).exists_runFrom
      (fun _ => RecoveryDrill.mem_all_of_mem_cases) (by decide) cap

/-- After a crash that lost the index entry of a row, the row of before is there; and the drills are
passed with segments of 64 bytes. -/
theorem recovers_oneDirectory :
    (∃ archive disk disk₁ disk₂ row, archive.Reads disk [row] ∧
        close.outcome (archive, disk) = (.ok (), (archive.shut, disk₁)) ∧
        (Crash.entryLost.apply ⟨["", "a"]⟩ .bodies {}).outcome disk₁ = (.ok (), disk₂) ∧
        IsRecoverable disk₂ ⟨["", "a"]⟩ [row]) ∧
      ∃ results disk, (RecoveryDrill.runFrom ⟨["", "a"]⟩ RecoveryDrill.settings 0
          RecoveryDrill.cases).outcome (Disk.ofFiles oneDirectory) = (.ok results, disk) ∧
        results.length = RecoveryDrill.cases.length ∧ RecoveryDrill.allPassed results = true := by
  obtain ⟨hcrash, hdrills⟩ := recovers_of_emptyRoot emptyRoot_oneDirectory
  constructor
  · obtain ⟨archive, disk, row, hsteps, hstores, -⟩ := exists_steps_oneDirectory
    obtain ⟨rows, disk₁, hreads, hclose, hcrash⟩ :=
      hcrash archive disk hsteps hstores.closed_eq_false
    obtain rfl := hreads.eq hstores.reads
    rcases hcrash .entryLost .bodies {} trivial with
      ⟨disk₂, happly, hrecoverable⟩ | ⟨columns, -, -, heq, -⟩
    · exact ⟨archive, disk, disk₁, disk₂, row, hreads, hclose, happly, hrecoverable⟩
    · cases heq
  · exact hdrills (by simp [oneDirectory, FileSystem.node?, List.lookup_cons]) (by decide) 64

end Archive

end BlockArchive
