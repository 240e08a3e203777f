import BlockArchive.Proofs.Lodging
import BlockArchive.Proofs.Performing

/-! # Files that grow

While nothing is done to a file but to put bytes at its end, what was read from it can be read
again.

* **`Handle.Lasts`**: every read of an open file that succeeds is answered the same by another one,
  later.  This is reflexive and transitive.
* **`Grows`**: the file under a name keeps its number and what it holds.  So what is open under the
  name lasts (`Opens.of_grows`).
* **Steps.** Writing to the end of a file lets all files grow (`Disk.exists_write_end`); a change to
  one file, all but that one (`Disk.Sets.grows`). -/

namespace BlockArchive

open Attempt FileSystem

/-- What is read from the one open file can be read from the other. -/
def Handle.Lasts (reader reader' : Handle × Disk) : Prop :=
  ∀ start len data, ((reader.1.read start len).outcome reader.2).1 = .ok data →
    ((reader'.1.read start len).outcome reader'.2).1 = .ok data

instance : IsPreorder (Handle × Disk) Handle.Lasts where
  refl _ _ _ _ := id
  trans _ _ _ h h' start len data := h' start len data ∘ h start len data

/-- The file under a name keeps its number, and what it holds; more may come behind it. -/
structure Grows (place : Location) (name : String) (disk disk' : Disk) : Prop where
  number : disk'.files.number place name = disk.files.number place name
  content : ∀ data, disk.files.folder place name = some data →
    ∃ more, disk'.files.folder place name = some (data ++ more)

variable {names all : String → Prop} {root : Path} {place : Location} {name : String}
  {disk disk' disk'' : Disk} {handle : Handle}

namespace Grows

theorem trans (h : Grows place name disk disk') (h' : Grows place name disk' disk'') :
    Grows place name disk disk'' where
  number := h'.number.trans h.number
  content data hdata := by
    obtain ⟨more, hmore⟩ := h.content data hdata
    obtain ⟨rest, hrest⟩ := h'.content _ hmore
    exact ⟨more ++ rest, by rw [hrest, List.append_assoc]⟩

theorem there (h : Grows place name disk disk') (hthere : disk.files.folder place name ≠ none) :
    disk'.files.folder place name ≠ none := by
  obtain ⟨data, hdata⟩ := Option.ne_none_iff_exists'.1 hthere
  obtain ⟨more, hmore⟩ := h.content data hdata
  simp [hmore]

theorem lasts (h : Grows place name disk disk') (hthere : disk.files.folder place name ≠ none)
    (writable writable' : Bool) :
    Handle.Lasts (.file (disk.files.number place name) writable, disk)
      (.file (disk'.files.number place name) writable', disk') := by
  obtain ⟨data, hdata⟩ := Option.ne_none_iff_exists'.1 hthere
  obtain ⟨more, hmore⟩ := h.content data hdata
  intro start len part hread
  rw [Handle.outcome_read_of_content (content_of_folder hdata)] at hread
  rw [Handle.outcome_read_of_content (content_of_folder hmore)]
  cases hslice : data.slice? start len with
  | none => simp [hslice] at hread
  | some bytes =>
      rw [hslice] at hread
      rw [Bytes.slice?_append hslice]
      exact hread

end Grows

/-- What is open under a name stays so while the file there grows, and is read as before. -/
theorem FileSystem.Opens.of_grows (h : disk.files.Opens place name handle)
    (hgrows : Grows place name disk disk') :
    disk'.files.Opens place name handle ∧ Handle.Lasts (handle, disk) (handle, disk') := by
  cases h with
  | directory =>
      refine ⟨.directory, fun start len data hread => ?_⟩
      by_cases hlen : len = 0
      · simpa [Handle.read, hlen, outcome_pure] using hread
      · simp [Handle.read, hlen, outcome_throw] at hread
  | file writable hthere =>
      have hlasts := hgrows.lasts hthere writable writable
      rw [← hgrows.number] at hlasts ⊢
      exact ⟨.file writable (hgrows.there hthere), hlasts⟩

namespace Disk

/-- Bytes are written to the end of a file. -/
theorem exists_write_end (h : disk.files.Lodges names all root place) (hname : names name)
    {data : Bytes} (hdata : disk.files.folder place name = some data) (new : Bytes) :
    ∃ disk', ((Handle.file (disk.files.number place name) true).write data.length new).outcome
        disk = (.ok (), disk') ∧
      disk'.files.Lodges names all root place ∧
      disk'.files.folder place =
        Function.update (disk.files.folder place) name (some (data ++ new)) ∧
      ∀ other, Grows place other disk disk' := by
  have hsets := sets_write h hname hdata data.length new
  rw [Bytes.overwrite_length] at hsets
  have hthere : disk.files.folder place name ≠ none := by simp [hdata]
  refine ⟨_, Handle.outcome_write disk place name data.length new, hsets.lodges, hsets.folder,
    fun other => ⟨hsets.number other fun _ => ⟨hthere, by simp⟩, fun content hcontent => ?_⟩⟩
  by_cases hother : other = name
  · subst hother
    obtain rfl := Option.some.inj (hdata.symm.trans hcontent)
    exact ⟨new, hsets.folder_self⟩
  · exact ⟨[], by rw [hsets.folder_of_ne hother, hcontent, List.append_nil]⟩

/-- All other files stay as they are. -/
theorem Sets.grows {content : Option Bytes} (h : Sets names all root place name content disk disk')
    {other : String} (hother : other ≠ name) : Grows place other disk disk' where
  number := h.number_of_ne hother
  content data hdata := ⟨[], by rw [h.folder_of_ne hother, hdata, List.append_nil]⟩

end Disk

end BlockArchive
