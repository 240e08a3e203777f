import BlockArchive.Proofs.Folder

/-! # Directories with given files

`FileSystem.ofListing` is a file system in which the directory `/a` holds the files of a list and
nothing else is there.  It houses every set of names that a file can have (`houses_ofListing`), and
its folder is the list (`folder_ofListing`). -/

namespace BlockArchive.FileSystem

variable {listing : List (String × Bytes)} {name : String}

/-- The file system in which the directory `/a` holds these files. -/
def ofListing (listing : List (String × Bytes)) : FileSystem where
  names := (["a"], .directory) ::
    listing.zipIdx.map fun file => (["a", file.1.1], .file file.2)
  contents := (listing.map Prod.snd).toArray
  home := []

/-- A name stands for the file at its first place in the list. -/
theorem lookup_zipIdx (listing : List (String × Bytes)) (name : String) (start : Nat) :
    ((listing.zipIdx start).map fun file => (["a", file.1.1], Node.file file.2)).lookup
        ["a", name] = none ∧ listing.lookup name = none ∨
      ∃ id content,
        ((listing.zipIdx start).map fun file => (["a", file.1.1], Node.file file.2)).lookup
          ["a", name] = some (.file (start + id)) ∧
        listing[id]? = some (name, content) ∧ listing.lookup name = some content := by
  induction listing generalizing start with
  | nil => exact .inl ⟨rfl, rfl⟩
  | cons file listing ih =>
      obtain ⟨other, content⟩ := file
      rw [List.zipIdx_cons, List.map_cons]
      by_cases h : name = other
      · subst h
        exact .inr ⟨0, content, by simp, rfl, by simp⟩
      · have hb : (name == other) = false := beq_eq_false_iff_ne.2 h
        rcases ih (start + 1) with ⟨hnone, hlookup⟩ | ⟨id, content', hsome, hid, hlookup⟩
        · exact .inl ⟨by simpa [List.lookup_cons, hb] using hnone,
            by simpa [List.lookup_cons, hb] using hlookup⟩
        · refine .inr ⟨id + 1, content', ?_, hid, by simpa [List.lookup_cons, hb] using hlookup⟩
          rw [show start + (id + 1) = start + 1 + id by omega]
          simpa [List.lookup_cons, hb] using hsome

theorem node?_ofListing (listing : List (String × Bytes)) (name : String) :
    (ofListing listing).node? (["a"] ++ [name]) = none ∧ listing.lookup name = none ∨
      ∃ id content, (ofListing listing).node? (["a"] ++ [name]) = some (.file id) ∧
        listing[id]? = some (name, content) ∧ listing.lookup name = some content := by
  have hnode : (ofListing listing).node? (["a"] ++ [name]) =
      (listing.zipIdx.map fun file => (["a", file.1.1], Node.file file.2)).lookup ["a", name] := by
    simp [node?, ofListing, List.lookup_cons]
  rw [hnode]
  simpa using lookup_zipIdx listing name 0

theorem exists_of_node?_ofListing {id : FileId}
    (h : (ofListing listing).node? (["a"] ++ [name]) = some (.file id)) :
    ∃ content, listing[id]? = some (name, content) ∧ listing.lookup name = some content := by
  rcases node?_ofListing listing name with ⟨hnone, -⟩ | ⟨id', content, hnode, hid, hlookup⟩
  · rw [h] at hnone
    simp at hnone
  · rw [h] at hnode
    obtain rfl : id = id' := by simpa using hnode
    exact ⟨content, hid, hlookup⟩

theorem resolve_ofListing (listing : List (String × Bytes)) :
    (ofListing listing).resolve .name ⟨["", "a"]⟩ = .ok ["a"] := by
  have hcheck : checkPath ⟨["", "a"]⟩ = .ok () := rfl
  rw [resolve_of_walk hcheck]
  change walkWith _ .name _ [] ["", "a"] = _
  rw [walkWith_blank (.inl rfl), walkWith_directory ⟨by decide, by decide, by decide⟩
    (by simp [Wanted.RefusesSlash]) rfl]
  rfl

theorem houses_ofListing {names : String → Prop} (hentry : ∀ name, names name → IsEntryName name)
    (hfits : ∀ name, names name →
      (⟨["", "a"]⟩ : Path).text.utf8ByteSize + name.utf8ByteSize < maxPathBytes)
    (listing : List (String × Bytes)) :
    (ofListing listing).Houses names ⟨["", "a"]⟩ ["a"] where
  named := resolve_ofListing listing
  directory := rfl
  home := rfl
  entry := hentry
  fits := hfits
  takes name _ := by
    rcases node?_ofListing listing name with ⟨hnone, -⟩ | ⟨id, -, hnode, -⟩
    · exact .inl hnone
    · exact .inr ⟨id, hnode⟩
  numbered name id h := by
    obtain ⟨content, hid, -⟩ := exists_of_node?_ofListing h
    simpa [ofListing] using (List.getElem?_eq_some_iff.1 hid).1
  apart a b id ha hb := by
    obtain ⟨content, hid, -⟩ := exists_of_node?_ofListing ha
    obtain ⟨content', hid', -⟩ := exists_of_node?_ofListing hb
    exact congrArg Prod.fst (Option.some.inj (hid.symm.trans hid'))

theorem folder_ofListing (listing : List (String × Bytes)) :
    (ofListing listing).folder ["a"] = fun name => listing.lookup name := by
  funext name
  unfold folder
  rcases node?_ofListing listing name with ⟨hnone, hlookup⟩ | ⟨id, content, hnode, hid, hlookup⟩
  · rw [hnone, hlookup]
  · have hcontent : (ofListing listing).content id = content := by
      simp [FileSystem.content, ofListing, hid]
    rw [hnode, hlookup]
    exact congrArg some hcontent

end BlockArchive.FileSystem
