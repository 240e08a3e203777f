import BlockArchive.Proofs.Resolution
import BlockArchive.Column
import BlockArchive.DirectoryLock
import BlockArchive.Table.Basic

/-! # The names of files do not collide

The files of all tables lie in one directory, together with the lock file.

* An index and a segment never share a name, nor do two tables or two segments of one table:
  what follows the last dot but one is read back as the segment's id (`fileName_injective`).
* The lock file has a name of its own (`fileName_ne_lock`).
* As long as the name of a table is a plain word, so are the names of its files. -/

namespace BlockArchive

namespace Text

/-- Zeros in front do not change the number that digits stand for. -/
theorem ofDigitChars_zeroPadded (width n : Nat) :
    Nat.ofDigitChars 10 (zeroPadded 10 width n) 0 = n := by
  rw [zeroPadded, Nat.ofDigitChars_append, Nat.ofDigitChars_replicate_zero, Nat.mul_zero,
    Nat.ofDigitChars_ten_toDigits]

theorem zeroPadded_injective {width m n : Nat}
    (h : zeroPadded 10 width m = zeroPadded 10 width n) : m = n := by
  rw [← ofDigitChars_zeroPadded width m, h, ofDigitChars_zeroPadded]

theorem isDigit_of_mem_zeroPadded {width n : Nat} {c : Char} (h : c ∈ zeroPadded 10 width n) :
    c.isDigit = true := by
  rcases List.mem_append.1 h with h | h
  · rw [(List.mem_replicate.1 h).2]
    decide
  · exact Nat.isDigit_of_mem_toDigits (by decide) (by decide) h

theorem length_zeroPadded (base width n : Nat) :
    (zeroPadded base width n).length = max width (Nat.toDigits base n).length := by
  simp [zeroPadded]
  omega

/-- A digit takes one byte. -/
theorem utf8ByteSize_ofList_of_isDigit {chars : List Char} (h : ∀ c ∈ chars, c.isDigit = true) :
    (String.ofList chars).utf8ByteSize = chars.length := by
  induction chars with
  | nil => rfl
  | cons c chars ih =>
      have hc : c.utf8Size = 1 := by
        have hdigit := h c (by simp)
        simp only [Char.isDigit, Bool.and_eq_true, decide_eq_true_eq,
          UInt32.le_iff_toNat_le] at hdigit
        have : c.val.toNat ≤ 57 := hdigit.2
        rw [Char.utf8Size_eq_one_iff, UInt32.le_iff_toNat_le]
        exact Nat.le_trans this (by decide)
      have hsplit : String.ofList (c :: chars) = String.singleton c ++ String.ofList chars := by
        apply String.toList_injective
        simp
      rw [hsplit, String.utf8ByteSize_append, String.utf8ByteSize_singleton, hc,
        ih fun d hd => h d (by simp [hd]), List.length_cons, Nat.add_comm]

end Text

namespace Table

/-! ### Reading a name back -/

theorem indexFileName_injective {a b : String} (h : indexFileName a = indexFileName b) : a = b := by
  have h := congrArg String.toList h
  simp only [indexFileName, String.toList_append, List.append_cancel_right_eq] at h
  exact String.toList_injective h

/-- The digits of an id hold no dot, so the dot before them is the last one of what is left
when the ending is taken away. -/
theorem segmentFileName_injective {a b : String} {i j : Nat}
    (h : segmentFileName a i = segmentFileName b j) : a = b ∧ i = j := by
  have hdot : ∀ n, '.' ∉ Text.zeroPadded 10 4 n := fun n hn => by
    have := Text.isDigit_of_mem_zeroPadded hn
    simp at this
  have h := congrArg String.toList h
  simp only [segmentFileName, String.toList_append, String.toList_ofList,
    List.append_cancel_right_eq] at h
  have hone : ".".toList = ['.'] := by decide
  simp only [hone, List.append_assoc, List.singleton_append] at h
  rcases List.append_eq_append_iff.1 h with ⟨more, hb, hi⟩ | ⟨more, ha, hj⟩
  · cases more with
    | nil =>
        simp only [List.nil_append, List.cons.injEq, true_and] at hi
        exact ⟨String.toList_injective (by simpa using hb.symm), Text.zeroPadded_injective hi⟩
    | cons c more =>
        simp only [List.cons_append, List.cons.injEq] at hi
        exact absurd (by simp [hi.2]) (hdot i)
  · cases more with
    | nil =>
        simp only [List.nil_append, List.cons.injEq, true_and] at hj
        exact ⟨String.toList_injective (by simpa using ha), (Text.zeroPadded_injective hj).symm⟩
    | cons c more =>
        simp only [List.cons_append, List.cons.injEq] at hj
        exact absurd (by simp [hj.2]) (hdot j)

theorem segmentFileName_ne {a b : String} {i j : Nat} (h : i ≠ j) :
    segmentFileName a i ≠ segmentFileName b j := fun heq => h (segmentFileName_injective heq).2

/-- The last letter tells an index, a segment and the lock file apart. -/
theorem getLast?_indexFileName (a : String) : (indexFileName a).toList.getLast? = some 'x' := by
  have h : ".ridx".toList = ['.', 'r', 'i', 'd', 'x'] := by decide
  simp [indexFileName, h]

theorem getLast?_segmentFileName (a : String) (i : Nat) :
    (segmentFileName a i).toList.getLast? = some 't' := by
  have h : ".rdat".toList = ['.', 'r', 'd', 'a', 't'] := by decide
  rw [segmentFileName, String.toList_append, List.getLast?_append, h]
  rfl

theorem indexFileName_ne_segmentFileName (a b : String) (i : Nat) :
    indexFileName a ≠ segmentFileName b i := by
  intro h
  have := getLast?_indexFileName a
  rw [h, getLast?_segmentFileName] at this
  simp at this

theorem indexFileName_ne_lock (a : String) : indexFileName a ≠ DirectoryLock.fileName := by
  intro h
  have := getLast?_indexFileName a
  rw [h] at this
  revert this
  decide

theorem segmentFileName_ne_lock (a : String) (i : Nat) :
    segmentFileName a i ≠ DirectoryLock.fileName := by
  intro h
  have := getLast?_segmentFileName a i
  rw [h] at this
  revert this
  decide

/-! ### All files of a table -/

/-- What a file of a table is for. -/
inductive Role where
  | index
  | segment (id : Nat)
deriving DecidableEq

/-- The name of the file that a table keeps for this role. -/
def fileName (table : String) : Role → String
  | .index => indexFileName table
  | .segment id => segmentFileName table id

/-- No two tables share a name of a file, and no two files of one table do. -/
theorem fileName_injective {a b : String} {role role' : Role}
    (h : fileName a role = fileName b role') : a = b ∧ role = role' := by
  cases role with
  | index =>
      cases role' with
      | index => exact ⟨indexFileName_injective h, rfl⟩
      | segment id => exact absurd h (indexFileName_ne_segmentFileName a b id)
  | segment id =>
      cases role' with
      | index => exact absurd h.symm (indexFileName_ne_segmentFileName b a id)
      | segment id' =>
          obtain ⟨htable, hid⟩ := segmentFileName_injective h
          exact ⟨htable, congrArg Role.segment hid⟩

theorem fileName_ne_lock (a : String) (role : Role) : fileName a role ≠ DirectoryLock.fileName := by
  cases role with
  | index => exact indexFileName_ne_lock a
  | segment id => exact segmentFileName_ne_lock a id

/-! ### Names that a directory can hold -/

/-- A word that ends in a letter other than a dot is neither blank nor a way up. -/
theorem isName_of_getLast? {name : String} {c : Char} (hlast : name.toList.getLast? = some c)
    (hc : c ≠ '.') (hslash : '/' ∉ name.toList) : FileSystem.IsName name where
  not_blank := by
    rintro (rfl | rfl)
    · simp at hlast
    · simp only [String.reduceToList, List.getLast?_singleton, Option.some.injEq] at hlast
      exact hc hlast.symm
  ne_dots := by
    rintro rfl
    simp only [String.reduceToList, List.getLast?_cons_cons, List.getLast?_singleton,
      Option.some.injEq] at hlast
    exact hc hlast.symm
  no_slash := hslash

theorem isEntryName_of_isName {name : String} (h : FileSystem.IsName name)
    (hnull : '\x00' ∉ name.toList) (hshort : name.utf8ByteSize ≤ FileSystem.maxNameBytes) :
    FileSystem.IsEntryName name where
  ne_empty heq := h.not_blank (.inl heq)
  ne_dot heq := h.not_blank (.inr heq)
  ne_dots := h.ne_dots
  no_slash := h.no_slash
  no_null := hnull
  short := hshort

theorem isName_indexFileName {a : String} (hslash : '/' ∉ a.toList) :
    FileSystem.IsName (indexFileName a) := by
  have h : ".ridx".toList = ['.', 'r', 'i', 'd', 'x'] := by decide
  refine isName_of_getLast? (getLast?_indexFileName a) (by decide) ?_
  simp [indexFileName, h, hslash]

theorem not_mem_zeroPadded {c : Char} (h : c.isDigit = false) (width n : Nat) :
    c ∉ Text.zeroPadded 10 width n := by
  intro hmem
  rw [Text.isDigit_of_mem_zeroPadded hmem] at h
  simp at h

theorem isName_segmentFileName {a : String} (hslash : '/' ∉ a.toList) (i : Nat) :
    FileSystem.IsName (segmentFileName a i) := by
  have h : ".rdat".toList = ['.', 'r', 'd', 'a', 't'] := by decide
  have hone : ".".toList = ['.'] := by decide
  refine isName_of_getLast? (getLast?_segmentFileName a i) (by decide) ?_
  simp [segmentFileName, h, hone, hslash, not_mem_zeroPadded (by decide : '/'.isDigit = false)]

theorem isName_fileName {a : String} (hslash : '/' ∉ a.toList) (role : Role) :
    FileSystem.IsName (fileName a role) := by
  cases role with
  | index => exact isName_indexFileName hslash
  | segment id => exact isName_segmentFileName hslash id

/-- The bytes that a segment's file name adds to the name of its table. -/
theorem utf8ByteSize_segmentFileName {a : String} {i : Nat} (h : i ≤ lastSegmentId) :
    (segmentFileName a i).utf8ByteSize ≤ a.utf8ByteSize + 11 := by
  have hdigits : (Nat.toDigits 10 i).length ≤ 5 := by
    rw [Nat.length_toDigits_le_iff (by decide) (by decide)]
    exact Nat.lt_of_le_of_lt h (by decide)
  have hpadded : (String.ofList (Text.zeroPadded 10 4 i)).utf8ByteSize ≤ 5 := by
    rw [Text.utf8ByteSize_ofList_of_isDigit fun c hc => Text.isDigit_of_mem_zeroPadded hc,
      Text.length_zeroPadded]
    omega
  have hdot : ".".utf8ByteSize = 1 := by decide
  have hend : ".rdat".utf8ByteSize = 5 := by decide
  simp only [segmentFileName, String.utf8ByteSize_append, hdot, hend]
  omega

theorem utf8ByteSize_indexFileName (a : String) :
    (indexFileName a).utf8ByteSize = a.utf8ByteSize + 5 := by
  have hend : ".ridx".utf8ByteSize = 5 := by decide
  simp only [indexFileName, String.utf8ByteSize_append, hend]

variable {a : String} (hslash : '/' ∉ a.toList) (hnull : '\x00' ∉ a.toList)
  (hshort : a.utf8ByteSize + 11 ≤ FileSystem.maxNameBytes)
include hslash hnull hshort

theorem isEntryName_indexFileName : FileSystem.IsEntryName (indexFileName a) := by
  have h : ".ridx".toList = ['.', 'r', 'i', 'd', 'x'] := by decide
  refine isEntryName_of_isName (isName_indexFileName hslash) ?_ ?_
  · simp [indexFileName, h, hnull]
  · rw [utf8ByteSize_indexFileName]
    omega

theorem isEntryName_segmentFileName {i : Nat} (hi : i ≤ lastSegmentId) :
    FileSystem.IsEntryName (segmentFileName a i) := by
  have h : ".rdat".toList = ['.', 'r', 'd', 'a', 't'] := by decide
  have hone : ".".toList = ['.'] := by decide
  refine isEntryName_of_isName (isName_segmentFileName hslash i) ?_ ?_
  · simp [segmentFileName, h, hone, hnull,
      not_mem_zeroPadded (by decide : '\x00'.isDigit = false)]
  · exact Nat.le_trans (utf8ByteSize_segmentFileName hi) hshort

end Table

end BlockArchive
