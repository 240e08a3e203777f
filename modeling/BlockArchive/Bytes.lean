/-! # Bytes: the content of a file

A file is a finite list of bytes.  The operations here are the ones a storage layer asks of an
operating system, said on lists.

* **Length.** `resize n` makes a content exactly `n` bytes long: it cuts the end off, or fills up
  with zeros.
* **Writing.** `overwrite start new` lays `new` over the content from byte `start` on; a gap
  before it is filled with zeros, and writing no bytes changes nothing, wherever it is aimed.
* **Reading.** `slice? start len` is the run of `len` bytes from `start` on, if the content
  reaches that far; a run of no bytes can be read anywhere.
* **Numbers.** `bigEndian width n` writes the low `width` bytes of `n`, most significant first;
  `ofBigEndian` reads them back.

`ofBigEndian_bigEndian` is the round trip, and the `length_` lemmas give every length. -/

namespace BlockArchive

/-- The content of a file, or a blob to be stored. -/
abbrev Bytes := List UInt8

namespace Bytes

/-! ### Length, writing, reading -/

/-- The content cut or filled up with zeros to exactly `n` bytes. -/
def resize (data : Bytes) (n : Nat) : Bytes :=
  data.take n ++ List.replicate (n - data.length) 0

/-- The content after `new` was written over it from byte `start` on. -/
def overwrite (data : Bytes) (start : Nat) (new : Bytes) : Bytes :=
  if new.isEmpty then data
  else resize data start ++ (new ++ data.drop (start + new.length))

/-- The `len` bytes from `start` on, if the content holds all of them. -/
def slice? (data : Bytes) (start len : Nat) : Option Bytes :=
  if len = 0 then some []
  else if start + len ≤ data.length then some ((data.drop start).take len)
  else none

@[simp] theorem length_resize (data : Bytes) (n : Nat) : (resize data n).length = n := by
  simp [resize]; omega

theorem resize_of_le {data : Bytes} {n : Nat} (h : n ≤ data.length) :
    resize data n = data.take n := by
  simp [resize, Nat.sub_eq_zero_of_le h]

/-- What is there stays when a content is cut or filled up behind it. -/
theorem take_resize {data : Bytes} {n count : Nat} (hn : count ≤ n) (hcount : count ≤ data.length) :
    (resize data n).take count = data.take count := by
  rw [resize, List.take_append_of_le_length (by rw [List.length_take]; omega), List.take_take,
    Nat.min_eq_left hn]

@[simp] theorem resize_length (data : Bytes) : resize data data.length = data := by
  simp [resize]

@[simp] theorem overwrite_nil (data : Bytes) (start : Nat) : overwrite data start [] = data := by
  simp [overwrite]

/-- Writing at the end of a content appends to it. -/
theorem overwrite_length (data new : Bytes) : overwrite data data.length new = data ++ new := by
  by_cases h : new = []
  · simp [h]
  · simp [overwrite, h]

theorem take_overwrite {data : Bytes} {start count : Nat} (hstart : count ≤ start)
    (hcount : count ≤ data.length) (new : Bytes) :
    (overwrite data start new).take count = data.take count := by
  by_cases h : new = []
  · simp [h]
  · rw [overwrite, if_neg (by simpa using h),
      List.take_append_of_le_length (by rwa [length_resize]), take_resize hstart hcount]

theorem begins_overwrite (data : Bytes) (start : Nat) {new : Bytes} (h : new ≠ []) :
    resize data start ++ new <+: overwrite data start new := by
  rw [overwrite, if_neg (by simpa using h), ← List.append_assoc]
  exact List.prefix_append _ _

/-- What is there can be read also when more comes behind it. -/
theorem slice?_append {data part : Bytes} {start len : Nat} (h : slice? data start len = some part)
    (more : Bytes) : slice? (data ++ more) start len = some part := by
  unfold slice? at h ⊢
  by_cases hlen : len = 0
  · rwa [if_pos hlen] at h ⊢
  rw [if_neg hlen] at h ⊢
  by_cases hfits : start + len ≤ data.length
  · rw [if_pos hfits] at h
    have hdrop : len ≤ (data.drop start).length := by
      rw [List.length_drop]
      omega
    rw [if_pos (by rw [List.length_append]; omega), ← h,
      List.drop_append_of_le_length (by omega), List.take_append_of_le_length hdrop]
  · rw [if_neg hfits] at h
    simp at h

/-- What was put behind a content is read from where that one ends. -/
theorem slice?_length (data more : Bytes) :
    slice? (data ++ more) data.length more.length = some more := by
  unfold slice?
  by_cases hlen : more.length = 0
  · rw [if_pos hlen, List.length_eq_zero_iff.1 hlen]
  · rw [if_neg hlen, if_pos (Nat.le_of_eq List.length_append.symm), List.drop_left,
      List.take_length]

theorem slice?_overwrite (data : Bytes) (start : Nat) (new : Bytes) :
    slice? (overwrite data start new) start new.length = some new := by
  by_cases h : new = []
  · simp [h, slice?]
  · have hread := slice?_length (resize data start) new
    rw [length_resize] at hread
    obtain ⟨more, hmore⟩ := begins_overwrite data start h
    rw [← hmore]
    exact slice?_append hread more

/-! ### Numbers -/

/-- The low `width` bytes of `n`, most significant first. -/
def bigEndian : Nat → Nat → Bytes
  | 0, _ => []
  | width + 1, n => bigEndian width (n / 256) ++ [UInt8.ofNat n]

/-- The number whose bytes these are, most significant first. -/
def ofBigEndian (data : Bytes) : Nat :=
  data.foldl (fun n b => n * 256 + b.toNat) 0

@[simp] theorem length_bigEndian (width n : Nat) : (bigEndian width n).length = width := by
  induction width generalizing n with
  | zero => rfl
  | succ width ih => simp [bigEndian, ih]

theorem ofBigEndian_append_singleton (data : Bytes) (b : UInt8) :
    ofBigEndian (data ++ [b]) = ofBigEndian data * 256 + b.toNat := by
  simp [ofBigEndian]

/-- Reading a written number gives it back, less what its width cannot hold. -/
theorem ofBigEndian_bigEndian (width n : Nat) :
    ofBigEndian (bigEndian width n) = n % Nat.pow 256 width := by
  induction width generalizing n with
  | zero => simp [bigEndian, ofBigEndian, Nat.mod_one]
  | succ width ih =>
      have low : (UInt8.ofNat n).toNat = n % 256 := by simp
      have shift : Nat.pow 256 (width + 1) = 256 * Nat.pow 256 width := Nat.mul_comm _ _
      rw [bigEndian, ofBigEndian_append_singleton, ih, low, shift, Nat.mod_mul]
      omega

theorem bigEndian_ofBigEndian (data : Bytes) : bigEndian data.length (ofBigEndian data) = data := by
  generalize hn : data.length = n
  induction n generalizing data with
  | zero => simp [bigEndian, List.length_eq_zero_iff.1 hn]
  | succ n ih =>
      have ne : data ≠ [] := by rintro rfl; simp at hn
      obtain ⟨init, b, rfl⟩ : ∃ init b, data = init ++ [b] :=
        ⟨_, _, (List.dropLast_concat_getLast ne).symm⟩
      have hb := b.toNat_lt
      have hi : (ofBigEndian init * 256 + b.toNat) / 256 = ofBigEndian init := by omega
      have lo : UInt8.ofNat (ofBigEndian init * 256 + b.toNat) = b := by
        apply UInt8.toNat_inj.1
        simp
      rw [ofBigEndian_append_singleton, bigEndian, hi, lo, ih init (by simpa using hn)]

theorem ofBigEndian_lt (data : Bytes) : ofBigEndian data < Nat.pow 256 data.length := by
  have h := ofBigEndian_bigEndian data.length (ofBigEndian data)
  rw [bigEndian_ofBigEndian] at h
  have hpos : 0 < Nat.pow 256 data.length := Nat.pow_pos (by decide)
  calc ofBigEndian data = ofBigEndian data % Nat.pow 256 data.length := h
    _ < Nat.pow 256 data.length := Nat.mod_lt _ hpos

end Bytes

end BlockArchive
