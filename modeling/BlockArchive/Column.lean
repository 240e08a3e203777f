import BlockArchive.Bytes
import BlockArchive.Error

/-! # Columns and rows

A block is stored as a row of five columns, and every column has a table of its own.

* **Order.** The columns have a fixed order, `Column.all`, in which rows are written and tables
  are opened, cut and listed.
* **`ByColumn α`** holds one value of type `α` for each column: a row is a `ByColumn Bytes`, and an
  archive has a `ByColumn Table`.  `get_set_same` and `get_set_ne` are its laws, `ext_get` says
  that its five values are all there is to it.
* **Samples.** `Row.sample n` is a row that differs from every other sample in most columns; some
  of its columns are empty or repeat for chosen numbers. -/

namespace BlockArchive

/-- The five kinds of data kept for a block. -/
inductive Column where
  | hashes
  | bodies
  | transactions
  | receipts
  | interchain
deriving DecidableEq, Repr

namespace Column

/-- The columns in the order in which a row is written. -/
def all : List Column := [hashes, bodies, transactions, receipts, interchain]

theorem mem_all (c : Column) : c ∈ all := by cases c <;> decide

/-- The name of the column and of its table. -/
def name : Column → String
  | hashes => "hashes"
  | bodies => "bodies"
  | transactions => "transactions"
  | receipts => "receipts"
  | interchain => "interchain"

/-- The place of the column in the order of writing. -/
def position : Column → Nat
  | hashes => 0
  | bodies => 1
  | transactions => 2
  | receipts => 3
  | interchain => 4

/-- The column called `name`. -/
def ofName? (name : String) : Option Column :=
  all.find? (·.name = name)

/-- The column called `name`, or the refusal of a name that no column has. -/
def ofName (name : String) : Except Error Column :=
  match ofName? name with
  | some c => .ok c
  | none => .error (.unknownTable name)

theorem ofName?_name (c : Column) : ofName? c.name = some c := by cases c <;> decide

theorem name_injective {c d : Column} (h : c.name = d.name) : c = d := by
  have := ofName?_name c
  rw [h, ofName?_name] at this
  exact (Option.some.inj this).symm

end Column

/-- One value for each column. -/
structure ByColumn (α : Type) where
  hashes : α
  bodies : α
  transactions : α
  receipts : α
  interchain : α
deriving DecidableEq, Repr

namespace ByColumn

variable {α β : Type}

/-- The value for a column. -/
def get (values : ByColumn α) : Column → α
  | .hashes => values.hashes
  | .bodies => values.bodies
  | .transactions => values.transactions
  | .receipts => values.receipts
  | .interchain => values.interchain

/-- The values with that of one column replaced. -/
def set (values : ByColumn α) (c : Column) (a : α) : ByColumn α :=
  match c with
  | .hashes => { values with hashes := a }
  | .bodies => { values with bodies := a }
  | .transactions => { values with transactions := a }
  | .receipts => { values with receipts := a }
  | .interchain => { values with interchain := a }

@[simp] theorem get_set_same (values : ByColumn α) (c : Column) (a : α) :
    (values.set c a).get c = a := by
  cases c <;> rfl

theorem get_set_ne (values : ByColumn α) {c d : Column} (a : α) (h : d ≠ c) :
    (values.set c a).get d = values.get d := by
  cases c <;> cases d <;> simp_all [set, get]

@[simp] theorem set_get (values : ByColumn α) (c : Column) :
    values.set c (values.get c) = values := by
  cases c <;> rfl

theorem ext_get {v w : ByColumn α} (h : ∀ c, v.get c = w.get c) : v = w := by
  cases v
  cases w
  simp only [mk.injEq]
  exact ⟨h .hashes, h .bodies, h .transactions, h .receipts, h .interchain⟩

/-- The values in the order of the columns. -/
def toList (values : ByColumn α) : List α :=
  Column.all.map values.get

/-- The values that a function gives for the columns. -/
def ofFn (f : Column → α) : ByColumn α :=
  ⟨f .hashes, f .bodies, f .transactions, f .receipts, f .interchain⟩

@[simp] theorem get_ofFn (f : Column → α) (c : Column) : (ofFn f).get c = f c := by
  cases c <;> rfl

/-- Obtains the values one after the other, in the order of the columns. -/
def ofFnM {m : Type → Type} [Monad m] (f : Column → m α) : m (ByColumn α) := do
  let hashes ← f .hashes
  let bodies ← f .bodies
  let transactions ← f .transactions
  let receipts ← f .receipts
  let interchain ← f .interchain
  return { hashes, bodies, transactions, receipts, interchain }

end ByColumn

/-- The data of one block. -/
abbrev Row := ByColumn Bytes

namespace Row

/-- The bytes of a text. -/
def utf8 (text : String) : Bytes := text.toUTF8.data.toList

/-- A row for trying things out.  The hash repeats the eight bytes of `n`; the body repeats a text
one to four times; the transactions are zero to sixteen equal bytes; the interchain data takes
three values. -/
def sample (n : Nat) : Row where
  hashes := (List.replicate 4 (Bytes.bigEndian 8 n)).flatten
  bodies := (List.replicate (n % 4 + 1) (utf8 ("body-" ++ toString n))).flatten
  transactions := List.replicate (n % 17) (UInt8.ofNat (n % 251))
  receipts := utf8 ("receipts-" ++ toString n)
  interchain := utf8 ("\x7b\"ibtps\":" ++ toString (n % 3) ++ "\x7d")

end Row

end BlockArchive
