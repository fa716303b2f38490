import SsaOpt.Cbor.Reader

/-!
# Access to items

What an item says where a text, a number, a truth value, a list or a record is expected; `none` if
it says something else. Tags are looked through, and an item that stands for nothing counts as an
empty text, zero, false, or an empty list or record. A field that a record does not have stands for
nothing.
-/

namespace SsaOpt.Cbor.Item

/-- Whether an item stands for nothing. -/
def isNull : Item → Bool
  | simple n => n = 22 || n = 23
  | _ => false

/-- Whether a tag may stand in front of an item: dates are texts, times are numbers, and big numbers
are bytes. -/
def suits (number : UInt64) (content : Item) : Bool :=
  if number = 0 then
    match content with
    | text _ => true
    | _ => false
  else if number = 1 then
    match content with
    | unsigned _ | negative _ | float _ _ => true
    | _ => false
  else if number = 2 || number = 3 then
    match content with
    | bytes _ => true
    | _ => false
  else true

/-- What stands behind the tags of an item; a big number keeps its tag. -/
def untagged? : Item → Option Item
  | tag number content =>
    if !suits number content then none
    else if number = 2 || number = 3 then some (tag number content)
    else content.untagged?
  | x => some x

/-- The text that an item is. -/
def text? (x : Item) : Option String :=
  match x.untagged? with
  | some (text chunks) => (chunks.mapM Text.utf8Text?).map String.join
  | some y => if y.isNull then some "" else none
  | none => none

/-- The number that an item is. Simple values that are neither truth values nor nothing are
numbers. -/
def number? (x : Item) : Option Int :=
  match x.untagged? with
  | some (unsigned n) => some n.toNat
  | some (negative n) => some (-1 - n.toNat)
  | some (tag number (bytes data)) =>
    some (if number = 2 then ofBigEndian data else -1 - ofBigEndian data)
  | some (simple n) =>
    if n = 20 || n = 21 then none else if n = 22 || n = 23 then some 0 else some n.toNat
  | _ => none

/-- The number that an item is, if it has 32 bits. -/
def uint32? (x : Item) : Option UInt32 :=
  match x.number? with
  | some n => if 0 ≤ n ∧ n < UInt32.size then some (UInt32.ofNat n.toNat) else none
  | none => none

/-- The number that an item is, if it has 64 bits and a sign. -/
def int64? (x : Item) : Option Int64 :=
  match x.number? with
  | some n => if Int64.minValue.toInt ≤ n ∧ n ≤ Int64.maxValue.toInt then some (Int64.ofInt n) else none
  | none => none

/-- The truth value that an item is. -/
def bool? (x : Item) : Option Bool :=
  match x.untagged? with
  | some (simple n) => if n = 21 then some true else if 20 ≤ n && n < 24 then some false else none
  | _ => none

/-- The list that an item is, with what `f` finds in its elements. -/
def list? {α : Type} (f : Item → Option α) (x : Item) : Option (List α) :=
  match x.untagged? with
  | some (array items) => items.mapM f
  | some y => if y.isNull then some [] else none
  | none => none

/-- The fields of a record. -/
abbrev Fields := List (String × Item)

/-- The field that an entry of a map is. A key that is a number names no field of interest; any
other key must be a text. -/
def field? : Item × Item → Option (Option (String × Item))
  | (text chunks, value) =>
    (chunks.mapM Text.utf8Text?).map fun parts => some (String.join parts, value)
  | (unsigned _, _) | (negative _, _) => some none
  | _ => none

/-- The fields of the record that an item is. -/
def fields? (x : Item) : Option Fields :=
  match x.untagged? with
  | some (map entries) => (entries.mapM field?).map fun fields => fields.filterMap id
  | some y => if y.isNull then some [] else none
  | none => none

/-- The field of a name, in lower case: the first whose name agrees up to case. -/
def Fields.get (fields : Fields) (name : String) : Item :=
  ((fields.find? fun f => f.1.map Char.toLower = name).map Prod.snd).getD null

/-- A record with the fields that are there. -/
def record (fields : List (String × Option Item)) : Item :=
  map (fields.filterMap fun f => f.2.map fun value => (ofText f.1, value))

end SsaOpt.Cbor.Item
