import SsaOpt.Text.Utf8

/-!
# Data items

The data model of CBOR, the Concise Binary Object Representation, and the bytes of an item. An item
starts with a head: three bits for its type and an argument, which is a number or the number of what
follows. `Item.write` always takes the shortest head and definite lengths.
-/

namespace SsaOpt.Cbor

/-- A data item. -/
inductive Item where
  | unsigned (n : UInt64)
  /-- The number `-1 - n`. -/
  | negative (n : UInt64)
  | bytes (data : List UInt8)
  /-- A text in UTF-8, which may come in several chunks. -/
  | text (chunks : List (List UInt8))
  | array (items : List Item)
  | map (entries : List (Item × Item))
  | tag (number : UInt64) (content : Item)
  /-- A simple value; `20` and `21` are the truth values, `22` and `23` stand for nothing. -/
  | simple (number : UInt8)
  /-- A floating-point number of 2, 4 or 8 bytes. -/
  | float (width : Nat) (bits : UInt64)

/-- The number of some bytes, the most significant first. -/
def ofBigEndian (bytes : List UInt8) : Nat := bytes.foldl (fun n b => n * 256 + b.toNat) 0

/-- The lowest `width` bytes of a number, the most significant first. -/
def bigEndian : Nat → Nat → List UInt8
  | 0, _ => []
  | width + 1, n => bigEndian width (n / 256) ++ [UInt8.ofNat n]

/-- The shortest head of a type with an argument. -/
def head (major n : Nat) : List UInt8 :=
  let first := fun info => UInt8.ofNat (major * 32 + info)
  if n < 24 then [first n]
  else if n < UInt8.size then first 24 :: bigEndian 1 n
  else if n < UInt16.size then first 25 :: bigEndian 2 n
  else if n < UInt32.size then first 26 :: bigEndian 4 n
  else first 27 :: bigEndian 8 n

namespace Item

/-- The additional information in the head of a floating-point number. -/
def floatInfo (width : Nat) : Nat := if width = 2 then 25 else if width = 4 then 26 else 27

mutual

/-- The bytes of an item. -/
def write : Item → List UInt8
  | unsigned n => head 0 n.toNat
  | negative n => head 1 n.toNat
  | bytes data => head 2 data.length ++ data
  | text chunks => head 3 chunks.flatten.length ++ chunks.flatten
  | array items => head 4 items.length ++ writeAll items
  | map entries => head 5 entries.length ++ writeEntries entries
  | tag number content => head 6 number.toNat ++ content.write
  | simple number => head 7 number.toNat
  | float width bits =>
    UInt8.ofNat (7 * 32 + floatInfo width) :: bigEndian width bits.toNat

/-- The bytes of some items in turn. -/
def writeAll : List Item → List UInt8
  | [] => []
  | x :: rest => x.write ++ writeAll rest

/-- The bytes of some entries in turn, each key before its value. -/
def writeEntries : List (Item × Item) → List UInt8
  | [] => []
  | (key, value) :: rest => key.write ++ (value.write ++ writeEntries rest)

end

/-- A text in one chunk. -/
def ofText (s : String) : Item := text [Text.utf8Bytes s]

/-- A truth value. -/
def ofBool (b : Bool) : Item := simple (if b then 21 else 20)

/-- A signed number. -/
def ofInt64 (n : Int64) : Item :=
  if 0 ≤ n then unsigned n.toUInt64 else negative (-1 - n).toUInt64

/-- The value that stands for nothing. -/
def null : Item := simple 22

end Item

end SsaOpt.Cbor
