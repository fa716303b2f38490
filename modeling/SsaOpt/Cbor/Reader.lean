import SsaOpt.Cbor.Item

/-!
# Reading items

`Item.read` turns bytes into the one item that they are. It takes any well-formed item: heads that
are longer than needed and lengths that are left open are fine, as long as arrays and maps do not
nest too deeply and do not grow too large.
-/

namespace SsaOpt.Cbor

/-- Why bytes are not an item. -/
inductive ReadError where
  /-- There are no bytes. -/
  | empty
  /-- The bytes end within the item. -/
  | truncated
  /-- A head has no meaning where it stands, a limit is exceeded, or something follows the item. -/
  | malformed
deriving DecidableEq, Repr

/-- The error in words. -/
def ReadError.message : ReadError → String
  | empty => "EOF"
  | truncated => "unexpected EOF"
  | malformed => "not a well-formed item"

/-- How deeply arrays and maps may nest. -/
def maxDepth : Nat := 32

/-- How many elements an array, and how many entries a map may have. -/
def maxElements : Nat := 131072

/-- The head of an item: its type, the additional information of the first byte, and the
argument. -/
structure Head where
  major : Nat
  info : Nat
  arg : Nat

/-- Whether the length of the item is left open. -/
def Head.isOpen (h : Head) : Bool := h.info = 31

/-- Reads one item from the front of some bytes. -/
abbrev ItemReader := List UInt8 → Except ReadError (Item × List UInt8)

/-- The first `n` bytes and the others. -/
def readBytes : Nat → List UInt8 → Except ReadError (List UInt8 × List UInt8)
  | 0, bytes => .ok ([], bytes)
  | _ + 1, [] => .error .truncated
  | n + 1, b :: rest =>
    match readBytes n rest with
    | .ok (taken, rest) => .ok (b :: taken, rest)
    | .error e => .error e

/-- Reads a head. -/
def readHead : List UInt8 → Except ReadError (Head × List UInt8)
  | [] => .error .truncated
  | b :: rest =>
    let major := b.toNat / 32
    let info := b.toNat % 32
    if info < 24 then .ok (⟨major, info, info⟩, rest)
    else if info = 31 then .ok (⟨major, info, 0⟩, rest)
    else if 27 < info then .error .malformed
    else
      match readBytes (Nat.pow 2 (info - 24)) rest with
      | .ok (bytes, rest) => .ok (⟨major, info, ofBigEndian bytes⟩, rest)
      | .error e => .error e

/-- The byte that ends an item whose length is left open. -/
def breakByte : UInt8 := 0xff

/-- Reads the chunks of a string up to the break. Every chunk takes at least one byte, so that the
fuel, the number of bytes, is enough. -/
def readChunks (major : Nat) : Nat → List UInt8 → Except ReadError (List (List UInt8) × List UInt8)
  | 0, _ => .error .truncated
  | fuel + 1, bytes =>
    if bytes.head? = some breakByte then .ok ([], bytes.tail)
    else do
      let (h, rest) ← readHead bytes
      if h.major ≠ major || h.isOpen then .error .malformed
      else
        let (chunk, rest) ← readBytes h.arg rest
        let (chunks, rest) ← readChunks major fuel rest
        .ok (chunk :: chunks, rest)

/-- Reads a string whose head has been read, in its chunks. -/
def readString (h : Head) (bytes : List UInt8) :
    Except ReadError (List (List UInt8) × List UInt8) :=
  if h.isOpen then readChunks h.major (bytes.length + 1) bytes
  else do
    let (chunk, rest) ← readBytes h.arg bytes
    .ok ([chunk], rest)

/-- Reads `n` items; those already read are in `done`, the last first. -/
def readMany (read : ItemReader) :
    Nat → List Item → List UInt8 → Except ReadError (List Item × List UInt8)
  | 0, done, bytes => .ok (done.reverse, bytes)
  | n + 1, done, bytes =>
    match read bytes with
    | .ok (item, rest) => readMany read n (item :: done) rest
    | .error e => .error e

/-- Reads items up to the break, at most `n` of them. -/
def readOpen (read : ItemReader) :
    Nat → List Item → List UInt8 → Except ReadError (List Item × List UInt8)
  | n, done, bytes =>
    if bytes.head? = some breakByte then .ok (done.reverse, bytes.tail)
    else
      match n with
      | 0 => .error .malformed
      | n + 1 =>
        match read bytes with
        | .ok (item, rest) => readOpen read n (item :: done) rest
        | .error e => .error e

/-- Reads the items in an array or map whose head has been read; `width` is the number of items in
an element. -/
def readElements (read : ItemReader) (width : Nat) (h : Head) (bytes : List UInt8) :
    Except ReadError (List Item × List UInt8) :=
  if h.isOpen then readOpen read (width * maxElements) [] bytes
  else if maxElements < h.arg then .error .malformed
  else readMany read (width * h.arg) [] bytes

/-- Keys and values that alternate, as entries. An odd number of items makes no entries. -/
def entries? : List Item → Option (List (Item × Item))
  | [] => some []
  | [_] => none
  | key :: value :: rest => (entries? rest).map ((key, value) :: ·)

/-- The simple value or floating-point number of a head. -/
def ofSimpleHead (h : Head) : Except ReadError Item :=
  if h.info < 24 then .ok (.simple (UInt8.ofNat h.arg))
  else if h.info = 24 then
    if h.arg < 32 then .error .malformed else .ok (.simple (UInt8.ofNat h.arg))
  else if h.isOpen then .error .malformed
  else .ok (.float (Nat.pow 2 (h.info - 24)) (UInt64.ofNat h.arg))

/-- Reads an item within `depth` arrays and maps. A tag right inside a tag counts as a level too.
The fuel bounds the nesting, and a level takes at most two steps of it. -/
def readItem : Nat → Nat → Bool → ItemReader
  | 0, _, _, _ => .error .malformed
  | fuel + 1, depth, tagged, bytes => do
    let (h, rest) ← readHead bytes
    let nested := readItem fuel (depth + 1) false
    match h.major with
    | 0 => if h.isOpen then .error .malformed else .ok (.unsigned (UInt64.ofNat h.arg), rest)
    | 1 => if h.isOpen then .error .malformed else .ok (.negative (UInt64.ofNat h.arg), rest)
    | 2 => do
      let (chunks, rest) ← readString h rest
      .ok (.bytes chunks.flatten, rest)
    | 3 => do
      let (chunks, rest) ← readString h rest
      .ok (.text chunks, rest)
    | 4 =>
      if maxDepth ≤ depth then .error .malformed
      else do
        let (items, rest) ← readElements nested 1 h rest
        .ok (.array items, rest)
    | 5 =>
      if maxDepth ≤ depth then .error .malformed
      else do
        let (items, rest) ← readElements nested 2 h rest
        match entries? items with
        | some entries => .ok (.map entries, rest)
        | none => .error .malformed
    | 6 =>
      if h.isOpen || (tagged && maxDepth ≤ depth) then .error .malformed
      else do
        let (content, rest) ← readItem fuel (if tagged then depth + 1 else depth) true rest
        .ok (.tag (UInt64.ofNat h.arg) content, rest)
    | _ => do
      let item ← ofSimpleHead h
      .ok (item, rest)

/-- The item that some bytes are. -/
def Item.read (bytes : List UInt8) : Except ReadError Item :=
  if bytes.isEmpty then .error .empty
  else
    match readItem (2 * maxDepth + 3) 0 false bytes with
    | .ok (item, []) => .ok item
    | .ok (_, _ :: _) => .error .malformed
    | .error e => .error e

end SsaOpt.Cbor
