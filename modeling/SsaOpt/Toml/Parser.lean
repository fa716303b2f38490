import SsaOpt.Toml.Number

/-!
# Reading TOML

`parse` turns text into statements. The readers take characters from the front of a list and return
what they have read with the characters that follow; `none` says that the text is malformed.
-/

namespace SsaOpt.Toml

/-! ## Characters between values -/

/-- Whether a character is a blank within a line. -/
def isBlank (c : Char) : Bool := c = ' ' || c = '\t'

/-- Whether a character belongs to the end of a line. -/
def isLineEnd (c : Char) : Bool := c = '\n' || c = '\r'

/-- Drops blanks within a line. -/
def dropBlanks (cs : List Char) : List Char := cs.dropWhile isBlank

/-- Drops blanks, line ends and comments; `comment` says that a comment has started. -/
def dropFiller : Bool → List Char → List Char
  | _, [] => []
  | true, c :: rest => dropFiller (c ≠ '\n') rest
  | false, c :: rest =>
    if isBlank c || isLineEnd c then dropFiller false rest
    else if c = '#' then dropFiller true rest
    else c :: rest

/-- Whether nothing but blanks and a comment stands before the end of the line. -/
def endsLine (cs : List Char) : Bool :=
  match dropBlanks cs with
  | [] => true
  | c :: _ => isLineEnd c || c = '#'

/-- Whether every character may stand in a document. A carriage return must be part of a line
end. -/
def charsOk : List Char → Bool
  | [] => true
  | c :: rest =>
    let allowed :=
      if c = '\r' then rest.head? = some '\n'
      else c = '\t' || c = '\n' || (32 ≤ c.toNat && c.toNat ≠ 127)
    allowed && charsOk rest

/-! ## Strings -/

/-- The character of a code point in hexadecimal digits. -/
def charOfHex? (digits : List Char) : Option Char :=
  let n := ofDigits 16 digits
  if digits.all isHexDigit && n.isValidChar then some (Char.ofNat n) else none

/-- Whether the blanks at the start reach over a line end. -/
def startsLineEnd (cs : List Char) : Bool :=
  (cs.takeWhile fun c => isBlank c || isLineEnd c).contains '\n'

/-- The characters that a backslash and a letter stand for. -/
def shortEscapes : List (Char × Char) :=
  [('b', '\x08'), ('t', '\t'), ('n', '\n'), ('f', '\x0c'), ('r', '\r'), ('e', '\x1b'), ('"', '"'),
    ('\\', '\\')]

/-- Replaces escape sequences. A backslash at the end of a line takes the line end and all blanks
behind it away; `joining` says that this is going on. -/
def unescape : Bool → List Char → Option (List Char)
  | _, [] => some []
  | _, '\\' :: 'x' :: a :: b :: rest => do
    let c ← charOfHex? [a, b]
    (unescape false rest).map (c :: ·)
  | _, '\\' :: 'u' :: a :: b :: c :: d :: rest => do
    let c ← charOfHex? [a, b, c, d]
    (unescape false rest).map (c :: ·)
  | _, '\\' :: 'U' :: a :: b :: c :: d :: e :: f :: g :: h :: rest => do
    let c ← charOfHex? [a, b, c, d, e, f, g, h]
    (unescape false rest).map (c :: ·)
  | _, '\\' :: c :: rest =>
    match shortEscapes.lookup c with
    | some d => (unescape false rest).map (d :: ·)
    | none => if startsLineEnd (c :: rest) then unescape true rest else none
  | joining, c :: rest =>
    if joining && (isBlank c || isLineEnd c) then unescape true rest
    else if c = '\\' then none
    else (unescape false rest).map (c :: ·)

/-- The characters up to the quote that ends a string within a line. In double quotes, the character
behind a backslash does not end it. -/
def takeQuoted (quote : Char) : List Char → Option (List Char × List Char)
  | [] => none
  | c :: rest =>
    if c = quote then some ([], rest)
    else if isLineEnd c then none
    else if c = '\\' && quote = '"' then
      match rest with
      | [] => none
      | d :: rest =>
        if isLineEnd d then none
        else (takeQuoted quote rest).map fun (cs, rest) => (c :: d :: cs, rest)
    else (takeQuoted quote rest).map fun (cs, rest) => (c :: cs, rest)

/-- Whether two quotes end the characters that have been read, the last of them first. In double
quotes no backslash may precede the two. -/
def endsInTwo (quote : Char) : List Char → Bool
  | a :: b :: rest => a = quote && b = quote && !(quote = '"' && rest.head? = some '\\')
  | _ => false

/-- The characters up to the three quotes that end a string over several lines; those already read
are in `done`, the last first. Up to two more quotes may stand in front of the three. -/
def takeMultiline (quote : Char) : List Char → List Char → Option (List Char × List Char)
  | _, [] => none
  | done, c :: rest =>
    if c = quote && rest.take 2 = [quote, quote] then
      if rest[2]? = some quote then
        if endsInTwo quote done then none else takeMultiline quote (c :: done) rest
      else some (done.reverse, rest.drop 2)
    else if c = '\\' && quote = '"' then
      match rest with
      | [] => none
      | d :: rest => takeMultiline quote (d :: c :: done) rest
    else takeMultiline quote (c :: done) rest

/-- Drops a line end at the start of a string. -/
def dropFirstLineEnd : List Char → List Char
  | '\n' :: rest => rest
  | '\r' :: '\n' :: rest => rest
  | cs => cs

/-- A string within a line, behind its first quote. Only double quotes allow escape sequences. -/
def readQuoted (quote : Char) (cs : List Char) : Option (String × List Char) := do
  let (raw, rest) ← takeQuoted quote cs
  let content ← if quote = '"' then unescape false raw else some raw
  some (String.ofList content, rest)

/-- A string over several lines, behind its first three quotes. -/
def readMultiline (quote : Char) (cs : List Char) : Option (String × List Char) := do
  let (raw, rest) ← takeMultiline quote [] cs
  let raw := dropFirstLineEnd raw
  let content ← if quote = '"' then unescape false raw else some raw
  some (String.ofList content, rest)

/-! ## Keys -/

/-- A part of a key. -/
def readKeyPart (cs : List Char) : Option (String × List Char) :=
  match cs with
  | '"' :: rest => readQuoted '"' rest
  | '\'' :: rest => readQuoted '\'' rest
  | cs =>
    let part := cs.takeWhile isBare
    if part.isEmpty then none else some (String.ofList part, cs.dropWhile isBare)

/-- A key and the character that ends it. Every part takes a character, so that the number of
characters is fuel enough. -/
def readKey : Nat → List Char → Option (Key × List Char)
  | 0, _ => none
  | fuel + 1, cs => do
    let (part, rest) ← readKeyPart (dropBlanks cs)
    match dropBlanks rest with
    | '.' :: rest => do
      let (parts, rest) ← readKey fuel rest
      some (part :: parts, rest)
    | rest => some ([part], rest)

/-! ## Values -/

/-- A scalar value. -/
def readScalar : List Char → Option (Scalar × List Char)
  | '"' :: '"' :: '"' :: rest => (readMultiline '"' rest).map fun (s, rest) => (.text s, rest)
  | '\'' :: '\'' :: '\'' :: rest => (readMultiline '\'' rest).map fun (s, rest) => (.text s, rest)
  | '"' :: rest => (readQuoted '"' rest).map fun (s, rest) => (.text s, rest)
  | '\'' :: rest => (readQuoted '\'' rest).map fun (s, rest) => (.text s, rest)
  | 't' :: 'r' :: 'u' :: 'e' :: rest => some (.truth true, rest)
  | 'f' :: 'a' :: 'l' :: 's' :: 'e' :: rest => some (.truth false, rest)
  | 'i' :: 'n' :: 'f' :: rest => some (.real "inf", rest)
  | 'n' :: 'a' :: 'n' :: rest => some (.real "nan", rest)
  | '+' :: rest => readSigned '+' rest
  | '-' :: rest => readSigned '-' rest
  | c :: rest => if c.isDigit then readUnsigned (c :: rest) else none
  | [] => none

mutual

/-- A value. Every step takes a character, and the fuel is twice the number of characters. -/
def readExpr : Nat → List Char → Option (Expr × List Char)
  | 0, _ => none
  | fuel + 1, cs =>
    match dropBlanks cs with
    | '[' :: rest => (readItems fuel rest).map fun (items, rest) => (.array items, rest)
    | '\x7b' :: rest => (readEntries fuel rest).map fun (entries, rest) => (.table entries, rest)
    | cs => (readScalar cs).map fun (s, rest) => (.scalar s, rest)

/-- The items of an array up to its end. -/
def readItems : Nat → List Char → Option (List Expr × List Char)
  | 0, _ => none
  | fuel + 1, cs =>
    match dropFiller false cs with
    | ']' :: rest => some ([], rest)
    | cs => do
      let (item, rest) ← readExpr fuel cs
      match dropFiller false rest with
      | ']' :: rest => some ([item], rest)
      | ',' :: rest => do
        let (items, rest) ← readItems fuel rest
        some (item :: items, rest)
      | _ => none

/-- The entries of a table up to its end. -/
def readEntries : Nat → List Char → Option (List (Key × Expr) × List Char)
  | 0, _ => none
  | fuel + 1, cs =>
    match dropFiller false cs with
    | '\x7d' :: rest => some ([], rest)
    | cs => do
      let (key, rest) ← readKey cs.length cs
      match rest with
      | '=' :: rest => do
        let (value, rest) ← readExpr fuel rest
        match dropFiller false rest with
        | '\x7d' :: rest => some ([(key, value)], rest)
        | ',' :: rest => do
          let (entries, rest) ← readEntries fuel rest
          some ((key, value) :: entries, rest)
        | _ => none
      | _ => none

end

/-! ## Statements -/

/-- A statement and what follows on its line. -/
def readStatement (cs : List Char) : Option (Statement × List Char) :=
  let size := cs.length
  match cs with
  | '[' :: '[' :: rest => do
    match ← readKey size rest with
    | (key, ']' :: ']' :: rest) => some (.tableArray key, rest)
    | _ => none
  | '[' :: rest => do
    match ← readKey size rest with
    | (key, ']' :: rest) => some (.table key, rest)
    | _ => none
  | cs => do
    match ← readKey size cs with
    | (key, '=' :: rest) => do
      let (value, rest) ← readExpr (2 * size + 2) rest
      some (.assign key value, rest)
    | _ => none

/-- The statements up to the end, each on lines of its own. Every statement takes a character. -/
def readStatements : Nat → List Char → Option (List Statement)
  | 0, _ => none
  | fuel + 1, cs =>
    match dropFiller false cs with
    | [] => some []
    | cs => do
      let (s, rest) ← readStatement cs
      if endsLine rest then
        let statements ← readStatements fuel rest
        some (s :: statements)
      else none

/-- The statements of a document. A byte order mark at its start does not belong to it. -/
def parse (text : String) : Option (List Statement) :=
  let cs := match text.toList with
    | '\ufeff' :: rest => rest
    | cs => cs
  if charsOk cs then readStatements (cs.length + 1) cs else none

end SsaOpt.Toml
