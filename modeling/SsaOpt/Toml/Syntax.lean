/-!
# The syntax of TOML

A document is a list of statements: headers that open a table, and assignments to keys within the
table that is open. Keys are paths.
-/

namespace SsaOpt.Toml

/-- A key: the parts that are separated by dots. -/
abbrev Key := List String

/-- A scalar value. -/
inductive Scalar where
  | text (s : String)
  | integer (n : Int)
  | truth (b : Bool)
  /-- A floating-point number as it is written. -/
  | real (source : String)
  /-- A date, a time of day or both, as it is written. -/
  | moment (source : String)
deriving DecidableEq

/-- A value as it is written. -/
inductive Expr where
  | scalar (s : Scalar)
  | array (items : List Expr)
  | table (entries : List (Key × Expr))

/-- A statement. -/
inductive Statement where
  /-- Opens a table. -/
  | table (key : Key)
  /-- Opens a new table at the end of an array of tables. -/
  | tableArray (key : Key)
  | assign (key : Key) (value : Expr)

/-- Whether a character may stand in a key without quotes. -/
def isBare (c : Char) : Bool := c.isAlphanum || c = '_' || c = '-'

/-- A character within the quotes of a key. -/
def escapeKeyChar (c : Char) : String :=
  let hex := fun n => String.ofList (Nat.toDigits 16 n)
  match c with
  | '"' => "\\\""
  | '\\' => "\\\\"
  | '\x08' => "\\b"
  | '\t' => "\\t"
  | '\n' => "\\n"
  | '\x0c' => "\\f"
  | '\r' => "\\r"
  | c =>
    if c.toNat < 16 then "\\u000" ++ hex c.toNat
    else if c.toNat < 32 || c.toNat = 127 then "\\u00" ++ hex c.toNat
    else c.toString

/-- A part of a key, in quotes where it needs them. -/
def renderKeyPart (part : String) : String :=
  if part ≠ "" && part.toList.all isBare then part
  else "\"" ++ String.join (part.toList.map escapeKeyChar) ++ "\""

/-- A key as it could be written. -/
def renderKey (key : Key) : String := ".".intercalate (key.map renderKeyPart)

end SsaOpt.Toml
