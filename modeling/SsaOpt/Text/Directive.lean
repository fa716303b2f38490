import SsaOpt.Text.Quoted

/-!
# Format directives

Texts with directives: a percent sign and a letter stand for the next operand, shown as text (`%s`),
as a number (`%d`), between quotes (`%q`) or in its natural form (`%v`); two percent signs stand for
one. An operand that is missing, left over or of the wrong sort is reported in the text itself.
-/

namespace SsaOpt.Text

/-- An operand of a directive. -/
inductive Operand where
  | text (s : String)
  | number (n : Int)
deriving DecidableEq, Repr

namespace Operand

/-- The natural form of an operand. -/
def natural : Operand → String
  | text s => s
  | number n => toString n

/-- The sort of an operand. -/
def sort : Operand → String
  | text _ => "string"
  | number _ => "int64"

/-- An operand with its sort. -/
def describe (a : Operand) : String := s!"{a.sort}={a.natural}"

/-- The character of a number; a number that is no character stands for the replacement
character. -/
def charOf (n : Int) : Char :=
  if h : 0 ≤ n ∧ Nat.isValidChar n.toNat then Char.ofNatAux n.toNat h.2 else '�'

/-- An operand as a directive shows it. -/
def render (verb : Char) : Operand → String
  | text s =>
    if verb = 's' ∨ verb = 'v' then s
    else if verb = 'q' then quote s
    else s!"%!{verb}({describe (text s)})"
  | number n =>
    if verb = 'd' ∨ verb = 'v' then toString n
    else if verb = 'q' then quoteChar (charOf n)
    else s!"%!{verb}({describe (number n)})"

end Operand

/-- What is said about operands that no directive took. -/
def leftOver : List Operand → String
  | [] => ""
  | args => "%!(EXTRA " ++ ", ".intercalate (args.map Operand.describe) ++ ")"

/-- Fills the directives of a text, given as characters. -/
def fillChars : List Char → List Operand → String
  | [], args => leftOver args
  | ['%'], args => "%!(NOVERB)" ++ leftOver args
  | '%' :: '%' :: cs, args => "%" ++ fillChars cs args
  | '%' :: verb :: cs, [] => s!"%!{verb}(MISSING)" ++ fillChars cs []
  | '%' :: verb :: cs, a :: args => a.render verb ++ fillChars cs args
  | c :: cs, args => c.toString ++ fillChars cs args

/-- Fills the directives of a text with operands. -/
def fill (format : String) (args : List Operand) : String := fillChars format.toList args

/-- Operands next to each other, with a space between two neighbours that are both numbers. -/
def adjoin : List Operand → String
  | [] => ""
  | [a] => a.natural
  | .number n :: .number m :: rest => s!"{n} " ++ adjoin (.number m :: rest)
  | a :: b :: rest => a.natural ++ adjoin (b :: rest)

/-- Operands on a line, with spaces between them. -/
def line (args : List Operand) : String := " ".intercalate (args.map Operand.natural) ++ "\n"

end SsaOpt.Text
