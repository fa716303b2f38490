import SsaOpt.Text.Directive

/-!
# Coloured text

Terminal styles as escape sequences. Each way of writing puts the sequence of a style in front of a
text and the reset sequence after it. `stripStyles` removes all sequences again.
-/

namespace SsaOpt.Text

/-- A terminal style. -/
inductive Color where
  /-- No style at all. -/
  | plain
  | reset
  | bold
  | red
  | green
  | yellow
  | blue
  | purple
  | cyan
  | white
  | grey
  | boldRed
  | boldGreen
  | boldYellow
  | boldPurple
  | boldCyan
  | orange
  | lightOrange
deriving DecidableEq, Repr

namespace Color

/-- The sequence that starts a style. -/
def code : Color → String
  | plain => ""
  | reset => "\x1b[0m"
  | bold => "\x1b[1m"
  | red => "\x1b[31m"
  | green => "\x1b[32m"
  | yellow => "\x1b[33m"
  | blue => "\x1b[34m"
  | purple => "\x1b[35m"
  | cyan => "\x1b[36m"
  | white => "\x1b[37m"
  | grey => "\x1b[90m"
  | boldRed => "\x1b[1;31m"
  | boldGreen => "\x1b[1;32m"
  | boldYellow => "\x1b[1;33m"
  | boldPurple => "\x1b[1;35m"
  | boldCyan => "\x1b[1;36m"
  | orange => "\x1b[38;5;208m"
  | lightOrange => "\x1b[38;5;215m"

/-- The styles by their names. -/
def byName : List (String × Color) :=
  [("RESET", reset), ("BOLD", bold), ("RED", red), ("GREEN", green), ("YELLOW", yellow),
    ("BLUE", blue), ("PURPLE", purple), ("CYAN", cyan), ("WHITE", white), ("GREY", grey),
    ("BOLD_RED", boldRed), ("BOLD_GREEN", boldGreen), ("BOLD_YELLOW", boldYellow),
    ("BOLD_PURPLE", boldPurple), ("BOLD_CYAN", boldCyan), ("ORANGE", orange),
    ("LIGHT_ORANGE", lightOrange)]

/-- A text in a style. -/
def paint (c : Color) (s : String) : String := c.code ++ s ++ reset.code

/-- A line in a style; the line ends before the style does. -/
def paintLine (c : Color) (s : String) : String := c.paint (s ++ "\n")

/-- A format in a style, the style being part of the format: what is said about operands left over
comes after the reset sequence. -/
def fillStyled (c : Color) (format : String) (args : List Operand) : String :=
  fill (c.paint format) args

/-- A filled format in a style. -/
def paintFilled (c : Color) (format : String) (args : List Operand) : String :=
  c.paint (fill format args)

end Color

/-- Removes escape sequences from characters; `inside` says that a sequence has started. A sequence
ends with a letter. -/
def stripChars : Bool → List Char → List Char
  | _, [] => []
  | _, '\x1b' :: '[' :: cs => stripChars true cs
  | true, c :: cs => stripChars (!c.isAlpha) cs
  | false, c :: cs => c :: stripChars false cs

/-- Removes escape sequences from a text. -/
def stripStyles (s : String) : String := String.ofList (stripChars false s.toList)

end SsaOpt.Text
