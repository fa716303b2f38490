import SsaOpt.Diagnostic.Basic
import SsaOpt.Text.Color

/-!
# The text of diagnostics

Diagnostics are shown in colour: a headline with severity, code and message, then the pass, the
labels, the notes and the help. A bag ends with a summary line.
-/

namespace SsaOpt

open Text

/-- The colour of a headline. -/
def Severity.headColor : Severity → Color
  | error => .boldRed
  | warning => .boldYellow
  | info => .boldCyan
  | hint => .boldPurple
  | unlisted => .plain

/-- The colour of a label's message. -/
def Severity.labelColor : Severity → Color
  | error => .red
  | warning => .yellow
  | info => .blue
  | hint => .purple
  | unlisted => .red

/-- A label as text. -/
def Label.render (severity : Severity) (l : Label) : String :=
  let isContext := l.style = .secondary
  let arrow := if isContext then "..." else "-->"
  let color := if isContext then Color.grey else severity.labelColor
  let message := if l.message = "" then "" else color.paint (" " ++ l.message)
  Color.grey.paint s!"  {arrow} " ++ l.location.render ++ message ++ "\n"

namespace Diagnostic

/-- The headline. -/
def renderHead (d : Diagnostic) : String :=
  let color := d.severity.headColor
  let code := if d.code = "" then "" else s!"[{d.code}]"
  color.paint d.severity.name ++ code ++ ": " ++ color.paintLine d.message

/-- A diagnostic as text, with an empty line after it. -/
def render (d : Diagnostic) : String :=
  let pass := if d.pass = "" then "" else Color.grey.paint "  in pass " ++ d.pass ++ "\n"
  let notes := d.notes.map fun n => Color.cyan.paint "  = note: " ++ n ++ "\n"
  let help := if d.help = "" then "" else Color.green.paint "  = help: " ++ d.help ++ "\n"
  d.renderHead ++ pass ++ String.join (d.labels.map (Label.render d.severity)) ++
    String.join notes ++ help ++ "\n"

end Diagnostic

namespace Bag

/-- The summary line: how many errors and warnings there are, if there are any. -/
def renderSummary (bag : Bag) : String :=
  let errors := bag.errorCount
  let warnings := bag.warningCount
  if 0 < errors then
    let more := if 0 < warnings then Color.red.paint s!" and {warnings} warning(s)" else ""
    Color.red.paint s!"\nOptimization failed with {errors} error(s)" ++ more ++ "\n"
  else if 0 < warnings then
    Color.orange.paint s!"\nOptimization succeeded with {warnings} warning(s)\n"
  else ""

/-- All diagnostics as text, and the summary. -/
def render (bag : Bag) : String :=
  String.join (bag.map Diagnostic.render) ++ bag.renderSummary

end Bag

end SsaOpt
