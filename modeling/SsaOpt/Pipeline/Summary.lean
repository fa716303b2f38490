import SsaOpt.Pipeline.Basic

/-!
# The summary of a run

What a pipeline has done, as text for people. The number of a run and the time that passes take are
not known here; they are filled in by whoever prints the summary.
-/

namespace SsaOpt.Pipeline

/-- The rule above and below the title. -/
def summaryRule : String := "═══════════════════════════════════════"

/-- The line of a pass in the summary. -/
def summaryLine (time : String → String) (s : PassStats) : String :=
  s!" - {s.name}: {s.runs} run(s), {s.modified} modified, {time s.name}\n"

/-- The summary of a pipeline, with a name for the last run and the time that each pass took. -/
def summary (p : Pipeline) (runName : String) (time : String → String) : String :=
  let title := [summaryRule, "        OPTIMIZATION SUMMARY", summaryRule]
  let heading := "\n" ++ String.join (title.map Text.Color.cyan.paintLine)
  let functions := match p.module with
    | some m =>
      let count := m.places.length
      s!"Functions: {count}\n"
    | none => ""
  let stats := p.manager.statistics.mergeSort fun a b => !(b.name < a.name)
  heading ++ s!"Run: {runName}\n" ++ s!"Module: {moduleName p.module} ({p.phase.name})\n" ++
    functions ++ "\n" ++ String.join (stats.map (summaryLine time))

end SsaOpt.Pipeline
