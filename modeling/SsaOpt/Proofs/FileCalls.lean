import SsaOpt.Pipeline.Files
import SsaOpt.Proofs.CriticalInstrs

/-!
# Calls of a pipeline

What a call on files does: it reads, runs and writes, and stops at the first of these that fails.
`Pipeline.AfterCalls` are the pipelines that any calls make of one, on modules and on files.
Whatever the calls were and however they ended, the setup of the manager is what it was
(`Pipeline.AfterCalls.setup`).
-/

namespace SsaOpt.Pipeline

variable {S : Type} [Disk (StateM S)] {p q : Pipeline} {input output : String} {files files' : S}

/-! ## Reading -/

theorem runFile_of_error {e : Err}
    (hload : (loadModule input : StateM S _).run files = (.error e, files')) :
    (p.runFile input output : StateM S _).run files =
      ({ failure := some (.error e), module := none, pipeline := p.addErr e }, files') := by
  rw [runFile, StateT.run_bind, hload]
  rfl

theorem runFile_of_ok {m : Module}
    (hload : (loadModule input : StateM S _).run files = (.ok m, files')) :
    (p.runFile input output : StateM S _).run files =
      (finish (p.run (some (.ofModule m))) output : StateM S _).run files' := by
  rw [runFile, StateT.run_bind, hload]
  rfl

/-! ## Writing -/

section Finish

variable {done : PipelineRun} {l : Listing} {f : Failure}

theorem finish_of_failure (output : String) (files : S) (hfailure : done.failure = some f) :
    (finish done output : StateM S _).run files = (done, files) := by
  rw [finish, hfailure]
  rfl

theorem finish_of_empty (done : PipelineRun) (files : S) :
    (finish done "" : StateM S _).run files = (done, files) := by
  unfold finish
  split <;> rfl

theorem finish_of_none (hfailure : done.failure = none) (hmodule : done.module = none)
    (output : String) (files : S) :
    (finish done output : StateM S _).run files = (done, files) := by
  rw [finish, hfailure, hmodule]
  rfl

theorem finish_of_saved (hfailure : done.failure = none) (hmodule : done.module = some l)
    (houtput : output ≠ "")
    (hsave : (saveModule output l : StateM S _).run files = (none, files')) :
    (finish done output : StateM S _).run files =
      ({ done with pipeline := { done.pipeline with phase := .written } }, files') := by
  rw [finish, hfailure, hmodule]
  dsimp only
  rw [if_neg houtput, StateT.run_bind, hsave]
  rfl

theorem finish_of_unsaved (hfailure : done.failure = none) (hmodule : done.module = some l)
    (houtput : output ≠ "")
    (hsave : (saveModule output l : StateM S _).run files = (some f, files')) :
    (finish done output : StateM S _).run files =
      ({ done with failure := some f, pipeline := done.pipeline.addFailure f }, files') := by
  rw [finish, hfailure, hmodule]
  dsimp only
  rw [if_neg houtput, StateT.run_bind, hsave]
  rfl

end Finish

/-! ## The setup -/

theorem addFailure_setup (p : Pipeline) (f : Failure) :
    Manager.SameSetup p.manager (p.addFailure f).manager := by
  cases f <;> exact ⟨rfl, rfl, rfl⟩

theorem finish_setup (done : PipelineRun) (output : String) (files : S) :
    Manager.SameSetup done.pipeline.manager
      ((finish done output : StateM S _).run files).1.pipeline.manager := by
  cases hfailure : done.failure with
  | some f =>
    rw [finish_of_failure output files hfailure]
    exact .refl _
  | none =>
    cases hmodule : done.module with
    | none =>
      rw [finish_of_none hfailure hmodule]
      exact .refl _
    | some l =>
      by_cases houtput : output = ""
      · rw [houtput, finish_of_empty]
        exact .refl _
      · rcases hsave : (saveModule output l : StateM S _).run files with ⟨_ | f, files'⟩
        · rw [finish_of_saved hfailure hmodule houtput hsave]
          exact ⟨rfl, rfl, rfl⟩
        · rw [finish_of_unsaved hfailure hmodule houtput hsave]
          exact addFailure_setup _ f

theorem runFile_setup (p : Pipeline) (input output : String) (files : S) :
    Manager.SameSetup p.manager
      ((p.runFile input output : StateM S _).run files).1.pipeline.manager := by
  rcases hload : (loadModule input : StateM S _).run files with ⟨e | m, files'⟩
  · rw [runFile_of_error hload]
    exact addFailure_setup p (.error e)
  · rw [runFile_of_ok hload]
    exact (run_setup p _).trans (finish_setup _ output files')

/-! ## Histories -/

/-- The pipelines that some calls make of one. The files may be in any state at each call. -/
inductive AfterCalls (S : Type) [Disk (StateM S)] (p : Pipeline) : Pipeline → Prop
  | none : AfterCalls S p p
  | run {q : Pipeline} (h : AfterCalls S p q) (m : Option Listing) :
    AfterCalls S p (q.run m).pipeline
  | runFile {q : Pipeline} (h : AfterCalls S p q) (input output : String) (files : S) :
    AfterCalls S p ((q.runFile input output : StateM S _).run files).1.pipeline

/-- **No call** changes the setup of the manager. -/
theorem AfterCalls.setup (h : AfterCalls S p q) : Manager.SameSetup p.manager q.manager := by
  induction h with
  | none => exact .refl _
  | run _ m ih => exact ih.trans (run_setup _ m)
  | runFile _ input output files ih => exact ih.trans (runFile_setup _ input output files)

end SsaOpt.Pipeline
