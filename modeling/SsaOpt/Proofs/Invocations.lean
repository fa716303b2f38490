import SsaOpt.Proofs.ManagerSteps

/-!
# Watching a run

Which passes a manager calls, when, and in what state, is not part of what a run leaves behind. But
a pass can keep a record in its world. `Pass.watched` is a pass that does its work and writes down
every call of it on a module (`Invocation`), and `Manager.invocations` are the calls that the passes
of a manager write down in the course of a run. A watched run is the run itself in everything else:
`Manager.run_watched`.
-/

namespace SsaOpt

variable {σ τ : Type}

/-- The same state with another world. -/
def Run.mapWorld (f : σ → τ) (r : Run σ) : Run τ :=
  { r with world := f r.world }

/-- A call of a pass on a module: what the pass is told, and the state that it finds. -/
structure Invocation (σ : Type) where
  pass : Pass σ
  env : PassEnv
  before : Run σ

namespace Invocation

/-- What the pass reports. -/
def outcome (c : Invocation σ) : Outcome := (c.pass.onModule c.env c.before).1

/-- The state that the pass leaves. -/
def after (c : Invocation σ) : Run σ := (c.pass.onModule c.env c.before).2

end Invocation

/-- A world with a record of calls, the first call first. -/
abbrev Watched (σ : Type) := σ × List (Invocation σ)

/-- The pass that writes its calls down. -/
def Pass.watched (p : Pass σ) : Pass (Watched σ) where
  name := p.name
  isAnalysis := p.isAnalysis
  requires world := p.requires world.1
  invalidates := p.invalidates
  registrationErr? := p.registrationErr?
  refusal? := p.refusal?
  onModule env r :=
    let c : Invocation σ := ⟨p, env, r.mapWorld Prod.fst⟩
    (c.outcome, c.after.mapWorld fun world => (world, r.world.2 ++ [c]))
  onFunction env i r :=
    let (out, after) := p.onFunction env i (r.mapWorld Prod.fst)
    (out, after.mapWorld fun world => (world, r.world.2))

namespace Manager

/-- The manager with watched passes, and some calls on record. -/
def watched (mgr : Manager σ) (log : List (Invocation σ)) : Manager (Watched σ) :=
  { mgr with passes := mgr.passes.map Pass.watched, world := (mgr.world, log) }

/-- The calls that a run makes, in order. -/
def invocations (mgr : Manager σ) (l : Listing) : List (Invocation σ) :=
  ((mgr.watched []).run l).2.manager.world.2

/-- A manager at work, with watched passes and some calls on record. -/
def Work.watched (w : Work σ) (log : List (Invocation σ)) : Work (Watched σ) :=
  ⟨w.manager.watched log, w.listing⟩

/-! ## The schedule -/

theorem find?_watched (mgr : Manager σ) (log : List (Invocation σ)) (name : String) :
    (mgr.watched log).find? name = (mgr.find? name).map Pass.watched := by
  rw [find?, watched, List.find?_map]
  rfl

/-- Two folds in step, the states of one being images of those of the other. -/
theorem foldlM_map {α β γ ε : Type} {f : β → α → Except ε β} {g : γ → α → Except ε γ} {h : β → γ}
    (hstep : ∀ b a, g (h b) a = (f b a).map h) (l : List α) (b : β) :
    l.foldlM g (h b) = (l.foldlM f b).map h := by
  induction l generalizing b with
  | nil => rfl
  | cons a l ih =>
    rw [List.foldlM_cons, List.foldlM_cons, hstep]
    cases f b a with
    | error e => rfl
    | ok b' => exact ih b'

theorem schedule_watched (mgr : Manager σ) (log : List (Invocation σ)) (fuel : Nat) :
    ∀ path requiredBy order name,
      (mgr.watched log).schedule fuel path requiredBy (order.map Pass.watched) name =
        (mgr.schedule fuel path requiredBy order name).map (List.map Pass.watched) := by
  induction fuel with
  | zero => exact fun _ _ _ _ => rfl
  | succ fuel ih =>
    intro path requiredBy order name
    rw [schedule, schedule, find?_watched]
    cases mgr.find? name with
    | none => rfl
    | some p =>
      have hany : ((order.map Pass.watched).any fun q => q.name = name) =
          order.any fun q => q.name = name := by
        rw [List.any_map]
        rfl
      have hfold := foldlM_map (fun order r => ih (name :: path) name order r)
        (p.requires mgr.world) order
      simp only [Option.map_some, hany]
      split
      · rfl
      split
      · rfl
      change ((p.requires mgr.world).foldlM _ _ >>= _) = _
      rw [hfold]
      cases (p.requires mgr.world).foldlM (mgr.schedule fuel (name :: path) name) order with
      | error e => rfl
      | ok order' => simp [Except.map, bind, Except.bind]

theorem sortPasses_watched (mgr : Manager σ) (log : List (Invocation σ)) :
    (mgr.watched log).sortPasses = mgr.sortPasses.map (List.map Pass.watched) := by
  have hnames : (mgr.watched log).passes.map Pass.name = mgr.passes.map Pass.name := by
    simp [watched, Pass.watched, Function.comp_def]
  have hlength : (mgr.watched log).passes.length = mgr.passes.length := by simp [watched]
  rw [sortPasses, sortPasses, hnames, hlength]
  exact foldlM_map (fun order name => schedule_watched mgr log _ [] "" order name) _ []

/-! ## Steps -/

theorem record_watched (mgr : Manager σ) (log : List (Invocation σ)) (name : String)
    (modified : Bool) :
    (mgr.watched log).record name modified = (mgr.record name modified).watched log := by
  cases h : mgr.stats.any fun s => s.name = name <;> simp [record, watched, h]

/-- A pass at work, and the call on record. -/
theorem Work.runPass_watched (w : Work σ) (log : List (Invocation σ)) (p : Pass σ)
    (counted : Bool → Bool) :
    (w.watched log).runPass p.watched counted =
      ((w.runPass p counted).1, (w.runPass p counted).2.watched
        (log ++ [⟨p, w.manager.envFor p.name, w.toRun⟩])) := by
  have hcall : p.watched.onModule ((w.watched log).manager.envFor p.watched.name)
      (w.watched log).toRun = ((p.onModule (w.manager.envFor p.name) w.toRun).1,
        (p.onModule (w.manager.envFor p.name) w.toRun).2.mapWorld fun world =>
          (world, log ++ [⟨p, w.manager.envFor p.name, w.toRun⟩])) := rfl
  unfold Work.runPass
  rw [hcall]
  generalize p.onModule (w.manager.envFor p.name) w.toRun = result
  obtain ⟨⟨modified, failure⟩, r⟩ := result
  have hrecord := record_watched (w.update r).manager
    (log ++ [⟨p, w.manager.envFor p.name, w.toRun⟩]) p.name (counted modified)
  rcases failure with _ | e | _
  · exact Prod.ext rfl (congrArg (Work.mk · r.listing) hrecord)
  · exact Prod.ext rfl (congrArg (Work.mk · r.listing) hrecord)
  · rfl

/-- A step of a watched run does what the step does otherwise, and adds to the record. -/
def Shadows (watchedStep : Option Failure × Work (Watched σ)) (log : List (Invocation σ))
    (step : Option Failure × Work σ) : Prop :=
  ∃ new, watchedStep = (step.1, step.2.watched (log ++ new))

theorem Shadows.of_eq {step : Option Failure × Work (Watched σ)} {log : List (Invocation σ)}
    {f : Option Failure} {w : Work σ} (h : step = (f, w.watched log)) : Shadows step log (f, w) :=
  ⟨[], by rw [h, List.append_nil]⟩

/-- The next step starts from the record that the last one leaves. -/
theorem Shadows.append {step : Option Failure × Work (Watched σ)} {log new : List (Invocation σ)}
    {result : Option Failure × Work σ} (h : Shadows step (log ++ new) result) :
    Shadows step log result := by
  obtain ⟨more, h⟩ := h
  exact ⟨new ++ more, by rw [h, List.append_assoc]⟩

theorem shadows_inTurn {α β : Type}
    {step' : Work (Watched σ) → β → Option Failure × Work (Watched σ)}
    {step : Work σ → α → Option Failure × Work σ} {g : α → β}
    (hstep : ∀ x w log, Shadows (step' (w.watched log) (g x)) log (step w x)) (xs : List α) :
    ∀ w log, Shadows (inTurn step' (xs.map g) (w.watched log)) log (inTurn step xs w) := by
  induction xs with
  | nil => exact fun w log => .of_eq rfl
  | cons x xs ih =>
    intro w log
    obtain ⟨new, hx⟩ := hstep x w log
    rw [List.map_cons, inTurn, inTurn, hx]
    rcases step w x with ⟨_ | f, w'⟩
    · exact (ih w' (log ++ new)).append
    · exact ⟨new, rfl⟩

theorem shadows_inTurn_same {α : Type}
    {step' : Work (Watched σ) → α → Option Failure × Work (Watched σ)}
    {step : Work σ → α → Option Failure × Work σ}
    (hstep : ∀ x w log, Shadows (step' (w.watched log) x) log (step w x)) (xs : List α) (w : Work σ)
    (log : List (Invocation σ)) :
    Shadows (inTurn step' xs (w.watched log)) log (inTurn step xs w) := by
  have hturn := shadows_inTurn (g := id) hstep xs w log
  rwa [List.map_id] at hturn

theorem shadows_ensure (fuel : Nat) :
    ∀ name (w : Work σ) log,
      Shadows (ensure fuel (w.watched log) name) log (ensure fuel w name) := by
  induction fuel with
  | zero => exact fun name w log => .of_eq rfl
  | succ fuel ih =>
    intro name w log
    rw [ensure, ensure, show (w.watched log).manager.find? name = _ from find?_watched _ _ _]
    cases w.manager.find? name with
    | none => exact .of_eq rfl
    | some p =>
      dsimp only [Option.map_some]
      rw [show (p.watched.isAnalysis : Bool) = p.isAnalysis from rfl,
        show (w.watched log).manager.cache = w.manager.cache from rfl]
      split
      · exact .of_eq rfl
      obtain ⟨new, hrequired⟩ := shadows_inTurn_same ih (p.requires w.manager.world) w log
      rw [show p.watched.requires (w.watched log).manager.world =
        p.requires w.manager.world from rfl, hrequired]
      rcases inTurn (ensure fuel) (p.requires w.manager.world) w with ⟨_ | f, w'⟩
      · dsimp only
        rw [Work.runPass_watched]
        rcases w'.runPass p fun _ => false with ⟨⟨_, _ | f⟩, w''⟩
        · exact ⟨_, by rw [List.append_assoc]; rfl⟩
        · exact ⟨_, by rw [List.append_assoc]⟩
      · exact ⟨new, rfl⟩

theorem afterPass_watched (p : Pass σ) (before : UInt64) (modified : Bool) (w : Work σ)
    (log : List (Invocation σ)) :
    afterPass p.watched before modified (w.watched log) =
      ((afterPass p before modified w).1, (afterPass p before modified w).2.watched log) := by
  unfold afterPass
  rw [show (w.watched log).manager.checker = w.manager.checker from rfl,
    show (w.watched log).manager.verifyModified = w.manager.verifyModified from rfl,
    show (w.watched log).listing = w.listing from rfl]
  split
  · rcases w.manager.checker.verifyModule (some w.listing) with _ | e | _ <;> rfl
  · split <;> rfl

theorem shadows_attempt (p : Pass σ) (w : Work σ) (log : List (Invocation σ)) :
    Shadows (attempt p.watched (w.watched log)) log (attempt p w) := by
  unfold attempt
  rw [show p.watched.refusal? ((w.watched log).manager.envFor p.watched.name)
    (w.watched log).listing = p.refusal? (w.manager.envFor p.name) w.listing from rfl]
  cases p.refusal? (w.manager.envFor p.name) w.listing with
  | some f => exact .of_eq rfl
  | none =>
    dsimp only
    rw [Work.runPass_watched]
    match w.runPass p id with
    | (⟨_, some f⟩, w') => exact ⟨_, rfl⟩
    | (⟨modified, none⟩, w') =>
      have hmark : ∀ log',
          (if p.watched.isAnalysis then (w'.watched log').markValid p.watched.name
            else w'.watched log') =
          (if p.isAnalysis then w'.markValid p.name else w').watched log' := by
        intro log'
        rw [show p.watched.isAnalysis = p.isAnalysis from rfl]
        split <;> rfl
      dsimp only
      rw [hmark]
      exact ⟨_, afterPass_watched ..⟩

theorem shadows_runPass (p : Pass σ) (w : Work σ) (log : List (Invocation σ)) :
    Shadows (runPass (w.watched log) p.watched) log (runPass w p) := by
  rw [runPass_eq, runPass_eq, show p.watched.isAnalysis = p.isAnalysis from rfl,
    show (w.watched log).manager.cache = w.manager.cache from rfl,
    show p.watched.name = p.name from rfl]
  split
  · exact .of_eq rfl
  have hlength : (w.watched log).manager.passes.length = w.manager.passes.length :=
    List.length_map _
  obtain ⟨new, hrequired⟩ := shadows_inTurn_same (shadows_ensure (w.manager.passes.length + 1))
    (p.requires w.manager.world) w log
  rw [hlength, show p.watched.requires (w.watched log).manager.world =
    p.requires w.manager.world from rfl, hrequired]
  match inTurn (ensure (w.manager.passes.length + 1)) (p.requires w.manager.world) w with
  | (some f, w') => exact ⟨new, rfl⟩
  | (none, w') => exact (shadows_attempt p w' (log ++ new)).append

theorem shadows_runCounted (p : Pass σ) (w : Work σ) (log : List (Invocation σ)) :
    Shadows (runCounted (w.watched log) p.watched) log (runCounted w p) := by
  obtain ⟨new, hpass⟩ := shadows_runPass p w log
  unfold runCounted
  rw [hpass]
  generalize runPass w p = result
  obtain ⟨failure, w'⟩ := result
  rcases failure with _ | e | _
  · exact ⟨new, rfl⟩
  · exact ⟨new, rfl⟩
  · exact ⟨new, rfl⟩

/-- **A watched run** is the run, with its calls on record. -/
theorem run_watched (mgr : Manager σ) (l : Listing) :
    (mgr.watched []).run l =
      ((mgr.run l).1, (mgr.run l).2.watched (mgr.invocations l)) := by
  obtain ⟨new, hrun⟩ : Shadows ((mgr.watched []).run l) [] (mgr.run l) := by
    unfold run
    rw [sortPasses_watched]
    cases mgr.sortPasses with
    | error e => exact .of_eq rfl
    | ok order =>
      exact shadows_inTurn (fun p w log => shadows_runCounted p w log) order
        ⟨{ mgr with runCount := mgr.runCount + 1, cache := {} }, l⟩ []
  have hnew : mgr.invocations l = new := by
    rw [invocations, hrun]
    rfl
  rw [hrun, hnew]
  rfl

end Manager

end SsaOpt
