import SsaOpt.Proofs.Coherence
import SsaOpt.Proofs.History

/-!
# What a call on files reports

A call on files reads a module, runs the passes over it and writes what comes of it. Once the module
has been read, the call reports its own outcome and nothing else (`Pipeline.ReportsOutcome`): one
error if it failed and none if not, the phase that it came to, and a file that holds the module if
it was written. A call that cannot read its module only adds its error to what the call before left
behind, so it reports its own outcome exactly if there was no error then, and no module that had
come through all passes: `Pipeline.runFile_reportsOutcome_iff`.
-/

namespace SsaOpt

/-! ## Files -/

namespace FileTree

variable {t : FileTree} {path : String} {bytes : List UInt8}

theorem entry?_put_self {place : List String} (h : place ≠ []) (entry : Entry) :
    FileTree.entry? (t.put place entry) place = some entry := by
  unfold FileTree.entry?
  simp [put, h]

theorem entry?_put_of_ne {place other : List String} (h : other ≠ place) (entry : Entry) :
    FileTree.entry? (t.put place entry) other = t.entry? other := by
  have hlookup : (t.entries.filter fun e => e.1 ≠ place).lookup other = t.entries.lookup other :=
    lookup_filter (q := fun k => k ≠ place) (by simpa using h)
  unfold FileTree.entry?
  simp only [put, List.lookup_cons, beq_eq_false_iff_ne.2 h, hlookup]

/-- A file that is in the place of no directory is on the way to no place. -/
theorem foldlM_step_put {place : List String} (hplace : t.entry? place ≠ some .directory)
    (entry : Entry) (names : List String) {start goal : List String}
    (h : names.foldlM t.step start = .ok goal) :
    names.foldlM (t.put place entry).step start = .ok goal := by
  induction names generalizing start with
  | nil => exact h
  | cons name names ih =>
    obtain ⟨next, hstep, hrest⟩ := exists_of_bind_eq_ok h
    have hstart : start ≠ place := by
      rintro rfl
      unfold step at hstep
      split at hstep
      · cases hstep
      · cases hstep
      · next hdirectory => exact hplace hdirectory
    have hstep' : (t.put place entry).step start name = .ok next := by
      rw [step, entry?_put_of_ne hstart]
      exact hstep
    rw [List.foldlM_cons, hstep']
    exact ih hrest

/-- **Reading back**: a file holds what has been written to it. -/
theorem read_of_write {t' : FileTree} (h : t.write path bytes = (none, t')) :
    t'.read path = .ok bytes := by
  unfold write at h
  dsimp only at h
  split at h
  · cases h
  next place hlocate =>
  split at h
  · cases h
  next hplace =>
  obtain ⟨htrimmed, hfile⟩ : withoutSlashes path = path ∧ t.entry? place ≠ some .directory := by
    simpa using hplace
  obtain rfl : t.put place (.file bytes) = t' := (Prod.mk.inj h).2
  have hroot : place ≠ [] := by
    rintro rfl
    exact hfile rfl
  have hlocate' : (t.put place (.file bytes)).locate path = .ok place := by
    rw [htrimmed] at hlocate
    unfold locate at hlocate ⊢
    split at hlocate
    · cases hlocate
    next hpath =>
    rw [if_neg hpath]
    exact foldlM_step_put hfile _ _ hlocate
  rw [read, hlocate']
  dsimp only
  rw [entry?_put_self hroot]

theorem eq_of_write_failed {e : FileError} {t' : FileTree}
    (h : t.write path bytes = (some e, t')) : t' = t := by
  unfold write at h
  dsimp only at h
  split at h
  · exact (Prod.mk.inj h).2.symm
  · split at h
    · exact (Prod.mk.inj h).2.symm
    · cases h

theorem run_write (t : FileTree) (path : String) (bytes : List UInt8) :
    (Disk.write path bytes : StateM FileTree _).run t = t.write path bytes := by
  simp only [StateT.run, Disk.write]

end FileTree

/-- Reading a module changes no file. -/
theorem loadModule_run (input : String) (files : FileTree) :
    ((loadModule input : StateM FileTree _).run files).2 = files := by
  have hread : (Disk.read input : StateM FileTree _).run files = (files.read input, files) := rfl
  rw [loadModule, StateT.run_bind, hread]
  cases files.read input with
  | error e => rfl
  | ok bytes =>
    dsimp only [bind]
    cases Module.decode bytes <;> rfl

/-- What comes of writing a module: a failure that leaves the files as they are, or a file that
holds the module. -/
theorem saveModule_run (output : String) (m : Module) (files : FileTree) :
    (∃ e, (saveModule output (.ofModule m) : StateM FileTree _).run files =
        (some (.error e), files)) ∨
      ∃ bytes files', m.encode = .ok bytes ∧ files'.read output = .ok bytes ∧
        (saveModule output (.ofModule m) : StateM FileTree _).run files = (none, files') := by
  have hencode : (Listing.ofModule m).encode =
      m.encode.mapError fun e => .error (.plain e.message) := by
    rw [Listing.encode, Listing.front_ofModule, Listing.isComplete_ofModule]
    cases m.encode <;> rfl
  unfold saveModule
  rw [hencode]
  cases m.encode with
  | error e => exact Or.inl ⟨_, rfl⟩
  | ok bytes =>
    dsimp only [Except.mapError]
    rw [StateT.run_bind, FileTree.run_write]
    rcases h : files.write output bytes with ⟨_ | e, files'⟩
    · exact Or.inr ⟨bytes, files', rfl, FileTree.read_of_write h, rfl⟩
    · obtain rfl := FileTree.eq_of_write_failed h
      exact Or.inl ⟨_, rfl⟩

/-! ## Passes report no errors -/

section Reports

variable {σ : Type}

theorem Diagnostic.severity_withPrimary (d : Diagnostic) (location : Location) (message : String) :
    (d.withPrimary location message).severity = d.severity := by
  unfold withPrimary
  split <;> rfl

theorem Diagnostic.severity_ofErr (e : Err) : (Diagnostic.ofErr e).severity = .error := by
  unfold ofErr
  split
  · rfl
  · dsimp only
    split
    · rfl
    · exact severity_withPrimary ..

theorem Bag.errorCount_addErr (e : Err) (bag : Bag) :
    (bag.addErr e).errorCount = bag.errorCount + 1 := by
  simp [Bag.addErr, Bag.errorCount, Diagnostic.severity_ofErr]

namespace Run

variable {r : Run σ} {fn : Function}

theorem flowGraph_bag : (r.flowGraph fn).2.bag = r.bag := by
  unfold flowGraph
  split <;> rfl

theorem domTree_bag : (r.domTree fn).2.bag = r.bag := by
  unfold domTree
  split
  · rfl
  · exact flowGraph_bag

theorem loopInfo_bag : (r.loopInfo fn).2.bag = r.bag := by
  unfold loopInfo
  split
  · rfl
  · exact domTree_bag.trans flowGraph_bag

theorem callGraph?_bag {g : CallGraph} {r' : Run σ} (h : r.callGraph? = some (g, r')) :
    r'.bag = r.bag := by
  unfold callGraph? at h
  split at h
  · obtain ⟨-, rfl⟩ := Prod.mk.inj (Option.some.inj h)
    rfl
  · obtain ⟨m, -, heq⟩ := Option.map_eq_some_iff.1 h
    obtain ⟨-, rfl⟩ := Prod.mk.inj heq
    rfl

/-- A warning is no error. -/
theorem errorCount_warn (env : PassEnv) (code function message : String) (r : Run σ) :
    (r.warn env code function message).bag.errorCount = r.bag.errorCount := by
  simp [warn, Bag.errorCount, Diagnostic.severity_withPrimary, Diagnostic.warning]

end Run

theorem Analysis.onModule_bag (a : Analysis) (r : Run σ) : (a.onModule r).2.bag = r.bag := by
  have hfunction : ∀ k (s : Run σ), (a.onFunction k s).2.bag = s.bag := by
    intro k s
    unfold onFunction
    split
    · rfl
    · rfl
    · exact Run.flowGraph_bag
    · exact Run.domTree_bag
    · exact Run.loopInfo_bag
  have heach : ∀ r' : Run σ, (r'.allFunctions a.onFunction).2.bag = r'.bag := fun r' =>
    Run.eachFunction_preserves (P := fun s => s.bag = r'.bag)
      (fun k s hs => (hfunction k s).trans hs) _ _ r' rfl
  cases a with
  | calls =>
    unfold onModule
    dsimp only
    split
    · next r' hcalls => exact (Run.callGraph?_bag hcalls).trans rfl
    · rfl
  | _ => exact heach _

theorem Transform.onFunction_errorCount (t : Transform) (env : PassEnv) (k : Nat) (r : Run σ) :
    (t.onFunction env k r).2.bag.errorCount = r.bag.errorCount := by
  unfold onFunction
  cases r.listing.function? k with
  | none => rfl
  | some fn =>
    cases t with
    | constFold => rfl
    | deadCode n =>
      dsimp only
      unfold cleanFunction
      split
      · rfl
      · dsimp only
        split
        · exact Run.errorCount_warn ..
        · rfl
    | inline p =>
      dsimp only
      unfold inlineFunction
      cases hcalls : r.callGraph? with
      | none => rfl
      | some x =>
        have hwarnings : ∀ (f : Inline.Warning → String) (ws : List Inline.Warning) (s : Run σ),
            (ws.foldl (fun s w => s.warn env "W0003" fn.name (f w)) s).bag.errorCount =
              s.bag.errorCount := by
          intro f ws
          induction ws with
          | nil => exact fun _ => rfl
          | cons w ws ih => exact fun s => (ih _).trans (Run.errorCount_warn ..)
        exact (hwarnings ..).trans
          (congrArg Bag.errorCount (Run.domTree_bag.trans (Run.callGraph?_bag hcalls)))

/-- **The built-in passes** report no errors. -/
theorem Pass.IsBuiltin.errorCount {p : Pass σ} (hp : p.IsBuiltin) (env : PassEnv) (r : Run σ) :
    (p.onModule env r).2.bag.errorCount = r.bag.errorCount := by
  rcases hp with ⟨a, rfl⟩ | ⟨t, rfl⟩
  · exact congrArg Bag.errorCount (a.onModule_bag r)
  · exact Run.eachFunction_preserves (P := fun s => s.bag.errorCount = r.bag.errorCount)
      (fun k s hs => (t.onFunction_errorCount env k s).trans hs) _ _ r rfl

end Reports

/-! ## Runs -/

namespace Pipeline

variable {p : Pipeline} {m : Module}

/-- A run that went well: all passes have run, and there is no error to report. -/
structure Succeeds (done : PipelineRun) (m' : Module) : Prop where
  failure_eq : done.failure = none
  module_eq : done.module = some (.ofModule m')
  phase_eq : done.pipeline.phase = .optimized
  errorCount_eq : done.pipeline.bag.errorCount = 0

/-- A run that ended early with one error to report. -/
structure EndsEarly (done : PipelineRun) (e : Err) : Prop where
  failure_eq : done.failure = some (.error e)
  phase_eq : done.pipeline.phase = .loaded ∨ done.pipeline.phase = .verified
  errorCount_eq : done.pipeline.bag.errorCount = 1

theorem optimize_ends (hbuiltin : ∀ pass ∈ p.manager.passes, pass.IsBuiltin)
    (hchecker : p.manager.checker = .standard) {order : List (Pass Unit)}
    (hsort : p.manager.sortPasses = .ok order) (hbag : p.bag = []) (hphase : p.phase = .verified)
    (hm : moduleErr? (some m) = none) :
    (∃ m', Succeeds (p.optimize (.ofModule m)) m') ∨
      ∃ e, EndsEarly (p.optimize (.ofModule m)) e := by
  have hends := Manager.ends_run hbuiltin hchecker hm
  have hcount : (p.manager.run (.ofModule m)).2.manager.bag.errorCount = 0 :=
    Manager.run_preserves (P := fun r => r.bag.errorCount = 0) hsort (fun _ _ h => h)
      (fun pass hpass r hr => ((hbuiltin pass hpass).errorCount _ r).trans hr)
      (congrArg Bag.errorCount hbag)
  unfold optimize
  generalize p.manager.run (.ofModule m) = result at hends hcount ⊢
  obtain ⟨f, w⟩ := result
  cases f with
  | none =>
    obtain ⟨m', hw, -⟩ := hends
    exact Or.inl ⟨m', rfl, congrArg some hw.listing_eq, rfl, hcount⟩
  | some f =>
    obtain ⟨e, rfl⟩ : ∃ e, f = .error e := by
      rcases hends with ⟨e, he, -⟩ | hbroken
      · exact ⟨e, he⟩
      · obtain ⟨_, _, _, _, -, -, -, -, -, -, -, he⟩ := hbroken.made
        exact ⟨_, he⟩
    have hone := (Bag.errorCount_addErr e w.manager.bag).trans (congrArg (· + 1) hcount)
    exact Or.inr ⟨e, rfl, Or.inr hphase, hone⟩

/-- **A run over a module** goes well, or ends early with one error. -/
theorem run_ends (hbuiltin : ∀ pass ∈ p.manager.passes, pass.IsBuiltin)
    (hchecker : p.manager.checker = .standard) {order : List (Pass Unit)}
    (hsort : p.manager.sortPasses = .ok order) (m : Module) :
    (∃ m', Succeeds (p.run (some (.ofModule m))) m') ∨
      ∃ e, EndsEarly (p.run (some (.ofModule m))) e := by
  have hverify : (p.load (some (.ofModule m))).manager.checker.verifyModule (some (.ofModule m)) =
      (moduleErr? (some m)).map .error := by
    change p.manager.checker.verifyModule _ = _
    rw [hchecker]
    simp [Checker.standard, listingFailure?]
  unfold run
  dsimp only
  rw [hverify]
  cases hm : moduleErr? (some m) with
  | some e => exact Or.inr ⟨_, rfl, Or.inl rfl, Bag.errorCount_addErr _ []⟩
  | none =>
    have hloaded : (p.load (some (.ofModule m))).manager.sortPasses = .ok order :=
      (Manager.sortPasses_congr (by rfl) (by rfl)).trans hsort
    rcases optimize_ends (p := { p.load (some (.ofModule m)) with phase := .verified }) hbuiltin
      hchecker hloaded rfl rfl hm with ⟨m', hdone⟩ | ⟨e, hdone⟩
    · exact Or.inl ⟨m', hdone.failure_eq, hdone.module_eq, hdone.phase_eq, hdone.errorCount_eq⟩
    · exact Or.inr ⟨e, hdone.failure_eq, hdone.phase_eq, hdone.errorCount_eq⟩

/-! ## Calls on files -/

/-- The module that a call reads. -/
def loaded (input : String) (files : FileTree) : Except Err Module :=
  ((loadModule input : StateM FileTree _).run files).1

theorem loaded_of_read {input : String} {files : FileTree} {bytes : List UInt8}
    (hread : files.read input = .ok bytes) (hdecode : Module.decode bytes = .ok m) :
    loaded input files = .ok m := by
  have hrun : (Disk.read input : StateM FileTree _).run files = (.ok bytes, files) :=
    Prod.ext hread rfl
  rw [loaded, loadModule, StateT.run_bind, hrun]
  dsimp only [bind]
  rw [hdecode]
  rfl

/-- The call has read a module, and all passes have run over it. -/
def PassesSucceed (p : Pipeline) (input : String) (files : FileTree) : Prop :=
  ∃ m, loaded input files = .ok m ∧ (p.run (some (.ofModule m))).failure = none

/-- **A call on files reports its own outcome**, `done` with `files'` as the files after it: one
error if it failed and none if not, whether the module has been written or has come through all
passes, and no file that is changed before that; a file that has been written holds the module. -/
structure ReportsOutcome (p : Pipeline) (input output : String) (files : FileTree)
    (done : PipelineRun) (files' : FileTree) : Prop where
  errorCount_eq : done.pipeline.bag.errorCount = if done.failure.isSome then 1 else 0
  written_iff : done.pipeline.phase = .written ↔ done.failure = none ∧ output ≠ ""
  optimized_iff : done.pipeline.phase = .optimized ↔
    done.failure = none ∧ output = "" ∨ done.failure ≠ none ∧ p.PassesSucceed input files
  unchanged : ¬ p.PassesSucceed input files → files' = files
  holds : done.failure = none → output ≠ "" → ∃ m bytes,
    done.module = some (.ofModule m) ∧ m.encode = .ok bytes ∧ files'.read output = .ok bytes

theorem finish_reportsOutcome {input output : String} {files files' : FileTree}
    {done : PipelineRun} (hloaded : loaded input files = .ok m)
    (hends : (∃ m', Succeeds (p.run (some (.ofModule m))) m') ∨
      ∃ e, EndsEarly (p.run (some (.ofModule m))) e)
    (hfinish : (finish (p.run (some (.ofModule m))) output : StateM FileTree _).run files =
      (done, files')) :
    ReportsOutcome p input output files done files' ∧
      (done.failure = none ∨ ∃ e, done.failure = some (.error e)) := by
  have hpasses : p.PassesSucceed input files ↔ (p.run (some (.ofModule m))).failure = none :=
    ⟨fun ⟨m', hm', h⟩ => Except.ok.inj (hloaded.symm.trans hm') ▸ h, fun h => ⟨m, hloaded, h⟩⟩
  rcases hends with ⟨m', hrun⟩ | ⟨e, hrun⟩
  · by_cases houtput : output = ""
    · -- nothing is written
      subst houtput
      rw [finish_of_empty] at hfinish
      obtain ⟨rfl, rfl⟩ := Prod.mk.inj hfinish
      refine ⟨⟨?_, ?_, ?_, fun _ => rfl, fun _ h => absurd rfl h⟩, Or.inl hrun.failure_eq⟩
      · simp [hrun.failure_eq, hrun.errorCount_eq]
      · simp [hrun.phase_eq]
      · simp [hrun.phase_eq, hrun.failure_eq]
    · rcases saveModule_run output m' files with ⟨e, hsave⟩ | ⟨bytes, files₁, hencode, hread, hsave⟩
      · -- the module cannot be written
        rw [finish_of_unsaved hrun.failure_eq hrun.module_eq houtput hsave] at hfinish
        obtain ⟨rfl, rfl⟩ := Prod.mk.inj hfinish
        refine ⟨⟨?_, ?_, ?_, fun _ => rfl, fun h => by simp at h⟩, Or.inr ⟨e, rfl⟩⟩
        · exact (Bag.errorCount_addErr e _).trans (congrArg (· + 1) hrun.errorCount_eq)
        · simp [addFailure, addErr, hrun.phase_eq]
        · simp [addFailure, addErr, hrun.phase_eq, hpasses, hrun.failure_eq]
      · rw [finish_of_saved hrun.failure_eq hrun.module_eq houtput hsave] at hfinish
        obtain ⟨rfl, rfl⟩ := Prod.mk.inj hfinish
        refine ⟨⟨?_, ?_, ?_, fun h => absurd (hpasses.2 hrun.failure_eq) h,
          fun _ _ => ⟨m', bytes, hrun.module_eq, hencode, hread⟩⟩, Or.inl hrun.failure_eq⟩
        · exact hrun.errorCount_eq.trans (by simp [hrun.failure_eq])
        · simp [hrun.failure_eq, houtput]
        · simp [hrun.failure_eq, houtput]
  · -- the run has ended early
    rw [finish_of_failure output files hrun.failure_eq] at hfinish
    obtain ⟨rfl, rfl⟩ := Prod.mk.inj hfinish
    refine ⟨⟨?_, ?_, ?_, fun _ => rfl, fun h => by simp [hrun.failure_eq] at h⟩,
      Or.inr ⟨e, hrun.failure_eq⟩⟩
    · simp [hrun.failure_eq, hrun.errorCount_eq]
    · rcases hrun.phase_eq with h | h <;> simp [h, hrun.failure_eq]
    · rcases hrun.phase_eq with h | h <;> simp [h, hrun.failure_eq, hpasses]

theorem runFile_of_loaded {input output : String} {files : FileTree}
    (hloaded : loaded input files = .ok m) :
    (p.runFile input output : StateM FileTree _).run files =
      (finish (p.run (some (.ofModule m))) output : StateM FileTree _).run files :=
  runFile_of_ok (Prod.ext hloaded (loadModule_run input files))

/-- **What a call on files reports**, after any earlier calls. It never faults. If it cannot read
its module, it adds its error to what is there and changes nothing else. So it reports its own
outcome exactly if it has read a module, or if neither an error nor a module that has come through
all passes is left from before. -/
theorem runFile_reportsOutcome_iff {config : Option Config} {debug : Bool} {p₀ : Pipeline}
    (hp₀ : Pipeline.new config debug = .ok p₀) (hp : AfterCalls FileTree p₀ p)
    {input output : String} {files files' : FileTree} {done : PipelineRun}
    (hcall : (p.runFile input output : StateM FileTree _).run files = (done, files')) :
    (done.failure = none ∨ ∃ e, done.failure = some (.error e)) ∧
      (∀ e, loaded input files = .error e → files' = files ∧
        done = { failure := some (.error e), module := none, pipeline := p.addErr e }) ∧
      (ReportsOutcome p input output files done files' ↔
        (∃ m, loaded input files = .ok m) ∨
          p.bag.errorCount = 0 ∧ p.phase ≠ .optimized ∧ p.phase ≠ .written) := by
  cases hloaded : loaded input files with
  | ok m =>
    have hsetup := hp.setup
    have hends := run_ends (p := p) (fun q hq => new_isBuiltin hp₀ q (hsetup.passes_eq ▸ hq))
      (hsetup.checker_eq.trans (new_eq_ok hp₀).1)
      ((Manager.sortPasses_congr hsetup.passes_eq rfl).trans (new_sortPasses hp₀)) m
    rw [runFile_of_loaded hloaded] at hcall
    obtain ⟨hreports, hfailure⟩ := finish_reportsOutcome hloaded hends hcall
    refine ⟨hfailure, fun e he => ?_, fun _ => Or.inl ⟨m, rfl⟩, fun _ => hreports⟩
    cases he
  | error e =>
    rw [runFile_of_error (Prod.ext hloaded (loadModule_run input files))] at hcall
    obtain ⟨rfl, rfl⟩ := Prod.mk.inj hcall
    have hpasses : ¬ p.PassesSucceed input files := fun ⟨m, hm, _⟩ => by
      rw [hloaded] at hm
      cases hm
    have hcount : (p.addErr e).bag.errorCount = p.bag.errorCount + 1 := Bag.errorCount_addErr e _
    refine ⟨Or.inr ⟨e, rfl⟩, fun e' he => ⟨rfl, by rw [Except.error.inj he]⟩, fun h => ?_, ?_⟩
    · refine Or.inr ⟨?_, fun hphase => ?_, fun hphase => ?_⟩
      · have := h.errorCount_eq
        simpa [hcount] using this
      · exact hpasses (by simpa using h.optimized_iff.1 hphase)
      · simpa using (h.written_iff.1 hphase).1
    · rintro (⟨m, hm⟩ | ⟨hbag, hoptimized, hwritten⟩)
      · cases hm
      · refine ⟨?_, ?_, ?_, fun _ => rfl, fun h => by simp at h⟩
        · simp [hcount, hbag]
        · simpa [addErr] using hwritten
        · simpa [addErr, hpasses] using hoptimized

end Pipeline

/-- A module in a file named `a`. -/
def FileTree.deadProduct : FileTree where
  entries := [(["a"], .file (Module.deadProduct.encode.toOption.getD []))]

/-- The module after one round: nothing reads its sum any more. -/
def Module.unreadSum : Module where
  name := "m"
  functions :=
    [{ name := "f"
       blocks :=
         [{ id := 1
            instrs := [.const ⟨1, some .bool, "true"⟩, .binary ⟨2, .or, 1, 1, some .bool⟩]
            term := some (.ret 0 false) }] }]

theorem FileTree.locate_deadProduct : deadProduct.locate "a" = .ok ["a"] := by
  have hsplit : "a".splitOn "/" = ["a"] := by
    rw [String.splitOn, if_neg (by decide), String.splitOnAux, if_neg (by decide),
      if_neg (by decide), String.splitOnAux, if_pos (by decide)]
    decide
  rw [locate, if_neg (by decide), hsplit]
  change List.foldlM _ (ite _ [] []) _ = _
  rw [ite_self]
  rfl

/-- A call that reads and writes a file reports its own outcome. One that cannot read its module,
after a run that failed, reports the error of that run too; after a run that went well, it stands
as if its module had come through all passes. -/
theorem Pipeline.oneRound_reports :
    (∃ done files', (oneRound.runFile "a" "a" : StateM FileTree _).run .deadProduct =
        (done, files') ∧ done.pipeline.phase = .written ∧
        ReportsOutcome oneRound "a" "a" .deadProduct done files') ∧
      (∃ p done, AfterCalls FileTree oneRound p ∧
        (p.runFile "" "" : StateM FileTree _).run {} = (done, {}) ∧
        done.pipeline.bag.errorCount = 2 ∧ ¬ ReportsOutcome p "" "" {} done {}) ∧
      ∃ p done, AfterCalls FileTree oneRound p ∧
        (p.runFile "" "" : StateM FileTree _).run {} = (done, {}) ∧
        done.pipeline.phase = .optimized ∧ ¬ ReportsOutcome p "" "" {} done {} := by
  have hnew : Pipeline.new (some .oneRound) false = .ok .oneRound := rfl
  have hstart : AfterCalls FileTree oneRound oneRound := .none
  have hmissing : ∀ m, loaded "" {} ≠ .ok m := fun m h => by cases h
  refine ⟨?_, ?_, ?_⟩
  · have hread : FileTree.deadProduct.read "a" =
        .ok (Module.deadProduct.encode.toOption.getD []) := by
      rw [FileTree.read, FileTree.locate_deadProduct]
      rfl
    have hloaded : loaded "a" .deadProduct = .ok .deadProduct :=
      loaded_of_read hread (by decide +kernel)
    have hwrite : ∀ bytes, FileTree.deadProduct.write "a" bytes =
        (none, FileTree.deadProduct.put ["a"] (.file bytes)) := by
      intro bytes
      have htrimmed : FileTree.withoutSlashes "a" = "a" := by decide +kernel
      unfold FileTree.write
      dsimp only
      rw [htrimmed, FileTree.locate_deadProduct]
      rfl
    have hencode : ∃ bytes, (Listing.ofModule .unreadSum).encode = .ok bytes := ⟨_, rfl⟩
    obtain ⟨bytes, hencode⟩ := hencode
    have hsave : (saveModule "a" (.ofModule .unreadSum) : StateM FileTree _).run .deadProduct =
        (none, FileTree.deadProduct.put ["a"] (.file bytes)) := by
      rw [saveModule, hencode, StateT.run_bind, FileTree.run_write, hwrite]
      rfl
    have hcall := (runFile_of_loaded (p := oneRound) hloaded).trans
      (finish_of_saved (by decide +kernel) (by decide +kernel) (by decide) hsave)
    obtain ⟨-, -, hiff⟩ := runFile_reportsOutcome_iff hnew hstart hcall
    exact ⟨_, _, hcall, rfl, hiff.2 (Or.inl ⟨_, hloaded⟩)⟩
  · have hcalls := hstart.run (some (.ofModule .unreachedWrite))
    refine ⟨_, _, hcalls, rfl, by decide +kernel, fun h => ?_⟩
    obtain ⟨-, -, hiff⟩ := runFile_reportsOutcome_iff hnew hcalls rfl
    rcases hiff.1 h with ⟨m, hm⟩ | ⟨hbag, -⟩
    · exact hmissing m hm
    · exact absurd hbag (by decide +kernel)
  · have hcalls := hstart.run (some (.ofModule .deadProduct))
    refine ⟨_, _, hcalls, rfl, by decide +kernel, fun h => ?_⟩
    obtain ⟨-, -, hiff⟩ := runFile_reportsOutcome_iff hnew hcalls rfl
    rcases hiff.1 h with ⟨m, hm⟩ | ⟨-, hphase, -⟩
    · exact hmissing m hm
    · exact absurd hphase (by decide +kernel)

end SsaOpt
