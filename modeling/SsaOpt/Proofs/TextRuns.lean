import SsaOpt.Proofs.CanonicalRuns
import SsaOpt.Proofs.CriticalInstrs
import SsaOpt.Proofs.FileRuns
import SsaOpt.Proofs.Legible

/-!
# What the text of a module decides

Two modules with the same text that verify, whose names are legible and that agree in what the text
leaves out have the same canonical form. A run over a module goes as the run over its canonical
form. So the runs over the two modules end alike: `Pipeline.run_determined_by_text`. What the text
leaves out cannot be dropped: a comparison is printed without its type, and of two modules that
differ in that only one can be folded.
-/

namespace SsaOpt

namespace Pipeline

/-- Two runs, and a run that both go as. -/
theorem ends_alike {x y z : PipelineRun} (hx : (∃ n, Succeeds x n) ∨ ∃ e, EndsEarly x e)
    (hz : (∃ n, Succeeds z n) ∨ ∃ e, EndsEarly z e)
    (hfailure : SameFailure x.failure y.failure) (hfailure' : SameFailure z.failure y.failure)
    (hmodule : y.module = x.module.map Listing.canonical)
    (hmodule' : y.module = z.module.map Listing.canonical) :
    (∃ e e', x.failure = some (.error e) ∧ z.failure = some (.error e') ∧ e.kind? = e'.kind?) ∨
      ∃ n n', x.failure = none ∧ z.failure = none ∧ x.module = some (.ofModule n) ∧
        z.module = some (.ofModule n') ∧ n.render = n'.render := by
  have hsame : SameFailure x.failure z.failure := hfailure.of_common hfailure'
  rcases hx with ⟨n, hx⟩ | ⟨e, hx⟩ <;> rcases hz with ⟨n', hz⟩ | ⟨e', hz⟩ <;>
    rw [hx.failure_eq, hz.failure_eq] at hsame
  · refine Or.inr ⟨n, n', hx.failure_eq, hz.failure_eq, hx.module_eq, hz.module_eq, ?_⟩
    rw [hx.module_eq] at hmodule
    rw [hmodule, hz.module_eq] at hmodule'
    have hcanonical := Option.some.inj hmodule'
    rw [← Listing.render_ofModule, ← Listing.render_canonical, hcanonical,
      Listing.render_canonical, Listing.render_ofModule]
  · cases hsame
  · cases hsame
  · obtain ⟨⟨hkind⟩⟩ := hsame
    exact Or.inl ⟨e, e', hx.failure_eq, hz.failure_eq, hkind.symm⟩

/-- **The text of a module decides what becomes of it**, if the module verifies, its names are
legible and nothing else is different that the text leaves out: for two such modules with the same
text, and two pipelines of the same configuration, whatever calls they have served, the runs both
fail with errors of the same kind, or both succeed and leave modules with the same text. -/
theorem run_determined_by_text {S : Type} [Disk (StateM S)] {config : Option Config} {debug : Bool}
    {p₀ p q : Pipeline} (hp₀ : Pipeline.new config debug = .ok p₀) (hp : AfterCalls S p₀ p)
    (hq : AfterCalls S p₀ q) {m m' : Module} (hm : moduleErr? (some m) = none)
    (hm' : moduleErr? (some m') = none) (hlegible : m.Legible) (hlegible' : m'.Legible)
    (htext : m.render = m'.render) (hunprinted : m.unprinted = m'.unprinted) :
    (∃ e e', (p.run (some (.ofModule m))).failure = some (.error e) ∧
      (q.run (some (.ofModule m'))).failure = some (.error e') ∧ e.kind? = e'.kind?) ∨
      ∃ n n', (p.run (some (.ofModule m))).failure = none ∧
        (q.run (some (.ofModule m'))).failure = none ∧
        (p.run (some (.ofModule m))).module = some (.ofModule n) ∧
        (q.run (some (.ofModule m'))).module = some (.ofModule n') ∧ n.render = n'.render := by
  have hbuiltin := new_isBuiltin hp₀
  have hchecker := (new_eq_ok hp₀).1
  have hsort := new_sortPasses hp₀
  have hcanonical := Module.canonical_of_render hm hm' hlegible hlegible' htext hunprinted
  have hsame := run_sameRun hbuiltin hp.setup hsort (some (.ofModule m))
  have hsame' := run_sameRun hbuiltin hq.setup hsort (some (.ofModule m'))
  obtain ⟨hfailure, hmodule⟩ := run_canonical hbuiltin hchecker hsort m
  obtain ⟨hfailure', hmodule'⟩ := run_canonical hbuiltin hchecker hsort m'
  rw [← hcanonical] at hfailure' hmodule'
  rw [hsame.failure_eq, hsame.module_eq, hsame'.failure_eq, hsame'.module_eq]
  exact ends_alike (run_ends hbuiltin hchecker hsort m) (run_ends hbuiltin hchecker hsort m')
    hfailure hfailure' hmodule hmodule'

end Pipeline

/-! ## Lookalikes -/

/-- A module that leaves out what it can: its name, the entry, and types of nothing. -/
def Module.terse : Module where
  name := ""
  functions :=
    [{ name := "g", params := [⟨1, "x", none⟩] },
      { name := "f"
        blocks :=
          [{ id := 1
             instrs := [.alloca ⟨1, none⟩, .call ⟨0, "g", [1], none, .side, false⟩,
               .const ⟨2, some .bool, "true"⟩, .compare ⟨3, .eq, 2, 2, some .bool⟩]
             term := some (.ret 0 false) }] }]

/-- The same module with all that in words. -/
def Module.wordy : Module where
  name := "<unknown>"
  functions :=
    [{ name := "g", params := [⟨1, "x", some .void⟩] },
      { name := "f"
        entry := 1
        blocks :=
          [{ id := 1
             instrs := [.alloca ⟨1, some .void⟩, .call ⟨0, "g", [1], some .void, .side, false⟩,
               .const ⟨2, some .bool, "true"⟩, .compare ⟨3, .eq, 2, 2, some .bool⟩]
             term := some (.ret 9 false) }] }]

/-- A comparison that is said to be of some type. -/
def Module.comparing (ty : Ty) : Module where
  name := "m"
  functions :=
    [{ name := "f"
       ret := some .bool
       blocks :=
         [{ id := 1
            instrs := [.const ⟨1, some (.int ⟨true, .w32⟩), "1"⟩, .compare ⟨2, .eq, 1, 1, some ty⟩]
            term := some (.ret 2 true) }] }]

/-- A call that takes nothing for a value, in a function with some counter for blocks. -/
def Module.calling (ret : Option Ty) (nextBlock : BlockId) : Module where
  name := "m"
  functions :=
    [{ name := "g", ret, blocks := [{ id := 1, term := some (.ret 0 false) }] },
      { name := "f"
        nextBlock
        blocks :=
          [{ id := 1
             instrs := [.call ⟨1, "g", [], some .void, .side, false⟩]
             term := some (.ret 0 false) }] }]

/-- Two blocks with some names, of which one is the entry. -/
def Module.entering (first second : String) (entry : BlockId) : Module where
  name := "m"
  functions :=
    [{ name := "f"
       entry
       blocks :=
         [{ id := 1, name := first, term := some (.ret 0 false) },
           { id := 2, name := second, term := some (.ret 0 false) }] }]

/-- Two modules that verify and have the same text. -/
def Module.Lookalikes (m m' : Module) : Prop :=
  moduleErr? (some m) = none ∧ moduleErr? (some m') = none ∧ m.render = m'.render

/-- The text that a run leaves. -/
def Pipeline.textAfter (p : Pipeline) (m : Module) : String :=
  renderListing (p.run (some (.ofModule m))).module

/-- The terse module and the wordy one stay lookalikes. Other lookalikes do not: a comparison folds
only under one of two types, a call is replaced only if it says what its target returns, the number
of a new block depends on the counter, and a name can look like the mark of the entry. -/
theorem Pipeline.inlineFirst_on_lookalikes :
    (Module.terse ≠ .wordy ∧ Module.Lookalikes .terse .wordy ∧
      Module.terse.Legible ∧ Module.wordy.Legible ∧
      Module.terse.unprinted = Module.wordy.unprinted ∧
      ∃ n n', (inlineFirst.run (some (.ofModule .terse))).module = some (.ofModule n) ∧
        (inlineFirst.run (some (.ofModule .wordy))).module = some (.ofModule n') ∧
        n.render = n'.render ∧ n.render ≠ Module.terse.render) ∧
      (Module.Lookalikes (.comparing .bool) (.comparing (.int ⟨true, .w32⟩)) ∧
        (Module.comparing .bool).Legible ∧ (Module.comparing (.int ⟨true, .w32⟩)).Legible ∧
        (inlineFirst.run (some (.ofModule (.comparing .bool)))).failure.isNone = true ∧
        (inlineFirst.run (some (.ofModule (.comparing (.int ⟨true, .w32⟩))))).failure.isNone =
          false) ∧
      (Module.Lookalikes (.calling none 0) (.calling (some .void) 0) ∧
        (Module.calling none 0).Legible ∧ (Module.calling (some .void) 0).Legible ∧
        inlineFirst.textAfter (.calling none 0) ≠ inlineFirst.textAfter (.calling (some .void) 0)) ∧
      (Module.Lookalikes (.calling (some .void) 0) (.calling (some .void) 7) ∧
        (Module.calling (some .void) 7).Legible ∧
        inlineFirst.textAfter (.calling (some .void) 0) ≠
          inlineFirst.textAfter (.calling (some .void) 7)) ∧
      Module.Lookalikes (.entering "" "(entry)" 1) (.entering "(entry)" "" 2) ∧
        (Module.entering "" "(entry)" 1).unprinted = (Module.entering "(entry)" "" 2).unprinted ∧
        inlineFirst.textAfter (.entering "" "(entry)" 1) ≠
          inlineFirst.textAfter (.entering "(entry)" "" 2) := by
  have hp : Pipeline.new (some .inlineFirst) false = .ok .inlineFirst := rfl
  have hlook : Module.Lookalikes .terse .wordy :=
    ⟨by decide +kernel, by decide +kernel, by decide +kernel⟩
  have hlegible : Module.terse.Legible ∧ Module.wordy.Legible :=
    ⟨by decide +kernel, by decide +kernel⟩
  have hunprinted : Module.terse.unprinted = Module.wordy.unprinted := by decide +kernel
  have hnone : (inlineFirst.run (some (.ofModule .terse))).failure = none := by decide +kernel
  have hafter : inlineFirst.textAfter .terse ≠ Module.terse.render := by decide +kernel
  refine ⟨⟨by decide +kernel, hlook, hlegible.1, hlegible.2, hunprinted, ?_⟩,
    ⟨⟨by decide +kernel, by decide +kernel, by decide +kernel⟩, by decide +kernel,
      by decide +kernel, by decide +kernel, by decide +kernel⟩,
    ⟨⟨by decide +kernel, by decide +kernel, by decide +kernel⟩, by decide +kernel,
      by decide +kernel, by decide +kernel⟩,
    ⟨⟨by decide +kernel, by decide +kernel, by decide +kernel⟩, by decide +kernel,
      by decide +kernel⟩,
    ⟨by decide +kernel, by decide +kernel, by decide +kernel⟩, by decide +kernel,
    by decide +kernel⟩
  obtain ⟨e, -, hfailure, -⟩ | ⟨n, n', -, -, hn, hn', htext⟩ :=
    run_determined_by_text hp (.none (S := FileTree)) .none hlook.1 hlook.2.1 hlegible.1 hlegible.2
      hlook.2.2 hunprinted
  · rw [hnone] at hfailure
    cases hfailure
  · refine ⟨n, n', hn, hn', htext, ?_⟩
    rwa [textAfter, hn] at hafter

end SsaOpt
