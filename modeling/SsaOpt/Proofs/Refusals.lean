import SsaOpt.Proofs.DeadCode
import SsaOpt.Proofs.Folding
import SsaOpt.Proofs.InlineRuns

/-!
# How transformations fail

A transformation that fails refuses one of its own steps. Such a failure is an error of the kinds
that speak of the safety of a step (`Failure.IsUnsafe`); this is so of each of the three
transformations when the standard checker is asked (`Transform.onModule_failure`). In particular it
is none of the two kinds that speak of a module that does not verify (`Failure.IsRefusal`). Naming
the function and the pass in an error does not change its kinds.
-/

namespace SsaOpt

/-! ## Kinds of errors -/

namespace Err

variable (k : Kind)

mutual

theorem isKind_namePass (pass : String) : ∀ e : Err, (e.namePass pass).isKind k = e.isKind k
  | plain _ => rfl
  | bare _ => rfl
  | located .. => rfl
  | failed f => by
    rw [namePass]
    split <;> rfl
  | failedBy f cause => by
    rw [namePass]
    split <;> rfl
  | worded text cause => by
    rw [namePass, isKind, isKind]
    exact isKind_namePass pass cause
  | joined parts => by
    rw [namePass, isKind, isKind]
    exact anyIsKind_namePassFirst pass parts

theorem anyIsKind_namePassFirst (pass : String) :
    ∀ parts : List Err, anyIsKind k (namePassFirst pass parts) = anyIsKind k parts
  | [] => rfl
  | e :: rest => by
    rw [namePassFirst]
    split
    · rw [anyIsKind, anyIsKind, isKind_namePass pass e]
    · rw [anyIsKind, anyIsKind, anyIsKind_namePassFirst pass rest]

end

@[simp] theorem isKind_annotate (pass : String) (e : Err) :
    (e.annotate pass).isKind k = e.isKind k := by
  unfold annotate
  split
  · exact isKind_namePass k pass e
  · rfl

@[simp] theorem isKind_inFunction (name : String) (e : Err) :
    (e.inFunction name).isKind k = e.isKind k := by
  cases e with
  | failed f =>
    rw [inFunction]
    split <;> rfl
  | failedBy f cause =>
    rw [inFunction]
    split <;> rfl
  | _ => rfl

theorem anyIsKind_eq_false {parts : List Err} (h : ∀ e ∈ parts, e.isKind k = false) :
    anyIsKind k parts = false := by
  induction parts with
  | nil => rfl
  | cons e rest ih =>
    rw [anyIsKind, h e (by simp), ih fun e he => h e (by simp [he]), Bool.or_false]

/-- A list of defects is of no kind. -/
theorem isKind_defects {ds : List Defect} {e : Err} (h : ofList? (ds.map Defect.toErr) = some e) :
    e.isKind k = false := by
  have hany : anyIsKind k (ds.map Defect.toErr) = false := by
    refine anyIsKind_eq_false k fun e he => ?_
    obtain ⟨d, -, rfl⟩ := List.mem_map.1 he
    rfl
  unfold ofList? at h
  split at h
  · cases h
  · obtain rfl := Option.some.inj h
    rwa [isKind]

/-- What is wrong with a module is of no kind. -/
theorem isKind_moduleErr? {m : Module} {e : Err} (h : moduleErr? (some m) = some e) :
    e.isKind k = false := by
  unfold moduleErr? join? at h
  dsimp only at h
  split at h
  · cases h
  · obtain rfl := Option.some.inj h
    rw [isKind]
    refine anyIsKind_eq_false k fun e he => ?_
    obtain ⟨part, hpart, he⟩ := List.mem_filterMap.1 he
    rcases List.mem_cons.1 hpart with rfl | hpart
    · exact isKind_defects k he
    · obtain ⟨d, -, rfl⟩ := List.mem_map.1 hpart
      obtain rfl := Option.some.inj he
      rfl

/-! ### The first kind -/

mutual

theorem kind?_namePass (pass : String) : ∀ e : Err, (e.namePass pass).kind? = e.kind?
  | plain _ => rfl
  | bare _ => rfl
  | located .. => rfl
  | failed f => by
    rw [namePass]
    split <;> rfl
  | failedBy f cause => by
    rw [namePass]
    split <;> rfl
  | worded text cause => by
    rw [namePass, kind?, kind?, failure?, failure?]
    exact kind?_namePass pass cause
  | joined parts => by
    rw [namePass, kind?, kind?, failure?, failure?]
    exact firstKind_namePassFirst pass parts

theorem firstKind_namePassFirst (pass : String) : ∀ parts : List Err,
    (firstFailure? (namePassFirst pass parts)).map (fun f => f.1.kind) =
      (firstFailure? parts).map fun f => f.1.kind
  | [] => rfl
  | e :: rest => by
    have hkind := kind?_namePass pass e
    have hrest := firstKind_namePassFirst pass rest
    rw [kind?, kind?] at hkind
    rw [namePassFirst]
    cases he : e.failure? with
    | none => simpa [firstFailure?, he] using hrest
    | some f =>
      rw [he] at hkind
      cases hnamed : (e.namePass pass).failure? with
      | none => simp [hnamed] at hkind
      | some f' => simpa [firstFailure?, he, hnamed] using hkind

end

@[simp] theorem kind?_annotate (pass : String) (e : Err) : (e.annotate pass).kind? = e.kind? := by
  unfold annotate
  split
  · exact kind?_namePass pass e
  · rfl

@[simp] theorem kind?_inFunction (name : String) (e : Err) :
    (e.inFunction name).kind? = e.kind? := by
  cases e with
  | failed f =>
    rw [inFunction]
    split <;> rfl
  | failedBy f cause =>
    rw [inFunction]
    split <;> rfl
  | _ => rfl

mutual

/-- An error is of the kind of its first classified failure. -/
theorem isKind_of_kind? {k : Kind} : ∀ {e : Err}, e.kind? = some k → e.isKind k = true
  | failed f, h => by simpa [kind?, failure?, isKind] using h
  | failedBy f cause, h => by
    have hk : f.kind = k := by simpa [kind?, failure?] using h
    simp [isKind, hk]
  | worded text cause, h => by
    rw [isKind]
    exact isKind_of_kind? (by rwa [kind?, failure?] at h)
  | joined parts, h => by
    rw [isKind]
    exact anyIsKind_of_firstFailure? (by rwa [kind?, failure?] at h)

theorem anyIsKind_of_firstFailure? {k : Kind} : ∀ {parts : List Err},
    (firstFailure? parts).map (fun f => f.1.kind) = some k → anyIsKind k parts = true
  | e :: rest, h => by
    rw [anyIsKind, Bool.or_eq_true]
    cases he : e.failure? with
    | none => exact Or.inr (anyIsKind_of_firstFailure? (by simpa [firstFailure?, he] using h))
    | some f =>
      exact Or.inl (isKind_of_kind? (by simpa [firstFailure?, kind?, he] using h))

end

theorem kind?_eq_none {e : Err} (h : ∀ k, e.isKind k = false) : e.kind? = none := by
  cases hk : e.kind? with
  | none => rfl
  | some k => simpa [h k] using isKind_of_kind? hk

end Err

/-- An error, and not one about a module that does not verify. -/
def Failure.IsRefusal (f : Failure) : Prop :=
  ∃ e, f = .error e ∧ e.isKind .malformedIR = false ∧ e.isKind .verificationFailed = false

theorem Failure.IsRefusal.failed {f : PassFailure} (h₁ : f.kind ≠ .malformedIR)
    (h₂ : f.kind ≠ .verificationFailed) : (Failure.error (.failed f)).IsRefusal :=
  ⟨_, rfl, by simpa [Err.isKind] using h₁, by simpa [Err.isKind] using h₂⟩

/-- The kinds of failure that speak of the safety of a step. -/
def Kind.isUnsafe : Kind → Bool
  | .unsafeElimination => true
  | .unsafeBlockElimination => true
  | .unsafeFolding => true
  | .typeMismatch => true
  | .unsafeInlining => true
  | .unsafeExceptionHandling => true
  | _ => false

/-- An error about the safety of a step, and about nothing else. -/
def Failure.IsUnsafe (f : Failure) : Prop :=
  ∃ e, f = .error e ∧ ∀ k, e.isKind k = true → k.isUnsafe = true

namespace Failure.IsUnsafe

theorem isKind_eq_false {e : Err} (h : (Failure.error e).IsUnsafe) {k : Kind}
    (hk : k.isUnsafe = false) : e.isKind k = false := by
  obtain ⟨e', heq, hkinds⟩ := h
  obtain rfl := Failure.error.inj heq
  rw [← Bool.not_eq_true] at hk ⊢
  exact mt (hkinds k) hk

theorem isRefusal {f : Failure} (h : f.IsUnsafe) : f.IsRefusal := by
  obtain ⟨e, rfl, hkinds⟩ := h
  exact ⟨e, rfl, isKind_eq_false ⟨e, rfl, hkinds⟩ rfl, isKind_eq_false ⟨e, rfl, hkinds⟩ rfl⟩

theorem inFunction {f : Failure} (h : f.IsUnsafe) (name : String) :
    (f.inFunction name).IsUnsafe := by
  obtain ⟨e, rfl, hkinds⟩ := h
  exact ⟨_, rfl, by simpa using hkinds⟩

theorem failed {f : PassFailure} (h : f.kind.isUnsafe = true) :
    (Failure.error (.failed f)).IsUnsafe := by
  refine ⟨_, rfl, fun k hk => ?_⟩
  rw [Err.isKind, decide_eq_true_eq] at hk
  exact hk ▸ h

theorem failedBy {f : PassFailure} {cause : Err} (h : f.kind.isUnsafe = true)
    (hcause : ∀ k, cause.isKind k = false) : (Failure.error (.failedBy f cause)).IsUnsafe := by
  refine ⟨_, rfl, fun k hk => ?_⟩
  rw [Err.isKind, hcause, Bool.or_false, decide_eq_true_eq] at hk
  exact hk ▸ h

end Failure.IsUnsafe

/-! ## What the standard checker says -/

theorem isKind_constantErr? {c : Const} {e : Err} (h : constantErr? c = some e) (k : Kind) :
    e.isKind k = false := by
  unfold constantErr? at h
  split at h
  · obtain rfl := Option.some.inj h
    rfl
  · split at h
    · split at h
      · cases h
      · obtain rfl := Option.some.inj h
        rfl
    · obtain rfl := Option.some.inj h
      rfl

theorem isKind_removalErr? {m : Option Module} {i : Instr} {e : Err} (h : removalErr? m i = some e)
    (k : Kind) : e.isKind k = false := by
  unfold removalErr? at h
  split at h
  · obtain rfl := Option.some.inj h
    rfl
  · split at h
    · split at h
      · obtain rfl := Option.some.inj h
        rfl
      · cases h
    · cases h

theorem isKind_inliningErr? {fn : Function} {e : Err} (h : inliningErr? fn = some e) (k : Kind) :
    e.isKind k = false := by
  unfold inliningErr? at h
  split at h
  · obtain rfl := Option.some.inj h
    rfl
  · split at h
    · exact Err.isKind_defects k h
    · exact Err.isKind_defects k h

/-! ## What transformations refuse -/

theorem ConstFold.refusal_isUnsafe {function : String} {i : Instr} {c : Const} {f : Failure}
    (h : refusal (some .standard) function i c = some f) : f.IsUnsafe := by
  unfold refusal at h
  dsimp only at h
  split at h
  · obtain rfl := Option.some.inj h
    exact .failed rfl
  · split at h
    · obtain rfl := Option.some.inj h
      exact .failed rfl
    · obtain ⟨cause, hcause, rfl⟩ := Option.map_eq_some_iff.1 h
      exact .failedBy rfl (isKind_constantErr? hcause)

theorem Inline.refusal_isUnsafe {p : Policy} {function : String} {callee : Function} {f : Failure}
    (h : refusal p (some .standard) function callee = some f) : f.IsUnsafe := by
  unfold refusal at h
  dsimp only at h
  split at h
  · obtain rfl := Option.some.inj h
    exact .failed rfl
  · split at h
    · obtain rfl := Option.some.inj h
      exact .failed rfl
    · obtain ⟨cause, hcause, rfl⟩ := Option.map_eq_some_iff.1 h
      exact .failedBy rfl (isKind_inliningErr? hcause)

namespace DeadCode

theorem checkerRefusal_isUnsafe {m : Module} {kind : Kind} {function : String} {i : Instr}
    {f : Failure} (hkind : kind.isUnsafe = true)
    (h : checkerRefusal (some .standard) m kind function i = some f) : f.IsUnsafe := by
  obtain ⟨cause, hcause, rfl⟩ := Option.map_eq_some_iff.1 h
  exact .failedBy hkind (isKind_removalErr? hcause)

theorem refuseInstr_isUnsafe {m : Module} {function : String} {i : Instr} {f : Failure}
    (h : (rulesFor (some .standard) m function).refuseInstr i = some f) : f.IsUnsafe := by
  dsimp only [rulesFor] at h
  split at h
  · obtain rfl := Option.some.inj h
    exact .failed rfl
  · exact checkerRefusal_isUnsafe rfl h

theorem refuseInBlock_isUnsafe {m : Module} {function : String} {b : BlockId} {i : Instr}
    {f : Failure} (h : (rulesFor (some .standard) m function).refuseInBlock b i = some f) :
    f.IsUnsafe := by
  dsimp only [rulesFor] at h
  split at h
  · obtain rfl := Option.some.inj h
    exact .failed rfl
  · exact checkerRefusal_isUnsafe rfl h

variable {rules : Rules} {f : Failure}

theorem sweepInstrs_failure {dead : Instr → Bool} {refuse : Instr → Option Failure}
    {is : List Instr} (h : (sweepInstrs dead refuse is).failure = some f) :
    ∃ i, dead i = true ∧ refuse i = some f := by
  induction is with
  | nil => simp [sweepInstrs] at h
  | cons i rest ih =>
    rw [sweepInstrs] at h
    split at h
    · next hdead =>
      cases hr : refuse i with
      | some f' =>
        simp only [hr, Option.some.injEq] at h
        exact ⟨i, hdead, h ▸ hr⟩
      | none =>
        simp only [hr] at h
        exact ih h
    · exact ih h

theorem sweepBlocks_failure {dead : Instr → Bool} {refuse : Instr → Option Failure}
    {blocks : List Block} (h : (sweepBlocks dead refuse blocks).failure = some f) :
    ∃ i, dead i = true ∧ refuse i = some f := by
  induction blocks with
  | nil => simp [sweepBlocks] at h
  | cons b rest ih =>
    rw [sweepBlocks] at h
    dsimp only at h
    split at h
    · next hf =>
      obtain rfl := Option.some.inj h
      exact sweepInstrs_failure hf
    · exact ih h

/-- **A round that fails** refuses an instruction, alone or with its block. -/
theorem round_failure {fn : Function} (h : (round rules fn).failure = some f) :
    (∃ i, rules.refuseInstr i = some f) ∨ ∃ b i, rules.refuseInBlock b i = some f := by
  unfold round at h
  dsimp only at h
  split at h
  · next hf =>
    obtain rfl := Option.some.inj h
    obtain ⟨i, -, hi⟩ := sweepBlocks_failure hf
    exact Or.inl ⟨i, hi⟩
  · split at h
    · cases h
    · split at h
      · next hf =>
        obtain rfl := Option.some.inj h
        obtain ⟨b, -, hb⟩ := List.exists_of_findSome?_eq_some hf
        obtain ⟨i, -, hi⟩ := List.exists_of_findSome?_eq_some hb
        exact Or.inr ⟨b.id, i, hi⟩
      · cases h

theorem rounds_failure {fuel : Nat} {limit : Option Nat} {fn : Function}
    (h : (rounds rules fuel limit fn).failure = some f) :
    (∃ i, rules.refuseInstr i = some f) ∨ ∃ b i, rules.refuseInBlock b i = some f := by
  induction fuel generalizing limit fn with
  | zero => simp [rounds] at h
  | succ fuel ih =>
    rw [rounds] at h
    split at h
    · cases h
    · dsimp only at h
      split at h
      · next hf =>
        obtain rfl := Option.some.inj h
        exact round_failure hf
      · split at h
        · cases h
        · exact ih h

end DeadCode

namespace Inline

variable {judge : Call → Verdict} {f : Failure}

theorem scanInstrs_failed {position : Nat} {is : List Instr} (k : Nat)
    (h : (scanInstrs judge position k is).stop = some (.failed f)) :
    ∃ call, judge call = .fail f := by
  induction is generalizing k with
  | nil => simp [scanInstrs] at h
  | cons i is ih =>
    cases i with
    | call c =>
      rw [scanInstrs] at h
      cases hj : judge c with
      | pass => exact ih (k + 1) (by simpa only [hj] using h)
      | warn callee reason => exact ih (k + 1) (by simpa only [hj] using h)
      | fail f' =>
        simp only [hj, Option.some.injEq, Stop.failed.injEq] at h
        exact ⟨c, h ▸ hj⟩
      | splice callee => simp [hj] at h
    | _ => exact ih (k + 1) h

theorem scanBlocks_failed {live : List BlockId} {blocks : List Block} (k : Nat)
    (h : (scanBlocks judge live k blocks).stop = some (.failed f)) :
    ∃ call, judge call = .fail f := by
  induction blocks generalizing k with
  | nil => simp [scanBlocks] at h
  | cons b blocks ih =>
    rw [scanBlocks] at h
    split at h
    · cases hstop : (scanInstrs judge k 0 b.instrs).stop with
      | none => exact ih (k + 1) (by simpa only [hstop] using h)
      | some stop =>
        simp only [hstop] at h
        exact scanInstrs_failed 0 (hstop.trans h)
    · exact ih (k + 1) h

theorem replaceCalls_failure {fuel : Nat} {live : List BlockId} {position : Nat} {fn : Function}
    (h : (replaceCalls judge fuel live position fn).failure = some f) :
    ∃ call, judge call = .fail f := by
  induction fuel generalizing live position fn with
  | zero => simp [replaceCalls] at h
  | succ fuel ih =>
    rw [replaceCalls] at h
    dsimp only at h
    split at h
    · cases h
    · next hstop =>
      obtain rfl := Option.some.inj h
      exact scanBlocks_failed position hstop
    · exact ih h

theorem judge_fail {p : Policy} {m : Module} {g : CallGraph} {self : Nat} {function : String}
    {call : Call} (h : Inline.judge p (some .standard) m g self function call = .fail f) :
    f.IsUnsafe := by
  unfold Inline.judge at h
  split at h
  · cases h
  · split at h
    · cases h
    · split at h
      · cases h
      · split at h
        · next hrefusal =>
          obtain rfl := Verdict.fail.inj h
          exact refusal_isUnsafe hrefusal
        · cases h

end Inline

namespace Transform

variable {σ : Type} {env : PassEnv} {r : Run σ} {m : Module} {fn : Function} {k : Nat}

/-- What constant folding does to the function at a position. -/
theorem constFold_onFunction (hr : r.listing = .ofModule m) (hfn : m.functions[k]? = some fn) :
    (constFold.onFunction env k r).1.failure = (ConstFold.run env.checker fn).failure ∧
      (constFold.onFunction env k r).2.listing = .ofModule { m with
        functions := m.functions.set k (ConstFold.run env.checker fn).function } := by
  have hplace : r.listing.function? k = some fn := by rw [hr, Listing.function?_ofModule, hfn]
  simp only [onFunction, hplace, foldFunction, true_and]
  rw [← Listing.setFunction_ofModule, ← hr]
  rfl

/-- A step changes no other function, whether or not it fails. -/
theorem onFunction_listing (t : Transform) (hr : r.listing = .ofModule m)
    (hfn : m.functions[k]? = some fn) :
    ∃ m', (t.onFunction env k r).2.listing = .ofModule m' ∧
      m'.functions.length = m.functions.length := by
  cases t with
  | constFold => exact ⟨_, (constFold_onFunction hr hfn).2, by simp⟩
  | deadCode n => exact ⟨_, (deadCode_onFunction n hr hfn).2, by simp⟩
  | inline p =>
    obtain ⟨m', hlisting, hlen, -⟩ :
        ∃ m', ((inline p).onFunction env k r).2.listing = .ofModule m' ∧
          m'.functions.length = m.functions.length ∧ _ := inline_onFunction hr hfn
    exact ⟨m', hlisting, hlen⟩

theorem onFunction_failure {t : Transform} (henv : env.checker = some .standard)
    (hr : r.listing = .ofModule m) (hfn : m.functions[k]? = some fn) {f : Failure}
    (h : (t.onFunction env k r).1.failure = some f) : f.IsUnsafe := by
  cases t with
  | constFold =>
    rw [(constFold_onFunction hr hfn).1, henv] at h
    obtain ⟨i, c, hrefuse⟩ := ConstFold.foldBlocks_failure h
    exact ConstFold.refusal_isUnsafe hrefuse
  | deadCode n =>
    rw [(deadCode_onFunction n hr hfn).1, henv] at h
    rcases DeadCode.rounds_failure h with ⟨i, hi⟩ | ⟨b, i, hi⟩
    · exact DeadCode.refuseInstr_isUnsafe hi
    · exact DeadCode.refuseInBlock_isUnsafe hi
  | inline p =>
    have hplace : r.listing.function? k = some fn := by rw [hr, Listing.function?_ofModule, hfn]
    obtain ⟨g, r', hcalls, -⟩ := Run.callGraph?_ofModule hr
    simp only [onFunction, hplace, inlineFunction, henv, hcalls] at h
    obtain ⟨call, hcall⟩ := Inline.replaceCalls_failure h
    exact Inline.judge_fail hcall

/-- **A transformation that fails** refuses one of its own steps. -/
theorem onModule_failure {t : Transform} (henv : env.checker = some .standard)
    (hr : r.listing = .ofModule m) {f : Failure}
    (h : (t.pass.onModule env r).1.failure = some f) : f.IsUnsafe := by
  obtain ⟨k, r', m', fn, f', hr', hfn, hf', rfl⟩ := Run.allFunctions_failure hr
    (fun k r m fn hr hfn => t.onFunction_listing hr hfn) h
  exact (onFunction_failure henv hr' hfn hf').inFunction fn.name

end Transform

end SsaOpt
