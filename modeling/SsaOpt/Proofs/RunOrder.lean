import SsaOpt.Proofs.Invocations
import SsaOpt.Proofs.Schedule

/-!
# The order of a run

A run goes through the schedule, and before each pass it computes again what the pass requires and
what is stale. This module says which calls that makes, and in what states, for passes that leave
alone the marks on analyses other than their own (`Tame`).

Every call is `Sound`: what the pass requires is at hand, and an analysis is not valid when it is
called. The calls of a run form a chain (`Linked`): each starts where the manager has settled the
one before. Both are kept by every step as long as no call fails (`OnCourse`). Within the turn of a
pass, only analyses that stand before it in the schedule are computed (`Refreshed`), which is why
computing one requirement does not undo another, and why the fuel lasts.

`run_calls_in_order` puts this together. What holds in every state between two calls follows from
the chain by `Linked.induct`.
-/

namespace SsaOpt

variable {σ : Type}

/-! ## Marks -/

namespace Cache

variable {α : Type} {c : Cache α} {a b : String}

theorem isValid_markValid_iff :
    (c.markValid a).isValid b = true ↔ b = a ∨ c.isValid b = true := by
  by_cases h : b = a <;> simp [markValid, isValid, h]

theorem isValid_invalidate_iff :
    (c.invalidate a).isValid b = true ↔ b ≠ a ∧ c.isValid b = true := by
  simp [invalidate, isValid, and_comm]

theorem isValid_foldl_invalidate_iff {names : List String} :
    (names.foldl invalidate c).isValid b = true ↔ b ∉ names ∧ c.isValid b = true := by
  induction names generalizing c with
  | nil => simp
  | cons n names ih =>
    rw [List.foldl_cons, ih, isValid_invalidate_iff, List.mem_cons]
    tauto

end Cache

namespace Manager

/-- Passes that require the same things at all times, where an analysis reports no change, and where
no pass touches the mark of an analysis, except an analysis its own. -/
structure Tame (mgr : Manager σ) : Prop where
  requires_eq : ∀ p ∈ mgr.passes, ∀ world, p.requires world = p.requires mgr.world
  quiet : ∀ p ∈ mgr.passes, p.isAnalysis = true → ∀ env r, (p.onModule env r).1.modified = false
  spares : ∀ p ∈ mgr.passes, ∀ env r a, (p.isAnalysis = true → a ≠ p.name) →
    (p.onModule env r).2.cache.isValid a = r.cache.isValid a

/-- The transformations among some passes. -/
def transforms (ps : List (Pass σ)) : List (Pass σ) := ps.filter fun p => !p.isAnalysis

end Manager

/-! ## Chains of calls -/

namespace Invocation

/-- What the manager makes of the state after a call that it accepts: an analysis is marked valid,
and a change makes analyses stale. -/
def settled (c : Invocation σ) : Run σ :=
  { c.after with
    cache :=
      if c.pass.isAnalysis then c.after.cache.markValid c.pass.name
      else if c.outcome.modified then c.pass.invalidates.foldl Cache.invalidate c.after.cache
      else c.after.cache }

/-- The pass fails, or it is a transformation and the manager does not accept what it has done. -/
def Fails (mgr : Manager σ) (c : Invocation σ) : Prop :=
  c.outcome.failure ≠ none ∨
    c.pass.isAnalysis = false ∧
      (c.outcome.modified = true ∧ mgr.checker.verifyModule (some c.after.listing) ≠ none ∨
        c.outcome.modified = false ∧ mgr.verifyModified = true ∧
          c.after.listing.fingerprint ≠ c.before.listing.fingerprint)

end Invocation

namespace Manager

/-- Calls of which each starts where the one before has been settled. -/
inductive Linked (start : Run σ) : List (Invocation σ) → Run σ → Prop
  | nil : Linked start [] start
  | concat {log : List (Invocation σ)} {c : Invocation σ} :
    Linked start log c.before → Linked start (log ++ [c]) c.settled

/-- What every call of a chain preserves holds at its end. -/
theorem Linked.induct {start s : Run σ} {log : List (Invocation σ)} {P : Run σ → Prop}
    (h : Linked start log s) (hstart : P start)
    (hstep : ∀ c ∈ log, P c.before → P c.settled) : P s := by
  induction h with
  | nil => exact hstart
  | @concat log c _ ih =>
    exact hstep c (by simp) (ih fun d hd => hstep d (by simp [hd]))

/-- An analysis has been computed, and no pass that reported a change has made it stale since. -/
def Current (log : List (Invocation σ)) (a : String) : Prop :=
  ∃ l₁ c l₂, log = l₁ ++ c :: l₂ ∧ c.pass.isAnalysis = true ∧ c.pass.name = a ∧
    ∀ d ∈ l₂, d.outcome.modified = true → a ∉ d.pass.invalidates

theorem current_concat_iff {log : List (Invocation σ)} {c : Invocation σ} {a : String} :
    Current (log ++ [c]) a ↔
      (c.pass.isAnalysis = true ∧ c.pass.name = a) ∨
        (Current log a ∧ (c.outcome.modified = true → a ∉ c.pass.invalidates)) := by
  constructor
  · rintro ⟨l₁, d, l₂, heq, hd, hname, hkept⟩
    rcases concat_eq_append_cons heq with ⟨rfl, rfl, rfl⟩ | ⟨l₃, rfl, rfl⟩
    · exact Or.inl ⟨hd, hname⟩
    · exact Or.inr ⟨⟨l₁, d, l₃, rfl, hd, hname, fun e he => hkept e (by simp [he])⟩,
        hkept c (by simp)⟩
  · rintro (⟨hc, hname⟩ | ⟨⟨l₁, d, l₂, rfl, hd, hname, hkept⟩, hc⟩)
    · exact ⟨log, c, [], rfl, hc, hname, by simp⟩
    · refine ⟨l₁, d, l₂ ++ [c], by simp, hd, hname, fun e he => ?_⟩
      rcases List.mem_append.1 he with he | he
      · exact hkept e he
      · obtain rfl : e = c := by simpa using he
        exact hc

variable {mgr : Manager σ} {start : Run σ} {calls : List (Invocation σ)}
  {done : List (Pass σ)} {w w' : Work (Watched σ)}

/-- The mark of an analysis after one call. -/
theorem isValid_settled_iff (htame : mgr.Tame) {c : Invocation σ} (hc : c.pass ∈ mgr.passes)
    {a : String} :
    c.settled.cache.isValid a = true ↔
      (c.pass.isAnalysis = true ∧ c.pass.name = a) ∨
        (c.before.cache.isValid a = true ∧
          (c.outcome.modified = true → a ∉ c.pass.invalidates)) := by
  have hspares := htame.spares c.pass hc c.env c.before a
  have hquiet := htame.quiet c.pass hc
  unfold Invocation.settled
  cases hanalysis : c.pass.isAnalysis with
  | true =>
    have hmodified : c.outcome.modified = false := hquiet hanalysis _ _
    simp only [if_true, Cache.isValid_markValid_iff, true_and, hmodified]
    by_cases hname : c.pass.name = a
    · simp [hname]
    · have hafter : c.after.cache.isValid a = c.before.cache.isValid a :=
        hspares fun _ => Ne.symm hname
      simp [hafter, hname, Ne.symm hname]
  | false =>
    have hafter : c.after.cache.isValid a = c.before.cache.isValid a :=
      hspares fun h => by simp [hanalysis] at h
    cases hmodified : c.outcome.modified with
    | true => simp [Cache.isValid_foldl_invalidate_iff, hafter, and_comm]
    | false => simp [hafter]

/-- The analyses with a mark are those that are current. -/
theorem Linked.isValid_iff (htame : mgr.Tame) {s : Run σ} (h : Linked start calls s)
    (hstart : start.cache.validNames = []) (hcalls : ∀ c ∈ calls, c.pass ∈ mgr.passes)
    {a : String} : s.cache.isValid a = true ↔ Current calls a := by
  induction h with
  | nil =>
    constructor
    · simp [Cache.isValid, hstart]
    · rintro ⟨l₁, c, l₂, heq, -⟩
      simp at heq
  | @concat calls c _ ih =>
    rw [isValid_settled_iff htame (hcalls c (by simp)), ih fun d hd => hcalls d (by simp [hd]),
      current_concat_iff]

/-! ## Sound calls -/

/-- A requirement is at hand: an analysis is valid, and a transformation has been called. -/
def Met (mgr : Manager σ) (earlier : List (Invocation σ)) (s : Run σ) (r : String) : Prop :=
  ∃ q, mgr.find? r = some q ∧ (q.isAnalysis = true → s.cache.isValid r = true) ∧
    (q.isAnalysis = false → ∃ d ∈ earlier, d.pass = q)

/-- A call as it has to be, after some calls none of which failed. -/
structure Sound (mgr : Manager σ) (start : Run σ) (earlier : List (Invocation σ))
    (c : Invocation σ) : Prop where
  found : mgr.find? c.pass.name = some c.pass
  env_eq : c.env = mgr.envFor c.pass.name
  linked : Linked start earlier c.before
  fine : ∀ d ∈ earlier, ¬ d.Fails mgr
  stale : c.pass.isAnalysis = true → c.before.cache.isValid c.pass.name = false
  required : ∀ r ∈ c.pass.requires mgr.world, Met mgr earlier c.before r

/-- Sound calls, all of passes in `done`, and of the transformations there each once and in
order. -/
structure Trace (mgr : Manager σ) (start : Run σ) (done : List (Pass σ))
    (calls : List (Invocation σ)) : Prop where
  sound : ∀ l₁ c l₂, calls = l₁ ++ c :: l₂ → Sound mgr start l₁ c
  mem : ∀ c ∈ calls, c.pass ∈ done
  transforms_eq : transforms (calls.map Invocation.pass) = transforms done

theorem Trace.nil (mgr : Manager σ) (start : Run σ) : Trace mgr start [] [] where
  sound l₁ c l₂ heq := by simp at heq
  mem := by simp
  transforms_eq := rfl

/-- The turn of a pass ends with its call. -/
theorem Trace.turn {c : Invocation σ} (h : Trace mgr start done calls)
    (hc : Sound mgr start calls c) : Trace mgr start (done ++ [c.pass]) (calls ++ [c]) where
  sound l₁ d l₂ heq := by
    rcases concat_eq_append_cons heq with ⟨rfl, rfl, rfl⟩ | ⟨l₃, rfl, rfl⟩
    · exact hc
    · exact h.sound l₁ d l₃ rfl
  mem d hd := by
    rcases List.mem_append.1 hd with hd | hd
    · exact List.mem_append_left _ (h.mem d hd)
    · obtain rfl : d = c := by simpa using hd
      simp
  transforms_eq := by
    have heq := h.transforms_eq
    simp only [transforms, List.map_append, List.filter_append] at heq ⊢
    rw [heq]
    rfl

/-- An analysis whose turn is over can be called again. -/
theorem Trace.again {c : Invocation σ} (h : Trace mgr start done calls)
    (hc : Sound mgr start calls c) (hmem : c.pass ∈ done) (hanalysis : c.pass.isAnalysis = true) :
    Trace mgr start done (calls ++ [c]) where
  sound := (h.turn hc).sound
  mem d hd := by
    rcases List.mem_append.1 ((h.turn hc).mem d hd) with hd | hd
    · exact hd
    · obtain hd : d.pass = c.pass := by simpa using hd
      exact hd ▸ hmem
  transforms_eq := by
    have heq := h.transforms_eq
    simp only [transforms, List.map_append, List.filter_append] at heq ⊢
    simp [heq, hanalysis]

/-- Nothing has to be called in the turn of an analysis that is valid. -/
theorem Trace.skip {p : Pass σ} (h : Trace mgr start done calls) (hanalysis : p.isAnalysis = true) :
    Trace mgr start (done ++ [p]) calls where
  sound := h.sound
  mem c hc := List.mem_append_left _ (h.mem c hc)
  transforms_eq := by
    have heq := h.transforms_eq
    simp only [transforms, List.filter_append] at heq ⊢
    simp [heq, hanalysis]

/-! ## States between calls -/

/-- The calls on record. -/
def Work.log (w : Work (Watched σ)) : List (Invocation σ) := w.manager.world.2

/-- The state without the record. -/
def Work.bare (w : Work (Watched σ)) : Run σ := w.toRun.mapWorld Prod.fst

/-- The call that is made next if a pass is called. -/
def Work.calling (w : Work (Watched σ)) (p : Pass σ) : Invocation σ :=
  ⟨p, w.manager.envFor p.name, w.bare⟩

theorem Work.runPass_bare (w : Work (Watched σ)) (p : Pass σ) (counted : Bool → Bool) :
    (w.runPass p.watched counted).1 = (w.calling p).outcome ∧
      (w.runPass p.watched counted).2.bare = (w.calling p).after ∧
      (w.runPass p.watched counted).2.log = w.log ++ [w.calling p] := by
  have hrun := w.runPass_toRun p.watched counted
  refine ⟨w.runPass_fst p.watched counted, ?_, ?_⟩
  · rw [Work.bare, hrun]
    rfl
  · exact congrArg (fun r => r.world.2) hrun

/-- A run in the course of which no call has failed, after the turns of the passes in `done`. -/
structure OnCourse (mgr : Manager σ) (start : Run σ) (done : List (Pass σ))
    (w : Work (Watched σ)) : Prop where
  trace : Trace mgr start done w.log
  setup : SameSetup (mgr.watched []) w.manager
  linked : Linked start w.log w.bare
  fine : ∀ c ∈ w.log, ¬ c.Fails mgr

theorem OnCourse.find?_eq (h : OnCourse mgr start done w) (name : String) :
    w.manager.find? name = (mgr.find? name).map Pass.watched := by
  rw [← find?_watched mgr [], find?, find?, h.setup.passes_eq]

theorem OnCourse.envFor_eq (h : OnCourse mgr start done w) (name : String) :
    w.manager.envFor name = mgr.envFor name := by
  rw [envFor, envFor, h.setup.checker_eq]
  rfl

/-- Only analyses before place `k` have been computed between two states. -/
structure Refreshed (done : List (Pass σ)) (k : Nat) (w w' : Work (Watched σ)) : Prop where
  mem_log : ∀ d ∈ w.log, d ∈ w'.log
  isValid : ∀ a, w.bare.cache.isValid a = true → w'.bare.cache.isValid a = true
  above : ∀ a, (a ∈ done.map Pass.name → k ≤ (done.map Pass.name).idxOf a) →
    w'.bare.cache.isValid a = w.bare.cache.isValid a

theorem Refreshed.refl (done : List (Pass σ)) (k : Nat) (w : Work (Watched σ)) :
    Refreshed done k w w :=
  ⟨fun _ h => h, fun _ h => h, fun _ _ => rfl⟩

theorem Refreshed.trans {k : Nat} {w'' : Work (Watched σ)} (h : Refreshed done k w w')
    (h' : Refreshed done k w' w'') : Refreshed done k w w'' where
  mem_log d hd := h'.mem_log d (h.mem_log d hd)
  isValid a ha := h'.isValid a (h.isValid a ha)
  above a ha := (h'.above a ha).trans (h.above a ha)

theorem Refreshed.mono {k k' : Nat} (h : Refreshed done k w w') (hk : k ≤ k') :
    Refreshed done k' w w' :=
  ⟨h.mem_log, h.isValid, fun a ha => h.above a fun hmem => Nat.le_trans hk (ha hmem)⟩

theorem Met.mono {k : Nat} {r : String} (h : Met mgr w.log w.bare r)
    (hkept : Refreshed done k w w') : Met mgr w'.log w'.bare r := by
  obtain ⟨q, hq, hanalysis, htransform⟩ := h
  refine ⟨q, hq, fun ha => hkept.isValid r (hanalysis ha), fun ht => ?_⟩
  obtain ⟨d, hd, hpass⟩ := htransform ht
  exact ⟨d, hkept.mem_log d hd, hpass⟩

/-! ## Calls -/

/-- The state after a call of a pass that the manager has accepted. -/
structure Accepts (mgr : Manager σ) (w : Work (Watched σ)) (p : Pass σ)
    (w' : Work (Watched σ)) : Prop where
  log_eq : w'.log = w.log ++ [w.calling p]
  bare_eq : w'.bare = (w.calling p).settled
  setup : SameSetup w.manager w'.manager
  fine : ¬ (w.calling p).Fails mgr

theorem OnCourse.accept {p : Pass σ} {done' : List (Pass σ)} (h : OnCourse mgr start done w)
    (hw' : Accepts mgr w p w') (htrace : Trace mgr start done' (w.log ++ [w.calling p])) :
    OnCourse mgr start done' w' where
  trace := hw'.log_eq ▸ htrace
  setup := h.setup.trans hw'.setup
  linked := by
    rw [hw'.log_eq, hw'.bare_eq]
    exact .concat h.linked
  fine c hc := by
    rw [hw'.log_eq] at hc
    rcases List.mem_append.1 hc with hc | hc
    · exact h.fine c hc
    · obtain rfl : c = w.calling p := by simpa using hc
      exact hw'.fine

/-- An analysis changes its own mark only. -/
theorem Accepts.refreshed (htame : mgr.Tame) {p : Pass σ} (h : Accepts mgr w p w')
    (hp : p ∈ mgr.passes) (hmem : p ∈ done) (hanalysis : p.isAnalysis = true) :
    Refreshed done ((done.map Pass.name).idxOf p.name + 1) w w' := by
  have hquiet := htame.quiet p hp hanalysis (w.calling p).env (w.calling p).before
  have hmark : ∀ a, w'.bare.cache.isValid a = true ↔
      p.name = a ∨ w.bare.cache.isValid a = true := by
    intro a
    rw [h.bare_eq, isValid_settled_iff htame hp]
    simp only [show (w.calling p).outcome.modified = false from hquiet, Bool.false_eq_true,
      false_implies, and_true]
    simp [Work.calling, hanalysis]
  refine ⟨fun d hd => ?_, fun a ha => (hmark a).2 (Or.inr ha), fun a ha => ?_⟩
  · rw [h.log_eq]
    exact List.mem_append_left _ hd
  · have hne : p.name ≠ a := by
      rintro rfl
      have := ha (List.mem_map.2 ⟨p, hmem, rfl⟩)
      omega
    rw [Bool.eq_iff_iff, hmark a]
    simp [hne]

/-- **The call of an analysis** that does not fail. -/
theorem accepts_analysis (mgr : Manager σ) {p : Pass σ} (counted : Bool → Bool)
    (hanalysis : p.isAnalysis = true) (hfailure : (w.calling p).outcome.failure = none) :
    Accepts mgr w p ((w.runPass p.watched counted).2.markValid p.name) := by
  obtain ⟨-, hbare, hlog⟩ := w.runPass_bare p counted
  have hsetup := w.runPass_setup p.watched counted
  have hcalling : (w.calling p).pass.isAnalysis = true := hanalysis
  refine ⟨hlog, ?_, ⟨hsetup.passes_eq, hsetup.checker_eq, hsetup.verifyModified_eq⟩, ?_⟩
  · rw [Invocation.settled, if_pos hcalling, ← hbare]
    rfl
  · rintro (hfails | ⟨htransform, -⟩)
    · exact hfails hfailure
    · exact absurd (htransform.symm.trans hcalling) (by decide)

/-- **The call of a transformation** that does not fail: the manager accepts what it has done, or
goes no further. -/
theorem OnCourse.ends_afterPass_transform {p : Pass σ} (counted : Bool → Bool) {before : UInt64}
    (htransform : p.isAnalysis = false) (h : OnCourse mgr start done w)
    (hbefore : w.manager.verifyModified = true → before = w.listing.fingerprint)
    (hfailure : (w.calling p).outcome.failure = none) :
    Ends (Accepts mgr w p) (fun _ w' => w'.log = w.log ++ [w.calling p])
      (afterPass p.watched before (w.calling p).outcome.modified
        (w.runPass p.watched counted).2) := by
  have hchecker : w.manager.checker = mgr.checker := h.setup.checker_eq
  have hverify : w.manager.verifyModified = mgr.verifyModified := h.setup.verifyModified_eq
  obtain ⟨-, hbare, hlog⟩ := w.runPass_bare p counted
  have hsetup := w.runPass_setup p.watched counted
  generalize (w.runPass p.watched counted).2 = w₁ at hbare hlog hsetup ⊢
  have hlisting : (w.calling p).after.listing = w₁.listing := congrArg Run.listing hbare.symm
  have hsettled : (w.calling p).settled = { w₁.bare with
      cache := if (w.calling p).outcome.modified then
        p.invalidates.foldl Cache.invalidate w₁.bare.cache else w₁.bare.cache } := by
    rw [Invocation.settled, if_neg (by simp [Work.calling, htransform]), hbare]
    rfl
  unfold afterPass
  rw [hsetup.checker_eq, hchecker, hsetup.verifyModified_eq, hverify]
  cases hmodified : (w.calling p).outcome.modified with
  | true =>
    rw [if_pos rfl]
    rcases hverified : mgr.checker.verifyModule (some w₁.listing) with _ | e | _
    · refine ⟨hlog, ?_, ⟨hsetup.passes_eq, hsetup.checker_eq, hsetup.verifyModified_eq⟩, ?_⟩
      · rw [hsettled, hmodified, if_pos rfl]
        rfl
      · simp [Invocation.Fails, hfailure, hmodified, hlisting, hverified]
    · exact hlog
    · exact hlog
  | false =>
    rw [if_neg (by simp)]
    split
    · exact hlog
    · rename_i haccepted
      refine ⟨hlog, ?_, hsetup, ?_⟩
      · rw [hsettled, hmodified, if_neg (by simp)]
      · rintro (hfails | ⟨-, ⟨htrue, -⟩ | ⟨-, hstrict, hchanged⟩⟩)
        · exact hfails hfailure
        · simp [hmodified] at htrue
        · rw [hlisting] at hchanged
          rw [hverify] at hbefore
          simp only [hstrict, hbefore hstrict, Bool.true_and, decide_eq_true_eq] at haccepted
          exact haccepted hchanged

/-- **The call of a pass in its turn.** -/
theorem OnCourse.ends_attempt (htame : mgr.Tame) {p : Pass σ} (hp : p ∈ mgr.passes)
    (h : OnCourse mgr start done w) :
    Ends (Accepts mgr w p) (fun _ w' => w'.log = w.log ∨ w'.log = w.log ++ [w.calling p])
      (attempt p.watched w) := by
  obtain ⟨hout, -, hlog⟩ := w.runPass_bare p id
  unfold attempt
  cases p.watched.refusal? (w.manager.envFor p.watched.name) w.listing with
  | some f => exact Or.inl rfl
  | none =>
    dsimp only
    match hrun : w.runPass p.watched id with
    | (⟨_, some f⟩, w₁) =>
      rw [hrun] at hlog
      exact Or.inr hlog
    | (⟨modified, none⟩, w₁) =>
      rw [hrun] at hout hlog
      have hfailure : (w.calling p).outcome.failure = none := congrArg Outcome.failure hout.symm
      have hmodified : modified = (w.calling p).outcome.modified := congrArg Outcome.modified hout
      have hw₁ : w₁ = (w.runPass p.watched id).2 := by rw [hrun]
      have hbefore : w.manager.verifyModified = true →
          (if w.manager.verifyModified then w.listing.fingerprint else 0) =
            w.listing.fingerprint := fun hstrict => by rw [if_pos hstrict]
      dsimp only
      generalize (if w.manager.verifyModified then w.listing.fingerprint else 0) = before
        at hbefore ⊢
      cases hanalysis : p.isAnalysis with
      | true =>
        have haccepts := accepts_analysis mgr (w := w) id hanalysis hfailure
        rw [← hw₁] at haccepts
        have hquiet : modified = false := hmodified.trans (htame.quiet p hp hanalysis _ _)
        rw [hquiet, if_pos (show p.watched.isAnalysis = true from hanalysis)]
        unfold afterPass
        rw [if_neg (by simp)]
        split
        · exact Or.inr hlog
        · exact haccepts
      | false =>
        rw [if_neg (show ¬ p.watched.isAnalysis = true by simp [Pass.watched, hanalysis]), hw₁,
          hmodified]
        exact (h.ends_afterPass_transform id hanalysis hbefore hfailure).imp (fun _ hw' => hw')
          fun _ _ hf => Or.inr hf

/-! ## Requirements -/

/-- **The requirements of a pass**, if each of them can be had. -/
theorem OnCourse.ends_required (fuel : Nat) {k : Nat} {rs : List String}
    (hrs : ∀ r ∈ rs, (done.map Pass.name).idxOf r < k)
    (hensure : ∀ r ∈ rs, ∀ w, OnCourse mgr start done w →
      Ends (fun w' => OnCourse mgr start done w' ∧
          Refreshed done ((done.map Pass.name).idxOf r + 1) w w' ∧ Met mgr w'.log w'.bare r)
        (fun _ w' => Trace mgr start done w'.log) (ensure fuel w r))
    (h : OnCourse mgr start done w) :
    Ends (fun w' => OnCourse mgr start done w' ∧ Refreshed done k w w' ∧
        ∀ r ∈ rs, Met mgr w'.log w'.bare r)
      (fun _ w' => Trace mgr start done w'.log) (inTurn (ensure fuel) rs w) := by
  have hall := ends_inTurn_all (R := fun r w' => Met mgr w'.log w'.bare r)
    (P := fun w' => OnCourse mgr start done w' ∧ Refreshed done k w w')
    (fun r hr w₁ hw₁ => (hensure r hr w₁ hw₁.1).imp (fun w₂ hw₂ => ?_) fun _ _ hf => hf)
    ⟨h, .refl done k w⟩
  · exact hall.imp (fun w₁ hw₁ => ⟨hw₁.1.1, hw₁.1.2, hw₁.2.1⟩) fun _ _ hf => hf
  · obtain ⟨hcourse, hkept, hmet⟩ := hw₂
    exact ⟨⟨hcourse, hw₁.2.trans (hkept.mono (hrs r hr))⟩, hmet, fun y hy => hy.mono hkept⟩


/-- **A requirement** is at hand in the end, and only what stands before it in the schedule has been
computed for it. -/
theorem OnCourse.ends_ensure (htame : mgr.Tame) (hdone : mgr.Partial [] done) (fuel : Nat) :
    ∀ r ∈ done.map Pass.name, (done.map Pass.name).idxOf r < fuel →
      ∀ w, OnCourse mgr start done w →
        Ends (fun w' => OnCourse mgr start done w' ∧
            Refreshed done ((done.map Pass.name).idxOf r + 1) w w' ∧ Met mgr w'.log w'.bare r)
          (fun _ w' => Trace mgr start done w'.log) (ensure fuel w r) := by
  induction fuel with
  | zero => exact fun r _ hr => absurd hr (by omega)
  | succ fuel ih =>
    intro r hr₀ hfuel w h
    obtain ⟨p, hp, rfl⟩ := List.mem_map.1 hr₀
    have hfind := hdone.found p hp
    have hregistered := (name_of_find? hfind).1
    rw [ensure, h.find?_eq, hfind]
    dsimp only [Option.map_some]
    have hwatched : p.watched.isAnalysis = p.isAnalysis := rfl
    rw [hwatched, show w.manager.cache = w.bare.cache from rfl]
    split
    · rename_i hskip
      refine ⟨h, .refl _ _ w, p, hfind, fun hanalysis => ?_, fun htransform => ?_⟩
      · simpa [hanalysis] using hskip
      · have hcalled : p ∈ transforms (w.log.map Invocation.pass) := by
          rw [h.trace.transforms_eq]
          simp [transforms, hp, htransform]
        obtain ⟨d, hd, hpass⟩ := List.mem_map.1 (List.mem_filter.1 hcalled).1
        exact ⟨d, hd, hpass⟩
    rename_i hstale
    obtain ⟨hanalysis, hstale⟩ : p.isAnalysis = true ∧ w.bare.cache.isValid p.name = false := by
      simpa using hstale
    have hrequires : p.watched.requires w.manager.world = p.requires mgr.world :=
      htame.requires_eq p hregistered _
    have hbefore := fun r (hr : r ∈ p.requires mgr.world) => hdone.idxOf_lt ⟨p, hfind, hr⟩ hr₀
    have hrequired := h.ends_required fuel (fun r hr => (hbefore r hr).2) fun r hr w hw =>
      ih r (hbefore r hr).1 (by have := (hbefore r hr).2; omega) w hw
    rw [hrequires]
    generalize inTurn (ensure fuel) (p.requires mgr.world) w = result at hrequired ⊢
    rcases result with ⟨_ | f, w₁⟩
    · obtain ⟨h₁, hkept, hmet⟩ := hrequired
      have hsound : Sound mgr start w₁.log (w₁.calling p) :=
        ⟨hfind, h₁.envFor_eq _, h₁.linked, h₁.fine,
          fun _ => (hkept.above p.name fun _ => Nat.le_refl _).trans hstale, hmet⟩
      obtain ⟨hout, -, hlog⟩ := w₁.runPass_bare p fun _ => false
      dsimp only
      rcases hrun : w₁.runPass p.watched fun _ => false with ⟨⟨_, _ | f⟩, w₂⟩
      · rw [hrun] at hout
        have haccepts := accepts_analysis mgr (w := w₁) (fun _ => false) hanalysis
          (congrArg Outcome.failure hout.symm)
        rw [hrun] at haccepts
        have hfresh := haccepts.refreshed htame hregistered hp hanalysis
        refine ⟨h₁.accept haccepts (h₁.trace.again hsound hp hanalysis),
          (hkept.mono (Nat.le_succ _)).trans hfresh, p, hfind, fun _ => ?_, fun htransform => ?_⟩
        · rw [haccepts.bare_eq, isValid_settled_iff htame hregistered]
          exact Or.inl ⟨hanalysis, rfl⟩
        · simp [hanalysis] at htransform
      · rw [hrun] at hlog
        change Trace mgr start done w₂.log
        rw [show w₂.log = _ from hlog]
        exact h₁.trace.again hsound hp hanalysis
    · exact hrequired

/-! ## Turns -/

/-- A run that stopped in the turn of a pass. The pass itself has been called last or not at all. -/
def Stopped (mgr : Manager σ) (start : Run σ) (order : List (Pass σ))
    (calls : List (Invocation σ)) : Prop :=
  ∃ done p rest earlier, order = done ++ p :: rest ∧ Trace mgr start done earlier ∧
    (calls = earlier ∨ ∃ c, calls = earlier ++ [c] ∧ c.pass = p ∧ Sound mgr start earlier c)

/-- **The turn of a pass.** -/
theorem OnCourse.ends_runPass (htame : mgr.Tame) {p : Pass σ} {rest : List (Pass σ)}
    (horder : mgr.Partial [] (done ++ p :: rest)) (h : OnCourse mgr start done w) :
    Ends (OnCourse mgr start (done ++ [p]))
      (fun _ w' => Stopped mgr start (done ++ p :: rest) w'.log) (runPass w p.watched) := by
  have hfind := horder.found p (by simp)
  have hregistered := (name_of_find? hfind).1
  have hdone := horder.of_append
  rw [runPass_eq, show p.watched.isAnalysis = p.isAnalysis from rfl,
    show w.manager.cache.isValid p.watched.name = w.bare.cache.isValid p.name from rfl]
  split
  · rename_i hvalid
    have hanalysis : p.isAnalysis = true := (Bool.and_eq_true_iff.1 hvalid).1
    exact ⟨h.trace.skip hanalysis, h.setup, h.linked, h.fine⟩
  rename_i hstale
  have hstale : p.isAnalysis = true → w.bare.cache.isValid p.name = false := by simpa using hstale
  have hrequires : p.watched.requires w.manager.world = p.requires mgr.world :=
    htame.requires_eq p hregistered _
  have hlength : w.manager.passes.length = mgr.passes.length := by
    rw [h.setup.passes_eq]
    exact List.length_map _
  rw [hrequires, hlength]
  have hbefore := horder.ordered done p rest rfl
  have hfuel : ∀ r ∈ p.requires mgr.world, (done.map Pass.name).idxOf r < done.length :=
    fun r hr => by simpa using List.idxOf_lt_length_of_mem (hbefore r hr)
  have hshort := hdone.length_le
  have hrequired := h.ends_required (mgr.passes.length + 1) hfuel fun r hr =>
    OnCourse.ends_ensure htame hdone _ r (hbefore r hr) (by have := hfuel r hr; omega)
  match hturn : inTurn (ensure (mgr.passes.length + 1)) (p.requires mgr.world) w with
  | (some f, w₁) =>
    rw [hturn] at hrequired
    exact ⟨done, p, rest, w₁.log, rfl, hrequired, Or.inl rfl⟩
  | (none, w₁) =>
    rw [hturn] at hrequired
    obtain ⟨h₁, hkept, hmet⟩ := hrequired
    have hmark : w₁.bare.cache.isValid p.name = w.bare.cache.isValid p.name :=
      hkept.above p.name fun hmem => absurd hmem horder.name_notMem
    have hsound : Sound mgr start w₁.log (w₁.calling p) :=
      ⟨hfind, h₁.envFor_eq _, h₁.linked, h₁.fine, fun hanalysis => hmark.trans (hstale hanalysis),
        hmet⟩
    refine (h₁.ends_attempt htame hregistered).imp
      (fun w₂ hw₂ => h₁.accept hw₂ (h₁.trace.turn hsound)) fun _ w₂ hw₂ => ?_
    refine ⟨done, p, rest, w₁.log, rfl, h₁.trace, hw₂.imp id fun hlog => ?_⟩
    exact ⟨w₁.calling p, hlog, rfl, hsound⟩

theorem OnCourse.ends_runCounted (htame : mgr.Tame) {p : Pass σ} {rest : List (Pass σ)}
    (horder : mgr.Partial [] (done ++ p :: rest)) (h : OnCourse mgr start done w) :
    Ends (OnCourse mgr start (done ++ [p]))
      (fun _ w' => Stopped mgr start (done ++ p :: rest) w'.log) (runCounted w p.watched) := by
  have hpass := h.ends_runPass htame horder
  unfold runCounted
  generalize runPass w p.watched = result at hpass ⊢
  match result with
  | (none, w') => exact hpass
  | (some .fault, w') => exact hpass
  | (some (.error e), w') => exact hpass

/-- **All turns**, those of the passes in `done` being over. -/
theorem OnCourse.ends_turns (htame : mgr.Tame) (rest : List (Pass σ)) :
    ∀ done w, mgr.Partial [] (done ++ rest) → OnCourse mgr start done w →
      Ends (OnCourse mgr start (done ++ rest))
        (fun _ w' => Stopped mgr start (done ++ rest) w'.log)
        (inTurn runCounted (rest.map Pass.watched) w) := by
  induction rest with
  | nil =>
    intro done w _ h
    rw [List.append_nil]
    exact h
  | cons p rest ih =>
    intro done w horder h
    have hp := h.ends_runCounted htame horder
    rw [List.map_cons, inTurn]
    generalize runCounted w p.watched = result at hp ⊢
    rcases result with ⟨_ | f, w'⟩
    · have hrest := ih (done ++ [p]) w'
      rw [List.append_assoc] at hrest
      exact hrest horder hp
    · exact hp

/-- The state in which a run starts. -/
def initial (mgr : Manager σ) (l : Listing) : Run σ :=
  Work.toRun ⟨{ mgr with cache := {} }, l⟩

/-- **A whole run**, with its calls on record. -/
theorem ends_run_watched (htame : mgr.Tame) {order : List (Pass σ)}
    (hsort : mgr.sortPasses = .ok order) (l : Listing) :
    Ends (OnCourse mgr (mgr.initial l) order)
      (fun _ w' => Stopped mgr (mgr.initial l) order w'.log) ((mgr.watched []).run l) := by
  have horder : mgr.Partial [] order := by
    have hyields := yields_sortPasses mgr
    rw [hsort] at hyields
    exact hyields.1
  unfold run
  rw [sortPasses_watched, hsort]
  refine OnCourse.ends_turns htame order [] _ horder ⟨.nil mgr _, ⟨rfl, rfl, rfl⟩, .nil, ?_⟩
  exact fun c hc => absurd hc List.not_mem_nil

theorem run_onCourse (htame : mgr.Tame) {order : List (Pass σ)} (hsort : mgr.sortPasses = .ok order)
    {l : Listing} (hrun : (mgr.run l).1 = none) :
    OnCourse mgr (mgr.initial l) order ((mgr.run l).2.watched (mgr.invocations l)) := by
  have hends := ends_run_watched htame hsort l
  rw [run_watched, hrun] at hends
  exact hends

theorem run_stopped (htame : mgr.Tame) {order : List (Pass σ)} (hsort : mgr.sortPasses = .ok order)
    {l : Listing} (hrun : (mgr.run l).1 ≠ none) :
    Stopped mgr (mgr.initial l) order (mgr.invocations l) := by
  have hends := ends_run_watched htame hsort l
  obtain ⟨f, hf⟩ := Option.ne_none_iff_exists'.1 hrun
  rw [run_watched, hf] at hends
  exact hends

/-- **Every call of a run is sound**, however the run ends. -/
theorem invocations_sound (htame : mgr.Tame) {l : Listing} {l₁ l₂ : List (Invocation σ)}
    {c : Invocation σ} (heq : mgr.invocations l = l₁ ++ c :: l₂) :
    Sound mgr (mgr.initial l) l₁ c := by
  cases hsort : mgr.sortPasses with
  | error e =>
    have hnil : mgr.invocations l = [] := by
      unfold invocations run
      rw [sortPasses_watched, hsort]
      rfl
    rw [hnil] at heq
    simp at heq
  | ok order =>
    cases hrun : (mgr.run l).1 with
    | none => exact (run_onCourse htame hsort hrun).trace.sound l₁ c l₂ heq
    | some f =>
      obtain ⟨done, p, rest, earlier, -, htrace, hcalls | ⟨d, hcalls, -, hd⟩⟩ :=
        run_stopped htame hsort (l := l) (by simp [hrun])
      · exact htrace.sound l₁ c l₂ (hcalls.symm.trans heq)
      · exact (htrace.turn hd).sound l₁ c l₂ (hcalls.symm.trans heq)

theorem invocations_registered (htame : mgr.Tame) {l : Listing} {c : Invocation σ}
    (hc : c ∈ mgr.invocations l) : c.pass ∈ mgr.passes := by
  obtain ⟨l₁, l₂, heq⟩ := List.append_of_mem hc
  exact (name_of_find? (invocations_sound htame heq).found).1

/-- **The calls of a run.** Whatever is called, all that it requires is at hand: analyses are valid,
and transformations have been called without failing. Valid are the analyses that are current, and
none of those is called. A call that fails is the last. If the run succeeds, every transformation
has been called once and in the order of the schedule. If it stops in the turn of a pass, that holds
of the passes before it, and the pass itself has been called last or not at all. -/
theorem run_calls_in_order (htame : mgr.Tame) {order : List (Pass σ)}
    (hsort : mgr.sortPasses = .ok order) (l : Listing) :
    (order.map Pass.name).Nodup ∧
      (∀ l₁ c l₂, mgr.invocations l = l₁ ++ c :: l₂ →
        (∀ r ∈ c.pass.requires mgr.world, ∃ q, mgr.find? r = some q ∧
          (q.isAnalysis = true → c.before.cache.isValid r = true) ∧
          (q.isAnalysis = false → ∃ d ∈ l₁, d.pass = q ∧ ¬ d.Fails mgr)) ∧
        (∀ a, c.before.cache.isValid a = true ↔ Current l₁ a) ∧
        (c.pass.isAnalysis = true → ¬ Current l₁ c.pass.name) ∧
        (c.Fails mgr → l₂ = [])) ∧
      ((mgr.run l).1 = none →
        transforms ((mgr.invocations l).map Invocation.pass) = transforms order ∧
        ∀ c ∈ mgr.invocations l, ¬ c.Fails mgr) ∧
      ((mgr.run l).1 ≠ none → ∃ done p rest earlier, order = done ++ p :: rest ∧
        (mgr.invocations l = earlier ∨ ∃ c, mgr.invocations l = earlier ++ [c] ∧ c.pass = p) ∧
        (∀ c ∈ earlier, c.pass ∈ done) ∧
        transforms (earlier.map Invocation.pass) = transforms done) := by
  have hyields := yields_sortPasses mgr
  rw [hsort] at hyields
  refine ⟨hyields.1.nodup, fun l₁ c l₂ heq => ?_, fun hrun => ?_, fun hrun => ?_⟩
  · have hsound := invocations_sound htame heq
    have hcurrent : ∀ {a}, c.before.cache.isValid a = true ↔ Current l₁ a :=
      hsound.linked.isValid_iff htame rfl fun d hd =>
        invocations_registered htame (l := l) (by simp [heq, hd])
    refine ⟨fun r hr => ?_, fun a => hcurrent, fun hanalysis => ?_, fun hfails => ?_⟩
    · obtain ⟨q, hq, hanalysis, htransform⟩ := hsound.required r hr
      refine ⟨q, hq, hanalysis, fun ht => ?_⟩
      obtain ⟨d, hd, hpass⟩ := htransform ht
      exact ⟨d, hd, hpass, hsound.fine d hd⟩
    · rw [← hcurrent, hsound.stale hanalysis]
      decide
    · -- any later call would be sound, after calls none of which failed
      cases l₂ with
      | nil => rfl
      | cons d l₂ =>
        have hnext : Sound mgr (mgr.initial l) (l₁ ++ [c]) d :=
          invocations_sound htame (show mgr.invocations l = (l₁ ++ [c]) ++ d :: l₂ by simp [heq])
        exact absurd hfails (hnext.fine c (by simp))
  · have hcourse := run_onCourse htame hsort hrun
    exact ⟨hcourse.trace.transforms_eq, hcourse.fine⟩
  · obtain ⟨done, p, rest, earlier, horder, htrace, hcalls⟩ := run_stopped htame hsort hrun
    refine ⟨done, p, rest, earlier, horder, hcalls.imp id ?_, htrace.mem, htrace.transforms_eq⟩
    exact fun ⟨c, hcall, hpass, _⟩ => ⟨c, hcall, hpass⟩

/-- Two analyses, a transformation after which both are stale, and one that requires the second of
them once more. -/
def staleRequirement : Manager Unit where
  passes := [{ idlePass "cfg" [] with isAnalysis := true },
    { idlePass "domtree" ["cfg"] with isAnalysis := true },
    { idlePass "split" ["domtree"] with
      invalidates := ["cfg", "domtree"]
      onModule := fun _ r => ({ modified := true }, r) },
    idlePass "dce" ["domtree", "split"]]
  world := ()

theorem staleRequirement_tame : staleRequirement.Tame where
  requires_eq _ _ _ := rfl
  quiet := by simp [staleRequirement, idlePass]
  spares := by simp [staleRequirement, idlePass]

theorem run_calls_of_staleRequirement :
    staleRequirement.Tame ∧
      staleRequirement.sortPasses = .ok staleRequirement.passes ∧
      (staleRequirement.run (.ofModule ⟨"m", []⟩)).1 = none ∧
      (staleRequirement.invocations (.ofModule ⟨"m", []⟩)).map (fun c => c.pass.name) =
        ["cfg", "domtree", "split", "cfg", "domtree", "dce"] ∧
      transforms ((staleRequirement.invocations (.ofModule ⟨"m", []⟩)).map Invocation.pass) =
        transforms staleRequirement.passes ∧
      ∀ l₁ c l₂, staleRequirement.invocations (.ofModule ⟨"m", []⟩) = l₁ ++ c :: l₂ →
        ∀ a, c.before.cache.isValid a = true ↔ Current l₁ a := by
  have hsort : staleRequirement.sortPasses = .ok staleRequirement.passes := rfl
  have hrun : (staleRequirement.run (.ofModule ⟨"m", []⟩)).1 = none := rfl
  obtain ⟨-, hcalls, hsuccess, -⟩ :=
    run_calls_in_order staleRequirement_tame hsort (.ofModule ⟨"m", []⟩)
  exact ⟨staleRequirement_tame, hsort, hrun, rfl, (hsuccess hrun).1,
    fun l₁ c l₂ heq => (hcalls l₁ c l₂ heq).2.1⟩

end Manager

end SsaOpt
