import Mathlib.Data.List.Induction
import Mathlib.Data.List.Nodup
import SsaOpt.Pass.Manager

/-!
# Registration

A registry is asked to take in a batch of passes. `Registry.Ends` says how this can end, and what
the batch is like in each case: a name comes twice, a requirement is not met, a pass refuses, or all
of them are entered. In the case of a refusal the passes have been entered and are taken out again;
this gives back the list of passes and the index as they were (`rollback_foldl_insert`), since all
names of the batch are new.

So what a registry owes (`Registry.Consistent`) is kept by each attempt and by a whole history of
attempts, and a manager with the same history holds the same passes (`tryRegisterAll_eq`).
`registration_atomic_and_consistent` says what becomes of each attempt.
-/

namespace SsaOpt

variable {σ : Type}

namespace Manager

/-! ## Errors -/

theorem duplicateErr_inj {m n : String} (h : duplicateErr m = duplicateErr n) : m = n :=
  (PassFailure.mk.inj (Err.failed.inj h)).2.1

theorem duplicateErr_ne_missingErr (m n q : String) : duplicateErr m ≠ missingErr n q :=
  fun h => Kind.noConfusion (PassFailure.mk.inj (Err.failed.inj h)).1

/-- A refusal is in words of its own. -/
theorem refusal_ne_failed {checker : Checker} {p : Pass σ} {e : Err} (f : PassFailure)
    (h : p.registrationRefusal? checker = some e) : e ≠ .failed f := by
  obtain ⟨cause, -, rfl⟩ := Option.map_eq_some_iff.1 h
  exact Err.noConfusion

/-! ## What is found before anything is changed -/

theorem firstRepeat?_eq_none {registered batch : List String}
    (h : firstRepeat? registered batch = none) :
    batch.Nodup ∧ ∀ n ∈ batch, n ∉ registered := by
  induction batch generalizing registered with
  | nil => simp
  | cons n rest ih =>
    rw [firstRepeat?] at h
    split at h
    · cases h
    next hn =>
    obtain ⟨hnodup, hnew⟩ := ih h
    refine ⟨List.nodup_cons.2 ⟨fun hmem => hnew n hmem (by simp), hnodup⟩, fun k hk => ?_⟩
    rcases List.mem_cons.1 hk with rfl | hk
    · simpa using hn
    · exact fun hmem => hnew k hk (by simp [hmem])

theorem firstRepeat?_eq_some {registered batch : List String} {n : String}
    (h : firstRepeat? registered batch = some n) : 1 < (registered ++ batch).count n := by
  induction batch generalizing registered with
  | nil => cases h
  | cons k rest ih =>
    rw [firstRepeat?] at h
    split at h
    next hk =>
      obtain rfl := Option.some.inj h
      have hregistered : 0 < registered.count k := List.count_pos_iff.2 (by simpa using hk)
      rw [List.count_append, List.count_cons_self]
      omega
    · rw [List.perm_middle.count_eq]
      exact ih h

theorem firstMissing?_eq_none {world : σ} {known : List String} {batch : List (Pass σ)}
    (h : firstMissing? world known batch = none) :
    ∀ p ∈ batch, ∀ r ∈ p.requires world, r ∈ known := by
  intro p hp r hr
  have hfound := List.findSome?_eq_none_iff.1 h p hp
  rw [Option.map_eq_none_iff, List.find?_eq_none] at hfound
  simpa using hfound r hr

theorem firstMissing?_eq_some {world : σ} {known : List String} {batch : List (Pass σ)} {e : Err}
    (h : firstMissing? world known batch = some e) :
    ∃ p ∈ batch, ∃ q ∈ p.requires world, q ∉ known ∧ e = missingErr p.name q := by
  obtain ⟨p, hp, hfound⟩ := List.exists_of_findSome?_eq_some h
  obtain ⟨q, hq, rfl⟩ := Option.map_eq_some_iff.1 hfound
  have hunknown := List.find?_some hq
  exact ⟨p, hp, q, List.mem_of_find?_eq_some hq, by simpa using hunknown, rfl⟩

end Manager

namespace Registry

variable {checker : Checker} {world : σ} {known : List String} {r r' : Registry σ}
  {batch : List (Pass σ)} {err : Option Err}

/-! ## Entering passes and taking them out -/

/-- A pass as an entry of the index. -/
def entry (p : Pass σ) : String × Pass σ := (p.name, p)

/-- Names that are new to a registry, and none of them twice. -/
structure Fresh (r : Registry σ) (batch : List (Pass σ)) : Prop where
  nodup : (batch.map Pass.name).Nodup
  new : ∀ n ∈ batch.map Pass.name, n ∉ r.names

theorem erase_eq_self {index : List (String × Pass σ)} {name : String}
    (h : name ∉ index.map Prod.fst) : erase index name = index :=
  List.filter_eq_self.2 fun e he => by
    simpa using fun heq : e.1 = name => h (heq ▸ List.mem_map_of_mem he)

theorem foldl_erase (names : List String) (index : List (String × Pass σ)) :
    names.foldl erase index = index.filter fun e => e.1 ∉ names := by
  induction names generalizing index with
  | nil => simp
  | cons n names ih =>
    rw [List.foldl_cons, ih, erase, List.filter_filter]
    refine List.filter_congr fun e _ => ?_
    simp [Bool.and_comm]

theorem foldl_insert (h : r.Fresh batch) :
    batch.foldl insert r = ⟨r.passes ++ batch, r.index ++ batch.map entry⟩ := by
  induction batch generalizing r with
  | nil => simp
  | cons p batch ih =>
    obtain ⟨hp, hnodup⟩ := List.nodup_cons.1 h.nodup
    have hinsert : r.insert p = ⟨r.passes ++ [p], r.index ++ [entry p]⟩ := by
      rw [insert, erase_eq_self (h.new p.name (by simp))]
      rfl
    have hfresh : (r.insert p).Fresh batch := by
      refine ⟨hnodup, fun n hn hmem => ?_⟩
      rw [hinsert, names, List.map_append, List.mem_append] at hmem
      rcases hmem with hmem | hmem
      · exact h.new n (List.mem_cons_of_mem _ hn) hmem
      · obtain rfl : n = p.name := List.mem_singleton.1 hmem
        exact hp hn
    rw [List.foldl_cons, ih hfresh, hinsert]
    simp

/-- What has been entered is taken out again without a trace. -/
theorem rollback_foldl_insert (h : r.Fresh batch) :
    (batch.foldl insert r).rollback batch.length = r := by
  have hold : ∀ e ∈ r.index, e.1 ∉ batch.map Pass.name := fun e he hmem =>
    h.new e.1 hmem (List.mem_map_of_mem he)
  have hnew : ∀ e ∈ batch.map entry, e.1 ∈ batch.map Pass.name := by
    intro e he
    obtain ⟨p, hp, rfl⟩ := List.mem_map.1 he
    exact List.mem_map_of_mem hp
  have hindex : (r.index ++ batch.map entry).filter (fun e => e.1 ∉ batch.map Pass.name) =
      r.index := by
    rw [List.filter_append, List.filter_eq_self.2 (by simpa using hold),
      List.filter_eq_nil_iff.2 (by simpa using hnew), List.append_nil]
  have hlength : (r.passes ++ batch).length - batch.length = r.passes.length := by simp
  rw [foldl_insert h, rollback, foldl_erase, hlength, List.take_left, List.drop_left, hindex]

/-! ## One attempt -/

/-- How an attempt to register a batch can end: with which error, and with which registry. -/
inductive Ends (checker : Checker) (world : σ) (known : List String) (r : Registry σ)
    (batch : List (Pass σ)) : Option Err → Registry σ → Prop
  | repeated (n : String) (hn : 1 < (r.names ++ batch.map Pass.name).count n) :
    Ends checker world known r batch (some (Manager.duplicateErr n)) r
  | lacking (p : Pass σ) (q : String) (hfresh : r.Fresh batch) (hp : p ∈ batch)
    (hq : q ∈ p.requires world) (hunknown : q ∉ known) :
    Ends checker world known r batch (some (Manager.missingErr p.name q)) r
  | refused (p : Pass σ) (e : Err) (hfresh : r.Fresh batch)
    (hmet : ∀ p ∈ batch, ∀ q ∈ p.requires world, q ∈ known) (hp : p ∈ batch)
    (he : p.registrationRefusal? checker = some e) :
    Ends checker world known r batch (some e) r
  | entered (hfresh : r.Fresh batch) (hmet : ∀ p ∈ batch, ∀ q ∈ p.requires world, q ∈ known)
    (hagreed : ∀ p ∈ batch, p.registrationRefusal? checker = none) :
    Ends checker world known r batch none ⟨r.passes ++ batch, r.index ++ batch.map entry⟩

theorem ends_add (h : r.add checker world known batch = (err, r')) :
    Ends checker world known r batch err r' := by
  unfold add at h
  split at h
  next n hrepeat =>
    cases h
    exact .repeated n (Manager.firstRepeat?_eq_some hrepeat)
  next hrepeat =>
  obtain ⟨hnodup, hnew⟩ := Manager.firstRepeat?_eq_none hrepeat
  have hfresh : r.Fresh batch := ⟨hnodup, hnew⟩
  split at h
  next e hmissing =>
    cases h
    obtain ⟨p, hp, q, hq, hunknown, rfl⟩ := Manager.firstMissing?_eq_some hmissing
    exact .lacking p q hfresh hp hq hunknown
  next hmissing =>
  have hmet := Manager.firstMissing?_eq_none hmissing
  dsimp only at h
  split at h
  next e hrefusal =>
    obtain ⟨p, hp, he⟩ := List.exists_of_findSome?_eq_some hrefusal
    cases h
    rw [rollback_foldl_insert hfresh]
    exact .refused p e hfresh hmet hp he
  next hagreed =>
    cases h
    rw [foldl_insert hfresh]
    exact .entered hfresh hmet (List.findSome?_eq_none_iff.1 hagreed)

theorem Ends.eq_self_of_error {e : Err} (h : Ends checker world known r batch (some e) r') :
    r' = r := by
  cases h <;> rfl

theorem Ends.one_lt_count {n : String}
    (h : Ends checker world known r batch (some (Manager.duplicateErr n)) r') :
    1 < (r.names ++ batch.map Pass.name).count n := by
  generalize herr : some (Manager.duplicateErr n) = err at h
  cases h with
  | repeated m hm => exact Manager.duplicateErr_inj (Option.some.inj herr) ▸ hm
  | lacking p q => exact absurd (Option.some.inj herr) (Manager.duplicateErr_ne_missingErr _ _ _)
  | refused p e _ _ _ he =>
    obtain rfl := Option.some.inj herr
    exact absurd rfl (Manager.refusal_ne_failed _ he)
  | entered => cases herr

/-! ## What a registry owes -/

/-- The index holds the registered passes, each under its own name; no name comes twice; and nothing
is required that is not registered. -/
structure Consistent (world : σ) (r : Registry σ) : Prop where
  indexed : r.index = r.passes.map entry
  nodup : (r.passes.map Pass.name).Nodup
  closed : ∀ p ∈ r.passes, ∀ q ∈ p.requires world, q ∈ r.passes.map Pass.name

namespace Consistent

theorem empty : Consistent world {} :=
  ⟨rfl, List.nodup_nil, by simp⟩

theorem names_eq (h : r.Consistent world) : r.names = r.passes.map Pass.name := by
  rw [names, h.indexed, List.map_map]
  rfl

theorem fresh_iff (h : r.Consistent world) :
    r.Fresh batch ↔ ((r.passes ++ batch).map Pass.name).Nodup := by
  rw [List.map_append, List.nodup_append, ← h.names_eq]
  constructor
  · intro hfresh
    exact ⟨h.names_eq ▸ h.nodup, hfresh.nodup, fun a ha b hb heq => hfresh.new b hb (heq ▸ ha)⟩
  · rintro ⟨-, hnodup, hnew⟩
    exact ⟨hnodup, fun n hn hmem => hnew n hmem n hn rfl⟩

/-- **One attempt** keeps what a registry owes. -/
theorem ends (h : r.Consistent world) (hends : Ends checker world known r batch err r')
    (hknown : ∀ n ∈ known, n ∈ (r.passes ++ batch).map Pass.name) : r'.Consistent world := by
  cases hends with
  | repeated => exact h
  | lacking => exact h
  | refused => exact h
  | entered hfresh hmet _ =>
    refine ⟨by rw [h.indexed, List.map_append], h.fresh_iff.1 hfresh, fun p hp q hq => ?_⟩
    rcases List.mem_append.1 hp with hp | hp
    · rw [List.map_append]
      exact List.mem_append_left _ (h.closed p hp q hq)
    · exact hknown q (hmet p hp q hq)

/-- A name leads to the pass that has it. -/
theorem lookup_index (h : r.Consistent world) (n : String) (p : Pass σ) :
    r.index.lookup n = some p ↔ p ∈ r.passes ∧ p.name = n := by
  rw [h.indexed]
  have hnodup := h.nodup
  generalize r.passes = passes at hnodup ⊢
  induction passes with
  | nil => simp
  | cons first passes ih =>
    obtain ⟨hfirst, hnodup⟩ := List.nodup_cons.1 hnodup
    rw [List.map_cons, entry, List.lookup_cons, List.mem_cons]
    by_cases hn : n = first.name
    · subst hn
      rw [beq_self_eq_true]
      constructor
      · rintro heq
        obtain rfl := Option.some.inj heq
        exact ⟨.inl rfl, rfl⟩
      · rintro ⟨rfl | hp, hname⟩
        · rfl
        · exact absurd (hname ▸ List.mem_map_of_mem hp) hfirst
    · rw [beq_eq_false_iff_ne.2 hn]
      refine (ih hnodup).trans ⟨?_, ?_⟩
      · rintro ⟨hp, hname⟩
        exact ⟨.inr hp, hname⟩
      · rintro ⟨rfl | hp, hname⟩
        · exact absurd hname.symm hn
        · exact ⟨hp, hname⟩

end Consistent

end Registry

/-! ## Histories of attempts -/

namespace Manager

/-- An attempt to register one pass or a batch. -/
inductive Registration (σ : Type) where
  | one (p : Pass σ)
  | batch (ps : List (Pass σ))

namespace Registration

/-- The passes that are to be registered. -/
def passes : Registration σ → List (Pass σ)
  | .one p => [p]
  | .batch ps => ps

/-- What the passes may require although it is not registered yet. -/
def offers : Registration σ → List String
  | .one _ => []
  | .batch ps => ps.map Pass.name

/-- A name comes twice, among the passes or in them and the registry. -/
def Repeats (a : Registration σ) (r : Registry σ) : Prop :=
  ¬ ((r.passes ++ a.passes).map Pass.name).Nodup

/-- A requirement is neither registered nor offered. -/
def Lacks (a : Registration σ) (world : σ) (r : Registry σ) : Prop :=
  ∃ p ∈ a.passes, ∃ q ∈ p.requires world, q ∉ r.passes.map Pass.name ∧ q ∉ a.offers

theorem offers_subset (a : Registration σ) : ∀ n ∈ a.offers, n ∈ a.passes.map Pass.name := by
  cases a with
  | one p => simp [offers]
  | batch ps => exact fun n hn => hn

end Registration

end Manager

namespace Registry

open Manager

variable {checker : Checker} {world : σ} {r r' : Registry σ} {err : Option Err}
  {a : Registration σ}

/-- An attempt to register: what is wrong with it, and the registry afterwards. -/
def attempt (checker : Checker) (world : σ) (r : Registry σ) :
    Registration σ → Option Err × Registry σ
  | .one p => r.addOne checker world p
  | .batch ps => r.addBatch checker world ps

/-- The registry after some attempts on an empty one. -/
def after (checker : Checker) (world : σ) (attempts : List (Registration σ)) : Registry σ :=
  attempts.foldl (fun r a => (r.attempt checker world a).2) {}

theorem ends_attempt (checker : Checker) (world : σ) (r : Registry σ) (a : Registration σ) :
    Ends checker world (r.names ++ a.offers) r a.passes (r.attempt checker world a).1
      (r.attempt checker world a).2 := by
  cases a with
  | one p =>
    rw [Registration.offers, List.append_nil]
    exact ends_add rfl
  | batch ps => exact ends_add rfl

theorem Consistent.attempt (h : r.Consistent world)
    (hends : Ends checker world (r.names ++ a.offers) r a.passes err r') :
    r'.Consistent world := by
  refine h.ends hends fun n hn => ?_
  rw [List.map_append, ← h.names_eq]
  exact List.mem_append.2 ((List.mem_append.1 hn).imp_right (a.offers_subset n))

/-- **All attempts.** -/
theorem consistent_after (attempts : List (Registration σ)) :
    (after checker world attempts).Consistent world := by
  induction attempts using List.reverseRecOn with
  | nil => exact .empty
  | append_singleton attempts a ih =>
    rw [after, List.foldl_append]
    exact ih.attempt (ends_attempt checker world _ a)

/-- The requirements are met exactly if none is lacking. -/
theorem Consistent.met_iff (h : r.Consistent world) :
    (∀ p ∈ a.passes, ∀ q ∈ p.requires world, q ∈ r.names ++ a.offers) ↔ ¬ a.Lacks world r := by
  rw [h.names_eq]
  simp only [Registration.Lacks, List.mem_append, not_exists, not_and, not_not]
  constructor
  · exact fun hmet p hp q hq hunknown => (hmet p hp q hq).resolve_left hunknown
  · exact fun hmet p hp q hq => or_iff_not_imp_left.2 (hmet p hp q hq)

end Registry

namespace Manager

/-- An attempt to register: what is wrong with it, and the manager afterwards. -/
def tryRegister (mgr : Manager σ) : Registration σ → Option Err × Manager σ
  | .one p => mgr.tryAddPass p
  | .batch ps => mgr.tryAddPasses ps

/-- The manager after some attempts, whatever was wrong with them. -/
def tryRegisterAll (mgr : Manager σ) (attempts : List (Registration σ)) : Manager σ :=
  attempts.foldl (fun mgr a => (mgr.tryRegister a).2) mgr

/-- A manager does to its passes what its registry does. -/
theorem tryRegister_eq (mgr : Manager σ) (a : Registration σ) :
    mgr.tryRegister a =
      ((mgr.registry.attempt mgr.checker mgr.world a).1,
        { mgr with passes := (mgr.registry.attempt mgr.checker mgr.world a).2.passes }) := by
  cases a <;> rfl

theorem registry_eq (mgr : Manager σ) {r : Registry σ} {world : σ} (h : r.Consistent world) :
    registry { mgr with passes := r.passes } = r := by
  have hindex : r.passes.map (fun p => (p.name, p)) = r.index := h.indexed.symm
  rw [registry, hindex]

/-- **A manager and a registry** with the same history hold the same passes. -/
theorem tryRegisterAll_eq {start : Manager σ} (hstart : start.passes = [])
    (attempts : List (Registration σ)) :
    start.tryRegisterAll attempts =
      { start with passes := (Registry.after start.checker start.world attempts).passes } := by
  induction attempts using List.reverseRecOn with
  | nil =>
    rw [Registry.after, List.foldl_nil, ← hstart]
    rfl
  | append_singleton attempts a ih =>
    rw [tryRegisterAll, List.foldl_append, List.foldl_cons, List.foldl_nil, ← tryRegisterAll, ih,
      tryRegister_eq, registry_eq start (Registry.consistent_after attempts), Registry.after,
      Registry.after, List.foldl_append]
    rfl

/-! ## Attempts that have failed -/

/-- The manager after an attempt to register. -/
def register (mgr : Manager σ) : Registration σ → Manager σ
  | .one p => (mgr.addPass p).toOption.getD mgr
  | .batch ps => (mgr.addPasses ps).toOption.getD mgr

/-- The manager after some attempts to register. -/
def registerAll (mgr : Manager σ) (attempts : List (Registration σ)) : Manager σ :=
  attempts.foldl register mgr

/-- Nothing is left of an attempt that has failed. -/
theorem register_eq_tryRegister (mgr : Manager σ) (a : Registration σ) :
    mgr.register a = (mgr.tryRegister a).2 := by
  have hregister : mgr.register a = (orError (mgr.tryRegister a)).toOption.getD mgr := by
    cases a <;> rfl
  have hends := mgr.registry.ends_attempt mgr.checker mgr.world a
  rw [hregister, tryRegister_eq]
  generalize mgr.registry.attempt mgr.checker mgr.world a = out at hends ⊢
  obtain ⟨_ | e, r'⟩ := out
  · rfl
  · rw [hends.eq_self_of_error]
    rfl

variable {mgr : Manager σ}

/-- What registration keeps: no name twice, and nothing required that is not registered. -/
structure Registered (mgr : Manager σ) : Prop where
  nodup : (mgr.passes.map Pass.name).Nodup
  closed : ∀ p ∈ mgr.passes, ∀ r ∈ p.requires mgr.world, r ∈ mgr.passes.map Pass.name

theorem names_registry (mgr : Manager σ) : mgr.registry.names = mgr.passes.map Pass.name := by
  rw [registry, Registry.names, List.map_map]
  rfl

/-- What is registered with one pass. -/
theorem addPass_eq_ok {p : Pass σ} {mgr' : Manager σ} (h : mgr.addPass p = .ok mgr') :
    mgr' = { mgr with passes := mgr.passes ++ [p] } ∧ p.name ∉ mgr.passes.map Pass.name ∧
      ∀ r ∈ p.requires mgr.world, r ∈ mgr.passes.map Pass.name := by
  rcases hadd : mgr.registry.addOne mgr.checker mgr.world p with ⟨_ | e, r⟩
  · rw [addPass, tryAddPass, hadd] at h
    obtain rfl := Except.ok.inj h
    rw [← names_registry]
    cases Registry.ends_add hadd with
    | entered hfresh hmet _ => exact ⟨rfl, hfresh.new p.name (by simp), hmet p (by simp)⟩
  · rw [addPass, tryAddPass, hadd] at h
    cases h

/-- What is registered with a batch. -/
theorem addPasses_eq_ok {batch : List (Pass σ)} {mgr' : Manager σ}
    (h : mgr.addPasses batch = .ok mgr') :
    mgr' = { mgr with passes := mgr.passes ++ batch } ∧ (batch.map Pass.name).Nodup ∧
      (∀ n ∈ batch.map Pass.name, n ∉ mgr.passes.map Pass.name) ∧
      ∀ p ∈ batch, ∀ r ∈ p.requires mgr.world, r ∈ (mgr.passes ++ batch).map Pass.name := by
  rcases hadd : mgr.registry.addBatch mgr.checker mgr.world batch with ⟨_ | e, r⟩
  · rw [addPasses, tryAddPasses, hadd] at h
    obtain rfl := Except.ok.inj h
    rw [List.map_append, ← names_registry]
    cases Registry.ends_add hadd with
    | entered hfresh hmet _ => exact ⟨rfl, hfresh.nodup, hfresh.new, hmet⟩
  · rw [addPasses, tryAddPasses, hadd] at h
    cases h

theorem Registered.consistent (h : mgr.Registered) : mgr.registry.Consistent mgr.world :=
  ⟨rfl, h.nodup, h.closed⟩

/-- **One attempt.** -/
theorem Registered.register (h : mgr.Registered) (a : Registration σ) :
    (mgr.register a).Registered := by
  have hafter := h.consistent.attempt (mgr.registry.ends_attempt mgr.checker mgr.world a)
  rw [register_eq_tryRegister, tryRegister_eq]
  exact ⟨hafter.nodup, hafter.closed⟩

/-- **All attempts.** -/
theorem Registered.registerAll (h : mgr.Registered) (attempts : List (Registration σ)) :
    (mgr.registerAll attempts).Registered := by
  induction attempts generalizing mgr with
  | nil => exact h
  | cons attempt attempts ih => exact ih (h.register attempt)

theorem Registered.of_passes_eq_nil (h : mgr.passes = []) : mgr.Registered :=
  ⟨by simp [h], by simp [h]⟩

/-! ## What becomes of an attempt -/

/-- Which error there is, by what is wrong with the attempt. -/
theorem errors_iff {checker : Checker} {world : σ} {r r' : Registry σ} {a : Registration σ}
    {err : Option Err} (h : r.Consistent world)
    (hends : Registry.Ends checker world (r.names ++ a.offers) r a.passes err r') :
    ((∃ n, err = some (duplicateErr n)) ↔ a.Repeats r) ∧
      ((∃ n q, err = some (missingErr n q)) ↔ ¬ a.Repeats r ∧ a.Lacks world r) ∧
      (err = none ↔ ¬ a.Repeats r ∧ ¬ a.Lacks world r ∧
        ∀ p ∈ a.passes, p.registrationRefusal? checker = none) := by
  cases hends with
  | repeated n hn =>
    have hrepeats : a.Repeats r := fun hnodup => by
      rw [h.names_eq, ← List.map_append] at hn
      exact absurd (List.nodup_iff_count_le_one.1 hnodup n) (by omega)
    simp [hrepeats, duplicateErr_ne_missingErr]
  | lacking p q hfresh hp hq hunknown =>
    have hrepeats : ¬ a.Repeats r := not_not.2 (h.fresh_iff.1 hfresh)
    have hlacks : a.Lacks world r := by
      by_contra hmet
      exact hunknown (h.met_iff.2 hmet p hp q hq)
    simp [hrepeats, hlacks, (duplicateErr_ne_missingErr _ _ _).symm]
  | refused p e hfresh hmet hp he =>
    have hrepeats : ¬ a.Repeats r := not_not.2 (h.fresh_iff.1 hfresh)
    have hlacks : ¬ a.Lacks world r := h.met_iff.1 hmet
    have hrefused : ¬ ∀ p ∈ a.passes, p.registrationRefusal? checker = none := fun hagreed => by
      rw [hagreed p hp] at he
      cases he
    simp [hrepeats, hlacks, hrefused, duplicateErr, missingErr, refusal_ne_failed _ he]
  | entered hfresh hmet hagreed =>
    have hrepeats : ¬ a.Repeats r := not_not.2 (h.fresh_iff.1 hfresh)
    have hlacks : ¬ a.Lacks world r := h.met_iff.1 hmet
    simpa [hrepeats, hlacks] using hagreed

/-- **Registration.** A registry starts empty, some attempts are made on it, with whatever passes,
and one more follows. The registry is consistent afterwards, and its index leads from a name to a
pass exactly if the pass is registered and has that name. If something is wrong, the passes and the
index are what they were before. It is a duplicate exactly if a name comes twice, and the error
names it; it is a missing requirement exactly if no name comes twice and something is required that
is neither registered nor in the same batch; and nothing is wrong exactly if neither is so and all
passes agree, which then stand behind those that were registered. A manager that starts without
passes does the same, error by error. -/
theorem registration_atomic_and_consistent {start : Manager σ} (hstart : start.passes = [])
    (attempts : List (Registration σ)) (a : Registration σ) {r r' : Registry σ} {err : Option Err}
    (hr : Registry.after start.checker start.world attempts = r)
    (ha : r.attempt start.checker start.world a = (err, r')) :
    r'.Consistent start.world ∧
      (∀ n p, r'.index.lookup n = some p ↔ p ∈ r'.passes ∧ p.name = n) ∧
      (err.isSome → r' = r) ∧
      ((∃ n, err = some (duplicateErr n)) ↔ a.Repeats r) ∧
      (∀ n, err = some (duplicateErr n) → 1 < ((r.passes ++ a.passes).map Pass.name).count n) ∧
      ((∃ n q, err = some (missingErr n q)) ↔ ¬ a.Repeats r ∧ a.Lacks start.world r) ∧
      (err = none ↔ ¬ a.Repeats r ∧ ¬ a.Lacks start.world r ∧
        ∀ p ∈ a.passes, p.registrationRefusal? start.checker = none) ∧
      (err = none → r'.passes = r.passes ++ a.passes) ∧
      (start.tryRegisterAll attempts).registry = r ∧
      (start.tryRegisterAll attempts).tryRegister a =
        (err, { start with passes := r'.passes }) := by
  have hbefore : r.Consistent start.world := hr ▸ Registry.consistent_after attempts
  have hends := r.ends_attempt start.checker start.world a
  rw [ha] at hends
  have hafter := hbefore.attempt hends
  have hmanager : start.tryRegisterAll attempts = { start with passes := r.passes } := by
    rw [tryRegisterAll_eq hstart, hr]
  have hregistry : (start.tryRegisterAll attempts).registry = r := by
    rw [hmanager, registry_eq start hbefore]
  have hattempt : (start.tryRegisterAll attempts).tryRegister a =
      (err, { start with passes := r'.passes }) := by
    rw [tryRegister_eq, hregistry, hmanager, ha]
  obtain ⟨hduplicate, hmissing, hnone⟩ := errors_iff hbefore hends
  refine ⟨hafter, hafter.lookup_index, ?_, hduplicate, ?_, hmissing, hnone, ?_,
    hregistry, hattempt⟩
  · intro herr
    obtain ⟨e, rfl⟩ := Option.isSome_iff_exists.1 herr
    exact hends.eq_self_of_error
  · rintro n rfl
    rw [List.map_append, ← hbefore.names_eq]
    exact hends.one_lt_count
  · rintro rfl
    cases hends
    rfl

/-- A manager without passes. -/
def vacant : Manager Unit := { world := () }

/-- A pass that does nothing. -/
def idlePass (name : String) (requires : List String) : Pass Unit where
  name
  requires _ := requires
  onModule _ r := ({}, r)
  onFunction _ _ r := ({}, r)

/-- A pass that refuses to be registered. -/
def unwillingPass (name : String) (requires : List String) : Pass Unit :=
  { idlePass name requires with registrationErr? := fun _ => some (.plain "not safe") }

/-- A batch whose last pass refuses, although the first one relies on it. -/
def withdrawnBatch : Registration Unit :=
  .batch [idlePass "dce" ["licm", "cfg"], idlePass "hoist" [], unwillingPass "licm" ["loops"]]

/-- Three passes, and what becomes of them if a name comes again, if a pass requires itself, and if
a batch is withdrawn. -/
def disturbed : Registry Unit :=
  .after vacant.checker vacant.world
    [.batch [idlePass "loops" ["domtree"], idlePass "domtree" ["cfg"], idlePass "cfg" []],
      .one (idlePass "cfg" []), .one (idlePass "unroll" ["unroll"]), withdrawnBatch]

theorem registration_of_disturbed :
    disturbed.passes.map Pass.name = ["loops", "domtree", "cfg"] ∧
      (disturbed.attempt vacant.checker () withdrawnBatch).2 = disturbed ∧
      ¬ withdrawnBatch.Repeats disturbed ∧ ¬ withdrawnBatch.Lacks () disturbed ∧
      Registration.Lacks (.one (idlePass "unroll" ["unroll"])) () disturbed ∧
      ¬ Registration.Lacks (.batch [idlePass "unroll" ["unroll"]]) () disturbed ∧
      Registration.Repeats (.batch [idlePass "dce" ["licm"], idlePass "dce" []]) disturbed := by
  have hstart : vacant.passes = [] := rfl
  obtain ⟨-, -, hkept, hduplicate, -, hmissing, -⟩ :=
    registration_atomic_and_consistent hstart _ withdrawnBatch (r := disturbed) rfl rfl
  have hdistinct : ¬ withdrawnBatch.Repeats disturbed := fun h => by
    obtain ⟨n, hn⟩ := hduplicate.2 h
    cases hn
  have hmet : ¬ withdrawnBatch.Lacks () disturbed := fun h => by
    obtain ⟨n, q, hn⟩ := hmissing.2 ⟨hdistinct, h⟩
    cases hn
  obtain ⟨-, -, -, -, -, hself, -⟩ := registration_atomic_and_consistent hstart _
    (.one (idlePass "unroll" ["unroll"])) (r := disturbed) rfl rfl
  obtain ⟨-, -, -, -, -, -, hagreed, -⟩ := registration_atomic_and_consistent hstart _
    (.batch [idlePass "unroll" ["unroll"]]) (r := disturbed) rfl rfl
  obtain ⟨-, -, -, htwice, -⟩ := registration_atomic_and_consistent hstart _
    (.batch [idlePass "dce" ["licm"], idlePass "dce" []]) (r := disturbed) rfl rfl
  exact ⟨rfl, hkept rfl, hdistinct, hmet, (hself.1 ⟨_, _, rfl⟩).2, (hagreed.1 rfl).2.1,
    htwice.1 ⟨_, rfl⟩⟩

end Manager

end SsaOpt
