import Mathlib.Data.List.Perm.Basic
import Mathlib.Logic.Relation
import SsaOpt.Proofs.Registration

/-!
# The schedule of a manager

The schedule is found depth first: a pass is put behind everything that it requires. What has been
put so far is a `Partial` schedule, and the passes whose requirements are being looked at form a
`Path` along which each requires the next. `yields_schedule` says what scheduling one name does to
such a state: the name is in the schedule in the end, or there is an error, and then a pass requires
itself (the name is on the path) or something that is not registered. The path never holds a name
twice, so the fuel lasts (`schedule_fuel`).

For a manager that has been built by registrations (`registerAll`) this gives
`sortPasses_orders_or_names_cycle`.
-/

namespace SsaOpt

open Relation

variable {σ : Type}

namespace Manager

/-! ## Results with errors -/

/-- A result is as `P` says, or an error as `E` says. -/
def Yields {ε α : Type} (P : α → Prop) (E : ε → Prop) : Except ε α → Prop
  | .ok x => P x
  | .error e => E e

/-- A fold keeps `P`, and in the end `Q` holds of everything that has been folded in, if each step
brings about `Q` of its element and keeps it of all others. -/
theorem yields_foldlM {α β ε : Type} {f : β → α → Except ε β} {P : β → Prop} {Q : α → β → Prop}
    {E : ε → Prop} (l : List α)
    (hf : ∀ a ∈ l, ∀ b, P b →
      Yields (fun b' => P b' ∧ Q a b' ∧ ∀ x, Q x b → Q x b') E (f b a)) {b : β} (hb : P b) :
    Yields (fun b' => P b' ∧ (∀ a ∈ l, Q a b') ∧ ∀ x, Q x b → Q x b') E (l.foldlM f b) := by
  induction l generalizing b with
  | nil => exact ⟨hb, by simp, fun _ h => h⟩
  | cons a l ih =>
    have hstep := hf a (by simp) b hb
    rw [List.foldlM_cons]
    cases h : f b a with
    | error e =>
      rw [h] at hstep
      exact hstep
    | ok b₁ =>
      rw [h] at hstep
      obtain ⟨hP, hQ, hkept⟩ := hstep
      have hrest := ih (fun x hx => hf x (by simp [hx])) hP
      change Yields _ E (l.foldlM f b₁)
      cases h' : l.foldlM f b₁ with
      | error e =>
        rw [h'] at hrest
        exact hrest
      | ok b₂ =>
        rw [h'] at hrest
        obtain ⟨hP', hall, hkept'⟩ := hrest
        refine ⟨hP', fun x hx => ?_, fun x hx => hkept' x (hkept x hx)⟩
        rcases List.mem_cons.1 hx with rfl | hx
        · exact hkept' x hQ
        · exact hall x hx

/-! ## Requirements -/

/-- The pass of one name requires the other name. -/
def Requires (mgr : Manager σ) (a b : String) : Prop :=
  ∃ p, mgr.find? a = some p ∧ b ∈ p.requires mgr.world

/-- Where an element of a list that has been made longer by one can stand. -/
theorem concat_eq_append_cons {α : Type} {l l₁ l₂ : List α} {x y : α}
    (h : l ++ [x] = l₁ ++ y :: l₂) :
    (l₁ = l ∧ y = x ∧ l₂ = []) ∨ ∃ l₃, l = l₁ ++ y :: l₃ ∧ l₂ = l₃ ++ [x] := by
  rcases List.eq_nil_or_concat l₂ with rfl | ⟨l₃, z, rfl⟩
  · obtain ⟨rfl, hxy⟩ := List.append_inj' h rfl
    exact Or.inl ⟨rfl, by simpa using hxy.symm, rfl⟩
  · have h' : l ++ [x] = (l₁ ++ y :: l₃) ++ [z] := by simpa using h
    obtain ⟨rfl, hxz⟩ := List.append_inj' h' rfl
    obtain rfl : x = z := by simpa using hxz
    exact Or.inr ⟨l₃, rfl, List.concat_eq_append⟩

/-- Every pass of a list comes after all passes that it requires. -/
def Ordered (world : σ) (order : List (Pass σ)) : Prop :=
  ∀ l₁ p l₂, order = l₁ ++ p :: l₂ → ∀ r ∈ p.requires world, r ∈ l₁.map Pass.name

theorem Ordered.nil (world : σ) : Ordered world [] := by
  intro l₁ p l₂ h
  simp at h

theorem Ordered.concat {world : σ} {order : List (Pass σ)} {p : Pass σ} (h : Ordered world order)
    (hp : ∀ r ∈ p.requires world, r ∈ order.map Pass.name) : Ordered world (order ++ [p]) := by
  intro l₁ q l₂ heq
  rcases concat_eq_append_cons heq with ⟨rfl, rfl, -⟩ | ⟨l₃, rfl, -⟩
  · exact hp
  · exact h l₁ q l₃ rfl

variable {mgr : Manager σ}

theorem name_of_find? {name : String} {p : Pass σ} (h : mgr.find? name = some p) :
    p ∈ mgr.passes ∧ p.name = name :=
  ⟨List.mem_of_find?_eq_some h, by simpa using List.find?_some h⟩

theorem find?_isSome_iff {name : String} :
    (mgr.find? name).isSome ↔ name ∈ mgr.passes.map Pass.name := by
  simp [find?]

/-! ## One name -/

/-- The passes whose requirements are being looked at: each of them leads to `name`. -/
structure Path (mgr : Manager σ) (path : List String) (name : String) : Prop where
  nodup : path.Nodup
  registered : ∀ n ∈ path, n ∈ mgr.passes.map Pass.name
  leads : ∀ n ∈ path, TransGen mgr.Requires n name

/-- Registered passes, each once and after what it requires, and none of them on the path. -/
structure Partial (mgr : Manager σ) (path : List String) (order : List (Pass σ)) : Prop where
  found : ∀ q ∈ order, mgr.find? q.name = some q
  nodup : (order.map Pass.name).Nodup
  ordered : Ordered mgr.world order
  off_path : ∀ n ∈ order.map Pass.name, n ∉ path

/-- What can be wrong with the requirements: a pass requires itself, or a requirement is not
registered. -/
def Faulty (mgr : Manager σ) (e : Err) : Prop :=
  (∃ n, e = cyclicErr n ∧ TransGen mgr.Requires n n) ∨
    ∃ n r, e = missingErr n r ∧ mgr.find? r = none ∧ ∃ p ∈ mgr.passes, r ∈ p.requires mgr.world

theorem Path.nil (mgr : Manager σ) (name : String) : mgr.Path [] name :=
  ⟨List.nodup_nil, by simp, by simp⟩

/-- The path goes on to what the pass requires. -/
theorem Path.cons {path : List String} {name : String} {p : Pass σ} (h : mgr.Path path name)
    (hfind : mgr.find? name = some p) (hname : name ∉ path) {r : String}
    (hr : r ∈ p.requires mgr.world) : mgr.Path (name :: path) r where
  nodup := List.nodup_cons.2 ⟨hname, h.nodup⟩
  registered n hn := by
    rcases List.mem_cons.1 hn with rfl | hn
    · exact find?_isSome_iff.1 (by simp [hfind])
    · exact h.registered n hn
  leads n hn := by
    have hstep : mgr.Requires name r := ⟨p, hfind, hr⟩
    rcases List.mem_cons.1 hn with rfl | hn
    · exact .single hstep
    · exact (h.leads n hn).tail hstep

/-- A path is not longer than the list of passes. -/
theorem Path.length_le {path : List String} {name : String} (h : mgr.Path path name) :
    path.length ≤ mgr.passes.length := by
  have hle := (List.subperm_of_subset h.nodup h.registered).length_le
  rwa [List.length_map] at hle

/-- **Scheduling a name** that is registered or required. -/
theorem yields_schedule (fuel : Nat) :
    ∀ path requiredBy order name, mgr.passes.length < fuel + path.length →
      (∃ p ∈ mgr.passes, p.name = name ∨ name ∈ p.requires mgr.world) →
      mgr.Path path name → mgr.Partial path order →
      Yields (fun order' => mgr.Partial path order' ∧ name ∈ order'.map Pass.name ∧
          ∀ n, n ∈ order.map Pass.name → n ∈ order'.map Pass.name)
        mgr.Faulty (mgr.schedule fuel path requiredBy order name) := by
  induction fuel with
  | zero =>
    intro path requiredBy order name hfuel _ hpath _
    have hle := hpath.length_le
    omega
  | succ fuel ih =>
    intro path requiredBy order name hfuel hknown hpath horder
    rw [schedule]
    cases hfind : mgr.find? name with
    | none =>
      obtain ⟨p, hp, rfl | hr⟩ := hknown
      · have hsome : (mgr.find? p.name).isSome := find?_isSome_iff.2 (List.mem_map_of_mem hp)
        simp [hfind] at hsome
      · exact Or.inr ⟨requiredBy, name, rfl, hfind, p, hp, hr⟩
    | some p =>
      obtain ⟨hp, hpname⟩ := name_of_find? hfind
      dsimp only
      split
      · next hmem => exact Or.inl ⟨name, rfl, hpath.leads name (by simpa using hmem)⟩
      next hnotpath =>
      have hnotpath : name ∉ path := by simpa using hnotpath
      split
      · next hdone =>
        exact ⟨horder, by simpa using hdone, fun _ h => h⟩
      next hfresh =>
      have hfresh : name ∉ order.map Pass.name := by simpa using hfresh
      have hinner : mgr.Partial (name :: path) order :=
        { horder with
          off_path := fun n hn hmem => by
            rcases List.mem_cons.1 hmem with rfl | hmem
            · exact hfresh hn
            · exact horder.off_path n hn hmem }
      have hrequired := yields_foldlM (P := mgr.Partial (name :: path))
        (Q := fun n (order : List (Pass σ)) => n ∈ order.map Pass.name)
        (f := mgr.schedule fuel (name :: path) name) (p.requires mgr.world)
        (fun r hr order' horder' => ih (name :: path) name order' r
          (by rw [List.length_cons]; omega) ⟨p, hp, Or.inr hr⟩ (hpath.cons hfind hnotpath hr)
          horder') hinner
      cases hfold : (p.requires mgr.world).foldlM (mgr.schedule fuel (name :: path) name) order with
      | error e =>
        rw [hfold] at hrequired
        exact hrequired
      | ok order₁ =>
        rw [hfold] at hrequired
        obtain ⟨hpartial, hplaced, hkept⟩ := hrequired
        have hnew : p.name ∉ order₁.map Pass.name := fun hmem =>
          hpartial.off_path _ hmem (by simp [hpname])
        refine ⟨⟨fun q hq => ?_, ?_, hpartial.ordered.concat hplaced, fun n hn hmem => ?_⟩, ?_,
          fun n hn => ?_⟩
        · rcases List.mem_append.1 hq with hq | hq
          · exact hpartial.found q hq
          · obtain rfl := List.mem_singleton.1 hq
            rw [hpname, hfind]
        · rw [List.map_append, List.map_singleton]
          exact List.nodup_append.2 ⟨hpartial.nodup, List.nodup_singleton _, by simpa using hnew⟩
        · rw [List.map_append, List.mem_append] at hn
          rcases hn with hn | hn
          · exact hpartial.off_path n hn (List.mem_cons_of_mem _ hmem)
          · obtain rfl : n = p.name := by simpa using hn
            exact hnotpath (hpname ▸ hmem)
        · simp [hpname]
        · rw [List.map_append]
          exact List.mem_append_left _ (hkept n hn)

theorem foldlM_congr {α β ε : Type} {f g : β → α → Except ε β} {l : List α}
    (h : ∀ a ∈ l, ∀ b, f b a = g b a) (b : β) : l.foldlM f b = l.foldlM g b := by
  induction l generalizing b with
  | nil => rfl
  | cons a l ih =>
    rw [List.foldlM_cons, List.foldlM_cons, h a (by simp) b]
    exact bind_congr fun b' => ih (fun x hx => h x (by simp [hx])) b'

/-- **The fuel lasts**: more of it makes no difference. -/
theorem schedule_fuel (extra : Nat) (fuel : Nat) :
    ∀ path requiredBy order name, mgr.passes.length < fuel + path.length → mgr.Path path name →
      mgr.schedule (fuel + extra) path requiredBy order name =
        mgr.schedule fuel path requiredBy order name := by
  induction fuel with
  | zero =>
    intro path requiredBy order name hfuel hpath
    have hle := hpath.length_le
    omega
  | succ fuel ih =>
    intro path requiredBy order name hfuel hpath
    rw [show fuel + 1 + extra = fuel + extra + 1 by omega, schedule, schedule]
    cases hfind : mgr.find? name with
    | none => rfl
    | some p =>
      dsimp only
      split
      · rfl
      next hnotpath =>
      split
      · rfl
      have hfold := foldlM_congr (l := p.requires mgr.world)
        (f := mgr.schedule (fuel + extra) (name :: path) name)
        (g := mgr.schedule fuel (name :: path) name)
        (fun r hr order' => ih (name :: path) name order' r (by rw [List.length_cons]; omega)
          (hpath.cons hfind (by simpa using hnotpath) hr)) order
      rw [hfold]

/-! ## All names -/

/-- **The schedule**: all registered passes, each after what it requires. -/
theorem yields_sortPasses (mgr : Manager σ) :
    Yields (fun order => mgr.Partial [] order ∧ ∀ p ∈ mgr.passes, p.name ∈ order.map Pass.name)
      mgr.Faulty mgr.sortPasses := by
  have hfold := yields_foldlM (P := mgr.Partial [])
    (Q := fun n (order : List (Pass σ)) => n ∈ order.map Pass.name)
    (f := mgr.schedule (mgr.passes.length + 1) [] "") (mgr.passes.map Pass.name)
    (fun name hname order horder => by
      obtain ⟨p, hp, hpname⟩ := List.mem_map.1 hname
      exact yields_schedule _ [] "" order name (by simp) ⟨p, hp, Or.inl hpname⟩ (.nil mgr name)
        horder)
    (b := []) ⟨by simp, List.nodup_nil, .nil _, by simp⟩
  rw [sortPasses]
  cases h : (mgr.passes.map Pass.name).foldlM (mgr.schedule (mgr.passes.length + 1) [] "") [] with
  | error e =>
    rw [h] at hfold
    exact hfold
  | ok order =>
    rw [h] at hfold
    exact ⟨hfold.1, fun p hp => hfold.2.1 _ (List.mem_map_of_mem hp)⟩

namespace Partial

variable {path : List String} {order : List (Pass σ)}

theorem name_notMem {p : Pass σ} {rest : List (Pass σ)}
    (h : mgr.Partial path (order ++ p :: rest)) :
    p.name ∉ order.map Pass.name := by
  have hnodup := h.nodup
  rw [List.map_append, List.map_cons] at hnodup
  exact fun hmem => List.disjoint_of_nodup_append hnodup hmem (by simp)

/-- What a pass requires comes before it. -/
theorem idxOf_lt (h : mgr.Partial path order) {a b : String} (hab : mgr.Requires a b)
    (ha : a ∈ order.map Pass.name) :
    b ∈ order.map Pass.name ∧
      (order.map Pass.name).idxOf b < (order.map Pass.name).idxOf a := by
  obtain ⟨q, hq, rfl⟩ := List.mem_map.1 ha
  obtain ⟨p, hfind, hb⟩ := hab
  obtain rfl : q = p := Option.some.inj ((h.found q hq).symm.trans hfind)
  obtain ⟨l₁, l₂, rfl⟩ := List.append_of_mem hq
  have hbefore := h.ordered l₁ q l₂ rfl b hb
  have hnot := h.name_notMem
  rw [List.map_append, List.map_cons]
  refine ⟨List.mem_append_left _ hbefore, ?_⟩
  rw [List.idxOf_append_of_mem hbefore, List.idxOf_append_of_notMem hnot, List.idxOf_cons_self]
  have hlt := List.idxOf_lt_length_of_mem hbefore
  omega

/-- **No pass of a schedule requires itself.** -/
theorem acyclic (h : mgr.Partial path order) {a b : String} (hab : TransGen mgr.Requires a b)
    (ha : a ∈ order.map Pass.name) :
    b ∈ order.map Pass.name ∧
      (order.map Pass.name).idxOf b < (order.map Pass.name).idxOf a := by
  induction hab with
  | single hstep => exact h.idxOf_lt hstep ha
  | tail _ hstep ih =>
    obtain ⟨hmem, hlt⟩ := h.idxOf_lt hstep ih.1
    exact ⟨hmem, Nat.lt_trans hlt ih.2⟩

theorem of_append {rest : List (Pass σ)} (h : mgr.Partial path (order ++ rest)) :
    mgr.Partial path order where
  found q hq := h.found q (by simp [hq])
  nodup := by
    have hnodup := h.nodup
    rw [List.map_append] at hnodup
    exact hnodup.of_append_left
  ordered l₁ p l₂ heq := h.ordered l₁ p (l₂ ++ rest) (by simp [heq])
  off_path n hn := h.off_path n (by rw [List.map_append]; exact List.mem_append_left _ hn)

theorem length_le (h : mgr.Partial path order) : order.length ≤ mgr.passes.length := by
  have hsub : order.map Pass.name ⊆ mgr.passes.map Pass.name := by
    intro n hn
    obtain ⟨q, hq, rfl⟩ := List.mem_map.1 hn
    exact List.mem_map.2 ⟨q, (name_of_find? (h.found q hq)).1, rfl⟩
  simpa using (List.subperm_of_subset h.nodup hsub).length_le

theorem perm (h : mgr.Partial path order) (hnames : (mgr.passes.map Pass.name).Nodup)
    (hall : ∀ p ∈ mgr.passes, p.name ∈ order.map Pass.name) : order.Perm mgr.passes := by
  refine (List.perm_ext_iff_of_nodup h.nodup.of_map hnames.of_map).2 fun p => ⟨fun hp => ?_, ?_⟩
  · exact (name_of_find? (h.found p hp)).1
  · intro hp
    obtain ⟨q, hq, hname⟩ := List.mem_map.1 (hall p hp)
    obtain ⟨hq', -⟩ := name_of_find? (h.found q hq)
    obtain rfl : q = p := List.inj_on_of_nodup_map hnames hq' hp hname
    exact hq

end Partial

/-! ## The order of registration -/

/-- A name that is in the schedule already. -/
theorem schedule_of_mem {fuel : Nat} {path : List String} {requiredBy name : String}
    {order : List (Pass σ)} (hregistered : name ∈ mgr.passes.map Pass.name) (hpath : name ∉ path)
    (horder : name ∈ order.map Pass.name) :
    mgr.schedule (fuel + 1) path requiredBy order name = .ok order := by
  obtain ⟨p, hp⟩ := Option.isSome_iff_exists.1 (find?_isSome_iff.2 hregistered)
  rw [schedule, hp]
  dsimp only
  rw [if_neg (by simpa using hpath), if_pos (by simpa using horder)]

theorem foldlM_eq_ok {α β ε : Type} {f : β → α → Except ε β} {l : List α} {b : β}
    (h : ∀ a ∈ l, f b a = .ok b) : l.foldlM f b = .ok b := by
  induction l with
  | nil => rfl
  | cons a l ih =>
    rw [List.foldlM_cons, h a (by simp)]
    exact ih fun x hx => h x (by simp [hx])

/-- **Passes that are registered after what they require** stay in that order. -/
theorem sortPasses_of_ordered (hnames : (mgr.passes.map Pass.name).Nodup)
    (h : Ordered mgr.world mgr.passes) : mgr.sortPasses = .ok mgr.passes := by
  -- the passes in front of `rest` have been put, and nothing else
  have hrest : ∀ rest done, mgr.passes = done ++ rest →
      (rest.map Pass.name).foldlM (mgr.schedule (mgr.passes.length + 1) [] "") done =
        .ok mgr.passes := by
    intro rest
    induction rest with
    | nil =>
      intro done hdone
      rw [hdone, List.append_nil]
      rfl
    | cons p rest ih =>
      intro done hdone
      have hsplit := hnames
      rw [hdone, List.map_append, List.map_cons] at hsplit
      have hnot : p.name ∉ done.map Pass.name := fun hmem =>
        List.disjoint_of_nodup_append hsplit hmem (by simp)
      have hfind : mgr.find? p.name = some p := by
        rw [find?, hdone, List.find?_append]
        have hnone : done.find? (fun q => q.name = p.name) = none :=
          List.find?_eq_none.2 fun q hq => by
            simpa using fun heq : q.name = p.name => hnot (heq ▸ List.mem_map_of_mem hq)
        simp [hnone]
      have hrequired : (p.requires mgr.world).foldlM
          (mgr.schedule mgr.passes.length [p.name] p.name) done = .ok done := by
        refine foldlM_eq_ok fun r hr => ?_
        have hbefore := h done p rest hdone r hr
        obtain ⟨n, hn⟩ : ∃ n, mgr.passes.length = n + 1 :=
          Nat.exists_eq_succ_of_ne_zero (by simp [hdone])
        rw [hn]
        refine schedule_of_mem ?_ ?_ hbefore
        · rw [hdone, List.map_append]
          exact List.mem_append_left _ hbefore
        · rw [List.mem_singleton]
          rintro rfl
          exact hnot hbefore
      have hstep : mgr.schedule (mgr.passes.length + 1) [] "" done p.name = .ok (done ++ [p]) := by
        rw [schedule, hfind]
        dsimp only
        rw [if_neg (by simp), if_neg (by simpa using hnot), hrequired]
        rfl
      rw [List.map_cons, List.foldlM_cons, hstep]
      exact ih (done ++ [p]) (by simp [hdone])
  exact hrest mgr.passes [] rfl

/-! ## Managers after registration -/

/-- Passes that are registered one by one come after what they require. -/
theorem ordered_registerAll (attempts : List (Registration σ))
    (hsingle : ∀ a ∈ attempts, ∃ p, a = .one p) (h : Ordered mgr.world mgr.passes) :
    Ordered (mgr.registerAll attempts).world (mgr.registerAll attempts).passes := by
  induction attempts generalizing mgr with
  | nil => exact h
  | cons attempt attempts ih =>
    refine ih (fun a ha => hsingle a (by simp [ha])) ?_
    obtain ⟨p, rfl⟩ := hsingle attempt (by simp)
    rw [Manager.register]
    cases hadd : mgr.addPass p with
    | error e => exact h
    | ok mgr' =>
      obtain ⟨rfl, -, hclosed⟩ := addPass_eq_ok hadd
      exact h.concat hclosed

/-- With all requirements registered, a pass that requires itself is all that can be wrong. -/
theorem Registered.cyclic_of_faulty (h : mgr.Registered) {e : Err} (he : mgr.Faulty e) :
    ∃ p ∈ mgr.passes, e = cyclicErr p.name ∧ TransGen mgr.Requires p.name p.name := by
  rcases he with ⟨n, rfl, hcycle⟩ | ⟨n, r, -, hnone, p, hp, hr⟩
  · obtain ⟨-, ⟨p, hfind, -⟩, -⟩ := TransGen.head'_iff.1 hcycle
    obtain ⟨hp, rfl⟩ := name_of_find? hfind
    exact ⟨p, hp, rfl, hcycle⟩
  · have hsome := find?_isSome_iff.2 (h.closed p hp r hr)
    simp [hnone] at hsome

/-- **The schedule of a manager** whose passes have been registered in any way, one by one or in
batches. The search for it comes to an end by itself, whatever bound is put on its depth. It fails
exactly if a pass requires itself, directly or not, and the error names such a pass; a requirement
is never missing. Otherwise the schedule holds the registered passes in an order in which each comes
after all that it requires. That is the order of registration, if this has the same property, as it
has if no pass came in a batch. -/
theorem sortPasses_orders_or_names_cycle {start mgr : Manager σ} (hstart : start.passes = [])
    (attempts : List (Registration σ)) (hmgr : start.registerAll attempts = mgr) :
    (∀ fuel, mgr.passes.length < fuel →
        (mgr.passes.map Pass.name).foldlM (mgr.schedule fuel [] "") [] = mgr.sortPasses) ∧
      (∀ e, mgr.sortPasses = .error e → e.isKind .missingPassDependency = false ∧
        ∃ p ∈ mgr.passes, e = cyclicErr p.name ∧ TransGen mgr.Requires p.name p.name) ∧
      ((∃ e, mgr.sortPasses = .error e) ↔
        ∃ p ∈ mgr.passes, TransGen mgr.Requires p.name p.name) ∧
      (∀ order, mgr.sortPasses = .ok order →
        order.Perm mgr.passes ∧ Ordered mgr.world order) ∧
      (Ordered mgr.world mgr.passes → mgr.sortPasses = .ok mgr.passes) ∧
      ((∀ a ∈ attempts, ∃ p, a = .one p) → mgr.sortPasses = .ok mgr.passes) := by
  have hregistered : mgr.Registered :=
    hmgr ▸ (Registered.of_passes_eq_nil hstart).registerAll attempts
  have hsort := yields_sortPasses mgr
  refine ⟨fun fuel hfuel => ?_, fun e he => ?_, ⟨?_, ?_⟩, fun order horder => ?_,
    sortPasses_of_ordered hregistered.nodup, fun hsingle => ?_⟩
  · obtain ⟨extra, rfl⟩ := Nat.exists_eq_add_of_lt hfuel
    rw [sortPasses, show mgr.passes.length + extra + 1 = mgr.passes.length + 1 + extra by omega]
    exact foldlM_congr (fun name _ order => schedule_fuel extra _ [] "" order name (by simp)
      (.nil mgr name)) []
  · rw [he] at hsort
    obtain ⟨p, hp, rfl, hcycle⟩ := hregistered.cyclic_of_faulty hsort
    exact ⟨rfl, p, hp, rfl, hcycle⟩
  · rintro ⟨e, he⟩
    rw [he] at hsort
    obtain ⟨p, hp, -, hcycle⟩ := hregistered.cyclic_of_faulty hsort
    exact ⟨p, hp, hcycle⟩
  · rintro ⟨p, hp, hcycle⟩
    cases h : mgr.sortPasses with
    | error e => exact ⟨e, rfl⟩
    | ok order =>
      rw [h] at hsort
      have hlt := (hsort.1.acyclic hcycle (hsort.2 p hp)).2
      omega
  · rw [horder] at hsort
    exact ⟨hsort.1.perm hregistered.nodup hsort.2, hsort.1.ordered⟩
  · refine sortPasses_of_ordered hregistered.nodup ?_
    rw [← hmgr]
    exact ordered_registerAll attempts hsingle (by rw [hstart]; exact .nil _)

/-- A batch in which two passes require the last one, and after it a pass that is refused, since it
requires what nobody has registered. -/
def sharedRequirement : List (Registration Unit) :=
  [.batch [idlePass "loops" ["domtree", "cfg"], idlePass "domtree" ["cfg"], idlePass "cfg" []],
    .one (idlePass "unroll" ["loops", "trip"]), .one (idlePass "dce" ["loops"])]

/-- A pass that leads to a cycle of two, and is not on it. -/
def entangledBatch : List (Registration Unit) :=
  [.one (idlePass "cfg" []),
    .batch [idlePass "inline" ["size"], idlePass "size" ["cfg", "cost"], idlePass "cost" ["size"]]]

theorem sortPasses_of_batches :
    (∃ order, (vacant.registerAll sharedRequirement).sortPasses = .ok order ∧
        order.map Pass.name = ["cfg", "domtree", "loops", "dce"] ∧
        order.Perm (vacant.registerAll sharedRequirement).passes ∧ Ordered () order) ∧
      (vacant.registerAll entangledBatch).sortPasses = .error (cyclicErr "size") ∧
      TransGen (vacant.registerAll entangledBatch).Requires "size" "size" := by
  have hstart : vacant.passes = [] := rfl
  obtain ⟨-, -, -, hok, -⟩ := sortPasses_orders_or_names_cycle hstart sharedRequirement rfl
  obtain ⟨-, herror, -⟩ := sortPasses_orders_or_names_cycle hstart entangledBatch rfl
  have hcyclic : (vacant.registerAll entangledBatch).sortPasses = .error (cyclicErr "size") := rfl
  obtain ⟨-, p, -, herr, hcycle⟩ := herror _ hcyclic
  have hname : "size" = p.name := (PassFailure.mk.inj (Err.failed.inj herr)).2.1
  exact ⟨⟨_, rfl, rfl, hok _ rfl⟩, hcyclic, hname ▸ hcycle⟩

end Manager

end SsaOpt
