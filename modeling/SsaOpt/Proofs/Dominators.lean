import SsaOpt.Flow.Dominators
import SsaOpt.Proofs.Dominance

/-!
# The dominator tree

The iteration over the blocks in reverse post-order computes the immediate dominators
(`Function.domTree_correct`).

The tree found so far is understood link by link. A link from a block `b` to its parent `d` says
three things (`Link`): `d` comes before `b` in reverse post-order, every strict dominator of `b`
dominates `d`, and `d` is on all paths to `b` with few retreats. None of them mentions the rest of
the tree, so giving one block a new parent does not disturb the others. After `n` sweeps the number
of retreats that are taken into account is at least `n` (`Stage.sweep`), which is all of them once
`n` is the number of blocks; a sweep then finds nothing to change.

`Meets`, `Gathers`, `Sweeps` and `Settles` are the loops of the computation without any bound on the
number of their rounds. That they come to an end (`Stage.settles`) is the termination of the
computation.
-/

namespace SsaOpt

open Relation SsaOpt.Flow

/-! ## Places in reverse post-order -/

namespace FlowGraph

/-- The place of a block in reverse post-order, the number of blocks if it has none. -/
def place (g : FlowGraph) (id : BlockId) : Nat := g.rpo.idxOf id

/-- The blocks in reverse post-order are those that the relation `r` leads to from the root `e`,
each once, the root first and every other one after one of its predecessors. -/
structure Rooted (g : FlowGraph) (r : BlockId → BlockId → Prop) (e : BlockId) : Prop where
  nodup : g.rpo.Nodup
  head? : g.rpo.head? = some e
  mem_iff : ∀ {id}, id ∈ g.rpo ↔ ReflTransGen r e id
  led : ∀ {l₁ l₂ id}, g.rpo = l₁ ++ id :: l₂ → id ≠ e → ∃ p ∈ l₁, r p id

/-- What the computation of dominators needs of a flow graph for the relation `r` and the root
`e`. -/
structure Ordered (g : FlowGraph) (r : BlockId → BlockId → Prop) (e : BlockId) : Prop
    extends g.Rooted r e where
  nonzero : 0 ∉ g.rpo
  mem_preds : ∀ {p q}, q ∈ g.rpo → (p ∈ g.preds q ↔ r p q)

theorem build_rooted {fn : Function} {e : Block} (hnodup : fn.blockIds.Nodup)
    (he : fn.entryBlock? = some e) : (build fn).Rooted fn.Flows e.id where
  nodup := rpo_nodup
  head? := rpo_head? he
  mem_iff := by
    intro id
    rw [mem_rpo_iff hnodup]
    simp [Function.Reachable, he]
  led := rpo_led hnodup he

theorem build_ordered {fn : Function} {e : Block} (hne : ∀ b ∈ fn.blocks, b.id ≠ 0)
    (hnodup : fn.blockIds.Nodup) (he : fn.entryBlock? = some e) :
    (build fn).Ordered fn.Flows e.id where
  toRooted := build_rooted hnodup he
  nonzero h := by
    obtain ⟨b, hb, hid⟩ := Function.mem_blockIds.1 ((mem_rpo_iff hnodup).1 h).mem_blockIds
    exact hne b hb hid
  mem_preds hq := by
    rw [mem_preds_iff]
    exact ⟨fun h => ⟨h, ((mem_rpo_iff hnodup).1 hq).mem_blockIds⟩, fun h => h.1⟩

namespace Rooted

variable {g : FlowGraph} {r : BlockId → BlockId → Prop} {e x y : BlockId}

theorem root_mem (h : g.Rooted r e) : e ∈ g.rpo := h.mem_iff.2 .refl

theorem place_lt_length (hx : x ∈ g.rpo) : g.place x < g.rpo.length :=
  List.idxOf_lt_length_of_mem hx

theorem eq_of_place_eq (hx : x ∈ g.rpo) (hxy : g.place x = g.place y) : x = y :=
  (List.idxOf_inj hx).1 hxy

theorem place_root (h : g.Rooted r e) : g.place e = 0 := by
  obtain ⟨l, hl⟩ := List.head?_eq_some_iff.1 h.head?
  simp [place, hl]

theorem place_pos (h : g.Rooted r e) (hx : x ∈ g.rpo) (hne : x ≠ e) : 0 < g.place x := by
  refine Nat.pos_of_ne_zero fun h0 => hne ?_
  exact eq_of_place_eq hx (h0.trans h.place_root.symm)

theorem rpoIndex_eq (hx : x ∈ g.rpo) : g.rpoIndex x = (g.place x : Int) := by
  have hsome : g.rpo.idxOf? x = some (g.place x) := by
    rw [List.idxOf?_eq_some_iff]
    exact ⟨place_lt_length hx, by simp [place], fun j hj => by
      simpa using List.not_of_lt_findIdx hj⟩
  simp [rpoIndex, hsome]

/-- A block other than the root comes after one of its predecessors. -/
theorem exists_pred (h : g.Rooted r e) (hx : x ∈ g.rpo) (hne : x ≠ e) :
    ∃ p ∈ g.rpo, r p x ∧ g.place p < g.place x := by
  obtain ⟨l₁, l₂, hl⟩ := List.append_of_mem hx
  obtain ⟨p, hp, hpx⟩ := h.led hl hne
  refine ⟨p, by simp [hl, hp], hpx, ?_⟩
  have hnodup := h.nodup
  rw [hl] at hnodup
  have hxl : x ∉ l₁ := fun hx₁ =>
    List.disjoint_of_nodup_append hnodup hx₁ (by simp)
  rw [place, place, hl, List.idxOf_append_of_mem hp, List.idxOf_append_of_notMem hxl]
  have := List.idxOf_lt_length_of_mem hp
  omega

/-- **A dominator does not come later** in reverse post-order. -/
theorem place_le_of_dominates (h : g.Rooted r e) {a b : BlockId} (hab : Dominates r e a b) :
    g.place a ≤ g.place b := by
  -- induction along predecessors that come earlier
  suffices ∀ n b, g.place b = n → Dominates r e a b → g.place a ≤ g.place b from
    this _ b rfl hab
  intro n
  induction n using Nat.strongRecOn with
  | ind n ih =>
  intro b hn hab
  by_cases hb : b = e
  · subst hb
    exact Nat.le_of_eq (congrArg g.place hab.eq_root)
  · by_cases hne : a = b
    · exact Nat.le_of_eq (congrArg g.place hne)
    · obtain ⟨p, hp, hpb, hlt⟩ := h.exists_pred (h.mem_iff.2 hab.1) hb
      have hle := ih (g.place p) (by omega) p rfl (hab.of_edge hne (h.mem_iff.1 hp) hpb)
      omega

end Rooted

end FlowGraph

namespace DomTree

/-! ## The loops, without bounds -/

/-- Two blocks go up the tree until they meet. -/
inductive Meets (g : FlowGraph) (idoms : IdomMap) : BlockId → BlockId → BlockId → Prop
  | met (a : BlockId) : Meets g idoms a a a
  | left {a b c : BlockId} (hlt : g.rpoIndex b < g.rpoIndex a)
      (h : Meets g idoms (parent idoms a) b c) : Meets g idoms a b c
  | right {a b c : BlockId} (hlt : g.rpoIndex a < g.rpoIndex b)
      (h : Meets g idoms a (parent idoms b) c) : Meets g idoms a b c

/-- The predecessors of a block are gathered one by one. -/
inductive Gathers (g : FlowGraph) (idoms : IdomMap) : List BlockId → BlockId → BlockId → Prop
  | nil (c : BlockId) : Gathers g idoms [] c c
  | skip {p c d : BlockId} {ps : List BlockId} (hp : idoms.lookup p = none)
      (h : Gathers g idoms ps c d) : Gathers g idoms (p :: ps) c d
  | first {p d : BlockId} {ps : List BlockId} (hp : (idoms.lookup p).isSome)
      (h : Gathers g idoms ps p d) : Gathers g idoms (p :: ps) 0 d
  | meet {p c m d : BlockId} {ps : List BlockId} (hp : (idoms.lookup p).isSome) (hc : c ≠ 0)
      (hm : Meets g idoms p c m) (h : Gathers g idoms ps m d) : Gathers g idoms (p :: ps) c d

/-- Every block of a list has its turn. -/
inductive Sweeps (g : FlowGraph) : List BlockId → IdomMap → IdomMap → Prop
  | nil (idoms : IdomMap) : Sweeps g [] idoms idoms
  | cons {b : BlockId} {bs : List BlockId} {idoms idoms' : IdomMap}
      (hb : Gathers g idoms (g.preds b) 0 (candidate g idoms b))
      (h : Sweeps g bs (improve g idoms b) idoms') : Sweeps g (b :: bs) idoms idoms'

/-- Sweeps follow one another until one changes nothing. -/
inductive Settles (g : FlowGraph) : IdomMap → IdomMap → Prop
  | done {idoms : IdomMap} (h : Sweeps g g.rpo.tail idoms idoms) : Settles g idoms idoms
  | again {idoms next idoms' : IdomMap} (hsweep : Sweeps g g.rpo.tail idoms next)
      (hne : next ≠ idoms) (h : Settles g next idoms') : Settles g idoms idoms'

/-! ## Links -/

/-- What is known of the parent `d` of a block `b` when paths with fewer than `n` retreats have been
taken into account. -/
structure Link (g : FlowGraph) (r : BlockId → BlockId → Prop) (e : BlockId) (n : Nat)
    (b d : BlockId) : Prop where
  place_lt : g.place d < g.place b
  above : ∀ a, Dominates r e a b → a ≠ b → Dominates r e a d
  onShort : OnShort g.place r e n d b

/-- In sweep `k` the blocks in front of place `j` have had their turn. -/
def level (g : FlowGraph) (k j : Nat) (b : BlockId) : Nat := if g.place b < j then k + 1 else k

/-- The tree in sweep `k` when the block at place `j` is to have its turn. -/
structure Stage (g : FlowGraph) (r : BlockId → BlockId → Prop) (e : BlockId) (k j : Nat)
    (idoms : IdomMap) : Prop where
  root : idoms.lookup e = some e
  mem : ∀ {b}, (idoms.lookup b).isSome → b ∈ g.rpo
  known : ∀ {b}, b ∈ g.rpo → 0 < level g k j b → (idoms.lookup b).isSome
  closed : ∀ {b d}, idoms.lookup b = some d → (idoms.lookup d).isSome
  link : ∀ {b d}, idoms.lookup b = some d → b ≠ e → Link g r e (level g k j b) b d

section Tree

variable {g : FlowGraph} {r : BlockId → BlockId → Prop} {e : BlockId} {k j : Nat} {idoms : IdomMap}

theorem level_anti {x y : BlockId} (h : g.place x ≤ g.place y) : level g k j y ≤ level g k j x := by
  unfold level
  split <;> split <;> omega

theorem le_level (b : BlockId) : k ≤ level g k j b := by
  unfold level
  split <;> omega

theorem level_of_lt {b : BlockId} (h : g.place b < j) : level g k j b = k + 1 := if_pos h

theorem parent_eq {b d : BlockId} (h : idoms.lookup b = some d) : parent idoms b = d := by
  simp [parent, h]

/-- A link that takes all paths into account is to the immediate dominator. -/
theorem Link.isIdom (hg : g.Ordered r e) {n : Nat} {b d : BlockId} (h : Link g r e n b d)
    (hb : b ∈ g.rpo) (hn : g.rpo.length ≤ n) : IsIdom r e d b where
  dominates := h.onShort.dominates (hg.mem_iff.1 hb) (fun _ => hg.mem_iff.2) hn
  ne := by
    rintro rfl
    exact Nat.lt_irrefl _ h.place_lt
  above a ha hne _ := h.above a ha hne

/-- There is one immediate dominator at most. -/
theorem eq_of_isIdom (hg : g.Ordered r e) {b d d' : BlockId} (h : IsIdom r e d b)
    (h' : IsIdom r e d' b) : d = d' := by
  by_contra hne
  have hle := hg.place_le_of_dominates (h'.above d h.dominates h.ne hne)
  have hge := hg.place_le_of_dominates (h.above d' h'.dominates h'.ne (Ne.symm hne))
  exact hne (FlowGraph.Rooted.eq_of_place_eq (hg.mem_iff.2 h.dominates.reachable_left) (by omega))

/-! ## The nearest common ancestor -/

/-- What is known of a common ancestor `c` of the blocks `p` and `q`. -/
structure Common (g : FlowGraph) (r : BlockId → BlockId → Prop) (e : BlockId) (k j : Nat)
    (idoms : IdomMap) (p q c : BlockId) : Prop where
  known : (idoms.lookup c).isSome
  place_left : g.place c ≤ g.place p
  place_right : g.place c ≤ g.place q
  above : ∀ a, Dominates r e a p → Dominates r e a q → Dominates r e a c
  left : OnShort g.place r e (level g k j p) c p
  right : OnShort g.place r e (level g k j q) c q

namespace Common

variable {p q c d : BlockId}

theorem refl (h : (idoms.lookup p).isSome) : Common g r e k j idoms p p p :=
  ⟨h, Nat.le_refl _, Nat.le_refl _, fun _ ha _ => ha, .refl _ _, .refl _ _⟩

theorem symm (h : Common g r e k j idoms p q c) : Common g r e k j idoms q p c :=
  ⟨h.known, h.place_right, h.place_left, fun a hq hp => h.above a hp hq, h.right, h.left⟩

/-- The block that comes later may be replaced by its parent. -/
theorem climb (hg : g.Ordered r e) (hp : Link g r e (level g k j p) p d)
    (hlt : g.place q < g.place p) (h : Common g r e k j idoms d q c) :
    Common g r e k j idoms p q c where
  known := h.known
  place_left := Nat.le_trans h.place_left (Nat.le_of_lt hp.place_lt)
  place_right := h.place_right
  above a hap haq := by
    refine h.above a (hp.above a hap ?_) haq
    -- a dominator of the earlier block is not the later one
    rintro rfl
    have := hg.place_le_of_dominates haq
    omega
  left := hp.onShort.trans h.left (level_anti (Nat.le_of_lt hp.place_lt))
  right := h.right

end Common

namespace Stage

/-- A block that comes after another one has a parent. -/
theorem exists_parent (hg : g.Ordered r e) (s : Stage g r e k j idoms) {p q : BlockId}
    (hp : (idoms.lookup p).isSome) (hlt : g.place q < g.place p) :
    ∃ d, idoms.lookup p = some d ∧ Link g r e (level g k j p) p d := by
  obtain ⟨d, hd⟩ := Option.isSome_iff_exists.1 hp
  refine ⟨d, hd, s.link hd ?_⟩
  rintro rfl
  rw [hg.place_root] at hlt
  exact Nat.not_lt_zero _ hlt

/-- **Two blocks meet** in a common ancestor. -/
theorem meet_spec (hg : g.Ordered r e) (s : Stage g r e k j idoms) (fuel : Nat) :
    ∀ p q, (idoms.lookup p).isSome → (idoms.lookup q).isSome → g.place p + g.place q < fuel →
      Meets g idoms p q (meet g idoms fuel p q) ∧
        Common g r e k j idoms p q (meet g idoms fuel p q) := by
  induction fuel with
  | zero => exact fun p q _ _ h => absurd h (Nat.not_lt_zero _)
  | succ fuel ih =>
    intro p q hp hq hfuel
    have hindex : ∀ x, (idoms.lookup x).isSome → g.rpoIndex x = (g.place x : Int) :=
      fun x hx => FlowGraph.Rooted.rpoIndex_eq (s.mem hx)
    rw [meet]
    by_cases hpq : p = q
    · subst hpq
      rw [if_pos rfl]
      exact ⟨.met p, .refl hp⟩
    rw [if_neg hpq, hindex p hp, hindex q hq]
    by_cases hlt : g.place q < g.place p
    · rw [if_pos (by omega)]
      obtain ⟨d, hd, hlink⟩ := s.exists_parent hg hp hlt
      have hplace := hlink.place_lt
      rw [parent_eq hd]
      obtain ⟨hmeets, hcommon⟩ := ih d q (s.closed hd) hq (by omega)
      refine ⟨.left ?_ (by rwa [parent_eq hd]), hcommon.climb hg hlink hlt⟩
      rw [hindex p hp, hindex q hq]
      omega
    · rw [if_neg (by omega)]
      have hne : g.place p ≠ g.place q :=
        fun heq => hpq (FlowGraph.Rooted.eq_of_place_eq (s.mem hp) heq)
      have hlt' : g.place p < g.place q := by omega
      obtain ⟨d, hd, hlink⟩ := s.exists_parent hg hq hlt'
      have hplace := hlink.place_lt
      rw [parent_eq hd]
      obtain ⟨hmeets, hcommon⟩ := ih p d hp (s.closed hd) (by omega)
      refine ⟨.right ?_ (by rwa [parent_eq hd]), (hcommon.symm.climb hg hlink hlt').symm⟩
      rw [hindex p hp, hindex q hq]
      omega

end Stage

/-! ## One block's turn -/

/-- What is known of the block that the predecessors `ps` give. -/
structure Gathered (g : FlowGraph) (r : BlockId → BlockId → Prop) (e : BlockId) (k j : Nat)
    (idoms : IdomMap) (ps : List BlockId) (c : BlockId) : Prop where
  none : c = 0 → ∀ p ∈ ps, idoms.lookup p = none
  known : c ≠ 0 → (idoms.lookup c).isSome
  above : c ≠ 0 → ∀ a, (∀ p ∈ ps, (idoms.lookup p).isSome → Dominates r e a p) → Dominates r e a c
  place_le : ∀ p ∈ ps, (idoms.lookup p).isSome → g.place c ≤ g.place p
  onShort : ∀ p ∈ ps, (idoms.lookup p).isSome → OnShort g.place r e (level g k j p) c p

namespace Gathered

variable {ps : List BlockId} {p c m : BlockId}

theorem nil : Gathered g r e k j idoms [] 0 :=
  ⟨by simp, by simp, by simp, by simp, by simp⟩

theorem skip (h : Gathered g r e k j idoms ps c) (hp : idoms.lookup p = Option.none) :
    Gathered g r e k j idoms (ps ++ [p]) c where
  none hc q hq := by
    rcases List.mem_append.1 hq with hq | hq
    · exact h.none hc q hq
    · rwa [List.mem_singleton.1 hq]
  known := h.known
  above hc a ha := h.above hc a fun q hq => ha q (List.mem_append_left _ hq)
  place_le q hq hk := by
    rcases List.mem_append.1 hq with hq | hq
    · exact h.place_le q hq hk
    · simp [List.mem_singleton.1 hq, hp] at hk
  onShort q hq hk := by
    rcases List.mem_append.1 hq with hq | hq
    · exact h.onShort q hq hk
    · simp [List.mem_singleton.1 hq, hp] at hk

theorem first (h : Gathered g r e k j idoms ps 0) (hne : p ≠ 0) (hp : (idoms.lookup p).isSome) :
    Gathered g r e k j idoms (ps ++ [p]) p where
  none hc := absurd hc hne
  known _ := hp
  above _ a ha := ha p (by simp) hp
  place_le q hq hk := by
    rcases List.mem_append.1 hq with hq | hq
    · simp [h.none rfl q hq] at hk
    · exact Nat.le_of_eq (congrArg g.place (List.mem_singleton.1 hq).symm)
  onShort q hq hk := by
    rcases List.mem_append.1 hq with hq | hq
    · simp [h.none rfl q hq] at hk
    · rw [List.mem_singleton.1 hq]
      exact .refl _ _

theorem meet (h : Gathered g r e k j idoms ps c) (hc : c ≠ 0) (hm : m ≠ 0)
    (hp : (idoms.lookup p).isSome) (hcommon : Common g r e k j idoms p c m) :
    Gathered g r e k j idoms (ps ++ [p]) m where
  none h0 := absurd h0 hm
  known _ := hcommon.known
  above _ a ha := by
    refine hcommon.above a (ha p (by simp) hp) (h.above hc a fun q hq => ?_)
    exact ha q (List.mem_append_left _ hq)
  place_le q hq hk := by
    rcases List.mem_append.1 hq with hq | hq
    · exact Nat.le_trans hcommon.place_right (h.place_le q hq hk)
    · rw [List.mem_singleton.1 hq]
      exact hcommon.place_left
  onShort q hq hk := by
    rcases List.mem_append.1 hq with hq | hq
    · exact (h.onShort q hq hk).trans hcommon.right (level_anti (h.place_le q hq hk))
    · rw [List.mem_singleton.1 hq]
      exact hcommon.left

end Gathered

/-- Looking up a block after it has been given a parent. -/
theorem lookup_record (b c x : BlockId) :
    ((b, c) :: idoms.filter fun p => p.1 ≠ b).lookup x
      = if x = b then some c else idoms.lookup x := by
  by_cases hx : x = b
  · simp [hx]
  · rw [List.lookup_cons, beq_eq_false_iff_ne.2 hx, if_neg hx]
    dsimp only
    induction idoms with
    | nil => rfl
    | cons p l ih =>
      obtain ⟨y, d⟩ := p
      by_cases hy : y = b
      · rw [List.lookup_cons, beq_eq_false_iff_ne.2 (hy ▸ hx)]
        simpa [hy] using ih
      · rw [List.filter_cons_of_pos (by simpa using hy), List.lookup_cons, List.lookup_cons, ih]

namespace Stage

theorem ne_zero (hg : g.Ordered r e) (s : Stage g r e k j idoms) {b : BlockId}
    (hb : (idoms.lookup b).isSome) : b ≠ 0 := by
  rintro rfl
  exact hg.nonzero (s.mem hb)

theorem known_of_le (s : Stage g r e k j idoms) (hk : g.rpo.length ≤ k) {b : BlockId}
    (hb : b ∈ g.rpo) : (idoms.lookup b).isSome := by
  have hlen := FlowGraph.Rooted.place_lt_length hb
  have hle : k ≤ level g k j b := le_level b
  exact s.known hb (by omega)

/-- **The block that the predecessors give**, gathered one by one. -/
theorem gather_spec (hg : g.Ordered r e) (s : Stage g r e k j idoms) (ps : List BlockId) :
    ∀ seen c, Gathered g r e k j idoms seen c →
      let d := ps.foldl (fun found p =>
        if (idoms.lookup p).isNone then found
        else if found = 0 then p
        else meet g idoms (2 * g.rpo.length) p found) c
      Gathers g idoms ps c d ∧ Gathered g r e k j idoms (seen ++ ps) d := by
  induction ps with
  | nil =>
    intro seen c h
    exact ⟨.nil c, by simpa using h⟩
  | cons p ps ih =>
    intro seen c h
    simp only [List.foldl_cons]
    rw [List.append_cons]
    cases hp : idoms.lookup p with
    | none =>
      obtain ⟨hgathers, hgathered⟩ := ih (seen ++ [p]) c (h.skip hp)
      exact ⟨.skip hp (by simpa [hp] using hgathers), by simpa [hp] using hgathered⟩
    | some d =>
      have hsome : (idoms.lookup p).isSome := by simp [hp]
      by_cases hc : c = 0
      · subst hc
        obtain ⟨hgathers, hgathered⟩ := ih (seen ++ [p]) p (h.first (s.ne_zero hg hsome) hsome)
        exact ⟨.first hsome (by simpa [hp] using hgathers), by simpa [hp] using hgathered⟩
      · have hplace_p := FlowGraph.Rooted.place_lt_length (s.mem hsome)
        have hplace_c := FlowGraph.Rooted.place_lt_length (s.mem (h.known hc))
        obtain ⟨hmeets, hcommon⟩ :=
          s.meet_spec hg (2 * g.rpo.length) p c hsome (h.known hc) (by omega)
        obtain ⟨hgathers, hgathered⟩ :=
          ih (seen ++ [p]) _ (h.meet hc (s.ne_zero hg hcommon.known) hsome hcommon)
        exact ⟨.meet hsome hc hmeets (by simpa [hp, hc] using hgathers),
          by simpa [hp, hc] using hgathered⟩

theorem candidate_spec (hg : g.Ordered r e) (s : Stage g r e k j idoms) (b : BlockId) :
    Gathers g idoms (g.preds b) 0 (candidate g idoms b) ∧
      Gathered g r e k j idoms (g.preds b) (candidate g idoms b) :=
  s.gather_spec hg (g.preds b) [] 0 .nil

/-- The predecessors of the block at place `j` give it a parent, for one more retreat. -/
theorem candidate_link (hg : g.Ordered r e) {b : BlockId} (s : Stage g r e k (g.place b) idoms)
    (hb : b ∈ g.rpo) (hne : b ≠ e) :
    (idoms.lookup (candidate g idoms b)).isSome ∧
      Link g r e (k + 1) b (candidate g idoms b) := by
  obtain ⟨-, h⟩ := s.candidate_spec hg b
  obtain ⟨p, hp, hpb, hlt⟩ := hg.exists_pred hb hne
  have hp' : p ∈ g.preds b := (hg.mem_preds hb).2 hpb
  have hknown : ∀ q, q ∈ g.rpo → g.place q < g.place b → (idoms.lookup q).isSome := by
    intro q hq hlt
    exact s.known hq (by rw [level_of_lt hlt]; omega)
  have hc : candidate g idoms b ≠ 0 := by
    intro h0
    have hsome := hknown p hp hlt
    simp [h.none h0 p hp'] at hsome
  refine ⟨h.known hc, ?_, fun a hab hne => ?_, fun path hpath hretreats => ?_⟩
  · exact Nat.lt_of_le_of_lt (h.place_le p hp' (hknown p hp hlt)) hlt
  · refine h.above hc a fun q hq hk => ?_
    exact hab.of_edge hne (hg.mem_iff.1 (s.mem hk)) ((hg.mem_preds hb).1 hq)
  · -- the last edge of the path goes up, or is one of the retreats
    cases hpath with
    | start => exact absurd rfl hne
    | @step q _ path hpath hqb =>
      have hq : q ∈ g.rpo := hg.mem_iff.2 hpath.reachable
      have hq' : q ∈ g.preds b := (hg.mem_preds hb).2 hqb
      rw [retreats_step g.place hpath] at hretreats
      refine List.mem_cons_of_mem _ ?_
      by_cases hup : g.place q < g.place b
      · rw [if_pos hup] at hretreats
        refine h.onShort q hq' (hknown q hq hup) path hpath ?_
        rw [level_of_lt hup]
        omega
      · rw [if_neg hup] at hretreats
        have hk : k ≤ level g k (g.place b) q := le_level q
        exact h.onShort q hq' (s.known hq (by omega)) path hpath (by omega)

/-- A turn looks up as if the block had been given the parent that its predecessors give. -/
theorem lookup_improve (hg : g.Ordered r e) {b : BlockId} (s : Stage g r e k (g.place b) idoms)
    (hb : b ∈ g.rpo) (hne : b ≠ e) (x : BlockId) :
    (improve g idoms b).lookup x
      = if x = b then some (candidate g idoms b) else idoms.lookup x := by
  have hc := s.ne_zero hg (s.candidate_link hg hb hne).1
  unfold improve
  by_cases hparent : parent idoms b = candidate g idoms b
  · rw [if_pos (Or.inr hparent)]
    by_cases hx : x = b
    · subst hx
      rw [if_pos rfl]
      cases hl : idoms.lookup x with
      | none => simp [parent, hl, hc.symm] at hparent
      | some d => rw [← hparent, parent_eq hl]
    · rw [if_neg hx]
  · rw [if_neg (by simp [hc, hparent]), lookup_record]

/-- **One block's turn.** -/
theorem improve_stage (hg : g.Ordered r e) {b : BlockId} (s : Stage g r e k (g.place b) idoms)
    (hb : b ∈ g.rpo) (hne : b ≠ e) :
    Stage g r e k (g.place b + 1) (improve g idoms b) := by
  have hlookup := s.lookup_improve hg hb hne
  obtain ⟨hknown, hlink⟩ := s.candidate_link hg hb hne
  have hlevel : ∀ x, x ∈ g.rpo → x ≠ b →
      level g k (g.place b + 1) x = level g k (g.place b) x := by
    intro x hx hxb
    have : g.place x ≠ g.place b := fun h => hxb (FlowGraph.Rooted.eq_of_place_eq hx h)
    unfold level
    split <;> split <;> omega
  have hsome : ∀ x, (idoms.lookup x).isSome → ((improve g idoms b).lookup x).isSome := by
    intro x hx
    rw [hlookup]
    split
    · rfl
    · exact hx
  constructor
  · rw [hlookup, if_neg (Ne.symm hne), s.root]
  · intro x hx
    by_cases hxb : x = b
    · exact hxb ▸ hb
    · rw [hlookup, if_neg hxb] at hx
      exact s.mem hx
  · intro x hx hpos
    by_cases hxb : x = b
    · simp [hlookup, hxb]
    · rw [hlevel x hx hxb] at hpos
      exact hsome x (s.known hx hpos)
  · intro x d hd
    rw [hlookup] at hd
    split at hd
    · rw [← Option.some.inj hd]
      exact hsome _ hknown
    · exact hsome d (s.closed hd)
  · intro x d hd hxe
    rw [hlookup] at hd
    split at hd
    · next hxb =>
      rw [hxb, ← Option.some.inj hd, level_of_lt (Nat.lt_succ_self _)]
      exact hlink
    · next hxb =>
      rw [hlevel x (s.mem (by simp [hd])) hxb]
      exact s.link hd hxe

/-- Once all paths are taken into account, a turn changes nothing. -/
theorem improve_eq (hg : g.Ordered r e) {b : BlockId} (s : Stage g r e k (g.place b) idoms)
    (hb : b ∈ g.rpo) (hne : b ≠ e) (hk : g.rpo.length ≤ k) : improve g idoms b = idoms := by
  obtain ⟨d, hd⟩ := Option.isSome_iff_exists.1 (s.known_of_le hk hb)
  have hold := (s.link hd hne).isIdom hg hb (Nat.le_trans hk (le_level b))
  have hnew := (s.candidate_link hg hb hne).2.isIdom hg hb (by omega)
  rw [improve, if_pos (Or.inr ((parent_eq hd).trans (eq_of_isIdom hg hold hnew)))]

/-! ## Sweeps -/

theorem init (hg : g.Ordered r e) : Stage g r e 0 1 [(e, e)] := by
  have hlookup : ∀ x, ([(e, e)] : IdomMap).lookup x = if x = e then some e else none := by
    intro x
    by_cases hx : x = e
    · simp [hx]
    · rw [List.lookup_cons, beq_eq_false_iff_ne.2 hx, if_neg hx]
      rfl
  constructor
  · simp
  · intro b hb
    by_cases hbe : b = e
    · exact hbe ▸ hg.root_mem
    · simp [hlookup, hbe] at hb
  · intro b hb hpos
    by_cases hbe : b = e
    · simp [hbe]
    · have := hg.place_pos hb hbe
      unfold level at hpos
      split at hpos <;> omega
  · intro b d hd
    rw [hlookup] at hd
    split at hd
    · simp [← Option.some.inj hd]
    · simp at hd
  · intro b d hd hbe
    simp [hlookup, hbe] at hd

/-- **A sweep**, from the middle on. -/
theorem sweep_from (hg : g.Ordered r e) (bs : List BlockId) :
    ∀ l idoms, g.rpo = l ++ bs → l ≠ [] → Stage g r e k l.length idoms →
      Sweeps g bs idoms (bs.foldl (improve g) idoms) ∧
        Stage g r e k g.rpo.length (bs.foldl (improve g) idoms) ∧
        (g.rpo.length ≤ k → bs.foldl (improve g) idoms = idoms) := by
  induction bs with
  | nil =>
    intro l idoms hl _ s
    have hlen : g.rpo.length = l.length := by simp [hl]
    exact ⟨.nil idoms, hlen ▸ s, fun _ => rfl⟩
  | cons b bs ih =>
    intro l idoms hl hne s
    have hb : b ∈ g.rpo := by simp [hl]
    have hnodup := hg.nodup
    rw [hl] at hnodup
    have hbl : b ∉ l := fun h => List.disjoint_of_nodup_append hnodup h (by simp)
    have hplace : g.place b = l.length := by
      rw [FlowGraph.place, hl, List.idxOf_append_of_notMem hbl]
      simp
    have hbe : b ≠ e := by
      rintro rfl
      rw [hg.place_root] at hplace
      exact hne (List.length_eq_zero_iff.1 hplace.symm)
    rw [← hplace] at s
    have hturn := s.improve_stage hg hb hbe
    obtain ⟨hsweeps, hstage, heq⟩ :=
      ih (l ++ [b]) (improve g idoms b) (by simp [hl]) (by simp) (by simpa [hplace] using hturn)
    refine ⟨.cons (s.candidate_spec hg b).1 hsweeps, hstage, fun hk => ?_⟩
    rw [List.foldl_cons, heq hk, s.improve_eq hg hb hbe hk]

/-- What is known after a sweep is known before the next one. -/
theorem next (hg : g.Ordered r e) (s : Stage g r e k g.rpo.length idoms) :
    Stage g r e (k + 1) 1 idoms where
  root := s.root
  mem := s.mem
  known {b} hb _ := by
    refine s.known hb ?_
    rw [level_of_lt (FlowGraph.Rooted.place_lt_length hb)]
    omega
  closed := s.closed
  link {b d} hd hbe := by
    have hb : b ∈ g.rpo := s.mem (by simp [hd])
    have hpos := hg.place_pos hb hbe
    have hlevel : level g (k + 1) 1 b = level g k g.rpo.length b := by
      rw [level_of_lt (FlowGraph.Rooted.place_lt_length hb), level, if_neg (by omega)]
    rw [hlevel]
    exact s.link hd hbe

/-- **A whole sweep.** -/
theorem sweep (hg : g.Ordered r e) (s : Stage g r e k 1 idoms) :
    Sweeps g g.rpo.tail idoms (g.rpo.tail.foldl (improve g) idoms) ∧
      Stage g r e (k + 1) 1 (g.rpo.tail.foldl (improve g) idoms) ∧
      (g.rpo.length ≤ k → g.rpo.tail.foldl (improve g) idoms = idoms) := by
  obtain ⟨l, hl⟩ := List.head?_eq_some_iff.1 hg.head?
  have htail : g.rpo.tail = l := by simp [hl]
  obtain ⟨hsweeps, hstage, heq⟩ := sweep_from hg l [e] idoms hl (by simp) s
  rw [htail]
  exact ⟨hsweeps, hstage.next hg, heq⟩

/-- A tree that a sweep does not change has taken all paths into account. -/
theorem of_fixed (hg : g.Ordered r e) (s : Stage g r e k 1 idoms)
    (h : g.rpo.tail.foldl (improve g) idoms = idoms) (n : Nat) : Stage g r e (k + n) 1 idoms := by
  induction n with
  | zero => exact s
  | succ n ih => exact h ▸ (ih.sweep hg).2.1

/-- **The sweeps come to an end**, with all paths taken into account. -/
theorem settles (hg : g.Ordered r e) (fuel : Nat) :
    ∀ k idoms, Stage g r e k 1 idoms → g.rpo.length ≤ k + fuel →
      Settles g idoms (settle g fuel idoms) ∧
        ∃ n, g.rpo.length ≤ n ∧ Stage g r e n 1 (settle g fuel idoms) := by
  induction fuel with
  | zero =>
    intro k idoms s hk
    obtain ⟨hsweeps, -, heq⟩ := s.sweep hg
    rw [heq hk] at hsweeps
    exact ⟨.done hsweeps, k, hk, s⟩
  | succ fuel ih =>
    intro k idoms s hk
    obtain ⟨hsweeps, hnext, -⟩ := s.sweep hg
    rw [settle]
    by_cases heq : g.rpo.tail.foldl (improve g) idoms = idoms
    · rw [if_pos heq]
      exact ⟨.done (by rwa [heq] at hsweeps), _, Nat.le_add_left _ k, s.of_fixed hg heq _⟩
    · rw [if_neg heq]
      obtain ⟨hsettles, n, hn, hstage⟩ := ih (k + 1) _ hnext (by omega)
      exact ⟨.again hsweeps heq hsettles, n, hn, hstage⟩

end Stage

/-! ## The finished tree -/

theorem build_settles (hg : g.Ordered r e) :
    Settles g [(e, e)] (build g).idoms ∧
      ∃ n, g.rpo.length ≤ n ∧ Stage g r e n 1 (build g).idoms := by
  obtain ⟨l, hl⟩ := List.head?_eq_some_iff.1 hg.head?
  have hbuild : (build g).idoms = settle g ((l.length + 2) * (l.length + 2)) [(e, e)] := by
    unfold build
    rw [hl]
  rw [hbuild]
  have hfuel : g.rpo.length ≤ (l.length + 2) * (l.length + 2) := by
    rw [hl, List.length_cons]
    exact Nat.le_trans (by omega) (Nat.le_mul_of_pos_left (l.length + 2) (by omega))
  exact Stage.settles hg _ 0 _ (.init hg) (by omega)

section Finished

variable {t : DomTree} {n : Nat}

/-- The parent of a block is its immediate dominator. -/
theorem idom?_eq_some_iff (hg : g.Ordered r e) (s : Stage g r e n 1 t.idoms)
    (hn : g.rpo.length ≤ n) {b d : BlockId} :
    t.idom? b = some d ↔ b ∈ g.rpo ∧ b ≠ e ∧ IsIdom r e d b := by
  have hidom : ∀ {b d}, t.idoms.lookup b = some d → b ≠ e → IsIdom r e d b := by
    intro b d hd hbe
    exact (s.link hd hbe).isIdom hg (s.mem (by simp [hd])) (Nat.le_trans hn (le_level b))
  rw [idom?, Option.filter_eq_some_iff, decide_eq_true_iff]
  constructor
  · rintro ⟨hd, hne⟩
    have hbe : b ≠ e := by
      rintro rfl
      exact hne (Option.some.inj (hd.symm.trans s.root))
    exact ⟨s.mem (by simp [hd]), hbe, hidom hd hbe⟩
  · rintro ⟨hb, hbe, hd⟩
    obtain ⟨d', hd'⟩ := Option.isSome_iff_exists.1 (s.known_of_le hn hb)
    rw [eq_of_isIdom hg hd (hidom hd' hbe)]
    exact ⟨hd', (hidom hd' hbe).ne⟩

/-- Climbing from a block meets its dominators. -/
theorem climbs_iff (hg : g.Ordered r e) (s : Stage g r e n 1 t.idoms) (hn : g.rpo.length ≤ n)
    (a : BlockId) (fuel : Nat) :
    ∀ b ∈ g.rpo, g.place b < fuel → (t.climbs a fuel b = true ↔ Dominates r e a b) := by
  induction fuel with
  | zero => exact fun b _ h => absurd h (Nat.not_lt_zero _)
  | succ fuel ih =>
    intro b hb hfuel
    have hreach := hg.mem_iff.1 hb
    rw [climbs]
    by_cases hab : a = b
    · subst hab
      simp [Dominates.refl hreach]
    rw [if_neg hab]
    cases hd : t.idom? b with
    | none =>
      -- only the root has no parent, and nothing else dominates it
      refine iff_of_false (by simp) fun hdom => ?_
      by_cases hbe : b = e
      · subst hbe
        exact hab hdom.eq_root
      · obtain ⟨d, hl⟩ := Option.isSome_iff_exists.1 (s.known_of_le hn hb)
        have hidom := (s.link hl hbe).isIdom hg hb (Nat.le_trans hn (le_level b))
        simp [(idom?_eq_some_iff hg s hn).2 ⟨hb, hbe, hidom⟩] at hd
    | some d =>
      obtain ⟨-, -, hidom⟩ := (idom?_eq_some_iff hg s hn).1 hd
      have hd' : d ∈ g.rpo := hg.mem_iff.2 hidom.dominates.reachable_left
      have hle := hg.place_le_of_dominates hidom.dominates
      have hne : g.place d ≠ g.place b :=
        fun h => hidom.ne (FlowGraph.Rooted.eq_of_place_eq hd' h)
      rw [ih d hd' (by omega)]
      constructor
      · exact fun h => h.trans hidom.dominates
      · intro h
        by_cases had : a = d
        · rw [had]
          exact .refl (hg.mem_iff.1 hd')
        · exact hidom.above a h hab had

/-- **The tree decides dominance.** -/
theorem dominates_iff (hg : g.Ordered r e) (s : Stage g r e n 1 t.idoms) (hn : g.rpo.length ≤ n)
    (a b : BlockId) : t.dominates a b = true ↔ Dominates r e a b := by
  -- the tree has all blocks, so there is fuel for every climb
  have hlen : g.rpo.length ≤ t.idoms.length := by
    rw [← List.length_map (f := Prod.fst)]
    refine hg.nodup.length_le_of_subset fun x hx => ?_
    obtain ⟨p, hp, hfst⟩ := List.lookup_isSome_iff.1 (s.known_of_le hn hx)
    exact List.mem_map.2 ⟨p, hp, (eq_of_beq hfst).symm⟩
  have hclimbs : ∀ b ∈ g.rpo, t.climbs a (t.idoms.length + 1) b = true ↔ Dominates r e a b := by
    intro b hb
    have := FlowGraph.Rooted.place_lt_length hb
    exact climbs_iff hg s hn a _ b hb (by omega)
  rw [dominates, Bool.and_eq_true]
  constructor
  · rintro ⟨hb, h⟩
    exact (hclimbs b (s.mem hb)).1 h
  · intro h
    have hb := hg.mem_iff.2 h.1
    exact ⟨s.known_of_le hn hb, (hclimbs b hb).2 h⟩

end Finished

end Tree

end DomTree

/-! ## Dominator trees of functions -/

namespace Function

/-- **The dominator tree of a function.** Both loops come to an end, the tree decides dominance, and
a block has a parent exactly if it can be reached and is not the entry, the parent being the
immediate dominator. -/
theorem domTree_settles_and_decides_dominance {fn : Function} {e : Block}
    (hne : ∀ b ∈ fn.blocks, b.id ≠ 0) (hnodup : fn.blockIds.Nodup)
    (he : fn.entryBlock? = some e) :
    let g := FlowGraph.build fn
    let t := DomTree.build g
    (∃ trace, Visits (FlowGraph.existingSuccs g.edges) {} [e.id] trace ∧ trace.done = g.rpo) ∧
      DomTree.Settles g [(e.id, e.id)] t.idoms ∧
      (∀ a b, t.dominates a b = true ↔ Dominates fn.Flows e.id a b) ∧
      ∀ b d, t.idom? b = some d ↔ fn.Reachable b ∧ b ≠ e.id ∧ IsIdom fn.Flows e.id d b := by
  have hg := FlowGraph.build_ordered hne hnodup he
  obtain ⟨hsettles, n, hn, s⟩ := DomTree.build_settles hg
  refine ⟨FlowGraph.rpo_visits he, hsettles, DomTree.dominates_iff hg s hn, fun b d => ?_⟩
  rw [DomTree.idom?_eq_some_iff hg s hn, FlowGraph.mem_rpo_iff hnodup]

/-- A loop that is entered at two blocks, a handler that leaves it, and a block that cannot be
reached. -/
def twoWayLoop : Function where
  name := "twoWayLoop"
  params := [⟨1, "c", some .bool⟩]
  blocks :=
    [{ id := 4, term := some (.ret 0 false) },
     { id := 1, term := some (.brIf 1 2 3) },
     { id := 2, term := some (.br 3), handler := 4 },
     { id := 3, term := some (.brIf 1 2 4) },
     { id := 5, term := some (.br 4) }]
  entry := 1

theorem domTree_twoWayLoop :
    (∀ b ∈ twoWayLoop.blocks, b.id ≠ 0) ∧ twoWayLoop.blockIds.Nodup ∧
      twoWayLoop.entryBlock?.map Block.id = some 1 ∧
      IsIdom twoWayLoop.Flows 1 1 4 ∧ ¬ Dominates twoWayLoop.Flows 1 3 4 ∧
      ¬ twoWayLoop.Reachable 5 := by
  have hne : ∀ b ∈ twoWayLoop.blocks, b.id ≠ 0 := by decide
  have hnodup : twoWayLoop.blockIds.Nodup := by decide
  have he : twoWayLoop.entryBlock? = some { id := 1, term := some (.brIf 1 2 3) } := by decide
  obtain ⟨-, -, hdom, hidom⟩ := domTree_settles_and_decides_dominance hne hnodup he
  refine ⟨hne, hnodup, by rw [he]; rfl, ((hidom 4 1).1 (by decide)).2.2, fun h => ?_, ?_⟩
  · exact absurd ((hdom 3 4).2 h) (by decide)
  · rintro ⟨e, he', hpath⟩
    obtain rfl := Option.some.inj (he.symm.trans he')
    exact absurd ((hdom 5 5).2 (.refl hpath)) (by decide)

end Function

end SsaOpt
