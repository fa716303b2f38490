import SsaOpt.Proofs.PassEffects

/-!
# The rules that folding and clean-up keep

Constant folding changes nothing that the rules speak of, wherever it stops. Dead code elimination
keeps all rules but one, and that one too unless the function reads across: a block that can be
reached reads a value that a block that cannot be reached defines (`Function.ReadsAcross`). All
defects of what it leaves are such reads, in blocks that are still there (`Module.LostRead`).
-/

namespace SsaOpt

/-- A block that can be reached reads a value that a block that cannot be reached defines, a phi
from a predecessor that can be reached. -/
def Function.ReadsAcross (fn : Function) : Prop :=
  ∃ b ∈ fn.blocks, fn.Reachable b.id ∧
    ∃ c ∈ fn.blocks, ¬ fn.Reachable c.id ∧ ∃ j ∈ c.instrs,
      (∃ i ∈ b.instrs, i.ReadsFrom fn.Reachable j.result) ∨
        ∃ t, b.term = some t ∧ j.result ∈ t.operands

/-- A stranded value has a definition, which cannot be reached. -/
theorem Function.Stranded.definition {fn : Function} {v : ValueId} (h : fn.Stranded v) :
    ∃ c ∈ fn.blocks, ¬ fn.Reachable c.id ∧ ∃ j ∈ c.instrs, j.result = v := by
  rcases List.mem_append.1 h.defined.2 with hparam | hresult
  · obtain ⟨p, hp, hid⟩ := List.mem_map.1 hparam
    exact absurd hid (h.not_param p hp)
  · obtain ⟨j, hj, hv⟩ := List.mem_map.1 hresult
    obtain ⟨c, hc, hj⟩ := Function.mem_instrs.1 hj
    exact ⟨c, hc, h.not_reachable c hc j hj hv, j, hj, hv⟩

theorem Function.StrandedRead.readsAcross {fn : Function} {d : Defect} (h : fn.StrandedRead d) :
    fn.ReadsAcross := by
  obtain ⟨b, hb, -, hreach, v, hstranded, hread⟩ := h.reads
  obtain ⟨c, hc, hunreached, j, hj, rfl⟩ := hstranded.definition
  refine ⟨b, hb, hreach, c, hc, hunreached, j, hj, ?_⟩
  rcases hread with ⟨i, hi, hreads, -⟩ | ⟨t, ht, hv, -⟩
  · exact Or.inl ⟨i, hi, hreads⟩
  · exact Or.inr ⟨t, ht, hv⟩

/-- A defect of `m'`, which is what is left of `m`: a block that is still there reads a value that
was defined in blocks that could not be reached, and nowhere else. -/
def Module.LostRead (m m' : Module) (d : Defect) : Prop :=
  ∃ fn ∈ m.functions, fn.StrandedRead d ∧
    ∃ fn' ∈ m'.functions, fn'.name = fn.name ∧ d.block ∈ fn'.blockIds

/-- **Folding and clean-up keep all rules but one.** Constant folding leaves a verified module
verified, whether or not it fails. When dead code elimination succeeds, with any limit, all defects
of what it leaves are lost reads; there are none if no function of the module reads across. -/
theorem Transform.constFold_deadCode_keep_rules_but_one {σ : Type} {env : PassEnv} {r : Run σ}
    {m : Module} (hr : r.listing = .ofModule m) (hm : moduleErr? (some m) = none) :
    (∃ m', (constFold.pass.onModule env r).2.listing = .ofModule m' ∧
      moduleErr? (some m') = none) ∧
    ∀ n, ((deadCode n).pass.onModule env r).1.failure = none →
      ∃ m', ((deadCode n).pass.onModule env r).2.listing = .ofModule m' ∧
        (∀ d ∈ m'.defects ++ m'.memoryDefects, m.LostRead m' d) ∧
        ((∀ fn ∈ m.functions, ¬ fn.ReadsAcross) → moduleErr? (some m') = none) := by
  refine ⟨constFold_verified hr hm, fun n hnone => ?_⟩
  obtain ⟨fns, hlisting, htrimmed⟩ := deadCode_trimmed hr hm hnone
  obtain ⟨hdefects, hmemory⟩ := DeadCode.defects_of_trimmed hm htrimmed
  refine ⟨_, hlisting, fun d hd => ?_, fun hacross => ?_⟩
  · rw [hmemory, List.append_nil] at hd
    exact hdefects d hd
  · refine Module.moduleErr?_eq_none_iff.2 ⟨?_, hmemory⟩
    refine List.eq_nil_iff_forall_not_mem.2 fun d hd => ?_
    obtain ⟨fn, hfn, hread, -⟩ := hdefects d hd
    exact hacross fn hfn hread.readsAcross

namespace Transform

/-- A sum that can be folded and a product that declares another type than its operands have, which
folding refuses. The value that is returned is defined in a block without predecessors. -/
def halfFoldable : Function where
  name := "f"
  ret := some (.int ⟨true, .w32⟩)
  blocks :=
    [{ id := 1
       instrs := [.const ⟨1, some (.int ⟨true, .w32⟩), "7"⟩,
         .binary ⟨2, .add, 1, 1, some (.int ⟨true, .w32⟩)⟩,
         .binary ⟨3, .mul, 2, 2, some (.int ⟨true, .w8⟩)⟩]
       term := some (.ret 4 true) },
     { id := 2
       instrs := [.const ⟨4, some (.int ⟨true, .w32⟩), "1"⟩]
       term := some (.ret 4 true) }]

/-- What folding leaves of it. -/
def halfFolded : Function :=
  { halfFoldable with
    blocks := halfFoldable.blocks.modify 0 fun b =>
      { b with instrs := b.instrs.set 1 (.const ⟨2, some (.int ⟨true, .w32⟩), "14"⟩) } }

/-- What dead code elimination leaves of it. -/
def halfCleaned : Function :=
  { halfFoldable with blocks := [{ id := 1, term := some (.ret 4 true) }] }

/-- A phi merges a value from a block that cannot be reached. -/
def deadIncoming : Function where
  name := "f"
  params := [⟨1, "n", some (.int ⟨true, .w32⟩)⟩]
  ret := some (.int ⟨true, .w32⟩)
  blocks :=
    [{ id := 1, term := some (.br 2) },
     { id := 2
       instrs := [.phi ⟨3, some (.int ⟨true, .w32⟩), [⟨1, 1⟩, ⟨3, 2⟩]⟩]
       term := some (.ret 3 true) },
     { id := 3
       instrs := [.const ⟨2, some (.int ⟨true, .w32⟩), "1"⟩]
       term := some (.br 2) }]

/-- What dead code elimination leaves of it. -/
def liveIncoming : Function :=
  { deadIncoming with
    blocks :=
      [{ id := 1, term := some (.br 2) },
       { id := 2
         instrs := [.phi ⟨3, some (.int ⟨true, .w32⟩), [⟨1, 1⟩]⟩]
         term := some (.ret 3 true) }] }

theorem not_readsAcross_deadIncoming : ¬ deadIncoming.ReadsAcross := by
  have hreach : deadIncoming.Reachable = fun id => id = 1 ∨ id = 2 := by
    funext id
    have hrpo : (FlowGraph.build deadIncoming).rpo = [1, 2] := by decide
    rw [← FlowGraph.mem_rpo_iff (by decide), hrpo]
    simp
  rw [Function.ReadsAcross, hreach]
  simp [deadIncoming, Instr.ReadsFrom, Instr.result, Term.operands]

theorem halfFoldable_keeps_rules_but_one :
    (moduleErr? (some ⟨"m", [halfFoldable]⟩) = none ∧
      (constFold.pass.onModule ⟨some .standard, "constfold"⟩
        { listing := .ofModule ⟨"m", [halfFoldable]⟩, world := () }).1.failure ≠ none ∧
      moduleErr? (some ⟨"m", [halfFolded]⟩) = none) ∧
    Module.LostRead ⟨"m", [halfFoldable]⟩ ⟨"m", [halfCleaned]⟩
      ⟨"f", 1, .undefinedTermOperand (.ret 4 true) 4⟩ ∧
    moduleErr? (some ⟨"m", [deadIncoming]⟩) = none ∧
      moduleErr? (some ⟨"m", [liveIncoming]⟩) = none := by
  have hm : moduleErr? (some ⟨"m", [halfFoldable]⟩) = none := by decide
  have hm' : moduleErr? (some ⟨"m", [deadIncoming]⟩) = none := by decide
  let start (fn : Function) : Run Unit := { listing := .ofModule ⟨"m", [fn]⟩, world := () }
  -- the module that a listing shows is the one that the evaluation finds
  have shown {l : Listing} {m m' : Module} (h : l = .ofModule m) (h' : l = .ofModule m') :
      m = m' := by
    simpa using congrArg Listing.front (h.symm.trans h')
  obtain ⟨⟨m₁, hlisting₁, hfolded⟩, hcleaned⟩ :=
    @constFold_deadCode_keep_rules_but_one _ ⟨some .standard, "constfold"⟩ (start halfFoldable) _
      rfl hm
  obtain ⟨m₂, hlisting₂, hlost, -⟩ := hcleaned 0 (by decide +kernel)
  obtain ⟨m₃, hlisting₃, -, hclean⟩ :=
    (@constFold_deadCode_keep_rules_but_one _ ⟨some .standard, "dce"⟩ (start deadIncoming) _
      rfl hm').2 0 (by decide +kernel)
  obtain rfl : m₁ = ⟨"m", [halfFolded]⟩ := shown hlisting₁ (by decide +kernel)
  obtain rfl : m₂ = ⟨"m", [halfCleaned]⟩ := shown hlisting₂ (by decide +kernel)
  obtain rfl : m₃ = ⟨"m", [liveIncoming]⟩ := shown hlisting₃ (by decide +kernel)
  refine ⟨⟨hm, by decide +kernel, hfolded⟩, hlost _ (by decide), hm', hclean fun fn hfn => ?_⟩
  exact List.mem_singleton.1 hfn ▸ not_readsAcross_deadIncoming

end Transform

end SsaOpt
