import SsaOpt.Proofs.CallTreatment
import SsaOpt.Proofs.FoldingFixpoint

/-!
# Each call is treated once

The inliner walks over the blocks of a function while replacements put new blocks in between.
`Inline.Scans` is its loop without a bound on the number of replacements; it ends since every
replacement takes a call away from what is still to be scanned (`Inline.replaceCalls_scans`). The
blocks that have been scanned and the copies are never scanned again (`Inline.Scanning`), so the
loop treats each call that is there at the start once, in order (`Inline.Scans.treats`).
-/

namespace SsaOpt

namespace Inline

variable {wanted : Call → Option Function} {live : BlockId → Bool}

/-! ## Scans -/

/-- What a verdict says about a call: what it is replaced by a copy of, and what is warned of. A
verdict that ends the pass says nothing. -/
inductive Verdict.Means : Verdict → Option Function → Option Warning → Prop
  | pass : Means .pass none none
  | warn (callee : String) (reason : Ineligible) :
    Means (.warn callee reason) none (some ⟨callee, reason⟩)
  | fail (failure : Failure) (callee : Option Function) (warning : Option Warning) :
    Means (.fail failure) callee warning
  | splice (callee : Function) : Means (.splice callee) (some callee) none

section Scan

variable (judge : Call → Verdict) (wanted : Call → Option Function)
  (warned : Call → Option Warning)

/-- What a scan of instructions finds: no call that is wanted, a verdict that ends the pass, or the
first call that is wanted. -/
inductive InstrsScanned (position k : Nat) (is : List Instr) : Scan → Prop
  | past (hcalls : ∀ c ∈ callsOf is, wanted c = none) :
    InstrsScanned position k is ⟨(callsOf is).filterMap warned, none⟩
  | failed (warnings : List Warning) (failure : Failure) :
    InstrsScanned position k is ⟨warnings, some (.failed failure)⟩
  | site {place : Nat} {call : Call} {callee : Function}
    (hcall : is[place]? = some (.call call)) (hjudge : judge call = .splice callee)
    (hfirst : ∀ c ∈ callsOf (is.take place), wanted c = none) :
    InstrsScanned position k is ⟨(callsOf (is.take place)).filterMap warned,
      some (.site position (k + place) call callee)⟩

/-- The same of a scan of the live ones among some blocks. -/
inductive BlocksScanned (live : BlockId → Bool) (position : Nat) (blocks : List Block) :
    Scan → Prop
  | past (hcalls : ∀ c ∈ liveCalls live blocks, wanted c = none) :
    BlocksScanned live position blocks ⟨(liveCalls live blocks).filterMap warned, none⟩
  | failed (warnings : List Warning) (failure : Failure) :
    BlocksScanned live position blocks ⟨warnings, some (.failed failure)⟩
  | site {pre post : List Block} {b : Block} {place : Nat} {call : Call} {callee : Function}
    (hblocks : blocks = pre ++ b :: post) (hlive : live b.id = true)
    (hcall : b.instrs[place]? = some (.call call)) (hjudge : judge call = .splice callee)
    (hfirst : ∀ c ∈ liveCalls live pre ++ callsOf (b.instrs.take place), wanted c = none) :
    BlocksScanned live position blocks
      ⟨(liveCalls live pre ++ callsOf (b.instrs.take place)).filterMap warned,
        some (.site (position + pre.length) place call callee)⟩

variable {judge wanted warned}

/-- An instruction that a scan goes past. -/
theorem InstrsScanned.cons {position k : Nat} {is : List Instr} {scan : Scan} {i : Instr}
    (h : InstrsScanned judge wanted warned position (k + 1) is scan)
    (hi : ∀ c ∈ callsOf [i], wanted c = none) :
    InstrsScanned judge wanted warned position k (i :: is)
      { scan with warnings := (callsOf [i]).filterMap warned ++ scan.warnings } := by
  have hcalls : ∀ js, callsOf (i :: js) = callsOf [i] ++ callsOf js := callsOf_append [i]
  cases h with
  | past hpast =>
    dsimp only
    rw [← List.filterMap_append, ← hcalls]
    refine .past fun c hc => ?_
    rw [hcalls] at hc
    exact (List.mem_append.1 hc).elim (hi c) (hpast c)
  | failed warnings failure => exact .failed _ failure
  | @site place call callee hcall hjudge hfirst =>
    dsimp only
    rw [← List.filterMap_append, ← hcalls, ← List.take_succ_cons, Nat.add_right_comm,
      Nat.add_assoc]
    refine .site (by simpa using hcall) hjudge fun c hc => ?_
    rw [List.take_succ_cons, hcalls] at hc
    exact (List.mem_append.1 hc).elim (hi c) (hfirst c)

/-- A block that a scan goes past. -/
theorem BlocksScanned.cons {position : Nat} {blocks : List Block} {scan : Scan} {b : Block}
    (h : BlocksScanned judge wanted warned live (position + 1) blocks scan)
    (hb : ∀ c ∈ liveCalls live [b], wanted c = none) :
    BlocksScanned judge wanted warned live position (b :: blocks)
      { scan with warnings := (liveCalls live [b]).filterMap warned ++ scan.warnings } := by
  have hcalls : ∀ bs, liveCalls live (b :: bs) = liveCalls live [b] ++ liveCalls live bs :=
    liveCalls_append live [b]
  cases h with
  | past hpast =>
    dsimp only
    rw [← List.filterMap_append, ← hcalls]
    refine .past fun c hc => ?_
    rw [hcalls] at hc
    exact (List.mem_append.1 hc).elim (hb c) (hpast c)
  | failed warnings failure => exact .failed _ failure
  | @site pre post b' place call callee hblocks hlive hcall hjudge hfirst =>
    have hpre : b :: blocks = (b :: pre) ++ b' :: post := by rw [hblocks, List.cons_append]
    have hbefore : liveCalls live [b] ++ (liveCalls live pre ++ callsOf (b'.instrs.take place)) =
        liveCalls live (b :: pre) ++ callsOf (b'.instrs.take place) := by
      rw [hcalls pre, List.append_assoc]
    have hposition : position + 1 + pre.length = position + (b :: pre).length := by
      rw [List.length_cons]
      omega
    dsimp only
    rw [← List.filterMap_append, hbefore, hposition]
    refine .site hpre hlive hcall hjudge fun c hc => ?_
    rw [← hbefore] at hc
    exact (List.mem_append.1 hc).elim (hb c) (hfirst c)

variable (hmeans : ∀ c, (judge c).Means (wanted c) (warned c))
include hmeans

theorem scanInstrs_scanned (position k : Nat) (is : List Instr) :
    InstrsScanned judge wanted warned position k is (scanInstrs judge position k is) := by
  induction is generalizing k with
  | nil => exact .past (by simp)
  | cons i is ih =>
    cases i with
    | call c =>
      rw [scanInstrs]
      have hc := hmeans c
      generalize hj : judge c = verdict at hc
      generalize hw : wanted c = callee? at hc
      generalize hv : warned c = warning? at hc
      cases hc with
      | pass => simpa [hv] using (ih (k + 1)).cons (i := .call c) (by simpa using hw)
      | warn callee reason => simpa [hv] using (ih (k + 1)).cons (i := .call c) (by simpa using hw)
      | fail failure => exact .failed [] failure
      | splice callee =>
        have hcall : (Instr.call c :: is)[0]? = some (.call c) := rfl
        exact .site hcall hj (by simp)
    | _ => exact (ih (k + 1)).cons (by simp [callsOf, Instr.call?])

theorem scanBlocks_scanned (live : List BlockId) (position : Nat) (blocks : List Block) :
    BlocksScanned judge wanted warned live.contains position blocks
      (scanBlocks judge live position blocks) := by
  induction blocks generalizing position with
  | nil => exact .past (by simp)
  | cons b blocks ih =>
    rw [scanBlocks]
    split
    · next hlive =>
      have hone : liveCalls live.contains [b] = callsOf b.instrs := by
        rw [liveCalls_cons_of_live hlive, liveCalls_nil, List.append_nil]
      have hb := scanInstrs_scanned hmeans position 0 b.instrs
      generalize scanInstrs judge position 0 b.instrs = scan at hb
      cases hb with
      | past hcalls =>
        rw [← hone] at hcalls ⊢
        exact (ih (position + 1)).cons hcalls
      | failed warnings failure => exact .failed warnings failure
      | @site place call callee hcall hjudge hfirst =>
        have hblocks : b :: blocks = [] ++ b :: blocks := rfl
        rw [Nat.zero_add]
        exact .site hblocks hlive hcall hjudge hfirst
    · next hdead =>
      have hnone : liveCalls live.contains [b] = [] := by
        rw [liveCalls_cons_of_not_live (by simpa using hdead), liveCalls_nil]
      simpa [hnone] using (ih (position + 1)).cons (b := b) (by simp [hnone])

end Scan

/-! ## The loop -/

/-- The loop of the inliner, as often as there are calls to replace, with the replacements that it
makes. -/
inductive Scans (judge : Call → Verdict) :
    List BlockId → Nat → Function → List Replacement → Result → Prop
  | done {live : List BlockId} {position : Nat} {fn : Function} {warnings : List Warning}
    (hscan : scanBlocks judge live position (fn.blocks.drop position) = ⟨warnings, none⟩) :
    Scans judge live position fn [] { function := fn, warnings }
  | failed {live : List BlockId} {position : Nat} {fn : Function} {warnings : List Warning}
    {failure : Failure}
    (hscan : scanBlocks judge live position (fn.blocks.drop position) =
      ⟨warnings, some (.failed failure)⟩) :
    Scans judge live position fn [] { function := fn, warnings, failure }
  | site {live : List BlockId} {position next : Nat} {fn fn' : Function} {exit : BlockId}
    {warnings : List Warning} {e : Replacement} {rs : List Replacement} {later : Result}
    (hscan : scanBlocks judge live position (fn.blocks.drop position) =
      ⟨warnings, some (.site e.position e.place e.call e.callee)⟩)
    (hcaller : e.caller = fn) (hsplice : fn.splice e.position e.place e.call e.callee = (fn', exit))
    (hnext : fn'.blockIndex? exit = some next)
    (hlater : Scans judge (exit :: live) next fn' rs later) :
    Scans judge live position fn (e :: rs)
      { later with inlined := later.inlined + 1, warnings := warnings ++ later.warnings }

/-- A change of blocks that replacements may bring about: phis may name other predecessors, in
blocks with numbers among the `old` ones. -/
def Keeps (old : List BlockId) (f : Block → Block) : Prop :=
  ∀ b : Block, b.SameButPreds (f b) ∧ (b.id ∉ old → f b = b)

theorem Keeps.comp {old : List BlockId} {f g : Block → Block} (hf : Keeps old f)
    (hg : Keeps old g) : Keeps old (f ∘ g) := by
  refine fun b => ⟨(hg b).1.trans (hf (g b)).1, fun hid => ?_⟩
  rw [Function.comp_apply, (hg b).2 hid, (hf b).2 hid]

/-- A function in the middle of the loop: the blocks `done` are not scanned any more, and `todo` are
still to be scanned. These only jump to blocks that the function had at the start. -/
structure Scanning (old : List BlockId) (fn : Function) (done todo : List Block) : Prop where
  blocks_eq : fn.blocks = done ++ todo
  ids_nodup : fn.blockIds.Nodup
  old_mem : ∀ id ∈ old, id ∈ fn.blockIds
  targets_mem : ∀ b ∈ todo, ∀ t ∈ (b.term.map Term.targets).getD [], t ∈ old

namespace Scanning

variable {old : List BlockId} {fn : Function} {done todo : List Block}

theorem start (hshape : fn.Shape) : Scanning fn.blockIds fn [] fn.blocks where
  blocks_eq := rfl
  ids_nodup := hshape.ids_nodup
  old_mem _ hid := hid
  targets_mem b hb t ht := hshape.succ_mem b hb t (List.mem_append_left _ ht)

end Scanning

end Inline

namespace CallPlace

variable {fn callee : Function} (s : CallPlace fn callee)

/-- The blocks of the result in front of the exit block. -/
def front : List Block :=
  s.pre.map s.other ++ s.head :: Splice.copies fn s.numbers s.block callee

theorem splice_eq : fn.splice s.pre.length s.place s.call callee = (s.result, s.exitId) := by
  rw [result, Function.splice_eq s.ids_nodup s.blocks_eq]
  rfl

theorem blocks_result : s.result.blocks = s.front ++ s.exit :: s.post.map s.other := by
  rw [s.result_eq, front, List.append_assoc]
  rfl

theorem blockIndex?_exit (hids : s.result.blockIds.Nodup) :
    s.result.blockIndex? s.exitId = some s.front.length := by
  have hexit : s.result.blocks[s.front.length]? = some s.exit := by
    rw [s.blocks_result, List.getElem?_append_right (Nat.le_refl _), Nat.sub_self]
    rfl
  exact Function.blockIndex?_of_getElem? hids hexit

theorem other_sameButPreds (b : Block) : b.SameButPreds (s.other b) :=
  Splice.repoint_sameButPreds fn s.block b

section Exit

variable (hexit : s.exitId ∉ fn.blockIds)
include hexit

theorem contains_exitId (live : List BlockId) {b : Block} (hb : b ∈ s.post) :
    (s.exitId :: live).contains b.id = live.contains b.id := by
  have hmem : b.id ∈ fn.blockIds :=
    Function.mem_blockIds.2 ⟨b, by simp [s.blocks_eq, hb], rfl⟩
  have hne : b.id ≠ s.exitId := fun heq => hexit (heq ▸ hmem)
  rw [List.contains_cons, beq_false_of_ne hne, Bool.false_or]

/-- The replacement takes one call away from those that are still to be scanned. -/
theorem liveCalls_eq {live : List BlockId} (hlive : live.contains s.block.id = true)
    (pre : List Block) :
    Inline.liveCalls live.contains (pre ++ s.block :: s.post) =
      (Inline.liveCalls live.contains pre ++ Inline.callsOf (s.block.instrs.take s.place)) ++
        s.call :: Inline.liveCalls (s.exitId :: live).contains (s.exit :: s.post.map s.other) := by
  have hself : (s.exitId :: live).contains s.exit.id = true := by simp
  have hpost := Inline.liveCalls_map s.other_sameButPreds fun b hb =>
    s.contains_exitId hexit live hb
  rw [Inline.liveCalls_append, Inline.liveCalls_cons_of_live hlive,
    Inline.callsOf_eq_of_call_at s.call_at, Inline.liveCalls_cons_of_live hself, hpost,
    exit_instrs, Inline.callsOf_append, Inline.callsOf_merge]
  simp only [List.append_assoc, List.cons_append, List.nil_append]

end Exit

end CallPlace

namespace Inline

variable {wanted : Call → Option Function}

namespace Scanning

variable {old : List BlockId} {fn callee : Function} {done todo : List Block}

/-- The call that a scan has stopped at. -/
def site (h : Scanning old fn done todo) (callee : Function) {pre post : List Block} {b : Block}
    {place : Nat} {call : Call} (htodo : todo = pre ++ b :: post)
    (hcall : b.instrs[place]? = some (.call call)) : CallPlace fn callee where
  pre := done ++ pre
  block := b
  post := post
  place := place
  call := call
  blocks_eq := by rw [h.blocks_eq, htodo, List.append_assoc]
  call_at := hcall
  ids_nodup := h.ids_nodup

/-- **One replacement** leaves the exit block and what follows to be scanned. -/
theorem step (h : Scanning old fn done todo) (s : CallPlace fn callee) {pre : List Block}
    (htodo : todo = pre ++ s.block :: s.post) (hids : s.result.blockIds.Nodup) :
    Scanning old s.result s.front (s.exit :: s.post.map s.other) where
  blocks_eq := s.blocks_result
  ids_nodup := hids
  old_mem id hid := s.mem_blockIds_result.2 (Or.inl (h.old_mem id hid))
  targets_mem b hb t ht := by
    rcases List.mem_cons.1 hb with rfl | hb
    · exact h.targets_mem s.block (by simp [htodo]) t ht
    · obtain ⟨c, hc, rfl⟩ := List.mem_map.1 hb
      rw [s.other_term] at ht
      exact h.targets_mem c (by simp [htodo, hc]) t ht

/-- One replacement changes phis in old blocks only. -/
theorem keeps (h : Scanning old fn done todo) (s : CallPlace fn callee) (hs : s.block ∈ todo) :
    Keeps old s.other := by
  intro b
  refine ⟨s.other_sameButPreds b, fun hid => ?_⟩
  exact if_neg fun hmem => hid (h.targets_mem s.block hs b.id hmem)

/-- The copies are new blocks. -/
theorem map_copies (h : Scanning old fn done todo) (s : CallPlace fn callee)
    (hfresh : Splice.FreshBlocks fn callee s.numbers) {f : Block → Block} (hf : Keeps old f) :
    (Splice.copies fn s.numbers s.block callee).map f =
      Splice.copies fn s.numbers s.block callee := by
  conv_rhs => rw [← List.map_id (Splice.copies fn s.numbers s.block callee)]
  refine List.map_congr_left fun c hc => (hf c).2 fun hold => ?_
  obtain ⟨d, hd, rfl⟩ := List.mem_map.1 hc
  have hnew := (hfresh.block d.id (Function.mem_blockIds.2 ⟨d, hd, rfl⟩)).2.1
  rw [← s.copy_id hd] at hnew
  exact hnew (h.old_mem _ hold)

/-- **What one replacement adds** to the treatment of what it leaves to be scanned: the blocks in
front of the call's block are kept, and this block unfolds. -/
theorem treats_step (h : Scanning old fn done todo) (s : CallPlace fn callee)
    (hfresh : Splice.FreshBlocks fn callee s.numbers) {pre : List Block}
    (hpre : s.pre = done ++ pre) (htodo : todo = pre ++ s.block :: s.post) {live : List BlockId}
    (hlive : live.contains s.block.id = true) (hwanted : wanted s.call = some callee)
    (hfirst : ∀ c ∈ liveCalls live.contains pre ++ callsOf (s.block.instrs.take s.place),
      wanted c = none)
    {f : Block → Block} {rs : List Replacement} {bs : List Block} (hf : Keeps old f)
    (htreats : Treats wanted (s.exitId :: live).contains (s.exit :: s.post.map s.other) rs bs) :
    ∃ bs', s.front.map f ++ bs = done.map (f ∘ s.other) ++ bs' ∧
      Treats wanted live.contains todo
        (⟨fn, s.pre.length, s.place, s.call, callee⟩ :: rs) bs' := by
  have hsame : ∀ b : Block, b.SameButPreds ((f ∘ s.other) b) := fun b =>
    (s.other_sameButPreds b).trans (hf (s.other b)).1
  -- the exit block is live, whatever blocks were before
  cases htreats with
  | dead hdead => simp at hdead
  | @live _ _ bs₁ bs₂ rs₁ rs₂ _ hexit hpost =>
    have hfront : Treats wanted live.contains pre [] (pre.map (f ∘ s.other)) :=
      .map hsame fun c hc => hfirst c (List.mem_append_left _ hc)
    have hblock : Unfolds wanted s.block (⟨fn, s.pre.length, s.place, s.call, callee⟩ :: rs₁)
        (f s.head :: (Splice.copies fn s.numbers s.block callee ++ bs₁)) :=
      .replace (fun c hc => hfirst c (List.mem_append_right _ hc)) s.call_at hwanted (hf s.head).1
        hexit
    have hrest : Treats wanted live.contains s.post rs₂ bs₂ :=
      .of_map s.other_sameButPreds (fun c hc => s.contains_exitId hfresh.exit.2 live hc) hpost
    refine ⟨_, ?_, htodo ▸ hfront.append (.live hlive hblock hrest)⟩
    rw [CallPlace.front, List.map_append, List.map_cons, h.map_copies s hfresh hf, List.map_map,
      hpre, List.map_append]
    simp only [List.append_assoc, List.cons_append]

end Scanning

/-- Verdicts on calls: which calls are `wanted` replaced and which ones are `warned` about. What is
copied is in good shape and fits the call. -/
structure Rules (judge : Call → Verdict) (wanted : Call → Option Function)
    (warned : Call → Option Warning) : Prop where
  means : ∀ c, (judge c).Means (wanted c) (warned c)
  compatible : ∀ c callee, wanted c = some callee → compatible c callee = true
  body : ∀ c callee, wanted c = some callee → callee.isExternal = false
  shape : ∀ c callee, wanted c = some callee → callee.Shape

section Loop

variable {judge : Call → Verdict} {warned : Call → Option Warning}
  (rules : Rules judge wanted warned) {old : List BlockId}
include rules

namespace Rules

theorem of_splice {c : Call} {callee : Function} (h : judge c = .splice callee) :
    wanted c = some callee ∧ warned c = none := by
  have hc := rules.means c
  rw [h] at hc
  generalize wanted c = callee? at hc
  generalize warned c = warning? at hc
  cases hc
  exact ⟨rfl, rfl⟩

/-- What is copied. -/
theorem copied {c : Call} {callee : Function} (h : judge c = .splice callee) :
    Inline.compatible c callee = true ∧ callee.isExternal = false ∧ callee.Shape :=
  have hwanted := (rules.of_splice h).1
  ⟨rules.compatible c callee hwanted, rules.body c callee hwanted, rules.shape c callee hwanted⟩

end Rules

/-- **The loop ends** within as many rounds as there are live calls to scan, and one more. -/
theorem replaceCalls_scans {fuel : Nat} {live : List BlockId} {fn : Function}
    {done todo : List Block} (h : Scanning old fn done todo)
    (hfresh : ∀ e ∈ replacements judge fuel live done.length fn, e.FreshBlocks)
    (hfuel : (liveCalls live.contains todo).length < fuel) :
    Scans judge live done.length fn (replacements judge fuel live done.length fn)
      (replaceCalls judge fuel live done.length fn) := by
  induction fuel generalizing live fn done todo with
  | zero => exact absurd hfuel (Nat.not_lt_zero _)
  | succ fuel ih =>
    have hdrop : fn.blocks.drop done.length = todo := by rw [h.blocks_eq, List.drop_left]
    have hscanned := scanBlocks_scanned rules.means live done.length todo
    rw [replacements] at hfresh ⊢
    rw [replaceCalls]
    generalize hscan : scanBlocks judge live done.length todo = scan at hscanned
    rw [hdrop, hscan] at hfresh ⊢
    cases hscanned with
    | past => exact .done (by rw [hdrop, hscan])
    | failed => exact .failed (by rw [hdrop, hscan])
    | @site pre post b place call callee htodo hlive hcall hjudge hfirst =>
      let s : CallPlace fn callee := h.site callee htodo hcall
      have hlength : s.pre.length = done.length + pre.length := List.length_append
      have hnew : Splice.FreshBlocks fn callee s.numbers := by
        rw [CallPlace.numbers, hlength]
        exact hfresh ⟨fn, done.length + pre.length, place, call, callee⟩ (by simp)
      have hids := s.blockIds_nodup (rules.copied hjudge).2.2.ids_nodup hnew
      have hsplice : fn.splice (done.length + pre.length) place call callee =
          (s.result, s.exitId) := by
        rw [← hlength]
        exact s.splice_eq
      have hnext := s.blockIndex?_exit hids
      -- the call that is replaced is not among those that are left
      have hfewer : (liveCalls (s.exitId :: live).contains
          (s.exit :: s.post.map s.other)).length < fuel := by
        have hcalls : liveCalls live.contains todo = _ :=
          htodo ▸ s.liveCalls_eq hnew.exit.2 hlive pre
        rw [hcalls, List.length_append, List.length_cons] at hfuel
        omega
      simp only [hsplice, hnext, Option.getD_some] at hfresh ⊢
      exact .site (by rw [hdrop, hscan]) rfl hsplice hnext
        (ih (h.step s htodo hids) (fun e he => hfresh e (List.mem_cons_of_mem _ he)) hfewer)

/-- **What the loop makes** of a function, if it does not fail. The blocks that are not scanned any
more are kept, those to be scanned are treated, and their calls are replaced or warned about in
order. -/
theorem Scans.treats {live : List BlockId} {position : Nat} {fn : Function}
    {rs : List Replacement} {result : Result} (hscans : Scans judge live position fn rs result)
    {done todo : List Block} (h : Scanning old fn done todo) (hposition : position = done.length)
    (hfresh : ∀ e ∈ rs, e.FreshBlocks) (hnone : result.failure = none) :
    ∃ f bs, Keeps old f ∧ result.function.blocks = done.map f ++ bs ∧
      Treats wanted live.contains todo rs bs ∧ result.inlined = rs.length ∧
      result.warnings = (liveCalls live.contains todo).filterMap warned := by
  induction hscans generalizing done todo with
  | @done live position fn warnings hscan =>
    have hscanned := scanBlocks_scanned rules.means live position todo
    rw [h.blocks_eq, hposition, List.drop_left, ← hposition] at hscan
    rw [hscan] at hscanned
    cases hscanned with
    | past hcalls =>
      refine ⟨id, todo, fun b => ⟨.refl b, fun _ => rfl⟩, ?_, ?_, rfl, rfl⟩
      · rw [h.blocks_eq, List.map_id]
      · have hkept := Treats.map (f := id) Block.SameButPreds.refl hcalls
        rwa [List.map_id] at hkept
  | failed => cases hnone
  | @site live position next fn fn' exit warnings e rs later hscan hcaller hsplice hnext _ ih =>
    have hscanned := scanBlocks_scanned rules.means live position todo
    rw [h.blocks_eq, hposition, List.drop_left, ← hposition] at hscan
    obtain ⟨caller, position', place, call, callee⟩ := e
    subst hcaller hposition
    rw [hscan] at hscanned
    cases hscanned with
    | @site pre post b place call callee htodo hlive hcall hjudge hfirst =>
      obtain ⟨hwanted, hwarned⟩ := rules.of_splice hjudge
      let s : CallPlace caller callee := h.site callee htodo hcall
      have hlength : s.pre.length = done.length.add pre.length := List.length_append
      rw [← hlength] at hfresh hsplice ⊢
      have hnew : Splice.FreshBlocks caller callee s.numbers := hfresh _ List.mem_cons_self
      have hids := s.blockIds_nodup (rules.copied hjudge).2.2.ids_nodup hnew
      -- the loop goes on where the invariant says that scanning is to go on
      obtain ⟨rfl, rfl⟩ := Prod.mk.inj (hsplice.symm.trans s.splice_eq)
      obtain rfl := Option.some.inj (hnext.symm.trans (s.blockIndex?_exit hids))
      obtain ⟨f, bs, hf, hblocks, htreats, hinlined, hwarnings⟩ := ih (h.step s htodo hids) rfl
        (fun e he => hfresh e (List.mem_cons_of_mem _ he)) hnone
      obtain ⟨bs', hbs', htreats'⟩ := h.treats_step s hnew rfl htodo hlive hwanted hfirst hf htreats
      have hblock : s.block ∈ todo := by
        rw [htodo]
        exact List.mem_append_right _ (List.mem_cons_self)
      refine ⟨f ∘ s.other, bs', hf.comp (h.keeps s hblock), hblocks.trans hbs', htreats', ?_, ?_⟩
      · rw [hinlined]
        rfl
      · have hcalls : liveCalls live.contains todo = _ :=
          htodo ▸ s.liveCalls_eq hnew.exit.2 hlive pre
        have hsilent : warned s.call = none := hwarned
        have hall := congrArg (List.filterMap warned) hcalls
        rw [List.filterMap_append, List.filterMap_cons_none hsilent, ← hwarnings] at hall
        exact hall.symm

/-- **From the start** each call is treated once, within as many rounds as there are calls. -/
theorem replaceCalls_treats {fn : Function} (hshape : fn.isExternal = false → fn.Shape)
    (live : List BlockId)
    (hfresh : ∀ e ∈ replacements judge (callCount fn + 1) live 0 fn, e.FreshBlocks)
    (hnone : (replaceCalls judge (callCount fn + 1) live 0 fn).failure = none) :
    Scans judge live 0 fn (replacements judge (callCount fn + 1) live 0 fn)
        (replaceCalls judge (callCount fn + 1) live 0 fn) ∧
      Treats wanted live.contains fn.blocks (replacements judge (callCount fn + 1) live 0 fn)
        (replaceCalls judge (callCount fn + 1) live 0 fn).function.blocks ∧
      (replaceCalls judge (callCount fn + 1) live 0 fn).inlined =
        (replacements judge (callCount fn + 1) live 0 fn).length ∧
      (replaceCalls judge (callCount fn + 1) live 0 fn).warnings =
        (liveCalls live.contains fn.blocks).filterMap warned := by
  cases hext : fn.isExternal with
  | false =>
    have h := Scanning.start (hshape hext)
    have hscans := replaceCalls_scans rules h hfresh
      (Nat.lt_succ_of_le (length_liveCalls_le live.contains fn))
    obtain ⟨f, bs, -, hblocks, htreats, hinlined, hwarnings⟩ :=
      hscans.treats rules h rfl hfresh hnone
    exact ⟨hscans, hblocks ▸ htreats, hinlined, hwarnings⟩
  | true =>
    have hblocks : fn.blocks = [] := List.isEmpty_iff.1 hext
    have hscan : scanBlocks judge live 0 (fn.blocks.drop 0) = ⟨[], none⟩ := by
      rw [hblocks]
      rfl
    simp only [replacements, replaceCalls, hscan]
    rw [hblocks]
    exact ⟨.done hscan, .nil, rfl, rfl⟩

end Loop

/-! ## The calls that are replaced -/

section Calls

variable (p : Policy) (m : Module) (g : CallGraph) (self : Nat)

/-- The function that a call in the function at position `self` may be replaced by a copy of, if it
is eligible: another one with a body, which fits the call. -/
def candidate? (m : Module) (self : Nat) (c : Call) : Option Function :=
  match m.lookup? c.target with
  | none => none
  | some (i, callee) =>
    if i ≠ self ∧ compatible c callee = true ∧ callee.isExternal = false then some callee else none

/-- What a call is replaced by a copy of. -/
def Policy.wanted? (c : Call) : Option Function :=
  (candidate? m self c).filter (p.shouldInline g)

/-- The warning about a call. -/
def Policy.objection? (c : Call) : Option Warning :=
  (candidate? m self c).bind fun callee => (p.ineligible? g callee).map (⟨callee.name, ·⟩)

variable {p m g self}

theorem candidate?_eq_some_iff {c : Call} {callee : Function} :
    candidate? m self c = some callee ↔
      (∃ i, m.lookup? c.target = some (i, callee) ∧ i ≠ self) ∧ compatible c callee = true ∧
        callee.isExternal = false := by
  unfold candidate?
  split
  · next hlookup => simp [hlookup]
  · next i callee' hlookup =>
    rw [Option.ite_none_right_eq_some, Option.some.injEq]
    constructor
    · rintro ⟨⟨hi, hfits, hbody⟩, rfl⟩
      exact ⟨⟨i, hlookup, hi⟩, hfits, hbody⟩
    · rintro ⟨⟨j, hj, hne⟩, hfits, hbody⟩
      obtain ⟨rfl, rfl⟩ := Prod.mk.inj (Option.some.inj (hlookup.symm.trans hj))
      exact ⟨⟨hne, hfits, hbody⟩, rfl⟩

/-- **The verdicts mean what they say.** -/
theorem judge_means (checker : Option Checker) (function : String) (c : Call) :
    (judge p checker m g self function c).Means (p.wanted? m g self c)
      (p.objection? m g self c) := by
  rw [judge, Policy.wanted?, Policy.objection?, candidate?]
  cases hlookup : m.lookup? c.target with
  | none => exact .pass
  | some e =>
    obtain ⟨i, callee⟩ := e
    dsimp only
    by_cases hfits : i ≠ self ∧ compatible c callee = true ∧ callee.isExternal = false
    · have hgo : ¬(i = self || !compatible c callee || callee.isExternal) = true := by simp [hfits]
      rw [if_neg hgo, if_pos hfits, Option.bind_some]
      cases hreason : p.ineligible? g callee with
      | some reason =>
        have hnot : p.shouldInline g callee = false := by rw [Policy.shouldInline, hreason]; rfl
        rw [Option.filter_some_neg (by simp [hnot])]
        exact .warn callee.name reason
      | none =>
        have hyes : p.shouldInline g callee = true := by rw [Policy.shouldInline, hreason]; rfl
        rw [Option.filter_some_pos hyes]
        cases hrefusal : refusal p checker function callee with
        | some failure => exact .fail failure _ _
        | none => exact .splice callee
    · have hskip : (i = self || !compatible c callee || callee.isExternal) = true := by
        simp only [Bool.or_eq_true, decide_eq_true_eq, Bool.not_eq_true']
        grind
      rw [if_neg hfits, if_pos hskip]
      exact .pass

theorem judge_rules (checker : Option Checker) (function : String)
    (hm : moduleErr? (some m) = none) :
    Rules (judge p checker m g self function) (p.wanted? m g self) (p.objection? m g self) := by
  have hcandidate : ∀ c callee, p.wanted? m g self c = some callee →
      candidate? m self c = some callee := fun c callee h => (Option.filter_eq_some_iff.1 h).1
  refine ⟨judge_means checker function, fun c callee h => ?_, fun c callee h => ?_,
    fun c callee h => ?_⟩
  · exact (candidate?_eq_some_iff.1 (hcandidate c callee h)).2.1
  · exact (candidate?_eq_some_iff.1 (hcandidate c callee h)).2.2
  · obtain ⟨⟨i, hi, -⟩, -, hbody⟩ := candidate?_eq_some_iff.1 (hcandidate c callee h)
    have hmem : callee ∈ m.functions := List.mem_of_getElem? (Module.function?_of_lookup? hi).2
    exact (Module.wellFormed_of_verified hm hmem hbody).1

end Calls

end Inline

/-- The entry dominates what control may come to. -/
theorem Function.dominates_entryId_iff (fn : Function) {id : BlockId} :
    fn.Dominates fn.entryId id ↔ fn.Reachable id := by
  have hstart : ∀ {e b : BlockId} {p : List BlockId}, Flow.Path fn.Flows e b p → e ∈ p := by
    intro e b p h
    induction h with
    | start => exact List.mem_singleton_self e
    | step _ _ ih => exact List.mem_cons_of_mem _ ih
  constructor
  · rintro ⟨e, he, hdominates⟩
    exact ⟨e, he, hdominates.1⟩
  · rintro ⟨e, he, hreach⟩
    refine ⟨e, he, hreach, fun p hp => ?_⟩
    rw [Function.entryId, he]
    exact hstart hp

namespace Inline

/-- **The live blocks** are those that control may come to. -/
theorem mem_liveBlocks_iff_reachable {fn : Function} (hne : ∀ b ∈ fn.blocks, b.id ≠ 0)
    (hnodup : fn.blockIds.Nodup) {id : BlockId} :
    id ∈ liveBlocks (DomTree.build (FlowGraph.build fn)) fn ↔ fn.Reachable id := by
  rw [liveBlocks, List.mem_filter, ← fn.dominates_entryId_iff, Function.dominates_iff hne hnodup]
  constructor
  · rintro ⟨-, hdominates⟩
    refine ⟨fun hnone => ?_, hdominates⟩
    simp [FlowGraph.build, hnone, DomTree.build, DomTree.dominates] at hdominates
  · intro h
    have hreach := fn.dominates_entryId_iff.1 ((Function.dominates_iff hne hnodup).2 h)
    exact ⟨hreach.mem_blockIds, h.2⟩

theorem mem_liveBlocks_iff {fn : Function} (hshape : fn.Shape) {b : Block} (_ : b ∈ fn.blocks) :
    b.id ∈ liveBlocks (DomTree.build (FlowGraph.build fn)) fn ↔ fn.Reachable b.id :=
  mem_liveBlocks_iff_reachable hshape.id_ne_zero hshape.ids_nodup

/-- The diagnostic of a warning about a call in `function`. -/
def Warning.diagnostic (env : PassEnv) (function : String) (w : Warning) : Diagnostic :=
  Diagnostic.withPrimary ⟨function, ""⟩ ""
    { Diagnostic.warning s!"not inlining call to {w.callee}: {w.reason.message}" with
      code := "W0003", pass := env.pass }

end Inline

namespace Run

variable {σ : Type} {r r' : Run σ} {g : CallGraph}

theorem callGraph?_cache (h : r.callGraph? = some (g, r')) :
    ∃ cache, r' = { r with cache } ∧ ∀ name function, name ≠ "callgraph" →
      cache.get? name function = r.cache.get? name function := by
  unfold callGraph? at h
  split at h
  · obtain ⟨-, rfl⟩ := Prod.mk.inj (Option.some.inj h)
    exact ⟨r.cache, rfl, fun _ _ _ => rfl⟩
  · obtain ⟨m, -, heq⟩ := Option.map_eq_some_iff.1 h
    obtain ⟨-, rfl⟩ := Prod.mk.inj heq
    exact ⟨_, rfl, fun name function hne => Cache.get?_put_of_ne (by simp [hne])⟩

theorem domTree_cache (fn : Function) : ∃ cache, (r.domTree fn).2 = { r with cache } := by
  have hflow : ∃ cache, (r.flowGraph fn).2 = { r with cache } := by
    unfold flowGraph
    split
    · exact ⟨r.cache, rfl⟩
    · exact ⟨_, rfl⟩
  unfold domTree
  split
  · exact ⟨r.cache, rfl⟩
  · obtain ⟨cache, hcache⟩ := hflow
    dsimp only
    rw [hcache]
    exact ⟨_, rfl⟩

/-- The call graph has no part in the dominator tree. -/
theorem domTree_of_callGraph? (h : r.callGraph? = some (g, r')) (fn : Function) :
    (r'.domTree fn).1 = (r.domTree fn).1 := by
  obtain ⟨cache, rfl, hget⟩ := callGraph?_cache h
  have hflow : (flowGraph fn { r with cache }).1 = (r.flowGraph fn).1 := by
    unfold flowGraph
    rw [hget "cfg" fn.name (by decide)]
    split <;> rfl
  unfold domTree
  rw [hget "domtree" fn.name (by decide)]
  split
  · rfl
  · exact congrArg DomTree.build hflow

end Run

namespace Transform

open Inline

variable {σ : Type} {p : Policy} {env : PassEnv}

theorem warnings_eq (ws : List Warning) (name : String) (r : Run σ) :
    ws.foldl (fun r w => r.warn env "W0003" name
        s!"not inlining call to {w.callee}: {w.reason.message}") r =
      { r with bag := r.bag ++ ws.map (Warning.diagnostic env name) } := by
  induction ws generalizing r with
  | nil => simp
  | cons w ws ih =>
    rw [List.foldl_cons, ih, Run.warn]
    simp only [List.append_assoc]
    rfl

/-- What a step of the inliner leaves. -/
theorem inline_onFunction_run {r : Run σ} {m : Module} {k : Nat} {fn : Function} {g : CallGraph}
    (hr : r.listing = .ofModule m) (hfn : m.functions[k]? = some fn)
    (hgraph : r.callGraph?.map Prod.fst = some g) :
    ∃ result, result = Inline.run p env.checker m g (r.domTree fn).1 k fn ∧
      ((inline p).onFunction env k r).1.failure = result.failure ∧
      ((inline p).onFunction env k r).2.listing =
        .ofModule { m with functions := m.functions.set k result.function } ∧
      ((inline p).onFunction env k r).2.tally.inlined = r.tally.inlined + result.inlined ∧
      ((inline p).onFunction env k r).2.bag =
        r.bag ++ result.warnings.map (Warning.diagnostic env fn.name) := by
  have hplace : r.listing.function? k = some fn := by rw [hr, Listing.function?_ofModule, hfn]
  obtain ⟨⟨g, r₁⟩, hcalls, rfl⟩ := Option.map_eq_some_iff.1 hgraph
  have htree := Run.domTree_of_callGraph? hcalls fn
  obtain ⟨cache₁, rfl, -⟩ := Run.callGraph?_cache hcalls
  obtain ⟨cache₂, hcache₂⟩ := Run.domTree_cache (r := { r with cache := cache₁ }) fn
  have hfront : r.listing.front = m := by rw [hr, Listing.front_ofModule]
  refine ⟨_, rfl, ?_⟩
  simp only [onFunction, hplace, inlineFunction, hcalls, warnings_eq, hcache₂, htree,
    Run.setFunction, hfront, true_and, and_true]
  simp [hr]

/-- **Each call is treated once, if new blocks get numbers that are not in use.** This is so for a
function whose counters are above its numbers and have been set together (`Function.Counted`), as
long as numbers last. If a step of the inliner on a function of a verified module does not fail and
takes only such numbers for blocks, then every call in a block that control may come to whose target
is another function with a body that fits the call and is eligible is replaced by a copy of it, in
order, and nothing else is; the counter grows by the number of these calls. The calls whose target
is not eligible are warned about in order. -/
theorem inline_treats_each_call_once {r : Run σ} {m : Module} {k : Nat} {fn : Function}
    (hr : r.listing = .ofModule m) (hm : moduleErr? (some m) = none)
    (hfn : m.functions[k]? = some fn)
    (htree : (r.domTree fn).1 = DomTree.build (FlowGraph.build fn))
    (hnone : ((inline p).onFunction env k r).1.failure = none) :
    (fn.Counted → (∀ e ∈ replacementsIn p env k fn r, e.caller.Fits e.callee) →
      ∀ e ∈ replacementsIn p env k fn r, e.FreshBlocks) ∧
    ((∀ e ∈ replacementsIn p env k fn r, e.FreshBlocks) → ∃ g live result,
      r.callGraph?.map Prod.fst = some g ∧
      (∀ b ∈ fn.blocks, b.id ∈ live ↔ fn.Reachable b.id) ∧
      Scans (judge p env.checker m g k fn.name) live 0 fn (replacementsIn p env k fn r) result ∧
      ((inline p).onFunction env k r).2.listing =
        .ofModule { m with functions := m.functions.set k result.function } ∧
      Treats (p.wanted? m g k) live.contains fn.blocks (replacementsIn p env k fn r)
        result.function.blocks ∧
      (replacementsIn p env k fn r).map (fun e => (e.call, e.callee)) =
        (liveCalls live.contains fn.blocks).filterMap (fun c =>
          (p.wanted? m g k c).map fun callee => (c, callee)) ∧
      ((inline p).onFunction env k r).2.tally.inlined =
        r.tally.inlined + (replacementsIn p env k fn r).length ∧
      ((inline p).onFunction env k r).2.bag =
        r.bag ++ ((liveCalls live.contains fn.blocks).filterMap (p.objection? m g k)).map
          (Warning.diagnostic env fn.name)) := by
  have hshape : fn.isExternal = false → fn.Shape := fun hbody =>
    (Module.wellFormed_of_verified hm (List.mem_of_getElem? hfn) hbody).1
  constructor
  · intro hcounted hfits e he
    obtain ⟨g, fn', -, hspliced⟩ := inline_onFunction_spliced p env hr hfn
    have rules : Rules (judge p env.checker m g k fn.name) (p.wanted? m g k)
        (p.objection? m g k) := judge_rules env.checker fn.name hm
    exact (hspliced.fresh (fun _ _ => rules.copied) hshape hcounted hfits e he).toFreshBlocks
  · intro hfresh
    obtain ⟨g, r', hcalls, hr'⟩ := Run.callGraph?_ofModule hr
    have hgraph : r.callGraph?.map Prod.fst = some g := by rw [hcalls]; rfl
    obtain ⟨result, hresult, hfailure, hlisting, htally, hbag⟩ :=
      @inline_onFunction_run _ p env _ _ _ _ _ hr hfn hgraph
    have hreplaced : replacementsIn p env k fn r =
        Inline.replacements (judge p env.checker m g k fn.name) (callCount fn + 1)
          (liveBlocks (DomTree.build (FlowGraph.build fn)) fn) 0 fn := by
      simp only [replacementsIn, hcalls, hr', Listing.front_ofModule,
        Run.domTree_of_callGraph? hcalls, htree]
    rw [htree, Inline.run] at hresult
    rw [hreplaced] at hfresh ⊢
    rw [hfailure, hresult] at hnone
    obtain ⟨hscans, htreats, hinlined, hwarnings⟩ :=
      replaceCalls_treats (judge_rules env.checker fn.name hm) hshape _ hfresh hnone
    rw [← hresult] at hscans htreats hinlined hwarnings
    refine ⟨g, _, result, hgraph, fun b hb => ?_, hscans, hlisting, htreats, htreats.calls_eq, ?_,
      ?_⟩
    · exact mem_liveBlocks_iff (hshape (Function.isExternal_of_mem hb)) hb
    · rw [htally, hinlined]
    · rw [hbag, hwarnings]

/-- A function that calls itself and others. Control does not come to its second block. -/
def scattered : Function where
  name := "main"
  blocks :=
    [{ id := 1
       instrs := ["enter", "loop", "leaf"].map fun t => .call ⟨0, t, [], none, .pure, false⟩
       term := some (.br 3) },
     { id := 2
       instrs := [.call ⟨0, "leaf", [], none, .pure, false⟩]
       term := some (.br 3) },
     { id := 3
       instrs := ["main", "outside", "leaf"].map fun t => .call ⟨0, t, [], none, .pure, false⟩
       term := some (.ret 0 false) }]

/-- The functions that it calls. One of them calls the two others, of which one calls itself. -/
def scatteredCalls : Module where
  name := "m"
  functions :=
    [scattered, CallGraph.calling "enter" ["leaf", "loop"], CallGraph.calling "leaf" [],
      CallGraph.calling "loop" ["loop"]]

/-- A function whose block counter is below its numbers. The exit block of the first replacement
gets the number of the block that comes first, and the copy that of the last one. -/
def rescanned : Function where
  name := "main"
  entry := 1
  blocks :=
    [{ id := 2, term := some (.ret 0 false) },
     { id := 1
       instrs := ["loop", "enter"].map fun t => .call ⟨0, t, [], none, .pure, false⟩
       term := some (.br 3) },
     { id := 3, term := some (.br 2) }]
  nextBlock := 2

/-- The functions that it calls. -/
def rescannedCalls : Module where
  name := "m"
  functions :=
    [rescanned, CallGraph.calling "enter" ["leaf", "loop"], CallGraph.calling "leaf" [],
      CallGraph.calling "loop" ["loop"]]

/-- Calls that are treated once, and a function with a counter below its numbers, whose blocks are
scanned twice: a call that was copied is replaced, and there is one warning too many about its
first call, besides one about a call that was copied. -/
theorem scattered_treats_each_call_once :
    let p : Policy := ⟨32, true⟩
    let env : PassEnv := ⟨some .standard, "inline"⟩
    let r : Run Unit := { listing := .ofModule scatteredCalls, world := () }
    let r' : Run Unit := { listing := .ofModule rescannedCalls, world := () }
    moduleErr? (some scatteredCalls) = none ∧ scattered.Counted ∧
      (replacementsIn p env 0 scattered r).map (fun e => e.call.target) =
        ["enter", "leaf", "leaf"] ∧
      ((inline p).onFunction env 0 r).2.tally.inlined = 3 ∧
      ((inline p).onFunction env 0 r).2.bag =
        [Warning.diagnostic env "main" ⟨"loop", .recursive⟩] ∧
      (∃ g live result, (∀ b ∈ scattered.blocks, b.id ∈ live ↔ scattered.Reachable b.id) ∧
        Scans (judge p env.checker scatteredCalls g 0 "main") live 0 scattered
          (replacementsIn p env 0 scattered r) result ∧
        Treats (p.wanted? scatteredCalls g 0) live.contains scattered.blocks
          (replacementsIn p env 0 scattered r) result.function.blocks) ∧
      moduleErr? (some rescannedCalls) = none ∧
      (replacementsIn p env 0 rescanned r').map (fun e => e.call.target) = ["enter", "leaf"] ∧
      ((inline p).onFunction env 0 r').2.tally.inlined = 2 ∧
      ((inline p).onFunction env 0 r').2.bag =
        List.replicate 3 (Warning.diagnostic env "main" ⟨"loop", .recursive⟩) ∧
      ¬ ∀ e ∈ replacementsIn p env 0 rescanned r', e.FreshBlocks := by
  intro p env r r'
  have hm : moduleErr? (some scatteredCalls) = none := by decide
  have hm' : moduleErr? (some rescannedCalls) = none := by decide
  have hcounted : scattered.Counted := .of_zero rfl rfl
  have hfits : ∀ e ∈ replacementsIn p env 0 scattered r, e.caller.Fits e.callee := by
    decide +kernel
  have hnone : ((inline p).onFunction env 0 r).1.failure = none := by decide +kernel
  have hnone' : ((inline p).onFunction env 0 r').1.failure = none := by decide +kernel
  have htargets : (replacementsIn p env 0 scattered r).map (fun e => e.call.target) =
      ["enter", "leaf", "leaf"] := by
    decide +kernel
  obtain ⟨hfresh, htreated⟩ :=
    @inline_treats_each_call_once _ p env r _ _ _ rfl hm rfl rfl hnone
  obtain ⟨g, live, result, -, hlive, hscans, -, htreats, -, htally, -⟩ :=
    htreated (hfresh hcounted hfits)
  have hbag : ((inline p).onFunction env 0 r').2.bag =
      List.replicate 3 (Warning.diagnostic env "main" ⟨"loop", .recursive⟩) := by
    decide +kernel
  refine ⟨hm, hcounted, htargets, ?_, by decide +kernel, ⟨g, live, result, hlive, hscans, htreats⟩,
    hm', by decide +kernel, by decide +kernel, hbag, fun hfresh' => ?_⟩
  · have hlength := congrArg List.length htargets
    rw [List.length_map] at hlength
    rw [htally, hlength]
    rfl
  · -- there are three warnings, but only two calls
    obtain ⟨-, htreated'⟩ :=
      @inline_treats_each_call_once _ p env r' _ _ rescanned rfl hm' rfl rfl hnone'
    obtain ⟨g', live', result', -, -, -, -, -, -, -, hwarned⟩ := htreated' hfresh'
    have hthree := congrArg List.length (hbag.symm.trans hwarned)
    rw [List.length_append, List.length_map, List.length_replicate] at hthree
    have hcalls := length_liveCalls_le live'.contains rescanned
    have hwarnings := List.length_filterMap_le (p.objection? rescannedCalls g' 0)
      (liveCalls live'.contains rescanned.blocks)
    have htwo : callCount rescanned = 2 := by decide
    have hempty : r'.bag.length = 0 := rfl
    omega

end Transform

end SsaOpt
