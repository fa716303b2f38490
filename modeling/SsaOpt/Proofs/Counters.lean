import SsaOpt.Proofs.FlowGraph

/-!
# Counters

A function has one counter for values and one for blocks, and both are asked for numbers in any
order (`Function.draws`). What a counter gives next is told by its mark: the mark moves up by one
when the counter is asked, and asking the other counter does not move it, even where that sets both
counters (`mark_draw_of_ne`). So a counter that is above the numbers in use gives consecutive
numbers as long as they are below 2 ^ 32 (`drawn_eq_range`).
-/

namespace SsaOpt

theorem toNat_ofNat {n : Nat} (h : n < UInt32.size) : (UInt32.ofNat n).toNat = n :=
  Nat.mod_eq_of_lt h

namespace Function

theorem ofNat_ne_zero {n : Nat} (hpos : 0 < n) (hlt : n < UInt32.size) : UInt32.ofNat n ≠ 0 := by
  intro h
  have := congrArg UInt32.toNat h
  rw [toNat_ofNat hlt] at this
  simp at this
  omega

/-! ## The greatest number -/

theorem foldl_max (ids : List UInt32) (a : UInt32) :
    a ≤ ids.foldl max a ∧ (∀ id ∈ ids, id ≤ ids.foldl max a) ∧
      (ids.foldl max a = a ∨ ids.foldl max a ∈ ids) := by
  induction ids generalizing a with
  | nil => simp
  | cons b ids ih =>
    obtain ⟨hle, hall, hmem⟩ := ih (max a b)
    have hmax : a ≤ max a b ∧ b ≤ max a b ∧ (max a b = a ∨ max a b = b) := by
      rw [show max a b = if a ≤ b then b else a from rfl]
      split
      · next h => exact ⟨h, UInt32.le_refl b, Or.inr rfl⟩
      · next h => exact ⟨UInt32.le_refl a, UInt32.le_of_lt (UInt32.not_le.1 h), Or.inl rfl⟩
    rw [List.foldl_cons]
    refine ⟨UInt32.le_trans hmax.1 hle, fun id hid => ?_, ?_⟩
    · rcases List.mem_cons.1 hid with rfl | hid
      · exact UInt32.le_trans hmax.2.1 hle
      · exact hall id hid
    · rcases hmem with hmem | hmem
      · rw [hmem]
        exact hmax.2.2.imp id fun h => by simp [h]
      · exact Or.inr (List.mem_cons_of_mem _ hmem)

theorem le_greatest {ids : List UInt32} {id : UInt32} (h : id ∈ ids) : id ≤ greatest ids :=
  (foldl_max ids 0).2.1 id h

theorem greatest_mem {ids : List UInt32} (h : greatest ids ≠ 0) : greatest ids ∈ ids :=
  (foldl_max ids 0).2.2.resolve_left h

/-- Numbers that are not below a positive one which all numbers in use are below. -/
theorem unused_of_le {ids : List UInt32} {n : Nat} (hpos : 0 < n) (hlt : ∀ id ∈ ids, id.toNat < n)
    {id : UInt32} (hid : n ≤ id.toNat) : id ≠ 0 ∧ id ∉ ids := by
  refine ⟨?_, fun hmem => Nat.lt_irrefl _ (Nat.lt_of_lt_of_le (hlt id hmem) hid)⟩
  rintro rfl
  exact Nat.lt_irrefl _ (Nat.lt_of_lt_of_le hpos hid)

/-! ## Asking for numbers -/

/-- The counters of a function. -/
inductive Counter where
  | value
  | block
deriving DecidableEq

/-- Where a counter stands; `0` if it has not been set. -/
def reading (fn : Function) : Counter → UInt32
  | .value => fn.nextValue
  | .block => fn.nextBlock

/-- The numbers in use that a counter has to avoid. -/
def inUse (fn : Function) : Counter → List UInt32
  | .value => fn.definedIds
  | .block => fn.blockIds

/-- Asks a counter for a number. -/
def draw (fn : Function) : Counter → UInt32 × Function
  | .value => fn.freshValue
  | .block => fn.freshBlock

/-- Asks counters for numbers, one after the other. -/
def draws : Function → List Counter → List (Counter × UInt32)
  | _, [] => []
  | fn, c :: cs => (c, (fn.draw c).1) :: draws (fn.draw c).2 cs

/-- The function whose counters have been asked. -/
def after : Function → List Counter → Function
  | fn, [] => fn
  | fn, c :: cs => after (fn.draw c).2 cs

/-- The numbers that one of the counters has given. -/
def drawn (fn : Function) (c : Counter) (cs : List Counter) : List UInt32 :=
  ((fn.draws cs).filter fun e => e.1 = c).map Prod.snd

/-- The greatest number in use. -/
def lastUsed (fn : Function) (c : Counter) : UInt32 := greatest (fn.inUse c)

/-- The number that the next fresh value gets. -/
def valueMark (fn : Function) : Nat :=
  if fn.nextValue = 0 then (greatest fn.definedIds).toNat + 1 else fn.nextValue.toNat

/-- The number that the next fresh block gets. -/
def blockMark (fn : Function) : Nat :=
  if fn.nextBlock = 0 then (greatest fn.blockIds).toNat + 1 else fn.nextBlock.toNat

/-- The number that a counter gives next, if that is below 2 ^ 32. -/
def mark (fn : Function) : Counter → Nat
  | .value => fn.valueMark
  | .block => fn.blockMark

variable {fn : Function} {c d : Counter} {cs : List Counter}

@[simp] theorem drawn_nil : fn.drawn c [] = [] := rfl

@[simp] theorem drawn_cons_self :
    fn.drawn c (c :: cs) = (fn.draw c).1 :: (fn.draw c).2.drawn c cs := by
  simp [drawn, draws]

@[simp] theorem drawn_cons_of_ne (h : d ≠ c) :
    fn.drawn c (d :: cs) = (fn.draw d).2.drawn c cs := by
  simp [drawn, draws, h]

theorem drawn_append (fn : Function) (c : Counter) (cs cs' : List Counter) :
    fn.drawn c (cs ++ cs') = fn.drawn c cs ++ (fn.after cs).drawn c cs' := by
  induction cs generalizing fn with
  | nil => rfl
  | cons d cs ih =>
    by_cases h : d = c
    · subst h
      rw [List.cons_append, drawn_cons_self, drawn_cons_self, ih, after, List.cons_append]
    · rw [List.cons_append, drawn_cons_of_ne h, drawn_cons_of_ne h, ih, after]

theorem after_append (fn : Function) (cs cs' : List Counter) :
    fn.after (cs ++ cs') = (fn.after cs).after cs' := by
  induction cs generalizing fn with
  | nil => rfl
  | cons d cs ih => exact ih _

theorem length_drawn (fn : Function) (c : Counter) (cs : List Counter) :
    (fn.drawn c cs).length = cs.count c := by
  induction cs generalizing fn with
  | nil => rfl
  | cons d cs ih =>
    by_cases h : d = c
    · subst h
      simp [ih]
    · simp [h, ih]

/-! ## One number -/

/-- The function that a number is taken from: where the counter is unset, both counters have been
raised. -/
def ready (fn : Function) (c : Counter) : Function :=
  if fn.reading c = 0 then fn.raiseCounters else fn

theorem reading_raiseCounters (fn : Function) (c : Counter) :
    fn.raiseCounters.reading c =
      if fn.reading c ≤ fn.lastUsed c then fn.lastUsed c + 1 else fn.reading c := by
  cases c <;> rfl

theorem inUse_ready (fn : Function) (c d : Counter) : (fn.ready c).inUse d = fn.inUse d := by
  unfold ready
  split
  · cases d <;> rfl
  · rfl

@[simp] theorem inUse_draw (fn : Function) (c d : Counter) :
    (fn.draw c).2.inUse d = fn.inUse d := by
  rw [← inUse_ready fn c d]
  cases c <;> cases d <;> rfl

@[simp] theorem lastUsed_draw (fn : Function) (c d : Counter) :
    (fn.draw c).2.lastUsed d = fn.lastUsed d := by
  rw [lastUsed, inUse_draw, lastUsed]

theorem mark_eq (fn : Function) (c : Counter) :
    fn.mark c = if fn.reading c = 0 then (fn.lastUsed c).toNat + 1 else (fn.reading c).toNat := by
  cases c <;> rfl

theorem mark_of_reading_eq_zero (h : fn.reading c = 0) :
    fn.mark c = (fn.lastUsed c).toNat + 1 := by
  rw [mark_eq, if_pos h]

theorem mark_of_reading_ne_zero (h : fn.reading c ≠ 0) : fn.mark c = (fn.reading c).toNat := by
  rw [mark_eq, if_neg h]

theorem mark_pos (fn : Function) (c : Counter) : 0 < fn.mark c := by
  rw [mark_eq]
  split
  · exact Nat.succ_pos _
  · next h0 => exact Nat.pos_of_ne_zero fun h => h0 (UInt32.toNat_inj.1 h)

theorem draw_fst (fn : Function) (c : Counter) : (fn.draw c).1 = UInt32.ofNat (fn.mark c) := by
  have hdraw : (fn.draw c).1 = (fn.ready c).reading c := by cases c <;> rfl
  rw [hdraw, ready]
  split
  · next h0 =>
    rw [mark_of_reading_eq_zero h0, reading_raiseCounters, h0, if_pos UInt32.zero_le,
      UInt32.ofNat_add, UInt32.ofNat_toNat]
    rfl
  · next h0 => rw [mark_of_reading_ne_zero h0, UInt32.ofNat_toNat]

theorem reading_draw_self (fn : Function) (c : Counter) :
    (fn.draw c).2.reading c = UInt32.ofNat (fn.mark c + 1) := by
  have hnext : (fn.draw c).2.reading c = (fn.draw c).1 + 1 := by cases c <;> rfl
  rw [hnext, draw_fst, UInt32.ofNat_add]
  rfl

theorem reading_draw_of_ne (h : d ≠ c) :
    (fn.draw c).2.reading d = (fn.ready c).reading d := by
  cases c <;> cases d
  · exact absurd rfl h
  · rfl
  · rfl
  · exact absurd rfl h

/-- A function with other counters. -/
def SameButCounters (fn fn' : Function) : Prop :=
  ∃ v n, fn' = { fn with nextValue := v, nextBlock := n }

theorem SameButCounters.trans {fn fn' fn'' : Function} (h : SameButCounters fn fn')
    (h' : SameButCounters fn' fn'') : SameButCounters fn fn'' := by
  obtain ⟨v, n, rfl⟩ := h
  obtain ⟨v', n', rfl⟩ := h'
  exact ⟨v', n', rfl⟩

theorem freshValue_counters (fn : Function) : SameButCounters fn fn.freshValue.2 := by
  unfold freshValue
  split <;> exact ⟨_, _, rfl⟩

theorem freshBlock_counters (fn : Function) : SameButCounters fn fn.freshBlock.2 := by
  unfold freshBlock
  split <;> exact ⟨_, _, rfl⟩

/-- Asking for numbers changes the counters only. -/
theorem after_counters (fn : Function) (cs : List Counter) : SameButCounters fn (fn.after cs) := by
  induction cs generalizing fn with
  | nil => exact ⟨_, _, rfl⟩
  | cons c cs ih =>
    refine SameButCounters.trans ?_ (ih _)
    cases c
    · exact fn.freshValue_counters
    · exact fn.freshBlock_counters

/-! ## Marks -/

theorem toNat_add_one {n : UInt32} (h : n + 1 ≠ 0) : (n + 1).toNat = n.toNat + 1 := by
  have hmod : (n + 1).toNat = (n.toNat + 1) % UInt32.size := UInt32.toNat_add n 1
  rcases Nat.lt_or_eq_of_le (Nat.succ_le_of_lt n.toNat_lt_size) with hlt | hlast
  · rw [hmod, Nat.mod_eq_of_lt hlt]
  · refine absurd (UInt32.toNat_inj.1 ?_) h
    rw [hmod, ← Nat.succ_eq_add_one, hlast, Nat.mod_self]
    rfl

/-- **Asking one counter does not move the mark of the other**, if that is above the numbers in
use. -/
theorem mark_draw_of_ne (h : d ≠ c) (habove : (fn.lastUsed d).toNat < fn.mark d) :
    (fn.draw c).2.mark d = fn.mark d := by
  rw [mark_eq] at habove
  rw [mark_eq, mark_eq, lastUsed_draw, reading_draw_of_ne h, ready]
  split
  · rw [reading_raiseCounters]
    split
    · next hle =>
      -- A counter that has been set is above the numbers in use, so this one has not been.
      have h0 : fn.reading d = 0 := by
        by_contra h0
        rw [if_neg h0] at habove
        exact absurd (UInt32.le_iff_toNat_le.1 hle) (Nat.not_le.2 habove)
      rw [if_pos h0]
      split
      · rfl
      · next hne => exact toNat_add_one hne
    · rfl
  · rfl

theorem mark_draw_self (h : fn.mark c + 1 < UInt32.size) :
    (fn.draw c).2.mark c = fn.mark c + 1 := by
  have hne : (fn.draw c).2.reading c ≠ 0 := by
    rw [reading_draw_self]
    exact ofNat_ne_zero (Nat.succ_pos _) h
  rw [mark_of_reading_ne_zero hne, reading_draw_self, toNat_ofNat h]

/-! ## Many numbers -/

/-- **Below the limit a counter gives consecutive numbers**, from its mark on. -/
theorem drawn_eq_range (habove : (fn.lastUsed c).toNat < fn.mark c)
    (hle : fn.mark c + cs.count c ≤ UInt32.size) :
    fn.drawn c cs = (List.range' (fn.mark c) (cs.count c)).map UInt32.ofNat := by
  induction cs generalizing fn with
  | nil => rfl
  | cons d cs ih =>
    by_cases hd : d = c
    · subst hd
      rw [List.count_cons_self] at hle ⊢
      rw [drawn_cons_self, List.range'_succ, List.map_cons, draw_fst]
      congr 1
      by_cases hmore : cs.count d = 0
      · rw [hmore]
        exact List.eq_nil_of_length_eq_zero ((length_drawn _ d cs).trans hmore)
      · have hmark : (fn.draw d).2.mark d = fn.mark d + 1 := mark_draw_self (by omega)
        rw [ih (by rw [lastUsed_draw, hmark]; omega) (by rw [hmark]; omega), hmark]
    · have hmark := mark_draw_of_ne (Ne.symm hd) habove
      rw [List.count_cons_of_ne hd] at hle ⊢
      rw [drawn_cons_of_ne hd, ih (by rw [lastUsed_draw, hmark]; exact habove) (by rwa [hmark]),
        hmark]

/-- Where both counters have been set, they just move on. -/
theorem reading_after {k : Counter → Nat} (hreading : ∀ c, fn.reading c = UInt32.ofNat (k c))
    (hpos : ∀ c, 0 < k c) (hle : ∀ c, k c + cs.count c ≤ UInt32.size) (c : Counter) :
    (fn.after cs).reading c = UInt32.ofNat (k c + cs.count c) := by
  induction cs generalizing fn k with
  | nil => exact hreading c
  | cons d cs ih =>
    have hlt : k d < UInt32.size := by
      have := hle d
      rw [List.count_cons_self] at this
      omega
    have hset : fn.reading d ≠ 0 := hreading d ▸ ofNat_ne_zero (hpos d) hlt
    have hmark : fn.mark d = k d := by
      rw [mark_of_reading_ne_zero hset, hreading, toNat_ofNat hlt]
    have hnext : ∀ c, (fn.draw d).2.reading c = UInt32.ofNat (k c + [d].count c) := by
      intro c
      by_cases hc : d = c
      · subst hc
        rw [reading_draw_self, hmark, List.count_singleton_self]
      · rw [reading_draw_of_ne (Ne.symm hc), ready, if_neg hset, hreading,
          List.count_eq_zero_of_not_mem (by simpa using Ne.symm hc), Nat.add_zero]
    have hsplit : ∀ c, (d :: cs).count c = [d].count c + cs.count c := fun c => by
      rw [← List.count_append, List.singleton_append]
    rw [after, ih hnext (fun c => Nat.add_pos_left (hpos c) _)
      fun c => by rw [Nat.add_assoc, ← hsplit]; exact hle c, hsplit, Nat.add_assoc]

/-! ## Counters above the numbers in use -/

/-- Counters that are not `0` are above all numbers in use. -/
structure CountersAbove (fn : Function) : Prop where
  value_lt : fn.nextValue ≠ 0 → ∀ id ∈ fn.definedIds, id < fn.nextValue
  block_lt : fn.nextBlock ≠ 0 → ∀ id ∈ fn.blockIds, id < fn.nextBlock

theorem countersAbove_iff :
    fn.CountersAbove ↔ ∀ c, fn.reading c ≠ 0 → ∀ id ∈ fn.inUse c, id < fn.reading c := by
  constructor
  · intro h c
    cases c
    · exact h.value_lt
    · exact h.block_lt
  · exact fun h => ⟨h .value, h .block⟩

namespace CountersAbove

/-- All numbers in use are below the mark. -/
theorem lt_mark (h : fn.CountersAbove) {id : UInt32} (hid : id ∈ fn.inUse c) :
    id.toNat < fn.mark c := by
  rw [mark_eq]
  split
  · have := UInt32.le_iff_toNat_le.1 (le_greatest hid)
    exact Nat.lt_succ_of_le this
  · next h0 => exact UInt32.lt_iff_toNat_lt.1 (countersAbove_iff.1 h c h0 id hid)

theorem lastUsed_lt (h : fn.CountersAbove) (c : Counter) : (fn.lastUsed c).toNat < fn.mark c := by
  by_cases h0 : fn.lastUsed c = 0
  · rw [h0]
    exact fn.mark_pos c
  · exact h.lt_mark (greatest_mem h0)

/-- A counter that is raised stands at the mark. -/
theorem reading_raiseCounters (h : fn.CountersAbove) (c : Counter) :
    fn.raiseCounters.reading c = UInt32.ofNat (fn.mark c) := by
  have habove := h.lastUsed_lt c
  rw [Function.reading_raiseCounters]
  by_cases h0 : fn.reading c = 0
  · rw [h0, if_pos UInt32.zero_le, mark_of_reading_eq_zero h0, UInt32.ofNat_add,
      UInt32.ofNat_toNat]
    rfl
  · rw [mark_of_reading_ne_zero h0] at habove ⊢
    rw [if_neg fun hle => Nat.not_lt.2 (UInt32.le_iff_toNat_le.1 hle) habove, UInt32.ofNat_toNat]

/-- A counter that has been asked for a number that there is. -/
theorem draw (h : fn.CountersAbove) (hlt : fn.mark c < UInt32.size) :
    (fn.draw c).2.CountersAbove := by
  rw [countersAbove_iff]
  intro d h0 id hid
  rw [inUse_draw] at hid
  have hid := h.lt_mark hid
  rw [UInt32.lt_iff_toNat_lt, ← mark_of_reading_ne_zero h0]
  by_cases hd : d = c
  · subst hd
    have hmore : fn.mark d + 1 < UInt32.size := by
      refine Nat.lt_of_le_of_ne (Nat.succ_le_of_lt hlt) fun hlast => h0 ?_
      rw [reading_draw_self, hlast]
      rfl
    rw [mark_draw_self hmore]
    exact Nat.lt_succ_of_lt hid
  · rwa [mark_draw_of_ne hd (h.lastUsed_lt d)]

/-- A function with the same counters and no other numbers. -/
theorem of_subset {fn' : Function} (h : fn.CountersAbove)
    (hreading : ∀ c, fn'.reading c = fn.reading c) (hinUse : ∀ c, fn'.inUse c ⊆ fn.inUse c) :
    fn'.CountersAbove := by
  rw [countersAbove_iff] at h ⊢
  intro c h0 id hid
  rw [hreading] at h0 ⊢
  exact h c h0 id (hinUse c hid)

/-- Numbers from the mark on are not in use. -/
theorem unused (h : fn.CountersAbove) {id : UInt32} (hid : fn.mark c ≤ id.toNat) :
    id ≠ 0 ∧ id ∉ fn.inUse c :=
  unused_of_le (fn.mark_pos c) (fun _ => h.lt_mark) hid

end CountersAbove

end Function

end SsaOpt
