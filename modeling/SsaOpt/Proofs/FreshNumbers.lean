import Mathlib.Data.List.Perm.Subperm
import SsaOpt.Proofs.Counters
import SsaOpt.Proofs.RoundTrip

/-!
# How long fresh numbers are fresh

A function that has been read has its counters unset, so each of them gives away the numbers after
the greatest one in use. They are fresh exactly as long as they stay below 2 ^ 32
(`drawn_fresh_iff_room`): after 2 ^ 32 - 1 a counter starts again behind the numbers in use,
and if 2 ^ 32 - 1 is in use itself, it starts at `0`.
-/

namespace SsaOpt

namespace Function

/-- None of the numbers that are given is `0` or in use, and none is given twice. -/
structure AllFresh (used given : List UInt32) : Prop where
  ne_zero : ∀ n ∈ given, n ≠ 0
  unused : ∀ n ∈ given, n ∉ used
  distinct : given.Nodup

/-- As many numbers as `n` come after any number in use and stay below 2 ^ 32. -/
structure Room (used : List UInt32) (n : Nat) : Prop where
  number : n < UInt32.size
  after : ∀ id ∈ used, id.toNat + n < UInt32.size

instance (used : List UInt32) (n : Nat) : Decidable (Room used n) :=
  decidable_of_iff
    (n < UInt32.size ∧ (used.all fun id => id.toNat + n < UInt32.size) = true)
    ⟨fun h => ⟨h.1, by simpa using h.2⟩, fun h => ⟨h.number, by simpa using h.after⟩⟩

variable {fn : Function} {c : Counter} {cs : List Counter}

/-! ## At the limit -/

/-- After the last number of all, a counter is unset again. -/
theorem mark_draw_last (h : fn.mark c + 1 = UInt32.size) :
    (fn.draw c).2.mark c = (fn.lastUsed c).toNat + 1 := by
  have h0 : (fn.draw c).2.reading c = 0 := by
    rw [reading_draw_self, h]
    rfl
  rw [mark_of_reading_eq_zero h0, lastUsed_draw]

theorem mark_lt (hlast : (fn.lastUsed c).toNat + 1 < UInt32.size) : fn.mark c < UInt32.size := by
  rw [mark_eq]
  split
  · exact hlast
  · exact UInt32.toNat_lt_size _

/-- **A counter never gives a number that is in use**, however often it is asked, unless the last
number of all is in use. -/
theorem lastUsed_lt_of_mem_drawn (hlast : (fn.lastUsed c).toNat + 1 < UInt32.size)
    (habove : (fn.lastUsed c).toNat < fn.mark c) {n : UInt32} (hn : n ∈ fn.drawn c cs) :
    (fn.lastUsed c).toNat < n.toNat := by
  induction cs generalizing fn with
  | nil => cases hn
  | cons d cs ih =>
    by_cases hd : d = c
    · subst hd
      have hlt := mark_lt hlast
      rw [drawn_cons_self, List.mem_cons, draw_fst] at hn
      rcases hn with rfl | hn
      · rwa [toNat_ofNat hlt]
      · have hagain : (fn.lastUsed d).toNat < (fn.draw d).2.mark d := by
          rcases Nat.lt_or_eq_of_le (Nat.succ_le_of_lt hlt) with hmore | hend
          · rw [mark_draw_self hmore]
            exact Nat.lt_succ_of_lt habove
          · rw [mark_draw_last hend]
            exact Nat.lt_succ_self _
        have hrest := ih (by rwa [lastUsed_draw]) (by rwa [lastUsed_draw]) hn
        rwa [lastUsed_draw] at hrest
    · rw [drawn_cons_of_ne hd] at hn
      have hrest := ih (by rwa [lastUsed_draw])
        (by rwa [lastUsed_draw, mark_draw_of_ne (Ne.symm hd) habove]) hn
      rwa [lastUsed_draw] at hrest

/-- There are only so many different numbers after a given one. -/
theorem length_le_of_nodup_above {k : Nat} {ns : List UInt32} (hk : k < UInt32.size)
    (hnodup : ns.Nodup) (habove : ∀ n ∈ ns, k < n.toNat) : k + ns.length < UInt32.size := by
  have hdistinct : (ns.map UInt32.toNat).Nodup := hnodup.map fun _ _ => UInt32.toNat_inj.1
  have hsubset : ns.map UInt32.toNat ⊆ List.range' (k + 1) (UInt32.size - (k + 1)) := by
    intro n hn
    obtain ⟨id, hid, rfl⟩ := List.mem_map.1 hn
    have hlt := id.toNat_lt_size
    have := habove id hid
    exact List.mem_range'_1.2 (by omega)
  have hlength := (List.subperm_of_subset hdistinct hsubset).length_le
  rw [List.length_map, List.length_range'] at hlength
  omega

/-- The first number that a counter gives is the one at its mark. -/
theorem ofNat_mark_mem_drawn (habove : (fn.lastUsed c).toNat < fn.mark c) (hc : c ∈ cs) :
    UInt32.ofNat (fn.mark c) ∈ fn.drawn c cs := by
  induction cs generalizing fn with
  | nil => cases hc
  | cons d cs ih =>
    by_cases hd : d = c
    · subst hd
      rw [drawn_cons_self, draw_fst]
      exact List.mem_cons_self
    · have hmark := mark_draw_of_ne (Ne.symm hd) habove
      rw [drawn_cons_of_ne hd, ← hmark]
      exact ih (by rwa [lastUsed_draw, hmark]) ((List.mem_cons.1 hc).resolve_left (Ne.symm hd))

/-! ## Freshness -/

/-- Consecutive numbers after those in use are fresh. -/
theorem allFresh_range {used : List UInt32} {k n : Nat} (hpos : 0 < k)
    (hused : ∀ id ∈ used, id.toNat < k) (hle : k + n ≤ UInt32.size) :
    AllFresh used ((List.range' k n).map UInt32.ofNat) := by
  have hunused : ∀ id ∈ (List.range' k n).map UInt32.ofNat, id ≠ 0 ∧ id ∉ used := by
    intro id hid
    obtain ⟨i, hi, rfl⟩ := List.mem_map.1 hid
    rw [List.mem_range'_1] at hi
    refine unused_of_le hpos hused ?_
    rw [toNat_ofNat (by omega)]
    exact hi.1
  refine ⟨fun id hid => (hunused id hid).1, fun id hid => (hunused id hid).2, ?_⟩
  refine List.Nodup.map_on (fun i hi j hj hij => ?_) List.nodup_range'
  rw [List.mem_range'_1] at hi hj
  rw [← toNat_ofNat (n := i) (by omega), hij, toNat_ofNat (by omega)]

theorem room_iff {used : List UInt32} {n : Nat} :
    Room used n ↔ (greatest used).toNat + n < UInt32.size := by
  constructor
  · intro h
    by_cases h0 : greatest used = 0
    · rw [h0]
      exact (Nat.zero_add n).symm ▸ h.number
    · exact h.after _ (greatest_mem h0)
  · intro h
    refine ⟨by omega, fun id hid => ?_⟩
    have := UInt32.le_iff_toNat_le.1 (le_greatest hid)
    omega

/-- There is room for fewer than 2 ^ 31 numbers if no number in use is above 2 ^ 31. -/
theorem room_of_le {used : List UInt32} (hlength : cs.length < 2147483648)
    (hle : ∀ id ∈ used, id.toNat ≤ 2147483648) : Room used (cs.count c) := by
  have hcount : cs.count c ≤ cs.length := List.count_le_length
  have hsize : UInt32.size = 4294967296 := rfl
  refine ⟨by omega, fun id hid => ?_⟩
  have := hle id hid
  omega

/-- If there is room for any fewer than 2 ^ 31 numbers, no number in use is above 2 ^ 31. -/
theorem le_of_room {used : List UInt32} (h : Room used 2147483647) {id : UInt32}
    (hid : id ∈ used) : id.toNat ≤ 2147483648 := by
  have hafter := h.after id hid
  have hsize : UInt32.size = 4294967296 := rfl
  omega

/-- **The numbers of a counter that has not been set** are fresh exactly as long as there is room
for them. -/
theorem allFresh_iff (h0 : fn.reading c = 0) (cs : List Counter) :
    AllFresh (fn.inUse c) (fn.drawn c cs) ↔ Room (fn.inUse c) (cs.count c) := by
  rw [room_iff, ← lastUsed]
  have hmark := mark_of_reading_eq_zero h0
  have habove : (fn.lastUsed c).toNat < fn.mark c := by omega
  constructor
  · intro hfresh
    rcases Nat.lt_or_eq_of_le (Nat.succ_le_of_lt (fn.lastUsed c).toNat_lt_size) with hlast | hlast
    · rw [← length_drawn fn]
      exact length_le_of_nodup_above (Nat.lt_of_succ_lt hlast) hfresh.distinct
        fun n hn => lastUsed_lt_of_mem_drawn hlast habove hn
    · -- The last number of all is in use, so the first one that is given is `0`.
      have hnone : c ∉ cs := fun hc => hfresh.ne_zero _ (ofNat_mark_mem_drawn habove hc)
        (by rw [hmark, ← Nat.succ_eq_add_one, hlast]; rfl)
      rw [List.count_eq_zero_of_not_mem hnone]
      exact (fn.lastUsed c).toNat_lt_size
  · intro hlt
    have hused : ∀ id ∈ fn.inUse c, id.toNat < fn.mark c := fun id hid =>
      Nat.lt_of_le_of_lt (UInt32.le_iff_toNat_le.1 (le_greatest hid)) habove
    rw [drawn_eq_range habove (by omega)]
    exact allFresh_range (by omega) hused (by omega)

end Function

/-! ## Functions that have been read -/

theorem Function.counters_of_ofRecord {r : Interchange.FunctionRecord} {fn : Function}
    (h : Function.ofRecord r = .ok fn) : fn.nextValue = 0 ∧ fn.nextBlock = 0 := by
  obtain ⟨ret, -, h⟩ := exists_of_bind_eq_ok h
  obtain ⟨params, -, h⟩ := exists_of_bind_eq_ok h
  obtain ⟨blocks, -, h⟩ := exists_of_bind_eq_ok h
  cases h
  exact ⟨rfl, rfl⟩

/-- The counters of a function that is read are unset. -/
theorem Module.counters_of_decode {bytes : List UInt8} {m : Module}
    (hread : Module.decode bytes = .ok m) {fn : Function} (hfn : fn ∈ m.functions) :
    fn.nextValue = 0 ∧ fn.nextBlock = 0 := by
  rw [Module.decode] at hread
  split at hread
  · cases hread
  · split at hread
    · cases hread
    · obtain ⟨functions, hfunctions, hread⟩ := exists_of_bind_eq_ok hread
      cases hread
      obtain ⟨r, -, hr⟩ := forall₂_exists_left (forall₂_of_mapM_eq_ok hfunctions) hfn
      exact Function.counters_of_ofRecord hr

/-- **How long fresh numbers are fresh.** Whatever a function that has been read is asked for, and
in whatever order: the values that it gives are fresh exactly if there is room for as many as have
been asked for, and so are the blocks. All numbers are fresh whenever fewer than 2 ^ 31 are asked
for, exactly if no number in use is above 2 ^ 31. -/
theorem Function.drawn_fresh_iff_room {bytes : List UInt8} {m : Module}
    (hread : Module.decode bytes = .ok m) {fn : Function} (hfn : fn ∈ m.functions) :
    (∀ cs : List Counter,
      (AllFresh fn.definedIds (fn.drawn .value cs) ↔ Room fn.definedIds (cs.count .value)) ∧
      (AllFresh fn.blockIds (fn.drawn .block cs) ↔ Room fn.blockIds (cs.count .block))) ∧
    ((∀ cs : List Counter, cs.length < 2147483648 →
        AllFresh fn.definedIds (fn.drawn .value cs) ∧ AllFresh fn.blockIds (fn.drawn .block cs)) ↔
      ∀ id ∈ fn.definedIds ++ fn.blockIds, id.toNat ≤ 2147483648) := by
  obtain ⟨hvalue, hblock⟩ := Module.counters_of_decode hread hfn
  have hvalues := fun cs => allFresh_iff (c := .value) hvalue cs
  have hblocks := fun cs => allFresh_iff (c := .block) hblock cs
  refine ⟨fun cs => ⟨hvalues cs, hblocks cs⟩, ?_, ?_⟩
  · intro hfresh id hid
    have hlongest : ∀ c : Counter, (List.replicate 2147483647 c).length < 2147483648 := by
      intro c
      rw [List.length_replicate]
      exact Nat.lt_succ_self _
    rcases List.mem_append.1 hid with hid | hid
    · have hroom := (hvalues _).1 (hfresh _ (hlongest .value)).1
      rw [List.count_replicate_self] at hroom
      exact le_of_room hroom hid
    · have hroom := (hblocks _).1 (hfresh _ (hlongest .block)).2
      rw [List.count_replicate_self] at hroom
      exact le_of_room hroom hid
  · intro hle cs hlength
    exact ⟨(hvalues cs).2 (room_of_le hlength fun id hid => hle id (List.mem_append_left _ hid)),
      (hblocks cs).2 (room_of_le hlength fun id hid => hle id (List.mem_append_right _ hid))⟩

/-- A function with room for two more values and for no more blocks. -/
def Function.nearLimit : Function where
  name := "f"
  params := [⟨1, "a", some .bool⟩, ⟨4294967293, "b", some .ptr⟩]
  blocks := [
    { id := 1, term := some (.brIf 1 4294967295 1) },
    { id := 4294967295, term := some (.ret 0 false) }]

/-- The third value is one that has been given before. The first block is `0`, and the second one
is in use; setting the counter of values again makes the third one `0` once more. -/
theorem Function.nearLimit_runs_out :
    nearLimit.defects = [] ∧ (∃ bytes, Module.decode bytes = .ok ⟨"m", [nearLimit]⟩) ∧
      AllFresh nearLimit.definedIds (nearLimit.drawn .value [.value, .block, .value]) ∧
      ¬ AllFresh nearLimit.definedIds (nearLimit.drawn .value [.value, .value, .value]) ∧
      ¬ AllFresh nearLimit.blockIds (nearLimit.drawn .block [.value, .block]) ∧
      nearLimit.draws [.value, .block, .block, .value, .value, .block] =
        [(.value, 4294967294), (.block, 0), (.block, 1), (.value, 4294967295),
          (.value, 4294967294), (.block, 0)] := by
  have hportable : Module.Portable ⟨"m", [nearLimit]⟩ := by decide +kernel
  obtain ⟨bytes, -, hread⟩ := hportable.decode_encode
  have hmem : nearLimit ∈ (Module.forgetCounters ⟨"m", [nearLimit]⟩).functions :=
    List.mem_singleton_self _
  obtain ⟨hfresh, -⟩ := drawn_fresh_iff_room hread hmem
  refine ⟨by decide, ⟨bytes, hread⟩, ?_, ?_, ?_, by decide⟩
  · exact (hfresh _).1.2 (by decide)
  · exact fun h => absurd ((hfresh _).1.1 h) (by decide)
  · exact fun h => absurd ((hfresh _).2.1 h) (by decide)

end SsaOpt
