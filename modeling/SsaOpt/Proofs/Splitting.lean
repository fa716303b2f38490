import Mathlib.Data.List.Basic
import Mathlib.Data.List.Forall2
import SsaOpt.Ir.Printer

/-!
# Taking texts apart

A text that is put together of parts can be taken apart again if a character that ends a part does
not occur in it: `cut` for one part, `led_inj` for parts with the same text in front of each,
`unlines_inj` for lines, `commaSeparated_inj` for lists. Lines that come in groups, each with a head
that can be told from the lines after it, can be taken apart into the groups
(`forall₂_of_groups`).
-/

namespace SsaOpt

/-! ## Parts -/

/-- A text that is empty or begins with a character. -/
def Opens (c : Char) (s : String) : Prop := ∀ x ∈ s.toList.head?, x = c

theorem opens_empty (c : Char) : Opens c "" := by simp [Opens]

theorem Opens.append {c : Char} {s t : String} (hs : Opens c s) (ht : Opens c t) :
    Opens c (s ++ t) := by
  unfold Opens at *
  rw [String.toList_append]
  cases h : s.toList with
  | nil => simpa using ht
  | cons x l => simpa [h] using hs

theorem opens_append {c : Char} {s : String} (hs : s.toList.head? = some c) (t : String) :
    Opens c (s ++ t) := by
  intro x hx
  rw [String.toList_append, List.head?_append, hs] at hx
  exact (Option.some.inj hx).symm

/-- What stands in front of the first `c`. -/
theorem takeWhile_of_opens {c : Char} {a r : String} (ha : c ∉ a.toList) (hr : Opens c r) :
    (a ++ r).toList.takeWhile (· ≠ c) = a.toList := by
  have hall : ∀ x ∈ a.toList, decide (x ≠ c) = true := by
    intro x hx
    exact decide_eq_true fun h => ha (h ▸ hx)
  have hstop : r.toList.takeWhile (· ≠ c) = [] := by
    cases h : r.toList with
    | nil => rfl
    | cons x l =>
      have hx : x = c := hr x (by simp [h])
      simp [hx]
  rw [String.toList_append, List.takeWhile_append_of_pos hall, hstop, List.append_nil]

/-- **Two texts are cut at the same place**, in front of the first `c`. -/
theorem cut (c : Char) {a a' r r' : String} (ha : c ∉ a.toList) (ha' : c ∉ a'.toList)
    (hr : Opens c r) (hr' : Opens c r') (h : a ++ r = a' ++ r') : a = a' ∧ r = r' := by
  have hfront : a = a' := by
    rw [← String.toList_inj, ← takeWhile_of_opens ha hr, h, takeWhile_of_opens ha' hr']
  subst hfront
  exact ⟨rfl, String.append_right_inj _ |>.1 h⟩

/-- Texts with `sep` in front of each. -/
def led (sep : String) (parts : List String) : String := String.join (parts.map (sep ++ ·))

theorem led_cons (sep p : String) (ps : List String) :
    led sep (p :: ps) = sep ++ (p ++ led sep ps) := by
  rw [led, List.map_cons, String.join_cons, String.append_assoc, led]

theorem led_append (sep : String) (ps qs : List String) :
    led sep (ps ++ qs) = led sep ps ++ led sep qs := by
  rw [led, List.map_append, String.join_append, led, led]

theorem led_ne_empty {sep : String} (hsep : sep ≠ "") {ps : List String} (hps : ps ≠ []) :
    led sep ps ≠ "" := by
  cases ps with
  | nil => exact absurd rfl hps
  | cons p ps =>
    rw [led_cons]
    exact fun h => hsep (String.append_eq_empty_iff.1 h).1

variable {c : Char} {sep : String}

theorem opens_led (hsep : sep.toList.head? = some c) (ps : List String) : Opens c (led sep ps) := by
  cases ps with
  | nil => exact opens_empty c
  | cons p ps =>
    rw [led_cons]
    exact opens_append hsep _

theorem notMem_led {ps : List String} (hsep : c ∉ sep.toList) (hps : ∀ p ∈ ps, c ∉ p.toList) :
    c ∉ (led sep ps).toList := by
  induction ps with
  | nil => simp [led]
  | cons p ps ih =>
    have hp := hps p (by simp)
    have hrest := ih fun q hq => hps q (by simp [hq])
    rw [led_cons, String.toList_append, String.toList_append]
    simp [hsep, hp, hrest]

theorem led_inj (hsep : sep.toList.head? = some c) {ps qs : List String}
    (hps : ∀ p ∈ ps, c ∉ p.toList) (hqs : ∀ q ∈ qs, c ∉ q.toList) (h : led sep ps = led sep qs) :
    ps = qs := by
  have hne : sep ≠ "" := by
    rintro rfl
    simp at hsep
  induction ps generalizing qs with
  | nil =>
    cases qs with
    | nil => rfl
    | cons q qs => exact absurd h.symm (led_ne_empty hne (by simp))
  | cons p ps ih =>
    cases qs with
    | nil => exact absurd h (led_ne_empty hne (by simp))
    | cons q qs =>
      rw [led_cons, led_cons] at h
      obtain ⟨rfl, hrest⟩ := cut c (hps p (by simp)) (hqs q (by simp)) (opens_led hsep ps)
        (opens_led hsep qs) (String.append_right_inj _ |>.1 h)
      rw [ih (fun x hx => hps x (by simp [hx])) (fun x hx => hqs x (by simp [hx])) hrest]

theorem commaSeparated_cons (p : String) (ps : List String) :
    commaSeparated (p :: ps) = p ++ led ", " ps := by
  induction ps generalizing p with
  | nil => simp [commaSeparated, led]
  | cons q qs ih =>
    unfold commaSeparated at ih ⊢
    rw [String.intercalate_cons_cons, ih, led_cons, String.append_assoc]

theorem notMem_commaSeparated {ps : List String} (hc : c ∉ ", ".toList)
    (hps : ∀ p ∈ ps, c ∉ p.toList) : c ∉ (commaSeparated ps).toList := by
  cases ps with
  | nil => simp [commaSeparated]
  | cons p ps =>
    have hrest : c ∉ (led ", " ps).toList := notMem_led hc fun q hq => hps q (by simp [hq])
    rw [commaSeparated_cons, String.toList_append]
    simp [hps p (by simp), hrest]

theorem commaSeparated_inj {ps qs : List String} (hps : ∀ p ∈ ps, p ≠ "" ∧ ',' ∉ p.toList)
    (hqs : ∀ q ∈ qs, q ≠ "" ∧ ',' ∉ q.toList) (h : commaSeparated ps = commaSeparated qs) :
    ps = qs := by
  cases ps with
  | nil =>
    cases qs with
    | nil => rfl
    | cons q qs =>
      rw [commaSeparated_cons] at h
      exact absurd (String.append_eq_empty_iff.1 h.symm).1 (hqs q (by simp)).1
  | cons p ps =>
    cases qs with
    | nil =>
      rw [commaSeparated_cons] at h
      exact absurd (String.append_eq_empty_iff.1 h).1 (hps p (by simp)).1
    | cons q qs =>
      rw [commaSeparated_cons, commaSeparated_cons] at h
      obtain ⟨rfl, hrest⟩ := cut ',' (hps p (by simp)).2 (hqs q (by simp)).2
        (opens_led (by rfl) ps) (opens_led (by rfl) qs) h
      rw [led_inj (c := ',') (by rfl) (fun x hx => (hps x (by simp [hx])).2)
        (fun x hx => (hqs x (by simp [hx])).2) hrest]

/-! ## Lines -/

/-- Lines as one text. -/
def unlines (ls : List String) : String := String.join (ls.map (· ++ "\n"))

theorem unlines_cons (l : String) (ls : List String) :
    unlines (l :: ls) = l ++ ("\n" ++ unlines ls) := by
  rw [unlines, List.map_cons, String.join_cons, String.append_assoc, unlines]

theorem unlines_append (ls ms : List String) : unlines (ls ++ ms) = unlines ls ++ unlines ms := by
  rw [unlines, List.map_append, String.join_append, unlines, unlines]

theorem unlines_inj {ls ms : List String} (hls : ∀ l ∈ ls, '\n' ∉ l.toList)
    (hms : ∀ m ∈ ms, '\n' ∉ m.toList) (h : unlines ls = unlines ms) : ls = ms := by
  have hne : ∀ l t : String, l ++ ("\n" ++ t) ≠ "" := by
    intro l t h
    have := (String.append_eq_empty_iff.1 (String.append_eq_empty_iff.1 h).2).1
    simp at this
  induction ls generalizing ms with
  | nil =>
    cases ms with
    | nil => rfl
    | cons m ms =>
      rw [unlines_cons] at h
      exact absurd h.symm (hne _ _)
  | cons l ls ih =>
    cases ms with
    | nil =>
      rw [unlines_cons] at h
      exact absurd h (hne _ _)
    | cons m ms =>
      rw [unlines_cons, unlines_cons] at h
      obtain ⟨rfl, hrest⟩ := cut '\n' (hls l (by simp)) (hms m (by simp))
        (opens_append (by rfl) _) (opens_append (by rfl) _) h
      rw [ih (fun x hx => hls x (by simp [hx])) (fun x hx => hms x (by simp [hx]))
        (String.append_right_inj _ |>.1 hrest)]

/-! ## Groups of lines -/

/-- Two lists with the same texts, one by one. -/
theorem forall₂_of_map {α β : Type} {f : α → β} {R : α → α → Prop} {xs ys : List α}
    (hR : ∀ x ∈ xs, ∀ y ∈ ys, f x = f y → R x y) (h : xs.map f = ys.map f) :
    List.Forall₂ R xs ys := by
  induction xs generalizing ys with
  | nil =>
    cases ys with
    | nil => exact .nil
    | cons y ys => cases h
  | cons x xs ih =>
    cases ys with
    | nil => cases h
    | cons y ys =>
      obtain ⟨hxy, hrest⟩ := List.cons.inj h
      exact .cons (hR x (by simp) y (by simp) hxy)
        (ih (fun x hx y hy => hR x (by simp [hx]) y (by simp [hy])) hrest)

theorem takeWhile_group {α β : Type} {isHead : α → Bool} {head : β → α} {body : β → List α}
    {ls : List α} {xs : List β} (hls : ∀ l ∈ ls, isHead l = false)
    (hxs : ∀ x ∈ xs, isHead (head x) = true) :
    (ls ++ xs.flatMap fun x => head x :: body x).takeWhile (fun l => !isHead l) = ls := by
  rw [List.takeWhile_append_of_pos fun l hl => by simp [hls l hl]]
  cases xs with
  | nil => simp
  | cons x xs => simp [hxs x (by simp)]

/-- **Groups can be told apart** if a head can be told from what follows it. -/
theorem forall₂_of_groups {α β γ : Type} (isHead : α → Bool) {head : β → α} {body : β → List α}
    {head' : γ → α} {body' : γ → List α} {R : β → γ → Prop} {xs : List β} {ys : List γ}
    (hxs : ∀ x ∈ xs, isHead (head x) = true ∧ ∀ l ∈ body x, isHead l = false)
    (hys : ∀ y ∈ ys, isHead (head' y) = true ∧ ∀ l ∈ body' y, isHead l = false)
    (hR : ∀ x ∈ xs, ∀ y ∈ ys, head x = head' y → body x = body' y → R x y)
    (h : (xs.flatMap fun x => head x :: body x) = ys.flatMap fun y => head' y :: body' y) :
    List.Forall₂ R xs ys := by
  induction xs generalizing ys with
  | nil =>
    cases ys with
    | nil => exact .nil
    | cons y ys => simp at h
  | cons x xs ih =>
    cases ys with
    | nil => simp at h
    | cons y ys =>
      rw [List.flatMap_cons, List.flatMap_cons, List.cons_append, List.cons_append,
        List.cons.injEq] at h
      obtain ⟨hhead, h⟩ := h
      have hxs' : ∀ z ∈ xs, isHead (head z) = true ∧ ∀ l ∈ body z, isHead l = false :=
        fun z hz => hxs z (by simp [hz])
      have hys' : ∀ z ∈ ys, isHead (head' z) = true ∧ ∀ l ∈ body' z, isHead l = false :=
        fun z hz => hys z (by simp [hz])
      have hfront := congrArg (List.takeWhile fun l => !isHead l) h
      have hbody : body x = body' y := by
        rwa [takeWhile_group (hxs x (by simp)).2 fun z hz => (hxs' z hz).1,
          takeWhile_group (hys y (by simp)).2 fun z hz => (hys' z hz).1] at hfront
      rw [hbody] at h
      exact .cons (hR x (by simp) y (by simp) hhead hbody)
        (ih hxs' hys' (fun x hx y hy => hR x (by simp [hx]) y (by simp [hy]))
          (List.append_cancel_left h))

end SsaOpt
