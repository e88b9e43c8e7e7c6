import Mathlib

/-!
# User programs - The matcher of `grep`

The functions `match`, `matchhere` and `matchstar` of `grep.c`.  A string of the source is
the list of its bytes before the zero byte.

A pattern is read as a list of items, each of which stands for a language; the pattern
stands for the product of the languages of its items, at the start of the text if it begins
with `^`, and at the end of the text if its last item is `$`.

Main results:

- Theorems {lit}`matchhere_iff`, {lit}`matchstar_iff`: the two recursive functions.
- Theorem {lit}`matchRe_iff`: `match` decides the language of the pattern.
-/

namespace Xv6.User

/-! ## The code -/

/-- `'^'`. -/
def caret : UInt8 := 94

/-- `'*'`. -/
def star : UInt8 := 42

/-- `'$'`. -/
def dollar : UInt8 := 36

/-- `'.'`. -/
def dot : UInt8 := 46

mutual

/-- `matchhere`: search for `re` at the beginning of the text. -/
def matchhere (re text : List UInt8) : Bool :=
  match re with
  | [] => true
  | c :: re =>
    if re.head? = some star then matchstar c re.tail text
    else if c = dollar ∧ re = [] then text.isEmpty
    else
      match text with
      | [] => false
      | t :: text => if c = dot ∨ c = t then matchhere re text else false
termination_by (re.length, text.length, 0)
decreasing_by
  all_goals simp_wf
  · exact Prod.Lex.left _ _ (by omega)
  · exact Prod.Lex.left _ _ (by omega)

/-- `matchstar`: search for `c*re` at the beginning of the text. -/
def matchstar (c : UInt8) (re text : List UInt8) : Bool :=
  if matchhere re text then true
  else
    match text with
    | [] => false
    | t :: text => if t = c ∨ c = dot then matchstar c re text else false
termination_by (re.length, text.length, 1)

end

theorem matchhere_nil (text : List UInt8) : matchhere [] text = true := by
  rw [matchhere.eq_def]

/-- One step of `matchhere`: a starred character, `$` at the end, or a single character. -/
theorem matchhere_cons (c : UInt8) (re text : List UInt8) : matchhere (c :: re) text =
    if re.head? = some star then matchstar c re.tail text
    else if c = dollar ∧ re = [] then text.isEmpty
    else
      match text with
      | [] => false
      | t :: text => if c = dot ∨ c = t then matchhere re text else false := by
  rw [matchhere.eq_def]

/-- One step of `matchstar`: first the rest of the pattern is tried here. -/
theorem matchstar_eq (c : UInt8) (re text : List UInt8) : matchstar c re text =
    if matchhere re text then true
    else
      match text with
      | [] => false
      | t :: text => if t = c ∨ c = dot then matchstar c re text else false := by
  rw [matchstar.eq_def]

/-- The loop of `match`. -/
def matchAny (re : List UInt8) : List UInt8 → Bool
  | [] => matchhere re []
  | t :: text => if matchhere re (t :: text) then true else matchAny re text

/-- `match`. -/
def matchRe (re text : List UInt8) : Bool :=
  if re.head? = some caret then matchhere re.tail text else matchAny re text

/-! ## Patterns as languages -/

/-- The items of a pattern. -/
inductive Item
  | rep (c : UInt8)
  | eol
  | any
  | lit (c : UInt8)
deriving DecidableEq

/-- The strings that an item matches; `eol` is about what follows. -/
def Item.lang : Item → Language UInt8
  | .rep c => {w | ∀ x ∈ w, x = c ∨ c = dot}
  | .eol => 1
  | .any => {w | ∃ x, w = [x]}
  | .lit c => {[c]}

/-- The item of a character without a star. -/
def Item.single (c : UInt8) : Item :=
  if c = dot then .any else .lit c

/-- A pattern as a list of items, without a leading `^`. -/
def items : List UInt8 → List Item
  | [] => []
  | [c] => if c = dollar then [.eol] else [Item.single c]
  | c :: d :: re => if d = star then .rep c :: items re else Item.single c :: items (d :: re)

/-- Strings that match the items in order. -/
def itemsLang (its : List Item) : Language UInt8 :=
  (its.map Item.lang).prod

/-- Some beginning of the text matches, and all of it where the pattern ends with `$`. -/
def Here (its : List Item) (text : List UInt8) : Prop :=
  ∃ w rest, w ++ rest = text ∧ w ∈ itemsLang its ∧ (Item.eol ∈ its → rest = [])

/-- A beginning of the text is a repetition of `c`, and what follows matches. -/
def StarHere (c : UInt8) (its : List Item) (text : List UInt8) : Prop :=
  ∃ v rest, v ++ rest = text ∧ v ∈ (Item.rep c).lang ∧ Here its rest

/-- The pattern begins with `^`. -/
def anchored (re : List UInt8) : Prop :=
  re.head? = some caret

instance (re : List UInt8) : Decidable (anchored re) :=
  inferInstanceAs (Decidable (_ = _))

/-- The items of a whole pattern. -/
def patternItems (re : List UInt8) : List Item :=
  items (if anchored re then re.tail else re)

section Items

variable {c t : UInt8} {re text : List UInt8} {its : List Item}

/-- A text of a list of items is one of the first followed by one of the rest. -/
theorem mem_itemsLang_cons {x : Item} {w : List UInt8} :
    w ∈ itemsLang (x :: its) ↔ ∃ u ∈ x.lang, ∃ v ∈ itemsLang its, u ++ v = w := by
  unfold itemsLang
  rw [List.map_cons, List.prod_cons]
  exact Language.mem_mul

/-- Nothing is left to be matched. -/
theorem here_nil : Here [] text := by
  refine ⟨[], text, rfl, ?_, nofun⟩
  exact Language.nil_mem_one

/-- `$` matches only at the end of the text. -/
theorem here_eol : Here [.eol] text ↔ text = [] := by
  constructor
  · rintro ⟨w, rest, rfl, hw, hrest⟩
    rcases mem_itemsLang_cons.mp hw with ⟨u, hu, v, hv, rfl⟩
    rw [(Language.mem_one u).mp hu, (Language.mem_one v).mp hv, hrest List.mem_cons_self]
    rfl
  · rintro rfl
    refine ⟨[], [], rfl, ?_, fun _ => rfl⟩
    exact mem_itemsLang_cons.mpr ⟨[], Language.nil_mem_one, [], Language.nil_mem_one, rfl⟩

/-- A starred character is matched by any number of copies, then the rest. -/
theorem here_rep : Here (.rep c :: its) text ↔ StarHere c its text := by
  constructor
  · rintro ⟨w, rest, rfl, hw, hrest⟩
    rcases mem_itemsLang_cons.mp hw with ⟨u, hu, v, hv, rfl⟩
    refine ⟨u, v ++ rest, by rw [List.append_assoc], hu, v, rest, rfl, hv, ?_⟩
    intro hmem
    exact hrest (List.mem_cons_of_mem _ hmem)
  · rintro ⟨u, _, rfl, hu, v, rest, rfl, hv, hrest⟩
    refine ⟨u ++ v, rest, by rw [List.append_assoc], ?_, ?_⟩
    · exact mem_itemsLang_cons.mpr ⟨u, hu, v, hv, rfl⟩
    · intro hmem
      rcases List.mem_cons.mp hmem with hmem | hmem
      · cases hmem
      · exact hrest hmem

/-- A single character is matched by itself, a dot by every character. -/
theorem mem_lang_single {w : List UInt8} :
    w ∈ (Item.single c).lang ↔ ∃ x, w = [x] ∧ (c = dot ∨ c = x) := by
  unfold Item.single
  by_cases hdot : c = dot
  · rw [if_pos hdot]
    constructor
    · rintro ⟨x, rfl⟩
      exact ⟨x, rfl, Or.inl hdot⟩
    · rintro ⟨x, rfl, _⟩
      exact ⟨x, rfl⟩
  · rw [if_neg hdot]
    constructor
    · intro hw
      exact ⟨c, hw, Or.inr rfl⟩
    · rintro ⟨x, rfl, hx⟩
      rw [← hx.resolve_left hdot]
      rfl

theorem single_ne_eol : Item.eol ≠ Item.single c := by
  unfold Item.single
  split <;> nofun

/-- A single character consumes one character of the text. -/
theorem here_single : Here (Item.single c :: its) text ↔
    ∃ t rest, t :: rest = text ∧ (c = dot ∨ c = t) ∧ Here its rest := by
  constructor
  · rintro ⟨w, rest, rfl, hw, hrest⟩
    rcases mem_itemsLang_cons.mp hw with ⟨u, hu, v, hv, rfl⟩
    rcases mem_lang_single.mp hu with ⟨t, rfl, ht⟩
    refine ⟨t, v ++ rest, rfl, ht, v, rest, rfl, hv, ?_⟩
    intro hmem
    exact hrest (List.mem_cons_of_mem _ hmem)
  · rintro ⟨t, _, rfl, ht, v, rest, rfl, hv, hrest⟩
    refine ⟨t :: v, rest, rfl, ?_, ?_⟩
    · exact mem_itemsLang_cons.mpr ⟨[t], mem_lang_single.mpr ⟨t, rfl, ht⟩, v, hv, rfl⟩
    · intro hmem
      rcases List.mem_cons.mp hmem with hmem | hmem
      · exact absurd hmem single_ne_eol
      · exact hrest hmem

/-- At the end of the text no copy is left to be taken. -/
theorem starHere_nil : StarHere c its [] ↔ Here its [] := by
  constructor
  · rintro ⟨v, rest, heq, _, hrest⟩
    rw [(List.append_eq_nil_iff.mp heq).2] at hrest
    exact hrest
  · intro h
    exact ⟨[], [], rfl, nofun, h⟩

/-- The rest matches here, or one more copy is taken. -/
theorem starHere_cons : StarHere c its (t :: text) ↔
    Here its (t :: text) ∨ (t = c ∨ c = dot) ∧ StarHere c its text := by
  constructor
  · rintro ⟨v, rest, heq, hv, hrest⟩
    cases v with
    | nil =>
      rw [List.nil_append] at heq
      rw [heq] at hrest
      exact Or.inl hrest
    | cons x v =>
      rw [List.cons_append, List.cons.injEq] at heq
      rcases heq with ⟨rfl, rfl⟩
      refine Or.inr ⟨hv x List.mem_cons_self, v, rest, rfl, ?_, hrest⟩
      intro y hy
      exact hv y (List.mem_cons_of_mem x hy)
  · rintro (h | ⟨ht, v, rest, rfl, hv, hrest⟩)
    · exact ⟨[], t :: text, rfl, nofun, h⟩
    · refine ⟨t :: v, rest, rfl, ?_, hrest⟩
      intro y hy
      rcases List.mem_cons.mp hy with rfl | hy
      · exact ht
      · exact hv y hy

/-- The first item of a pattern, as `matchhere` reads it. -/
theorem items_cons : items (c :: re) =
    if re.head? = some star then .rep c :: items re.tail
    else if c = dollar ∧ re = [] then [.eol]
    else Item.single c :: items re := by
  cases re with
  | nil =>
    rw [if_neg (by nofun)]
    by_cases hc : c = dollar
    · rw [if_pos ⟨hc, rfl⟩]
      exact if_pos hc
    · rw [if_neg fun hbad => hc hbad.1]
      exact if_neg hc
  | cons d re =>
    have hhead : (d :: re).head? = some star ↔ d = star := by
      rw [List.head?_cons, Option.some_inj]
    rw [items]
    by_cases hd : d = star
    · rw [if_pos hd, if_pos (hhead.mpr hd), List.tail_cons]
    · rw [if_neg hd, if_neg fun hbad => hd (hhead.mp hbad), if_neg]
      rintro ⟨_, hbad⟩
      cases hbad

end Items

/-! ## The functions decide their languages -/

mutual

/-- `matchhere` decides whether the items match at the beginning of the text. -/
theorem matchhere_iff (re text : List UInt8) : matchhere re text = true ↔ Here (items re) text := by
  cases re with
  | nil =>
    rw [matchhere_nil, items]
    exact ⟨fun _ => here_nil, fun _ => rfl⟩
  | cons c re =>
    rw [matchhere_cons, items_cons]
    by_cases hstar : re.head? = some star
    · rw [if_pos hstar, if_pos hstar, here_rep]
      exact matchstar_iff c re.tail text
    · rw [if_neg hstar, if_neg hstar]
      by_cases hdollar : c = dollar ∧ re = []
      · rw [if_pos hdollar, if_pos hdollar, here_eol, List.isEmpty_iff]
      · rw [if_neg hdollar, if_neg hdollar, here_single]
        cases text with
        | nil =>
          refine ⟨nofun, ?_⟩
          rintro ⟨t, rest, hbad, _⟩
          cases hbad
        | cons t text =>
          have hrest := matchhere_iff re text
          by_cases hc : c = dot ∨ c = t
          · simp only [if_pos hc, hrest]
            constructor
            · intro h
              exact ⟨t, text, rfl, hc, h⟩
            · rintro ⟨_, _, heq, _, h⟩
              cases heq
              exact h
          · simp only [if_neg hc]
            refine ⟨nofun, ?_⟩
            rintro ⟨_, _, heq, hbad, _⟩
            cases heq
            exact absurd hbad hc
termination_by (re.length, text.length, 0)
decreasing_by
  all_goals simp_wf
  · exact Prod.Lex.left _ _ (by omega)
  · exact Prod.Lex.left _ _ (by omega)

/-- `matchstar` decides whether copies of `c`, then the items, match there. -/
theorem matchstar_iff (c : UInt8) (re text : List UInt8) :
    matchstar c re text = true ↔ StarHere c (items re) text := by
  have hhere := matchhere_iff re text
  rw [matchstar_eq]
  cases text with
  | nil =>
    rw [starHere_nil, ← hhere]
    cases matchhere re [] <;> rfl
  | cons t text =>
    have hrest := matchstar_iff c re text
    rw [starHere_cons, ← hhere, ← hrest]
    by_cases hnow : matchhere re (t :: text) = true
    · rw [if_pos hnow]
      exact ⟨fun _ => Or.inl hnow, fun _ => rfl⟩
    · rw [if_neg hnow, or_iff_right hnow]
      by_cases ht : t = c ∨ c = dot
      · simp only [ht, true_and, if_true]
      · simp only [ht, false_and, if_false, Bool.false_eq_true]
termination_by (re.length, text.length, 1)

end

/-- The loop of `match` tries every suffix of the text. -/
theorem matchAny_iff {re text : List UInt8} :
    matchAny re text = true ↔ ∃ pre rest, pre ++ rest = text ∧ Here (items re) rest := by
  induction text with
  | nil =>
    rw [matchAny, matchhere_iff]
    constructor
    · intro h
      exact ⟨[], [], rfl, h⟩
    · rintro ⟨pre, rest, heq, h⟩
      rw [(List.append_eq_nil_iff.mp heq).2] at h
      exact h
  | cons t text ih =>
    have hhere := matchhere_iff re (t :: text)
    rw [matchAny]
    by_cases hnow : matchhere re (t :: text) = true
    · rw [if_pos hnow]
      exact ⟨fun _ => ⟨[], t :: text, rfl, hhere.mp hnow⟩, fun _ => rfl⟩
    · rw [if_neg hnow, ih]
      constructor
      · rintro ⟨pre, rest, rfl, h⟩
        exact ⟨t :: pre, rest, rfl, h⟩
      · rintro ⟨pre, rest, heq, h⟩
        cases pre with
        | nil =>
          rw [List.nil_append] at heq
          rw [heq] at h
          exact absurd (hhere.mpr h) hnow
        | cons x pre =>
          rw [List.cons_append, List.cons.injEq] at heq
          exact ⟨pre, rest, heq.2, h⟩

/-- `match` finds a part of the text in the language of the pattern, at the start of the
text after `^`, and at its end before `$`. -/
theorem matchRe_iff (re text : List UInt8) : matchRe re text = true ↔
    ∃ pre w rest, pre ++ w ++ rest = text ∧ w ∈ itemsLang (patternItems re) ∧
      (anchored re → pre = []) ∧ (Item.eol ∈ patternItems re → rest = []) := by
  unfold matchRe patternItems
  by_cases hcaret : anchored re
  · have hhead : re.head? = some caret := hcaret
    rw [if_pos hhead, if_pos hcaret, matchhere_iff]
    constructor
    · rintro ⟨w, rest, rfl, hw, hrest⟩
      exact ⟨[], w, rest, rfl, hw, fun _ => rfl, hrest⟩
    · rintro ⟨pre, w, rest, rfl, hw, hpre, hrest⟩
      rw [hpre hcaret]
      exact ⟨w, rest, rfl, hw, hrest⟩
  · have hhead : ¬re.head? = some caret := hcaret
    rw [if_neg hhead, if_neg hcaret, matchAny_iff]
    constructor
    · rintro ⟨pre, _, rfl, w, rest, rfl, hw, hrest⟩
      exact ⟨pre, w, rest, List.append_assoc _ _ _, hw, fun hbad => absurd hbad hcaret, hrest⟩
    · rintro ⟨pre, w, rest, rfl, hw, _, hrest⟩
      exact ⟨pre, w ++ rest, (List.append_assoc _ _ _).symm, w, rest, rfl, hw, hrest⟩

end Xv6.User
