import Mathlib
import Xv6.Shell.Grammar

/-!
# Shell - gettoken and peek on the tokens of the text

The text between the pointer and the end of the line determines the tokens that are ahead.
{lit}`gettoken` takes the first of them, {lit}`peek` looks at its first character.

Main results:

- Theorems {lit}`gettoken_rule` and {lit}`gettoken_end`: {lit}`gettoken` with a token ahead, and
  at the end.
- Theorem {lit}`peek_rule`: {lit}`peek`.
-/

namespace Xv6.Shell

open Foundations

/-! ## Characters -/

theorem strchr_isSome (s : List UInt8) (c : UInt8) : (strchr s c).isSome = decide (c ∈ s) := by
  rw [Bool.eq_iff_iff, decide_eq_true_iff]
  simp [strchr, List.findIdx?_isSome]

theorem isWord_zero : isWord 0 = false :=
  rfl

theorem isSymbol_of_symbolToken {c : UInt8} {t : Token} (h : symbolToken c = some t) :
    isSymbol c = true := by
  unfold symbolToken at h
  split_ifs at h with h1 h2 h3 h4 h5 h6
  all_goals
    subst c
    decide

/-- The symbols are `>` and those that are tokens of one character. -/
theorem isSymbol_iff (c : UInt8) :
    isSymbol c = true ↔ c = '>'.toUInt8 ∨ (symbolToken c).isSome = true := by
  constructor
  · intro h
    rw [isSymbol, strchr_isSome, decide_eq_true_iff] at h
    simp only [symbols, List.map_cons, List.map_nil, List.mem_cons, List.not_mem_nil,
      or_false] at h
    rcases h with rfl | rfl | rfl | rfl | rfl | rfl | rfl <;> decide
  · rintro (rfl | h)
    · decide
    · obtain ⟨t, ht⟩ := Option.isSome_iff_exists.mp h
      exact isSymbol_of_symbolToken ht

/-! ## Text ahead -/

/-- The text between a pointer and the end. -/
def textAhead (mem : Mem) (es s : Nat) : List UInt8 :=
  (List.range' s (es - s)).map mem

section Text

variable {mem : Mem} {es s : Nat}

theorem textAhead_lt (h : s < es) : textAhead mem es s = mem s :: textAhead mem es (s + 1) := by
  have hlen : es - s = (es - (s + 1)) + 1 := by omega
  rw [textAhead, hlen, List.range'_succ, List.map_cons]
  rfl

theorem textAhead_end : textAhead mem es es = [] := by
  simp [textAhead]

/-- The loop over characters skips the longest run of them. -/
theorem textAhead_skipWhile (mem : Mem) (p : UInt8 → Bool) (h : s ≤ es) :
    textAhead mem es (skipWhile p mem (es - s) s) = (textAhead mem es s).dropWhile p ∧
      skipWhile p mem (es - s) s = s + ((textAhead mem es s).takeWhile p).length ∧
      skipWhile p mem (es - s) s ≤ es := by
  obtain ⟨n, rfl⟩ := Nat.exists_eq_add_of_le h
  rw [Nat.add_sub_cancel_left]
  clear h
  induction n generalizing s with
  | zero => simp [textAhead_end, skipWhile]
  | succ n ih =>
    rw [textAhead_lt (by omega : s < s + (n + 1)), skipWhile]
    by_cases hp : p (mem s) = true
    · have hes : s + (n + 1) = s + 1 + n := by omega
      rw [if_pos hp, List.dropWhile_cons_of_pos hp, List.takeWhile_cons_of_pos hp, hes]
      obtain ⟨htext, hskip, hle⟩ := ih (s := s + 1)
      refine ⟨htext, ?_, hle⟩
      rw [hskip, List.length_cons]
      omega
    · rw [if_neg hp, List.dropWhile_cons_of_neg hp, List.takeWhile_cons_of_neg hp]
      exact ⟨textAhead_lt (by omega), rfl, by omega⟩

/-- A run of characters at the start of the text, found in memory. -/
theorem textAhead_takeWhile (p : UInt8 → Bool) :
    (List.range' s ((textAhead mem es s).takeWhile p).length).map mem =
      (textAhead mem es s).takeWhile p := by
  unfold textAhead
  generalize es - s = n
  induction n generalizing s with
  | zero => rfl
  | succ n ih =>
    rw [List.range'_succ, List.map_cons, List.takeWhile_cons]
    split
    · rw [List.length_cons, List.range'_succ, List.map_cons, ih]
    · rfl

end Text

/-- The characters of a word, found in memory. -/
structure Spells (mem : Mem) (q eq : Nat) (text : List UInt8) : Prop where
  stop : eq = q + text.length
  text_eq : (List.range' q text.length).map mem = text
  word : ∀ c ∈ text, isWord c = true
  delim : isWord (mem eq) = false

/-! ## Tokens ahead -/

/-- The next token stands behind the space. -/
theorem lex_eq (text : List UInt8) :
    lex text = match text.dropWhile isSpace with
      | [] => []
      | c :: cs => (lexOne c cs).1 :: lex (lexOne c cs).2 := by
  rw [lex]
  split
  · rename_i h
    simp only [h]
  · rename_i c cs h
    simp only [h]

theorem lex_dropWhile (text : List UInt8) : lex (text.dropWhile isSpace) = lex text := by
  rw [lex_eq, lex_eq text, List.dropWhile_idempotent]

/-- The tokens `ts` are ahead of the pointer `s`, and the text ends with the first NUL. -/
structure Ahead (mem : Mem) (es : Nat) (ts : List Token) (s : Nat) : Prop where
  le : s ≤ es
  tokens : lex (textAhead mem es s) = ts
  nonzero : ∀ i, s ≤ i → i < es → mem i ≠ 0
  zero : mem es = 0

namespace Token

/-- What `gettoken` returns. -/
def code : Token → UInt8
  | word _ => 'a'.toUInt8
  | bar => '|'.toUInt8
  | lpar => '('.toUInt8
  | rpar => ')'.toUInt8
  | semi => ';'.toUInt8
  | amp => '&'.toUInt8
  | less => '<'.toUInt8
  | great => '>'.toUInt8
  | dgreat => '+'.toUInt8

/-- The first character of the token. -/
def first : Token → UInt8
  | word text => text.headD 0
  | dgreat => '>'.toUInt8
  | t => t.code

/-- The pointers that `gettoken` assigns delimit the text of a word. -/
def Spelled (mem : Mem) (tok : Tok) : Token → Prop
  | word text => Spells mem tok.q tok.eq text
  | _ => True

end Token

/-- A token of one character has that character as its code. -/
theorem symbolToken_code {c : UInt8} {t : Token} (h : symbolToken c = some t) :
    t.code = c ∧ t.first = c ∧ ∀ mem tok, t.Spelled mem tok := by
  unfold symbolToken at h
  split_ifs at h with h1 h2 h3 h4 h5 h6
  all_goals
    cases h
    subst c
    exact ⟨rfl, rfl, fun _ _ => trivial⟩

theorem lexOne_first (c : UInt8) (cs : List UInt8) : (lexOne c cs).1.first = c := by
  unfold lexOne
  split
  · rename_i hc
    subst hc
    split <;> rfl
  · split
    · rename_i t ht
      exact (symbolToken_code ht).2.1
    · rfl

/-! ## The token at a character -/

section TokenAt

variable {mem : Mem} {es q : Nat}

theorem symbolToken_mem {c : UInt8} {t : Token} (h : symbolToken c = some t) :
    c ≠ 0 ∧ c ∈ ['|', '(', ')', ';', '&', '<'].map Char.toUInt8 := by
  unfold symbolToken at h
  split_ifs at h with h1 h2 h3 h4 h5 h6
  all_goals
    subst c
    decide

theorem tokenAt_symbol {t : Token} (ht : symbolToken (mem q) = some t) :
    tokenAt mem es q = (t.code, q + 1) := by
  obtain ⟨hne, hmem⟩ := symbolToken_mem ht
  rw [tokenAt, if_neg hne, if_pos hmem, (symbolToken_code ht).1]

/-- `>` may be doubled. -/
theorem tokenAt_great (hc : mem q = '>'.toUInt8) :
    tokenAt mem es q = if mem (q + 1) = '>'.toUInt8 then (Token.dgreat.code, q + 2)
      else (Token.great.code, q + 1) := by
  rw [tokenAt, hc, if_neg (by decide), if_neg (by decide), if_pos rfl]
  rfl

/-- A word ends in front of a space, a symbol or the end. -/
theorem tokenAt_word (hne : mem q ≠ 0) (hc : isSymbol (mem q) = false) :
    tokenAt mem es q =
      ('a'.toUInt8, skipWhile (fun c => !isSpace c && !isSymbol c) mem (es - q) q) := by
  rw [isSymbol, strchr_isSome, decide_eq_false_iff_not] at hc
  simp only [symbols, List.map_cons, List.map_nil, List.mem_cons, List.not_mem_nil,
    or_false, not_or] at hc
  obtain ⟨h1, h2, h3, h4, h5, h6, h7⟩ := hc
  rw [tokenAt, if_neg hne, if_neg (by simp [*]), if_neg h3]

/-- A text without NUL is cut in the same places by the loop of `gettoken`. -/
theorem word_run {text : List UInt8} (h : ∀ c ∈ text, c ≠ 0) :
    text.takeWhile (fun c => !isSpace c && !isSymbol c) = text.takeWhile isWord ∧
      text.dropWhile (fun c => !isSpace c && !isSymbol c) = text.dropWhile isWord := by
  induction text with
  | nil => exact ⟨rfl, rfl⟩
  | cons c cs ih =>
    have hc : isWord c = (!isSpace c && !isSymbol c) := by
      have hne : (c != 0) = true := bne_iff_ne.mpr (h c List.mem_cons_self)
      rw [isWord, hne, Bool.true_and]
    obtain ⟨htake, hdrop⟩ := ih fun d hd => h d (List.mem_cons_of_mem c hd)
    simp only [List.takeWhile_cons, List.dropWhile_cons, hc, htake, hdrop, and_self]

/-- `gettoken` at the first character of a word. -/
theorem tokenAt_spells (hlt : q < es) (hspace : isSpace (mem q) = false)
    (hsymbol : isSymbol (mem q) = false) (hnonzero : ∀ i, q ≤ i → i < es → mem i ≠ 0)
    (hzero : mem es = 0) :
    ∃ eq, tokenAt mem es q = ('a'.toUInt8, eq) ∧ q ≤ eq ∧ eq ≤ es ∧
      textAhead mem es eq = (textAhead mem es (q + 1)).dropWhile isWord ∧
      Spells mem q eq (mem q :: (textAhead mem es (q + 1)).takeWhile isWord) := by
  have hne := hnonzero q (le_refl q) hlt
  have hfirst : isWord (mem q) = true := by
    simp [isWord, hne, hspace, hsymbol]
  have hmem : ∀ c ∈ textAhead mem es q, c ≠ 0 := by
    intro c hc
    obtain ⟨i, hi, rfl⟩ := List.mem_map.mp hc
    rw [List.mem_range'_1] at hi
    exact hnonzero i hi.1 (by omega)
  obtain ⟨htext, hskip, hle⟩ :=
    textAhead_skipWhile mem (fun c => !isSpace c && !isSymbol c) hlt.le
  obtain ⟨htake, hdrop⟩ := word_run hmem
  rw [hdrop] at htext
  rw [htake] at hskip
  refine ⟨_, tokenAt_word hne hsymbol, ?_, hle, ?_, ?_⟩
  · rw [hskip]
    exact Nat.le_add_right q _
  · rw [htext, textAhead_lt hlt, List.dropWhile_cons_of_pos hfirst]
  · have hword : mem q :: (textAhead mem es (q + 1)).takeWhile isWord =
        (textAhead mem es q).takeWhile isWord := by
      rw [textAhead_lt hlt, List.takeWhile_cons_of_pos hfirst]
    rw [hword]
    refine ⟨hskip, ?_, ?_, ?_⟩
    · exact textAhead_takeWhile isWord
    · intro c hc
      exact List.mem_takeWhile_imp hc
    · generalize skipWhile (fun c => !isSpace c && !isSymbol c) mem (es - q) q = eq at *
      rcases Nat.lt_or_ge eq es with hin | hout
      · rw [textAhead_lt hin] at htext
        have hhead := List.head?_dropWhile_not isWord (textAhead mem es q)
        rw [← htext] at hhead
        exact hhead
      · rw [Nat.le_antisymm hle hout, hzero]
        rfl

/-- `gettoken` at the first character of a token. -/
theorem tokenAt_spec (hlt : q < es) (hspace : isSpace (mem q) = false)
    (hnonzero : ∀ i, q ≤ i → i < es → mem i ≠ 0) (hzero : mem es = 0) :
    ∃ eq, tokenAt mem es q = ((lexOne (mem q) (textAhead mem es (q + 1))).1.code, eq) ∧
      q ≤ eq ∧ eq ≤ es ∧
      textAhead mem es eq = (lexOne (mem q) (textAhead mem es (q + 1))).2 ∧
      (lexOne (mem q) (textAhead mem es (q + 1))).1.Spelled mem
        ⟨(lexOne (mem q) (textAhead mem es (q + 1))).1.code, q, eq⟩ := by
  by_cases hgreat : mem q = '>'.toUInt8
  · rw [tokenAt_great hgreat, lexOne, if_pos hgreat]
    rcases Nat.lt_or_ge (q + 1) es with hmore | hlast
    · have hnext : textAhead mem es (q + 1) = mem (q + 1) :: textAhead mem es (q + 2) :=
        textAhead_lt hmore
      by_cases hdouble : mem (q + 1) = '>'.toUInt8
      · rw [if_pos hdouble, if_pos (by rw [hnext, hdouble]; rfl), hnext]
        exact ⟨q + 2, rfl, by omega, by omega, rfl, trivial⟩
      · rw [if_neg hdouble, if_neg (by rw [hnext]; simpa using hdouble)]
        exact ⟨q + 1, rfl, by omega, by omega, rfl, trivial⟩
    · -- the symbol is the last character, and a NUL follows
      have hes : q + 1 = es := by omega
      rw [hes, hzero, textAhead_end, if_neg (by decide), if_neg (by simp)]
      exact ⟨es, rfl, by omega, le_refl es, textAhead_end, trivial⟩
  · rw [lexOne, if_neg hgreat]
    cases hsym : symbolToken (mem q) with
    | some t =>
      exact ⟨q + 1, tokenAt_symbol hsym, by omega, hlt, rfl, (symbolToken_code hsym).2.2 _ _⟩
    | none =>
      have hnot : isSymbol (mem q) = false := by
        rw [Bool.eq_false_iff, Ne, isSymbol_iff, hsym]
        simp [hgreat]
      exact tokenAt_spells hlt hspace hnot hnonzero hzero

end TokenAt

/-! ## Rules -/

section Rules

variable {mem : Mem} {es s : Nat} {ts : List Token}

/-- Past the whitespace: the end, or the first character of the first token. -/
theorem Ahead.skip (h : Ahead mem es ts s) {q : Nat} (hq : q = skipWhile isSpace mem (es - s) s) :
    Ahead mem es ts q ∧ ((ts = [] ∧ q = es) ∨
      (q < es ∧ isSpace (mem q) = false ∧
        ts = (lexOne (mem q) (textAhead mem es (q + 1))).1 ::
          lex (lexOne (mem q) (textAhead mem es (q + 1))).2)) := by
  obtain ⟨htext, hskip, hle⟩ := textAhead_skipWhile mem isSpace h.le
  rw [← hq] at htext hskip hle
  have hahead : Ahead mem es ts q := by
    refine ⟨hle, ?_, ?_, h.zero⟩
    · rw [htext, lex_dropWhile, h.tokens]
    · intro i hi
      exact h.nonzero i (by omega)
  refine ⟨hahead, ?_⟩
  have hidem : (textAhead mem es q).dropWhile isSpace = textAhead mem es q := by
    rw [htext, List.dropWhile_idempotent]
  have htokens := hahead.tokens
  rw [lex_eq, hidem] at htokens
  rcases Nat.lt_or_ge q es with hlt | hge
  · rw [textAhead_lt hlt] at htokens hidem
    refine Or.inr ⟨hlt, ?_, htokens.symm⟩
    by_contra hspace
    rw [Bool.not_eq_false] at hspace
    rw [List.dropWhile_cons_of_pos hspace] at hidem
    have hlen := (List.dropWhile_suffix isSpace (l := textAhead mem es (q + 1))).length_le
    rw [hidem, List.length_cons] at hlen
    omega
  · have hqe : q = es := Nat.le_antisymm hle hge
    rw [hqe, textAhead_end] at htokens
    exact Or.inl ⟨htokens.symm, hqe⟩

/-- Whether the first token is a symbol that starts with one of the characters. -/
def starts (toks : List Char) : List Token → Bool
  | [] => false
  | .word _ :: _ => false
  | t :: _ => decide (t.first ∈ toks.map Char.toUInt8)

/-- What `peek` sees is decided by the first character of the token. -/
theorem starts_lexOne {toks : List Char} (htoks : (toks.map Char.toUInt8).all isSymbol = true)
    (c : UInt8) (cs : List UInt8) (us : List Token) :
    starts toks ((lexOne c cs).1 :: us) = decide (c ∈ toks.map Char.toUInt8) := by
  have hfirst := lexOne_first c cs
  cases ht : (lexOne c cs).1 with
  | word w =>
    have hnot : isSymbol c = false := by
      rw [Bool.eq_false_iff, Ne, isSymbol_iff]
      intro hsym
      by_cases hgreat : c = '>'.toUInt8
      · rw [lexOne, if_pos hgreat] at ht
        split at ht <;> exact absurd ht (by simp)
      · obtain ⟨t, hsome⟩ := Option.isSome_iff_exists.mp (hsym.resolve_left hgreat)
        rw [lexOne, if_neg hgreat, hsome] at ht
        have hcode := (symbolToken_code hsome).1
        rw [show t = .word w from ht] at hcode
        rw [← hcode] at hsome
        have hnone : symbolToken 'a'.toUInt8 = none := rfl
        exact absurd (hnone.symm.trans hsome) (by simp)
    symm
    rw [starts, decide_eq_false_iff_not]
    intro hmem
    exact absurd (List.all_eq_true.mp htoks c hmem) (by rw [hnot]; simp)
  | _ =>
    rw [ht] at hfirst
    rw [starts, hfirst]
    simp

/-- `peek` moves in front of the next token and says whether it is one of `toks`. -/
theorem peek_rule (h : Ahead mem es ts s) {toks : List Char}
    (htoks : (toks.map Char.toUInt8).all isSymbol = true) {E : Stop → Prop} :
    wp (peek mem es toks) (fun b t => b = starts toks ts ∧ Ahead mem es ts t ∧
      (ts = [] → t = es)) E s := by
  unfold peek
  simp only [wp_bind, wp_get, wp_modify, wp_pure]
  obtain ⟨hahead, hcase⟩ := h.skip rfl
  generalize skipWhile isSpace mem (es - s) s = q at *
  rcases hcase with ⟨rfl, rfl⟩ | ⟨hlt, -, hts⟩
  · refine ⟨?_, hahead, fun _ => rfl⟩
    simp [hahead.zero, starts]
  · refine ⟨?_, hahead, ?_⟩
    · have hne := hahead.nonzero q (le_refl _) hlt
      rw [hts, starts_lexOne htoks, strchr_isSome]
      simp [hne]
    · intro hnil
      rw [hnil] at hts
      exact absurd hts (by simp)

/-- `gettoken` returns 0 at the end. -/
theorem gettoken_end (h : Ahead mem es [] s) {E : Stop → Prop} :
    wp (gettoken mem es) (fun tok t => tok.ret = 0 ∧ Ahead mem es [] t) E s := by
  unfold gettoken
  simp only [wp_bind, wp_get, wp_modify, wp_pure]
  obtain ⟨hahead, hcase⟩ := h.skip rfl
  generalize skipWhile isSpace mem (es - s) s = q at *
  rcases hcase with ⟨-, rfl⟩ | ⟨-, -, hts⟩
  · have htok : tokenAt mem q q = (0, q) := if_pos hahead.zero
    rw [htok]
    exact ⟨rfl, (hahead.skip rfl).1⟩
  · exact absurd hts (by simp)

/-- `gettoken` returns the next token and moves behind it. -/
theorem gettoken_rule {t : Token} (h : Ahead mem es (t :: ts) s) {E : Stop → Prop} :
    wp (gettoken mem es) (fun tok s' => tok.ret = t.code ∧ t.Spelled mem tok ∧
      Ahead mem es ts s') E s := by
  unfold gettoken
  simp only [wp_bind, wp_get, wp_modify, wp_pure]
  obtain ⟨hahead, hcase⟩ := h.skip rfl
  generalize skipWhile isSpace mem (es - s) s = q at *
  rcases hcase with ⟨hnil, -⟩ | ⟨hlt, hspace, hts⟩
  · exact absurd hnil (by simp)
  · obtain ⟨ht, hrest⟩ := List.cons.inj hts
    obtain ⟨eq, htok, hge, hle, htext, hspelled⟩ :=
      tokenAt_spec hlt hspace hahead.nonzero hahead.zero
    rw [← ht] at htok hspelled
    rw [htok]
    refine ⟨rfl, hspelled, (Ahead.skip ⟨hle, ?_, ?_, hahead.zero⟩ rfl).1⟩
    · rw [htext, hrest]
    · intro i hi
      exact hahead.nonzero i (hge.trans hi)

end Rules

end Xv6.Shell
