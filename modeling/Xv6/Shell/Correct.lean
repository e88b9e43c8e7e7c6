import Xv6.Shell.Descent

/-!
# Shell - The parser decides the grammar

From the tokens of a phrase, followed by a token that cannot continue it, the parser returns the
tree of the phrase.  Together with what it returns at all, this decides the grammar.  The
strings of a command are then cut out of the buffer by a NUL behind each.

Main results:

- Theorem {lit}`parse_complete`: the parser returns on every phrase.
- Theorem {lit}`nulterminate_spec`: {lit}`nulterminate` writes a NUL behind each string.
- Theorem {lit}`parsecmd_correct`: {lit}`parsecmd` on every string.
-/

namespace Xv6.Shell

open Foundations

/-! ## Completeness -/

namespace Phrase

/-- The tokens that may stand behind a phrase. -/
def follow : Phrase → List Token
  | line => [.rpar]
  | pipe => [.rpar, .semi, .amp]
  | exec => [.rpar, .semi, .amp, .bar]

/-- The calls without taking a token. -/
def calls : Phrase → Nat
  | line => 4
  | pipe => 3
  | exec => 2

/-- The function that parses the phrase. -/
def parser (mem : Mem) (es : Nat) : Phrase → Nat → Parser Cmd
  | line => parseline mem es
  | pipe => parsepipe mem es
  | exec => parseexec mem es

end Phrase

/-- A phrase cannot be continued with the first of the tokens. -/
def Follow (p : Phrase) (rest : List Token) : Prop :=
  ∀ t ∈ rest.head?, t ∈ p.follow

section Follow

variable {p : Phrase} {rest us : List Token}

theorem follow_cons {t : Token} (h : t ∈ p.follow) : Follow p (t :: us) := by
  intro t' ht'
  cases ht'
  exact h

theorem Follow.mono {p' : Phrase} (h : Follow p rest) (hsub : ∀ t ∈ p.follow, t ∈ p'.follow) :
    Follow p' rest :=
  fun t ht => hsub t (h t ht)

/-- Looking for a symbol that cannot follow. -/
theorem Follow.starts (h : Follow p rest) {toks : List Char}
    (hnot : ∀ t ∈ p.follow, Shell.starts toks [t] = false) : Shell.starts toks rest = false := by
  cases rest with
  | nil => rfl
  | cons t us =>
    have ht := hnot t (h t rfl)
    cases t with
    | word w => rfl
    | _ => exact ht

/-- Where the words of a simple command end. -/
theorem Follow.ends (h : Follow .exec rest) :
    rest = [] ∨ Shell.starts ['|', ')', '&', ';'] rest = true := by
  cases rest with
  | nil => exact Or.inl rfl
  | cons t us =>
    refine Or.inr ?_
    have ht := h t rfl
    simp only [Phrase.follow, List.mem_cons, List.not_mem_nil, or_false] at ht
    rcases ht with rfl | rfl | rfl | rfl <;> rfl

/-- Behind the commands in the background. -/
theorem Follow.backs (k : Nat) (h : Follow .pipe rest) :
    Follow .pipe (List.replicate k .amp ++ rest) := by
  cases k with
  | zero => exact h
  | succ k => exact follow_cons (by simp [Phrase.follow])

/-- A simple command does not start with a parenthesis. -/
theorem starts_simple {ts us : List Token} {ws : List (List UInt8)} {rs rs' : List Redir}
    (hredirs : Redirs ts rs) (hargs : Args us ws rs') (h : Follow .exec rest) :
    starts ['('] (ts ++ us ++ rest) = false := by
  cases hredirs with
  | nil =>
    cases hargs with
    | nil => exact h.starts (by decide)
    | cons _ _ _ => rfl
  | cons op _ _ => cases op <;> rfl

theorem starts_args {us : List Token} {ws : List (List UInt8)} {rs : List Redir}
    (hargs : Args us ws rs) (h : Follow .exec rest) : starts ['<', '>'] (us ++ rest) = false := by
  cases hargs with
  | nil => exact h.starts (by decide)
  | cons _ _ _ => rfl

end Follow

section Complete

variable {mem : Mem} {es : Nat}

/-- On the tokens of a phrase the parser returns its tree. -/
theorem parse_complete {p : Phrase} {ts : List Token} {t : Tree} (h : Derives p ts t)
    (hfits : t.Fits) {rest : List Token} (hfollow : Follow p rest) {s n : Nat}
    (hahead : Ahead mem es (ts ++ rest) s) (hn : 4 * (ts ++ rest).length + p.calls ≤ n) :
    wp (p.parser mem es n) (fun cmd s' => Rep mem cmd t ∧ Ahead mem es rest s')
      (fun _ => False) s := by
  induction h generalizing rest s n with
  | @line ts t k hpipe ih =>
    obtain ⟨n, rfl⟩ : ∃ m, n = m + 1 := ⟨n - 1, by simp only [Phrase.calls] at hn; omega⟩
    rw [List.append_assoc] at hahead hn
    simp only [Phrase.calls, List.length_append] at hn
    rw [Phrase.parser, parseline]
    have hpipeFollow : Follow .pipe rest := hfollow.mono (by decide)
    have hbehind := hpipeFollow.backs k
    refine wp_bind_of (ih ((Tree.fits_backs t k).mp hfits) hbehind hahead ?_) ?_
    · simp only [Phrase.calls, List.length_append]
      omega
    · rintro cmd s1 ⟨hrep, h1⟩
      refine wp_bind_of (parsebacks_complete (hfollow.starts (by decide)) h1 ?_ hrep) ?_
      · rw [List.length_append]
        omega
      · rintro cmd' s2 ⟨hrep', h2⟩
        refine wp_bind_of (peek_rule h2 rfl) ?_
        rintro b s3 ⟨rfl, h3, -⟩
        rw [hfollow.starts (by decide), if_neg (by simp)]
        exact ⟨hrep', h3⟩
  | @list ts us t u k hpipe hline ihp ihl =>
    obtain ⟨n, rfl⟩ : ∃ m, n = m + 1 := ⟨n - 1, by simp only [Phrase.calls] at hn; omega⟩
    rw [List.append_assoc, List.append_assoc, List.cons_append] at hahead hn
    simp only [Phrase.calls, List.length_append, List.length_cons] at hn
    rw [Phrase.parser, parseline]
    have hsemi : Follow .pipe (Token.semi :: (us ++ rest)) :=
      follow_cons (by simp [Phrase.follow])
    refine wp_bind_of (ihp ((Tree.fits_backs t k).mp hfits.1) (hsemi.backs k) hahead ?_) ?_
    · simp only [Phrase.calls, List.length_append, List.length_cons]
      omega
    · rintro cmd s1 ⟨hrep, h1⟩
      refine wp_bind_of (parsebacks_complete rfl h1 ?_ hrep) ?_
      · simp only [List.length_append, List.length_cons]
        omega
      · rintro cmd' s2 ⟨hrep', h2⟩
        refine wp_bind_of (peek_rule h2 rfl) ?_
        rintro b s3 ⟨rfl, h3, -⟩
        rw [starts_self rfl, if_pos rfl]
        refine wp_bind_of (gettoken_rule h3) ?_
        rintro tok s4 ⟨-, -, h4⟩
        refine wp_bind_of (ihl hfits.2 hfollow h4 ?_) ?_
        · simp only [Phrase.calls, List.length_append]
          omega
        · rintro right s5 ⟨hright, h5⟩
          exact ⟨Rep.list hrep' hright, h5⟩
  | @single ts t hexec ih =>
    obtain ⟨n, rfl⟩ : ∃ m, n = m + 1 := ⟨n - 1, by simp only [Phrase.calls] at hn; omega⟩
    simp only [Phrase.calls] at hn
    rw [Phrase.parser, parsepipe]
    refine wp_bind_of (ih hfits (hfollow.mono (by decide)) hahead ?_) ?_
    · simp only [Phrase.calls]
      omega
    · rintro cmd s1 ⟨hrep, h1⟩
      refine wp_bind_of (peek_rule h1 rfl) ?_
      rintro b s2 ⟨rfl, h2, -⟩
      rw [hfollow.starts (by decide), if_neg (by simp)]
      exact ⟨hrep, h2⟩
  | @pipe ts us t u hexec hpipe ihe ihp =>
    obtain ⟨n, rfl⟩ : ∃ m, n = m + 1 := ⟨n - 1, by simp only [Phrase.calls] at hn; omega⟩
    rw [List.append_assoc, List.cons_append] at hahead hn
    simp only [Phrase.calls, List.length_append, List.length_cons] at hn
    rw [Phrase.parser, parsepipe]
    have hbar : Follow .exec (Token.bar :: (us ++ rest)) := follow_cons (by simp [Phrase.follow])
    refine wp_bind_of (ihe hfits.1 hbar hahead ?_) ?_
    · simp only [Phrase.calls, List.length_append, List.length_cons]
      omega
    · rintro cmd s1 ⟨hrep, h1⟩
      refine wp_bind_of (peek_rule h1 rfl) ?_
      rintro b s2 ⟨rfl, h2, -⟩
      rw [starts_self rfl, if_pos rfl]
      refine wp_bind_of (gettoken_rule h2) ?_
      rintro tok s3 ⟨-, -, h3⟩
      refine wp_bind_of (ihp hfits.2 hfollow h3 ?_) ?_
      · simp only [Phrase.calls, List.length_append]
        omega
      · rintro right s4 ⟨hright, h4⟩
        exact ⟨Rep.pipe hrep hright, h4⟩
  | @block ts us t rs hline hredirs ih =>
    obtain ⟨n, rfl⟩ : ∃ m, n = m + 2 := ⟨n - 2, by simp only [Phrase.calls] at hn; omega⟩
    rw [List.cons_append, List.append_assoc, List.cons_append] at hahead hn
    simp only [Phrase.calls, List.length_append, List.length_cons] at hn
    rw [Phrase.parser, parseexec]
    refine wp_bind_of (peek_rule hahead rfl) ?_
    rintro b s1 ⟨rfl, h1, -⟩
    rw [starts_self rfl, if_pos rfl, parseblock]
    refine wp_bind_of (peek_rule h1 rfl) ?_
    rintro b s2 ⟨rfl, h2, -⟩
    rw [starts_self rfl, if_neg (by simp)]
    refine wp_bind_of (gettoken_rule h2) ?_
    rintro tok s3 ⟨-, -, h3⟩
    have hrpar : Follow .line (Token.rpar :: (us ++ rest)) := follow_cons (by simp [Phrase.follow])
    refine wp_bind_of (ih ((Tree.fits_wrap t rs).mp hfits) hrpar h3 ?_) ?_
    · simp only [Phrase.calls, List.length_append, List.length_cons]
      omega
    · rintro cmd s4 ⟨hrep, h4⟩
      refine wp_bind_of (peek_rule h4 rfl) ?_
      rintro b s5 ⟨rfl, h5, -⟩
      rw [starts_self rfl, if_neg (by simp)]
      refine wp_bind_of (gettoken_rule h5) ?_
      rintro tok' s6 ⟨-, -, h6⟩
      refine parseredirs_complete hredirs (hfollow.starts (by decide)) h6 ?_ hrep
      rw [List.length_append]
      omega
  | @simple ts us ws rs rs' hredirs hargs =>
    obtain ⟨n, rfl⟩ : ∃ m, n = m + 1 := ⟨n - 1, by simp only [Phrase.calls] at hn; omega⟩
    rw [Phrase.parser, parseexec]
    refine wp_bind_of (peek_rule hahead rfl) ?_
    rintro b s1 ⟨rfl, h1, -⟩
    rw [starts_simple hredirs hargs hfollow, if_neg (by simp)]
    rw [List.append_assoc] at h1 hn
    simp only [Phrase.calls, List.length_append] at hn
    refine wp_bind_of (parseredirs_complete hredirs (starts_args hargs hfollow) h1 ?_
      rep_execcmd) ?_
    · simp only [List.length_append]
      omega
    · rintro cmd s2 ⟨hrep, h2⟩
      have hroom : (([] : List (List UInt8)) ++ ws).length < maxargs :=
        Nat.lt_of_le_sub_one (by decide) ((Tree.fits_wrap _ _).mp hfits)
      refine parseargs_complete [] hargs hfollow.ends h2 ?_ hroom hrep
      rw [List.length_append]
      omega

end Complete

/-! ## Terminated strings -/

/-- Some characters that do not belong to words became NUL. -/
def Cut (mem₀ mem mem' : Mem) : Prop :=
  ∀ i, mem' i = mem i ∨ (mem' i = 0 ∧ isWord (mem₀ i) = false)

/-- The pointers behind the strings of a command. -/
def Cmd.ends : Cmd → List Nat
  | .exec argv eargv => (List.finRange maxargs).filterMap fun i => (argv i).bind fun _ => eargv i
  | .redir cmd _ efile _ _ => efile :: cmd.ends
  | .pipe left right => left.ends ++ right.ends
  | .list left right => left.ends ++ right.ends
  | .back cmd => cmd.ends

section Strings

variable {mem₀ mem mem' mem'' : Mem} {cmd : Cmd} {t : Tree}

theorem Cut.refl : Cut mem₀ mem mem :=
  fun _ => Or.inl rfl

theorem Cut.trans (h : Cut mem₀ mem mem') (h' : Cut mem₀ mem' mem'') : Cut mem₀ mem mem'' := by
  intro i
  rcases h' i with hsame | hcut
  · rw [hsame]
    exact h i
  · exact Or.inr hcut

theorem Cut.zero (h : Cut mem₀ mem mem') {i : Nat} (hi : mem i = 0) : mem' i = 0 := by
  rcases h i with hsame | hcut
  · rw [hsame, hi]
  · exact hcut.1

theorem cut_update {e : Nat} (he : isWord (mem₀ e) = false) :
    Cut mem₀ mem (Function.update mem e 0) := by
  intro i
  by_cases hi : i = e
  · subst hi
    exact Or.inr ⟨Function.update_self .., he⟩
  · exact Or.inl (Function.update_of_ne hi ..)

theorem nulArgs_spec {argv eargv : Fin maxargs → Option Nat} {is : List (Fin maxargs)}
    (hnull : ∃ i ∈ is, argv i = none)
    (hafter : is.Pairwise fun i j => argv i = none → argv j = none)
    (hends : ∀ i ∈ is, argv i ≠ none → ∃ e, eargv i = some e ∧ isWord (mem₀ e) = false) :
    wp (nulArgs argv eargv is) (fun _ mem' => Cut mem₀ mem mem' ∧
      ∀ i ∈ is, argv i ≠ none → ∀ e, eargv i = some e → mem' e = 0) (fun _ => False) mem := by
  induction is generalizing mem with
  | nil =>
    obtain ⟨i, hi, -⟩ := hnull
    exact absurd hi List.not_mem_nil
  | cons i is ih =>
    rw [nulArgs]
    rw [List.pairwise_cons] at hafter
    cases hargv : argv i with
    | none =>
      -- the loop ends, and no word is behind
      refine ⟨Cut.refl, ?_⟩
      intro j hj hne
      rcases List.mem_cons.mp hj with rfl | hmem
      · exact absurd hargv hne
      · exact absurd (hafter.1 j hmem hargv) hne
    | some q =>
      obtain ⟨e, he, hdelim⟩ := hends i List.mem_cons_self (by rw [hargv]; simp)
      rw [he]
      have hnull' : ∃ j ∈ is, argv j = none := by
        obtain ⟨j, hj, hjnone⟩ := hnull
        rcases List.mem_cons.mp hj with rfl | hmem
        · exact absurd (hargv.symm.trans hjnone) (by simp)
        · exact ⟨j, hmem, hjnone⟩
      rw [wp_bind, wp_modify]
      refine wp_mono (ih hnull' hafter.2 fun j hj => hends j (List.mem_cons_of_mem i hj)) ?_
        fun _ he => he
      rintro _ mem' ⟨hcut, hzero⟩
      refine ⟨(cut_update hdelim).trans hcut, ?_⟩
      intro j hj hne e' he'
      rcases List.mem_cons.mp hj with rfl | hmem
      · rw [he] at he'
        cases he'
        exact hcut.zero (Function.update_self ..)
      · exact hzero j hmem hne e' he'

/-- The two parts of a command, one after the other. -/
theorem nulterminate_both {l r : Cmd}
    (hl : wp (nulterminate l) (fun _ mem' => Cut mem₀ mem mem' ∧ ∀ e ∈ l.ends, mem' e = 0)
      (fun _ => False) mem)
    (hr : ∀ mem', wp (nulterminate r) (fun _ mem'' => Cut mem₀ mem' mem'' ∧
      ∀ e ∈ r.ends, mem'' e = 0) (fun _ => False) mem') :
    wp (do nulterminate l; nulterminate r) (fun _ mem'' => Cut mem₀ mem mem'' ∧
      ∀ e ∈ l.ends ++ r.ends, mem'' e = 0) (fun _ => False) mem := by
  refine wp_bind_of hl ?_
  rintro _ mem' ⟨hcut, hzero⟩
  refine wp_mono (hr mem') ?_ fun _ he => he
  rintro _ mem'' ⟨hcut', hzero'⟩
  refine ⟨hcut.trans hcut', ?_⟩
  intro e he
  rcases List.mem_append.mp he with hleft | hright
  · exact hcut'.zero (hzero e hleft)
  · exact hzero' e hright

/-- {lit}`nulterminate` writes a NUL behind each string, and nowhere else. -/
theorem nulterminate_spec (mem : Mem) (h : Rep mem₀ cmd t) :
    wp (nulterminate cmd) (fun _ mem' => Cut mem₀ mem mem' ∧ ∀ e ∈ cmd.ends, mem' e = 0)
      (fun _ => False) mem := by
  induction h generalizing mem with
  | @exec argv eargv words room args null =>
    have hused : ∀ i : Fin maxargs, argv i ≠ none →
        ∃ q e w, argv i = some q ∧ eargv i = some e ∧ Spells mem₀ q e w := by
      intro i hne
      have hlt : i.val < words.length := by
        by_contra hge
        exact hne (null i (Nat.le_of_not_lt hge))
      obtain ⟨q, e, hq, he, hw⟩ := args i _ (List.getElem?_eq_getElem hlt)
      exact ⟨q, e, _, hq, he, hw⟩
    have hnull : ∃ i ∈ List.finRange maxargs, argv i = none :=
      ⟨⟨words.length, room⟩, List.mem_finRange _, null _ (le_refl _)⟩
    have hafter : (List.finRange maxargs).Pairwise fun i j => argv i = none → argv j = none := by
      refine (List.pairwise_lt_finRange maxargs).imp ?_
      intro i j hij hi
      apply null j
      by_contra hlt
      obtain ⟨q, _, hq, -⟩ := args i _ (List.getElem?_eq_getElem (by omega : i.val < words.length))
      exact absurd (hi.symm.trans hq) (by simp)
    have hends : ∀ i ∈ List.finRange maxargs, argv i ≠ none →
        ∃ e, eargv i = some e ∧ isWord (mem₀ e) = false := by
      intro i _ hne
      obtain ⟨q, e, w, -, he, hw⟩ := hused i hne
      exact ⟨e, he, hw.delim⟩
    refine wp_mono (nulArgs_spec hnull hafter hends) ?_ fun _ he => he
    rintro _ mem' ⟨hcut, hzero⟩
    refine ⟨hcut, ?_⟩
    intro e he
    obtain ⟨i, hi, hbind⟩ := List.mem_filterMap.mp he
    obtain ⟨q, hq, heq⟩ := Option.bind_eq_some_iff.mp hbind
    exact hzero i hi (by rw [hq]; simp) e heq
  | redir _ hfile ih =>
    rw [nulterminate]
    refine wp_bind_of (ih mem) ?_
    rintro _ mem' ⟨hcut, hzero⟩
    refine ⟨hcut.trans (cut_update hfile.delim), ?_⟩
    intro e he
    rcases List.mem_cons.mp he with rfl | hmem
    · exact Function.update_self ..
    · exact (cut_update hfile.delim).zero (hzero e hmem)
  | pipe _ _ ihl ihr | list _ _ ihl ihr => exact nulterminate_both (ihl mem) ihr
  | back _ ih => exact ih mem

/-- A word reads as its text once the character behind it is NUL. -/
theorem Spells.readsAs {q e : Nat} {w : List UInt8} (h : Spells mem₀ q e w)
    (hcut : Cut mem₀ mem₀ mem') (hzero : mem' e = 0) : ReadsAs mem' q w := by
  refine ⟨?_, ?_, ?_⟩
  · refine Eq.trans (List.map_congr_left ?_) h.text_eq
    intro i hi
    have hmem : mem₀ i ∈ w := by
      rw [← h.text_eq]
      exact List.mem_map_of_mem hi
    rcases hcut i with hsame | ⟨-, hdelim⟩
    · exact hsame
    · exact absurd (h.word _ hmem) (by rw [hdelim]; simp)
  · intro hz
    exact absurd (h.word 0 hz) (by rw [isWord_zero]; simp)
  · rw [← h.stop]
    exact hzero

theorem Rep.shows (h : Rep mem₀ cmd t) (hcut : Cut mem₀ mem₀ mem')
    (hzero : ∀ e ∈ cmd.ends, mem' e = 0) : Shows mem' cmd t := by
  induction h with
  | @exec argv eargv words room args null =>
    refine Shows.exec room (null _ (le_refl _)) ?_
    intro i w hw
    obtain ⟨q, e, hq, he, hspells⟩ := args i w hw
    refine ⟨q, hq, hspells.readsAs hcut (hzero e ?_)⟩
    refine List.mem_filterMap.mpr ⟨i, List.mem_finRange i, ?_⟩
    rw [hq, he]
    rfl
  | redir _ hfile ih =>
    exact Shows.redir (ih fun e he => hzero e (List.mem_cons_of_mem _ he))
      (hfile.readsAs hcut (hzero _ List.mem_cons_self))
  | pipe _ _ ihl ihr =>
    exact Shows.pipe (ihl fun e he => hzero e (List.mem_append_left _ he))
      (ihr fun e he => hzero e (List.mem_append_right _ he))
  | list _ _ ihl ihr =>
    exact Shows.list (ihl fun e he => hzero e (List.mem_append_left _ he))
      (ihr fun e he => hzero e (List.mem_append_right _ he))
  | back _ ih => exact Shows.back (ih hzero)

end Strings

/-! ## All together -/

/-- The characters of a string. -/
def CString.text (str : CString) : List UInt8 :=
  (List.range' str.addr str.len).map str.mem

theorem strlen_eq (str : CString) : strlen str = str.len :=
  (Nat.find_eq_iff _).mpr ⟨str.zero, fun i hi => str.nonzero i hi⟩

theorem lex_length_le (text : List UInt8) : (lex text).length ≤ text.length := by
  induction text using lex.induct with
  | case1 text h =>
    rw [lex_eq, h]
    exact Nat.zero_le _
  | case2 text c cs h hlt ih =>
    rw [lex_eq, h, List.length_cons]
    omega

section Top

variable (str : CString)

theorem CString.ahead :
    Ahead str.mem (str.addr + strlen str) (lex str.text) str.addr where
  le := Nat.le_add_right _ _
  tokens := by
    rw [textAhead, Nat.add_sub_cancel_left, strlen_eq]
    rfl
  nonzero i hlo hhi := by
    rw [strlen_eq] at hhi
    obtain ⟨k, rfl⟩ := Nat.exists_eq_add_of_le hlo
    exact str.nonzero k (by omega)
  zero := by
    rw [strlen_eq]
    exact str.zero

theorem CString.tokens_le : (lex str.text).length ≤ strlen str := by
  refine (lex_length_le _).trans ?_
  rw [strlen_eq, CString.text, List.length_map, List.length_range']

/-- The part of {lit}`parsecmd` before {lit}`nulterminate`. -/
def parseWhole (n : Nat) : Parser Cmd := do
  let es := str.addr + strlen str
  let cmd ← parseline str.mem es n
  let _ ← peek str.mem es []
  let s ← Exec.get
  if s ≠ es then Exec.stop (.panic "syntax") else return cmd

theorem parseWhole_sound {n : Nat} (hn : 4 * strlen str + 4 ≤ n) :
    wp (parseWhole str n) (fun cmd _ => ∃ t, Derives .line (lex str.text) t ∧ Rep str.mem cmd t)
      Panics str.addr := by
  have hle := str.tokens_le
  unfold parseWhole
  refine wp_bind_of ((parse_sound n).line str.ahead (by omega)) ?_
  rintro cmd s ⟨us, t, vs, hsplit, hline, hrep, h⟩
  refine wp_bind_of (peek_rule h rfl) ?_
  rintro b s' ⟨-, h', -⟩
  rw [wp_bind, wp_get]
  by_cases hend : s' = str.addr + strlen str
  · rw [if_neg (fun hne => hne hend)]
    have hnil : vs = [] := by
      rw [← h'.tokens, hend, textAhead_end, lex_eq]
      rfl
    rw [hnil, List.append_nil] at hsplit
    exact ⟨t, hsplit ▸ hline, hrep⟩
  · rw [if_pos hend]
    exact ⟨_, rfl⟩

theorem parseWhole_complete {n : Nat} (hn : 4 * strlen str + 4 ≤ n) {t : Tree}
    (ht : Derives .line (lex str.text) t) (hfits : t.Fits) :
    wp (parseWhole str n) (fun cmd _ => Rep str.mem cmd t) (fun _ => False) str.addr := by
  have hle := str.tokens_le
  have hahead := str.ahead
  rw [← List.append_nil (lex str.text)] at hahead
  have hfollow : Follow .line [] := by
    intro t' ht'
    exact absurd ht' (by simp)
  unfold parseWhole
  refine wp_bind_of (parse_complete ht hfits hfollow hahead ?_) ?_
  · rw [List.append_nil, Phrase.calls]
    omega
  · rintro cmd s ⟨hrep, h⟩
    refine wp_bind_of (peek_rule h rfl) ?_
    rintro b s' ⟨-, -, hend⟩
    rw [wp_bind, wp_get, if_neg (fun hne => hne (hend rfl))]
    exact hrep

theorem parsecmd_of_ok {n : Nat} {cmd : Cmd} {s : Nat} {u : Unit} {mem : Mem}
    (hparse : parseWhole str n str.addr = .ok (cmd, s))
    (hnul : nulterminate cmd str.mem = .ok (u, mem)) : parsecmd n str = .ok (cmd, mem) := by
  unfold parseWhole at hparse
  unfold parsecmd
  simp only [hparse, hnul]

theorem parsecmd_of_error {n : Nat} {e : Stop}
    (hparse : parseWhole str n str.addr = .error e) : parsecmd n str = .error e := by
  unfold parseWhole at hparse
  unfold parsecmd
  simp only [hparse]

/-- `parsecmd` on every string, with enough calls: on the tokens of a line whose simple commands
have at most {lit}`MAXARGS - 1` words it returns the tree of the line with every string in
place; on all others it panics. -/
theorem parsecmd_correct (extra : Nat) :
    (∀ t, Derives .line (lex str.text) t → t.Fits →
      ∃ cmd mem, parsecmd (4 * strlen str + 4 + extra) str = .ok (cmd, mem) ∧ Shows mem cmd t) ∧
    ((¬ ∃ t, Derives .line (lex str.text) t ∧ t.Fits) →
      ∃ msg, parsecmd (4 * strlen str + 4 + extra) str = .error (.panic msg)) := by
  have hn : 4 * strlen str + 4 ≤ 4 * strlen str + 4 + extra := Nat.le_add_right _ _
  generalize 4 * strlen str + 4 + extra = n at hn ⊢
  constructor
  · intro t ht hfits
    obtain ⟨cmd, s, hok, hrep⟩ := wp_never.mp (parseWhole_complete str hn ht hfits)
    obtain ⟨_, mem, hnul, hcut, hzero⟩ :=
      wp_never.mp (nulterminate_spec str.mem hrep)
    refine ⟨cmd, mem, ?_, hrep.shows hcut hzero⟩
    exact parsecmd_of_ok str hok hnul
  · intro hnone
    have hsound := parseWhole_sound str hn
    cases hres : parseWhole str n str.addr with
    | ok r =>
      rw [wp_of_ok hres] at hsound
      obtain ⟨t, ht, hrep⟩ := hsound
      exact absurd ⟨t, ht, hrep.fits⟩ hnone
    | error e =>
      rw [wp_of_error hres] at hsound
      obtain ⟨msg, rfl⟩ := hsound
      exact ⟨msg, parsecmd_of_error str hres⟩

end Top

end Xv6.Shell
