import Xv6.Shell.Tokens

/-!
# Shell - What the parser returns

The commands that the parser builds have pointers to the words of a tree.  Each loop and each
function of the recursive descent takes the tokens of a phrase of the grammar, or panics; with
enough calls it does not run out of them.

Main results:

- Theorems {lit}`parseredirs_sound`, {lit}`parseargs_sound`, {lit}`parsebacks_sound` and their
  {lit}`complete` counterparts: the loops.
- Theorem {lit}`parse_sound`: what the functions of the descent return.
-/

namespace Xv6.Shell

open Foundations

/-! ## Commands before the strings are terminated -/

/-- The pointers of a command delimit the words of a tree. -/
inductive Rep (mem : Mem) : Cmd → Tree → Prop
  | exec {argv eargv : Fin maxargs → Option Nat} {words : List (List UInt8)}
      (room : words.length < maxargs)
      (args : ∀ (i : Fin maxargs) (w : List UInt8), words[i.val]? = some w →
        ∃ q eq, argv i = some q ∧ eargv i = some eq ∧ Spells mem q eq w)
      (null : ∀ i : Fin maxargs, words.length ≤ i.val → argv i = none) :
      Rep mem (.exec argv eargv) (.exec words)
  | redir {cmd : Cmd} {t : Tree} {q eq mode fd : Nat} {file : List UInt8} :
      Rep mem cmd t → Spells mem q eq file →
      Rep mem (.redir cmd q eq mode fd) (.redir t file mode fd)
  | pipe {l r : Cmd} {t u : Tree} : Rep mem l t → Rep mem r u → Rep mem (.pipe l r) (.pipe t u)
  | list {l r : Cmd} {t u : Tree} : Rep mem l t → Rep mem r u → Rep mem (.list l r) (.list t u)
  | back {cmd : Cmd} {t : Tree} : Rep mem cmd t → Rep mem (.back cmd) (.back t)

theorem Tree.wrap_append (t : Tree) (rs rs' : List Redir) :
    t.wrap (rs ++ rs') = (t.wrap rs).wrap rs' :=
  List.foldl_append

/-- Redirections take no room among the arguments. -/
theorem Tree.fits_wrap (t : Tree) (rs : List Redir) : (t.wrap rs).Fits ↔ t.Fits := by
  induction rs generalizing t with
  | nil => rfl
  | cons r rs ih => exact ih _

/-- Nor does running in the background. -/
theorem Tree.fits_backs (t : Tree) (k : Nat) : (t.backs k).Fits ↔ t.Fits := by
  induction k generalizing t with
  | zero => rfl
  | succ k ih => exact ih _

section Rep

variable {mem : Mem} {cmd : Cmd} {t : Tree} {ws : List (List UInt8)} {rs : List Redir}

/-- Only trees whose arguments fit are represented in memory. -/
theorem Rep.fits (h : Rep mem cmd t) : t.Fits := by
  induction h with
  | exec room _ _ => exact Nat.le_sub_one_of_lt room
  | redir _ _ ih => exact ih
  | pipe _ _ ihl ihr | list _ _ ihl ihr => exact ⟨ihl, ihr⟩
  | back _ ih => exact ih

/-- `execcmd` makes a command without arguments. -/
theorem rep_execcmd : Rep mem execcmd (.exec []) := by
  refine Rep.exec (by decide) ?_ fun _ _ => rfl
  intro i w hw
  exact absurd hw (by simp)

/-- The next word of a simple command. -/
theorem Rep.setArg (h : Rep mem cmd ((Tree.exec ws).wrap rs)) (hroom : ws.length + 1 < maxargs)
    {q eq : Nat} {w : List UInt8} (hw : Spells mem q eq w) :
    Rep mem (cmd.setArg ⟨ws.length, by omega⟩ (some q) (some eq))
      ((Tree.exec (ws ++ [w])).wrap rs) := by
  induction rs using List.reverseRecOn generalizing cmd with
  | nil =>
    cases h with
    | exec room args null =>
      refine Rep.exec (by simpa using hroom) ?_ ?_
      · intro i v hv
        rcases Nat.lt_trichotomy i.val ws.length with hlt | heq | hgt
        · rw [List.getElem?_append_left hlt] at hv
          have hne : i ≠ ⟨ws.length, by omega⟩ := fun hi => by
            rw [hi] at hlt
            exact absurd hlt (lt_irrefl _)
          rw [Function.update_of_ne hne, Function.update_of_ne hne]
          exact args i v hv
        · have hi : i = ⟨ws.length, by omega⟩ := Fin.ext heq
          rw [heq, List.getElem?_concat_length] at hv
          cases hv
          rw [hi, Function.update_self, Function.update_self]
          exact ⟨q, eq, rfl, rfl, hw⟩
        · rw [List.getElem?_eq_none (by simp; omega)] at hv
          exact absurd hv (by simp)
      · intro i hi
        rw [List.length_append, List.length_singleton] at hi
        have hne : i ≠ ⟨ws.length, by omega⟩ := fun he => by
          rw [he] at hi
          simp at hi
        rw [Function.update_of_ne hne]
        exact null i (by omega)
  | append_singleton rs r ih =>
    rw [Tree.wrap_append] at h ⊢
    cases h with
    | redir hsub hfile => exact Rep.redir (ih hsub) hfile

/-- The null pointer behind the words. -/
theorem Rep.setNull (h : Rep mem cmd ((Tree.exec ws).wrap rs)) (hroom : ws.length < maxargs) :
    Rep mem (cmd.setArg ⟨ws.length, hroom⟩ none none) ((Tree.exec ws).wrap rs) := by
  induction rs using List.reverseRecOn generalizing cmd with
  | nil =>
    cases h with
    | exec room args null =>
      refine Rep.exec room ?_ ?_
      · intro i v hv
        have hlt : i.val < ws.length := (List.getElem?_eq_some_iff.mp hv).1
        have hne : i ≠ ⟨ws.length, hroom⟩ := fun hi => by
          rw [hi] at hlt
          exact absurd hlt (lt_irrefl _)
        rw [Function.update_of_ne hne, Function.update_of_ne hne]
        exact args i v hv
      · intro i hi
        by_cases hne : i = ⟨ws.length, hroom⟩
        · rw [hne, Function.update_self]
        · rw [Function.update_of_ne hne]
          exact null i hi
  | append_singleton rs r ih =>
    rw [Tree.wrap_append] at h ⊢
    cases h with
    | redir hsub hfile => exact Rep.redir (ih hsub) hfile

end Rep

/-! ## Looking at the next token -/

section Look

variable {ts : List Token}

/-- Only a word has the code of a word. -/
theorem Token.code_word {t : Token} (h : t.code = 'a'.toUInt8) : ∃ w, t = .word w := by
  cases t with
  | word w => exact ⟨w, rfl⟩
  | _ => exact absurd h (by decide)

/-- The code 0 is that of the end. -/
theorem Token.code_ne_zero (t : Token) : t.code ≠ 0 := by
  cases t with
  | word w => exact (by decide : 'a'.toUInt8 ≠ 0)
  | _ => decide

/-- `peek` sees a redirection: the next token is an operator. -/
theorem starts_redir (hb : starts ['<', '>'] ts = true) :
    ∃ (op : RedirOp) (us : List Token), ts = op.token :: us := by
  cases ts with
  | nil => exact absurd hb Bool.false_ne_true
  | cons t us =>
    cases t with
    | less => exact ⟨.input, us, rfl⟩
    | great => exact ⟨.output, us, rfl⟩
    | dgreat => exact ⟨.append, us, rfl⟩
    | _ => exact absurd hb Bool.false_ne_true

/-- Where the words of a simple command end, no redirection starts. -/
theorem starts_redir_of_ends (h : starts ['|', ')', '&', ';'] ts = true) :
    starts ['<', '>'] ts = false := by
  cases ts with
  | nil => rfl
  | cons t us =>
    cases t with
    | less | great | dgreat => exact absurd h Bool.false_ne_true
    | _ => rfl

/-- The symbol that was looked for. -/
theorem starts_symbol {c : Char} (t₀ : Token) (ht₀ : symbolToken c.toUInt8 = some t₀)
    (h : starts [c] ts = true) : ∃ us, ts = t₀ :: us := by
  cases ts with
  | nil => exact absurd h Bool.false_ne_true
  | cons t us =>
    have hone : symbolToken c.toUInt8 = some t := by
      cases t with
      | word w => exact absurd h Bool.false_ne_true
      | great | dgreat =>
        rw [starts, decide_eq_true_iff, List.map_singleton, List.mem_singleton] at h
        · rw [← h] at ht₀
          exact absurd ht₀ (by decide +revert)
        · simp
      | _ =>
        rw [starts, decide_eq_true_iff, List.map_singleton, List.mem_singleton] at h
        · rw [← h]
          rfl
        · simp
    exact ⟨us, by rw [Option.some.inj (ht₀.symm.trans hone)]⟩

/-- `peek` sees a symbol that comes next. -/
theorem starts_self {c : Char} {t₀ : Token} (ht₀ : symbolToken c.toUInt8 = some t₀)
    (us : List Token) : starts [c] (t₀ :: us) = true := by
  have hsymbols : ([c].map Char.toUInt8).all isSymbol = true := by
    rw [List.map_singleton, List.all_cons, isSymbol_of_symbolToken ht₀]
    rfl
  have hone := starts_lexOne hsymbols c.toUInt8 [] us
  have hsymbol : (lexOne c.toUInt8 []).1 = t₀ := by
    rw [lexOne, if_neg, ht₀]
    intro hgreat
    rw [hgreat] at ht₀
    exact absurd ht₀ (by decide +revert)
  rw [hsymbol] at hone
  rw [hone]
  simp

/-- `peek` sees the operator of a redirection. -/
theorem starts_op (op : RedirOp) (us : List Token) : starts ['<', '>'] (op.token :: us) = true := by
  cases op <;> rfl

/-- The mode and the descriptor that an operator stands for. -/
theorem redirect_op (op : RedirOp) (cmd : Cmd) (file : Tok) :
    redirect op.token.code cmd file = .redir cmd file.q file.eq op.mode op.fd := by
  cases op <;> rfl

end Look

/-! ## Redirections -/

/-- The parser gives up with a message. -/
def Panics (e : Stop) : Prop :=
  ∃ msg, e = .panic msg

section Redirections

variable {mem : Mem} {es s n : Nat} {ts : List Token} {cmd : Cmd} {t : Tree}

/-- What `parseredirs` consumes are redirections, and they wrap the command. -/
theorem parseredirs_sound (h : Ahead mem es ts s) (hn : ts.length < n) (hrep : Rep mem cmd t) :
    wp (parseredirs mem es n cmd) (fun cmd' s' => ∃ us rs vs, ts = us ++ vs ∧ Redirs us rs ∧
      Rep mem cmd' (t.wrap rs) ∧ Ahead mem es vs s') Panics s := by
  induction n generalizing ts s cmd t with
  | zero => omega
  | succ n ih =>
    rw [parseredirs]
    refine wp_bind_of (peek_rule h rfl) ?_
    rintro b s1 ⟨rfl, h1, -⟩
    split
    · rename_i hb
      obtain ⟨op, us, rfl⟩ := starts_redir hb
      refine wp_bind_of (gettoken_rule h1) ?_
      rintro tok s2 ⟨hret, -, h2⟩
      cases us with
      | nil =>
        refine wp_bind_of (gettoken_end h2) ?_
        rintro file s3 ⟨hzero, -⟩
        rw [if_pos (by rw [hzero]; decide)]
        exact ⟨_, rfl⟩
      | cons t1 us =>
        refine wp_bind_of (gettoken_rule h2) ?_
        rintro file s3 ⟨hcode, hspells, h3⟩
        by_cases hword : file.ret = 'a'.toUInt8
        · obtain ⟨w, rfl⟩ := Token.code_word (hcode.symm.trans hword)
          rw [if_neg (fun hne => hne hword), hret, redirect_op]
          simp only [List.length_cons] at hn
          refine wp_mono (ih h3 (by omega) (Rep.redir hrep hspells)) ?_ fun _ he => he
          rintro cmd' s' ⟨us', rs, vs, rfl, hredirs, hrep', h'⟩
          exact ⟨_, _, vs, rfl, Redirs.cons op w hredirs, hrep', h'⟩
        · rw [if_pos hword]
          exact ⟨_, rfl⟩
    · exact ⟨[], [], ts, rfl, Redirs.nil, hrep, h1⟩

/-- `parseredirs` consumes all redirections that come next. -/
theorem parseredirs_complete {us rest : List Token} {rs : List Redir} (hredirs : Redirs us rs)
    (hstop : starts ['<', '>'] rest = false) (h : Ahead mem es (us ++ rest) s)
    (hn : (us ++ rest).length < n) (hrep : Rep mem cmd t) :
    wp (parseredirs mem es n cmd) (fun cmd' s' => Rep mem cmd' (t.wrap rs) ∧
      Ahead mem es rest s') (fun _ => False) s := by
  induction hredirs generalizing n s cmd t with
  | nil =>
    obtain ⟨n, rfl⟩ : ∃ m, n = m + 1 := ⟨n - 1, by omega⟩
    rw [parseredirs]
    refine wp_bind_of (peek_rule h rfl) ?_
    rintro b s1 ⟨rfl, h1, -⟩
    rw [List.nil_append] at h1 ⊢
    rw [hstop, if_neg (by simp)]
    exact ⟨hrep, h1⟩
  | cons op file hredirs ih =>
    obtain ⟨n, rfl⟩ : ∃ m, n = m + 1 := ⟨n - 1, by omega⟩
    rw [parseredirs]
    refine wp_bind_of (peek_rule h rfl) ?_
    rintro b s1 ⟨rfl, h1, -⟩
    rw [List.cons_append, starts_op, if_pos rfl]
    refine wp_bind_of (gettoken_rule h1) ?_
    rintro tok s2 ⟨hret, -, h2⟩
    refine wp_bind_of (gettoken_rule h2) ?_
    rintro tok' s3 ⟨hcode, hspells, h3⟩
    rw [if_neg (fun hne => hne hcode), hret, redirect_op]
    refine ih h3 ?_ (Rep.redir hrep hspells)
    simp only [List.length_append, List.length_cons] at hn ⊢
    omega

end Redirections

/-! ## Words of a simple command -/

section Arguments

variable {mem : Mem} {es s n : Nat} {ts : List Token} {cmd : Cmd} {rs : List Redir}

/-- What `parseargs` consumes are words and redirections, and they are added to the command. -/
theorem parseargs_sound (ws : List (List UInt8)) (h : Ahead mem es ts s) (hn : ts.length < n)
    (hrep : Rep mem cmd ((Tree.exec ws).wrap rs)) :
    wp (parseargs mem es n ws.length cmd) (fun cmd' s' => ∃ us ws' rs' vs, ts = us ++ vs ∧
      Args us ws' rs' ∧ Rep mem cmd' ((Tree.exec (ws ++ ws')).wrap (rs ++ rs')) ∧
      Ahead mem es vs s') Panics s := by
  induction n generalizing ts s cmd ws rs with
  | zero => omega
  | succ n ih =>
    have hroom : ws.length < maxargs := by
      have hfits := (Tree.fits_wrap _ _).mp hrep.fits
      exact Nat.lt_of_le_sub_one (by decide) hfits
    -- the loop ends here: a null pointer behind the words
    have hdone : ∀ {s'}, Ahead mem es ts s' →
        wp (storeArg ws.length none none cmd) (fun cmd' s' => ∃ us ws' rs' vs, ts = us ++ vs ∧
          Args us ws' rs' ∧ Rep mem cmd' ((Tree.exec (ws ++ ws')).wrap (rs ++ rs')) ∧
          Ahead mem es vs s') Panics s' := by
      intro s' h'
      rw [storeArg, dif_pos hroom]
      refine ⟨[], [], [], ts, rfl, Args.nil, ?_, h'⟩
      rw [List.append_nil, List.append_nil]
      exact hrep.setNull hroom
    rw [parseargs]
    refine wp_bind_of (peek_rule h rfl) ?_
    rintro b s1 ⟨rfl, h1, -⟩
    split
    · exact hdone h1
    · cases ts with
      | nil =>
        refine wp_bind_of (gettoken_end h1) ?_
        rintro tok s2 ⟨hzero, h2⟩
        rw [if_pos hzero]
        exact hdone h2
      | cons t0 us =>
        refine wp_bind_of (gettoken_rule h1) ?_
        rintro tok s2 ⟨hcode, hspells, h2⟩
        rw [if_neg (by rw [hcode]; exact t0.code_ne_zero)]
        by_cases hword : tok.ret = 'a'.toUInt8
        · obtain ⟨w, rfl⟩ := Token.code_word (hcode.symm.trans hword)
          rw [if_neg (fun hne => hne hword), storeArg, dif_pos hroom, wp_bind, wp_pure]
          by_cases hmany : ws.length + 1 ≥ maxargs
          · rw [if_pos hmany]
            exact ⟨_, rfl⟩
          · rw [if_neg hmany]
            simp only [List.length_cons] at hn
            have hrep' := hrep.setArg (by omega) hspells
            refine wp_bind_of (parseredirs_sound h2 (by omega) hrep') ?_
            rintro cmd' s3 ⟨us', rs', vs, rfl, hredirs, hrep3, h3⟩
            have hlen : ws.length + 1 = (ws ++ [w]).length := by simp
            rw [← Tree.wrap_append] at hrep3
            rw [List.length_append] at hn
            rw [hlen]
            refine wp_mono (ih _ h3 (by omega) hrep3) ?_ fun _ he => he
            rintro cmd'' s4 ⟨us'', ws', rs'', vs', rfl, hargs, hrep4, h4⟩
            refine ⟨_, w :: ws', _, vs', ?_, Args.cons w hredirs hargs, ?_, h4⟩
            · simp
            · simpa using hrep4
        · rw [if_pos hword]
          exact ⟨_, rfl⟩

/-- `parseargs` consumes all words and redirections up to a symbol or the end. -/
theorem parseargs_complete (ws : List (List UInt8)) {us rest : List Token}
    {ws' : List (List UInt8)} {rs' : List Redir}
    (hargs : Args us ws' rs') (hstop : rest = [] ∨ starts ['|', ')', '&', ';'] rest = true)
    (h : Ahead mem es (us ++ rest) s) (hn : (us ++ rest).length < n)
    (hfits : (ws ++ ws').length < maxargs) (hrep : Rep mem cmd ((Tree.exec ws).wrap rs)) :
    wp (parseargs mem es n ws.length cmd) (fun cmd' s' =>
      Rep mem cmd' ((Tree.exec (ws ++ ws')).wrap (rs ++ rs')) ∧ Ahead mem es rest s')
      (fun _ => False) s := by
  induction hargs generalizing n s cmd ws rs with
  | nil =>
    obtain ⟨n, rfl⟩ : ∃ m, n = m + 1 := ⟨n - 1, by omega⟩
    rw [List.append_nil] at hfits
    have hdone : ∀ {s'}, Ahead mem es rest s' →
        wp (storeArg ws.length none none cmd) (fun cmd' s' =>
          Rep mem cmd' ((Tree.exec (ws ++ [])).wrap (rs ++ [])) ∧ Ahead mem es rest s')
          (fun _ => False) s' := by
      intro s' h'
      rw [storeArg, dif_pos hfits, List.append_nil, List.append_nil]
      exact ⟨hrep.setNull hfits, h'⟩
    rw [parseargs]
    refine wp_bind_of (peek_rule h rfl) ?_
    rintro b s1 ⟨rfl, h1, -⟩
    rw [List.nil_append] at h1 ⊢
    rcases hstop with rfl | hstop
    · rw [starts, if_neg (by simp)]
      refine wp_bind_of (gettoken_end h1) ?_
      rintro tok s2 ⟨hzero, h2⟩
      rw [if_pos hzero]
      exact hdone h2
    · rw [hstop, if_pos rfl]
      exact hdone h1
  | @cons ts us ws' rs₁ rs₂ w hredirs hargs ih =>
    obtain ⟨n, rfl⟩ : ∃ m, n = m + 1 := ⟨n - 1, by omega⟩
    rw [parseargs]
    refine wp_bind_of (peek_rule h rfl) ?_
    rintro b s1 ⟨rfl, h1, -⟩
    rw [List.cons_append, List.append_assoc] at h1
    rw [List.cons_append, List.append_assoc, starts, if_neg (by simp)]
    simp only [List.length_append, List.length_cons] at hfits hn
    refine wp_bind_of (gettoken_rule h1) ?_
    rintro tok s2 ⟨hcode, hspells, h2⟩
    rw [if_neg (by rw [hcode]; exact Token.code_ne_zero _), if_neg (fun hne => hne hcode),
      storeArg, dif_pos (by omega : ws.length < maxargs), wp_bind, wp_pure, if_neg (by omega)]
    have hrep' := hrep.setArg (by omega) hspells
    have hnext : starts ['<', '>'] (us ++ rest) = false := by
      cases hargs with
      | nil =>
        rcases hstop with rfl | hstop
        · rfl
        · exact starts_redir_of_ends hstop
      | cons _ _ _ => rfl
    refine wp_bind_of (parseredirs_complete hredirs hnext h2 ?_ hrep') ?_
    · simp only [List.length_append]
      omega
    · rintro cmd' s3 ⟨hrep3, h3⟩
      have hlen : ws.length + 1 = (ws ++ [w]).length := by simp
      rw [← Tree.wrap_append] at hrep3
      rw [hlen]
      refine wp_mono (ih _ h3 ?_ ?_ hrep3) ?_ fun _ he => he
      · simp only [List.length_append]
        omega
      · simp only [List.length_append, List.length_singleton]
        omega
      · rintro cmd'' s4 ⟨hrep4, h4⟩
        exact ⟨by simpa using hrep4, h4⟩

end Arguments

/-! ## Background commands -/

section Backs

variable {mem : Mem} {es s n : Nat} {ts : List Token} {cmd : Cmd} {t : Tree}

/-- What the loop over `&` consumes are ampersands, one for each background node. -/
theorem parsebacks_sound (h : Ahead mem es ts s) (hn : ts.length < n) (hrep : Rep mem cmd t) :
    wp (parsebacks mem es n cmd) (fun cmd' s' => ∃ k vs, ts = List.replicate k .amp ++ vs ∧
      Rep mem cmd' (t.backs k) ∧ Ahead mem es vs s') Panics s := by
  induction n generalizing ts s cmd t with
  | zero => omega
  | succ n ih =>
    rw [parsebacks]
    refine wp_bind_of (peek_rule h rfl) ?_
    rintro b s1 ⟨rfl, h1, -⟩
    split
    · rename_i hb
      obtain ⟨us, rfl⟩ := starts_symbol .amp rfl hb
      refine wp_bind_of (gettoken_rule h1) ?_
      rintro tok s2 ⟨-, -, h2⟩
      rw [List.length_cons] at hn
      refine wp_mono (ih h2 (by omega) (Rep.back hrep)) ?_ fun _ he => he
      rintro cmd' s' ⟨k, vs, rfl, hrep', h'⟩
      exact ⟨k + 1, vs, rfl, hrep', h'⟩
    · exact ⟨0, ts, rfl, hrep, h1⟩

/-- The loop over `&` consumes all ampersands. -/
theorem parsebacks_complete {k : Nat} {rest : List Token} (hstop : starts ['&'] rest = false)
    (h : Ahead mem es (List.replicate k .amp ++ rest) s)
    (hn : (List.replicate k Token.amp ++ rest).length < n) (hrep : Rep mem cmd t) :
    wp (parsebacks mem es n cmd) (fun cmd' s' => Rep mem cmd' (t.backs k) ∧ Ahead mem es rest s')
      (fun _ => False) s := by
  induction k generalizing n s cmd t with
  | zero =>
    obtain ⟨n, rfl⟩ : ∃ m, n = m + 1 := ⟨n - 1, by omega⟩
    rw [parsebacks]
    refine wp_bind_of (peek_rule h rfl) ?_
    rintro b s1 ⟨rfl, h1, -⟩
    rw [List.replicate_zero, List.nil_append] at h1 ⊢
    rw [hstop, if_neg (by simp)]
    exact ⟨hrep, h1⟩
  | succ k ih =>
    obtain ⟨n, rfl⟩ : ∃ m, n = m + 1 := ⟨n - 1, by omega⟩
    rw [parsebacks]
    refine wp_bind_of (peek_rule h rfl) ?_
    rintro b s1 ⟨rfl, h1, -⟩
    rw [List.replicate_succ, List.cons_append] at h1 hn ⊢
    rw [starts_self rfl, if_pos rfl]
    refine wp_bind_of (gettoken_rule h1) ?_
    rintro tok s2 ⟨-, -, h2⟩
    rw [List.length_cons] at hn
    exact ih h2 (by omega) (Rep.back hrep)

end Backs

/-! ## Soundness -/

/-- The parser took the tokens of a phrase and returned its tree. -/
def Parsed (mem : Mem) (es : Nat) (p : Phrase) (ts : List Token) (cmd : Cmd) (s : Nat) : Prop :=
  ∃ us t vs, ts = us ++ vs ∧ Derives p us t ∧ Rep mem cmd t ∧ Ahead mem es vs s

section Sound

variable {mem : Mem} {es n : Nat}

/-- With enough calls each function returns a phrase or panics.  The number of calls is counted
by the tokens ahead; without taking a token there are at most four calls below each other. -/
structure Sound (mem : Mem) (es n : Nat) : Prop where
  line : ∀ {ts s}, Ahead mem es ts s → 4 * ts.length + 4 ≤ n →
    wp (parseline mem es n) (Parsed mem es .line ts) Panics s
  pipe : ∀ {ts s}, Ahead mem es ts s → 4 * ts.length + 3 ≤ n →
    wp (parsepipe mem es n) (Parsed mem es .pipe ts) Panics s
  exec : ∀ {ts s}, Ahead mem es ts s → 4 * ts.length + 2 ≤ n →
    wp (parseexec mem es n) (Parsed mem es .exec ts) Panics s
  block : ∀ {ts s}, Ahead mem es (.lpar :: ts) s → 4 * ts.length + 5 ≤ n →
    wp (parseblock mem es n) (Parsed mem es .exec (.lpar :: ts)) Panics s

/-- `parseline` parses a pipeline, its ampersands and the list behind a semicolon. -/
theorem Sound.parseline (ih : Sound mem es n) {ts : List Token} {s : Nat}
    (h : Ahead mem es ts s) (hn : 4 * ts.length + 4 ≤ n + 1) :
    wp (parseline mem es (n + 1)) (Parsed mem es .line ts) Panics s := by
  rw [Shell.parseline]
  refine wp_bind_of (ih.pipe h (by omega)) ?_
  rintro cmd s1 ⟨us, t, vs, rfl, hpipe, hrep, h1⟩
  rw [List.length_append] at hn
  refine wp_bind_of (parsebacks_sound h1 (by omega) hrep) ?_
  rintro cmd' s2 ⟨k, ws, rfl, hrep', h2⟩
  refine wp_bind_of (peek_rule h2 rfl) ?_
  rintro b s3 ⟨rfl, h3, -⟩
  split
  · rename_i hb
    obtain ⟨ws, rfl⟩ := starts_symbol .semi rfl hb
    refine wp_bind_of (gettoken_rule h3) ?_
    rintro tok s4 ⟨-, -, h4⟩
    rw [List.length_append, List.length_cons] at hn
    refine wp_bind_of (ih.line h4 (by omega)) ?_
    rintro right s5 ⟨us', u, vs, rfl, hline, hright, h5⟩
    refine ⟨_, _, vs, ?_, Derives.list k hpipe hline, Rep.list hrep' hright, h5⟩
    simp
  · exact ⟨_, _, ws, by simp, Derives.line k hpipe, hrep', h3⟩

/-- `parsepipe` parses a command and the pipeline behind a bar. -/
theorem Sound.parsepipe (ih : Sound mem es n) {ts : List Token} {s : Nat}
    (h : Ahead mem es ts s) (hn : 4 * ts.length + 3 ≤ n + 1) :
    wp (parsepipe mem es (n + 1)) (Parsed mem es .pipe ts) Panics s := by
  rw [Shell.parsepipe]
  refine wp_bind_of (ih.exec h (by omega)) ?_
  rintro cmd s1 ⟨us, t, vs, rfl, hexec, hrep, h1⟩
  rw [List.length_append] at hn
  refine wp_bind_of (peek_rule h1 rfl) ?_
  rintro b s2 ⟨rfl, h2, -⟩
  split
  · rename_i hb
    obtain ⟨vs, rfl⟩ := starts_symbol .bar rfl hb
    refine wp_bind_of (gettoken_rule h2) ?_
    rintro tok s3 ⟨-, -, h3⟩
    rw [List.length_cons] at hn
    refine wp_bind_of (ih.pipe h3 (by omega)) ?_
    rintro right s4 ⟨us', u, vs, rfl, hpipe, hright, h4⟩
    refine ⟨_, _, vs, ?_, Derives.pipe hexec hpipe, Rep.pipe hrep hright, h4⟩
    simp
  · exact ⟨us, t, vs, rfl, Derives.single hexec, hrep, h2⟩

/-- `parseexec` parses a block or a simple command. -/
theorem Sound.parseexec (ih : Sound mem es n) {ts : List Token} {s : Nat}
    (h : Ahead mem es ts s) (hn : 4 * ts.length + 2 ≤ n + 1) :
    wp (parseexec mem es (n + 1)) (Parsed mem es .exec ts) Panics s := by
  rw [Shell.parseexec]
  refine wp_bind_of (peek_rule h rfl) ?_
  rintro b s1 ⟨rfl, h1, -⟩
  split
  · rename_i hb
    obtain ⟨us, rfl⟩ := starts_symbol .lpar rfl hb
    rw [List.length_cons] at hn
    exact ih.block h1 (by omega)
  · refine wp_bind_of (parseredirs_sound h1 (by omega) rep_execcmd) ?_
    rintro cmd s2 ⟨us, rs, vs, rfl, hredirs, hrep, h2⟩
    rw [List.length_append] at hn
    refine wp_mono (parseargs_sound [] h2 (by omega) hrep) ?_ fun _ he => he
    rintro cmd' s3 ⟨us', ws, rs', vs', rfl, hargs, hrep', h3⟩
    exact ⟨us ++ us', _, vs', by simp, Derives.simple hredirs hargs, hrep', h3⟩

/-- `parseblock` parses a line in parentheses and the redirections behind it. -/
theorem Sound.parseblock (ih : Sound mem es n) {ts : List Token} {s : Nat}
    (h : Ahead mem es (.lpar :: ts) s) (hn : 4 * ts.length + 5 ≤ n + 1) :
    wp (parseblock mem es (n + 1)) (Parsed mem es .exec (.lpar :: ts)) Panics s := by
  rw [Shell.parseblock]
  refine wp_bind_of (peek_rule h rfl) ?_
  rintro b s1 ⟨rfl, h1, -⟩
  rw [starts_self rfl, if_neg (by simp)]
  refine wp_bind_of (gettoken_rule h1) ?_
  rintro tok s2 ⟨-, -, h2⟩
  refine wp_bind_of (ih.line h2 (by omega)) ?_
  rintro cmd s3 ⟨us, t, vs, rfl, hline, hrep, h3⟩
  refine wp_bind_of (peek_rule h3 rfl) ?_
  rintro b s4 ⟨rfl, h4, -⟩
  by_cases hb : starts [')'] vs = true
  · rw [hb, if_neg (by simp)]
    obtain ⟨vs, rfl⟩ := starts_symbol .rpar rfl hb
    refine wp_bind_of (gettoken_rule h4) ?_
    rintro tok s5 ⟨-, -, h5⟩
    rw [List.length_append, List.length_cons] at hn
    refine wp_mono (parseredirs_sound h5 (by omega) hrep) ?_ fun _ he => he
    rintro cmd' s6 ⟨us', rs, ws, rfl, hredirs, hrep', h6⟩
    exact ⟨_, _, ws, by simp, Derives.block hline hredirs, hrep', h6⟩
  · rw [Bool.eq_false_iff.mpr hb, if_pos (by simp)]
    exact ⟨_, rfl⟩

/-- What the parser returns. -/
theorem parse_sound (n : Nat) : Sound mem es n := by
  induction n with
  | zero => constructor <;> (intros; omega)
  | succ n ih => exact ⟨ih.parseline, ih.parsepipe, ih.parseexec, ih.parseblock⟩

end Sound

end Xv6.Shell
