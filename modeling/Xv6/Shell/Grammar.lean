import Xv6.Shell.Parser

/-!
# Shell - The grammar of command lines

What the parser is for, stated without pointers: the tokens of a text, the trees of commands with
their words as texts, and which token sequences a tree stands for.

  line  = pipe '&'* [';' line]
  pipe  = exec ['|' pipe]
  exec  = '(' line ')' redir*  or  redir* (word redir*)*
  redir = ('<' or '>' or '>>') word

Main definitions:

- Definition {lit}`lex`: the tokens of a text.
- Definition {lit}`Derives`: the grammar.
- Definition {lit}`Shows`: a command in memory reads as a tree.
-/

namespace Xv6.Shell

/-! ## Tokens of a text -/

/-- A token: a word or a symbol. -/
inductive Token
  | word (text : List UInt8)
  | bar
  | lpar
  | rpar
  | semi
  | amp
  | less
  | great
  | dgreat
deriving DecidableEq

/-- The characters of words. -/
def isWord (c : UInt8) : Bool :=
  c != 0 && !isSpace c && !isSymbol c

/-- The token of a symbol other than {lit}`>`. -/
def symbolToken (c : UInt8) : Option Token :=
  if c = '|'.toUInt8 then some .bar
  else if c = '('.toUInt8 then some .lpar
  else if c = ')'.toUInt8 then some .rpar
  else if c = ';'.toUInt8 then some .semi
  else if c = '&'.toUInt8 then some .amp
  else if c = '<'.toUInt8 then some .less
  else none

/-- The first token of a text that does not start with whitespace, and the text behind it. -/
def lexOne (c : UInt8) (cs : List UInt8) : Token × List UInt8 :=
  if c = '>'.toUInt8 then
    if cs.head? = some '>'.toUInt8 then (.dgreat, cs.tail) else (.great, cs)
  else
    match symbolToken c with
    | some t => (t, cs)
    | none => (.word (c :: cs.takeWhile isWord), cs.dropWhile isWord)

theorem lexOne_length (c : UInt8) (cs : List UInt8) : (lexOne c cs).2.length ≤ cs.length := by
  unfold lexOne
  split
  · split
    · simp
    · exact le_refl _
  · split
    · exact le_refl _
    · exact (List.dropWhile_suffix _).length_le

/-- The tokens of a text. -/
def lex (text : List UInt8) : List Token :=
  match h : text.dropWhile isSpace with
  | [] => []
  | c :: cs =>
    have : (lexOne c cs).2.length < text.length := by
      have hlen := (List.dropWhile_suffix isSpace (l := text)).length_le
      have hone := lexOne_length c cs
      rw [h, List.length_cons] at hlen
      omega
    (lexOne c cs).1 :: lex (lexOne c cs).2
termination_by text.length

/-! ## Trees -/

/-- The tree of a command. -/
inductive Tree
  | exec (words : List (List UInt8))
  | redir (cmd : Tree) (file : List UInt8) (mode fd : Nat)
  | pipe (left right : Tree)
  | list (left right : Tree)
  | back (cmd : Tree)

namespace Tree

/-- Every simple command has room for its words and the null pointer behind them. -/
def Fits : Tree → Prop
  | exec words => words.length ≤ maxargs - 1
  | redir cmd _ _ _ => cmd.Fits
  | pipe left right => left.Fits ∧ right.Fits
  | list left right => left.Fits ∧ right.Fits
  | back cmd => cmd.Fits

/-- A command in the background, `k` times. -/
def backs (t : Tree) : Nat → Tree
  | 0 => t
  | k + 1 => (back t).backs k

end Tree

/-- The operators of redirections. -/
inductive RedirOp
  | input
  | output
  | append

namespace RedirOp

def token : RedirOp → Token
  | input => .less
  | output => .great
  | append => .dgreat

def mode : RedirOp → Nat
  | input => oRdonly
  | _ => oWronly ||| oCreate

def fd : RedirOp → Nat
  | input => 0
  | _ => 1

end RedirOp

/-- A redirection. -/
structure Redir where
  op : RedirOp
  file : List UInt8

/-- A command with redirections; later ones are outside earlier ones. -/
def Tree.wrap (t : Tree) (rs : List Redir) : Tree :=
  rs.foldl (fun t r => .redir t r.file r.op.mode r.op.fd) t

/-! ## Grammar -/

/-- {lit}`redir*`. -/
inductive Redirs : List Token → List Redir → Prop
  | nil : Redirs [] []
  | cons {ts : List Token} {rs : List Redir} (op : RedirOp) (file : List UInt8) :
      Redirs ts rs → Redirs (op.token :: .word file :: ts) (⟨op, file⟩ :: rs)

/-- {lit}`(word redir*)*`. -/
inductive Args : List Token → List (List UInt8) → List Redir → Prop
  | nil : Args [] [] []
  | cons {ts us : List Token} {ws : List (List UInt8)} {rs rs' : List Redir} (w : List UInt8) :
      Redirs ts rs → Args us ws rs' → Args (.word w :: (ts ++ us)) (w :: ws) (rs ++ rs')

/-- The nonterminals with trees. -/
inductive Phrase
  | line
  | pipe
  | exec

/-- The grammar, with the tree of each phrase. -/
inductive Derives : Phrase → List Token → Tree → Prop
  | line {ts : List Token} {t : Tree} (k : Nat) :
      Derives .pipe ts t → Derives .line (ts ++ List.replicate k .amp) (t.backs k)
  | list {ts us : List Token} {t u : Tree} (k : Nat) :
      Derives .pipe ts t → Derives .line us u →
      Derives .line (ts ++ List.replicate k .amp ++ .semi :: us) (.list (t.backs k) u)
  | single {ts : List Token} {t : Tree} : Derives .exec ts t → Derives .pipe ts t
  | pipe {ts us : List Token} {t u : Tree} :
      Derives .exec ts t → Derives .pipe us u → Derives .pipe (ts ++ .bar :: us) (.pipe t u)
  | block {ts us : List Token} {t : Tree} {rs : List Redir} :
      Derives .line ts t → Redirs us rs → Derives .exec (.lpar :: (ts ++ .rpar :: us)) (t.wrap rs)
  | simple {ts us : List Token} {ws : List (List UInt8)} {rs rs' : List Redir} :
      Redirs ts rs → Args us ws rs' →
      Derives .exec (ts ++ us) ((Tree.exec ws).wrap (rs ++ rs'))

/-! ## Commands in memory -/

/-- The string at `p` reads as `text`. -/
def ReadsAs (mem : Mem) (p : Nat) (text : List UInt8) : Prop :=
  (List.range' p text.length).map mem = text ∧ 0 ∉ text ∧ mem (p + text.length) = 0

/-- A command in memory reads as a tree: every string is the text of its token, and the words
of a simple command end with a null pointer inside {lit}`argv`. -/
inductive Shows (mem : Mem) : Cmd → Tree → Prop
  | exec {argv eargv : Fin maxargs → Option Nat} {words : List (List UInt8)}
      (room : words.length < maxargs) (null : argv ⟨words.length, room⟩ = none)
      (words_eq : ∀ (i : Fin maxargs) (w : List UInt8), words[i.val]? = some w →
        ∃ p, argv i = some p ∧ ReadsAs mem p w) :
      Shows mem (.exec argv eargv) (.exec words)
  | redir {cmd : Cmd} {t : Tree} {p efile mode fd : Nat} {file : List UInt8} :
      Shows mem cmd t → ReadsAs mem p file →
      Shows mem (.redir cmd p efile mode fd) (.redir t file mode fd)
  | pipe {l r : Cmd} {t u : Tree} :
      Shows mem l t → Shows mem r u → Shows mem (.pipe l r) (.pipe t u)
  | list {l r : Cmd} {t u : Tree} :
      Shows mem l t → Shows mem r u → Shows mem (.list l r) (.list t u)
  | back {cmd : Cmd} {t : Tree} : Shows mem cmd t → Shows mem (.back cmd) (.back t)

end Xv6.Shell
