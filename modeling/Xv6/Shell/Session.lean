import Xv6.Shell.Correct
import Xv6.Shell.Processes

/-!
# Shell - From a line to its processes

The descriptors of the processes that run a command depend on the descriptors that the command
redirects, and the grammar has redirections of the standard input and output only.

Main results:

- Theorem {lit}`Derives.redirects`: the descriptors that a line redirects.
- Theorem {lit}`line_keeps_descriptors`: what the commands of a line have open.
-/

namespace Xv6.Shell

open Foundations

/-- Only the standard input and output are redirected. -/
def Tree.Redirects : Tree → Prop
  | .exec _ => True
  | .redir t _ _ fd => fd < 2 ∧ t.Redirects
  | .pipe left right => left.Redirects ∧ right.Redirects
  | .list left right => left.Redirects ∧ right.Redirects
  | .back t => t.Redirects

theorem Tree.Redirects.wrap {t : Tree} (h : t.Redirects) (rs : List Redir) :
    (t.wrap rs).Redirects := by
  induction rs generalizing t with
  | nil => exact h
  | cons r rs ih =>
    obtain ⟨op, file⟩ := r
    have hfd : op.fd < 2 := by
      cases op with
      | input | output | append => decide
    exact ih ⟨hfd, h⟩

theorem Tree.Redirects.backs {t : Tree} (h : t.Redirects) (k : Nat) : (t.backs k).Redirects := by
  induction k generalizing t with
  | zero => exact h
  | succ k ih => exact ih h

/-- All redirections of the grammar are of descriptors 0 and 1. -/
theorem Derives.redirects {ph : Phrase} {ts : List Token} {t : Tree} (h : Derives ph ts t) :
    t.Redirects := by
  induction h with
  | line k _ ih => exact ih.backs k
  | list k _ _ ihleft ihright => exact ⟨ihleft.backs k, ihright⟩
  | single _ ih => exact ih
  | pipe _ _ ihleft ihright => exact ⟨ihleft, ihright⟩
  | block _ _ ih => exact ih.wrap _
  | simple _ _ => exact Tree.Redirects.wrap (t := .exec _) trivial _

theorem Rep.redirects {mem : Mem} {cmd : Cmd} {t : Tree} (h : Rep mem cmd t) (ht : t.Redirects) :
    cmd.Redirects := by
  induction h with
  | exec _ _ _ => trivial
  | redir _ _ ih => exact ⟨ht.1, ih ht.2⟩
  | pipe _ _ ihleft ihright | list _ _ ihleft ihright => exact ⟨ihleft ht.1, ihright ht.2⟩
  | back _ ih => exact ih ht

/-- In every interleaving of the processes that the shell makes for a line that it can parse, a
simple command starts with the three standard descriptors open, and with no others. -/
theorem line_keeps_descriptors (str : CString) (extra : Nat) (cmd : Cmd) (mem : Mem)
    (hparse : parsecmd (4 * strlen str + 4 + extra) str = .ok (cmd, mem)) (as : List Act) (s : Sys)
    (hrun : runFrom shStep (shInit cmd) as = some s) (p : Nat) (x : Proc)
    (argv eargv : Fin maxargs → Option Nat) (hx : s.procs p = some x)
    (hat : x.point = .run (.exec argv eargv)) (fd : Fd) :
    (x.fds fd).isSome = true ↔ fd.val < 3 := by
  have hsound := parseWhole_sound str (Nat.le_add_right (4 * strlen str + 4) extra)
  cases hres : parseWhole str (4 * strlen str + 4 + extra) str.addr with
  | error e =>
    rw [parsecmd_of_error str hres] at hparse
    cases hparse
  | ok r =>
    obtain ⟨cmd', s'⟩ := r
    rw [wp_of_ok hres] at hsound
    obtain ⟨t, ht, hrep⟩ := hsound
    obtain ⟨_, mem', hnul, -⟩ := wp_never.mp (nulterminate_spec str.mem hrep)
    rw [parsecmd_of_ok str hres hnul] at hparse
    cases hparse
    have hinv : SysInv cmd s := runFrom_invariant
      (fun s a t hs hst => hs.step (hrep.redirects ht.redirects) hst) (shInit_inv cmd) hrun
    have hpoint := (hinv.procs p x hx).point
    rw [hat] at hpoint
    exact hpoint.2.opens fd

/-- The line `a|b`. -/
def pipeLine : CString where
  mem i := if i = 0 then 97 else if i = 1 then 124 else if i = 2 then 98 else 0
  addr := 0
  len := 3
  nonzero := by decide
  zero := rfl

/-- A pipe up to where its left command runs. -/
def leftUp : List Act :=
  [.step 0 true, .step 0 true, .step 0 true, .step 1 true, .step 1 true, .step 1 true,
    .step 1 true, .step 1 true]

/-- The process of the left command of the line has the write end of the pipe as its standard
output, and nothing else that the shell did not have. -/
theorem line_keeps_descriptors_pipeLine :
    ∃ argv eargv right mem s x,
      parsecmd (4 * strlen pipeLine + 4 + 0) pipeLine = .ok (.pipe (.exec argv eargv) right, mem) ∧
      runFrom shStep (shInit (.pipe (.exec argv eargv) right)) leftUp = some s ∧
      s.procs 1 = some x ∧ x.point = .run (.exec argv eargv) ∧
      x.fds ⟨1, one_lt_nofile⟩ = some (.writeEnd 0) ∧
      ∀ fd : Fd, (x.fds fd).isSome = true ↔ fd.val < 3 := by
  have hlex : lex pipeLine.text = [.word [97], .bar, .word [98]] := by
    rw [lex_eq]
    change Token.word [97] :: lex [124, 98] = _
    rw [lex_eq]
    change Token.word [97] :: Token.bar :: lex [98] = _
    rw [lex_eq]
    change Token.word [97] :: Token.bar :: Token.word [98] :: lex [] = _
    rw [lex_eq]
    rfl
  have hline : Derives .line (lex pipeLine.text) (.pipe (.exec [[97]]) (.exec [[98]])) := by
    rw [hlex]
    exact Derives.line 0 (Derives.pipe
      (Derives.simple Redirs.nil (Args.cons [97] Redirs.nil Args.nil))
      (Derives.single (Derives.simple Redirs.nil (Args.cons [98] Redirs.nil Args.nil))))
  obtain ⟨cmd, s, hok, hrep⟩ := wp_never.mp (parseWhole_complete pipeLine (Nat.le_add_right _ 0)
    hline (show 1 ≤ maxargs - 1 ∧ 1 ≤ maxargs - 1 by decide))
  obtain ⟨_, mem, hnul, -⟩ := wp_never.mp (nulterminate_spec pipeLine.mem hrep)
  have hparse := parsecmd_of_ok pipeLine hok hnul
  cases hrep with
  | pipe hleft hright =>
    cases hleft with
    | exec _ _ _ =>
      exact ⟨_, _, _, mem, _, _, hparse, rfl, rfl, rfl, rfl,
        line_keeps_descriptors pipeLine 0 _ mem hparse leftUp _ rfl 1 _ _ _ rfl rfl⟩

end Xv6.Shell
