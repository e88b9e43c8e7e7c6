import Xv6.File.Table
import Xv6.Shell.Run

/-!
# Shell - Descriptors of one process

The descriptors of a process are known at each point of `runcmd`: three of them while no pipe
is being set up, and the ends of the new pipe behind them while one is.

Main results:

- Theorem {lit}`fdalloc_ofile`: `fdalloc` here and on the file table.
- Theorem {lit}`OpenPipe.closed`: the descriptors after a pipe is closed.
- Theorem {lit}`setup_result`: the descriptors after the calls for one side of a pipe.
-/

namespace Xv6.Shell

open Foundations

/-! ## Redirections -/

/-- Only the standard input and output are redirected. -/
def Cmd.Redirects : Cmd → Prop
  | .exec _ _ => True
  | .redir cmd _ _ _ fd => fd < 2 ∧ cmd.Redirects
  | .pipe left right => left.Redirects ∧ right.Redirects
  | .list left right => left.Redirects ∧ right.Redirects
  | .back cmd => cmd.Redirects

/-- The commands that running a command leads to. -/
inductive Cmd.Part (root : Cmd) : Cmd → Prop
  | root : Part root root
  | redir {cmd : Cmd} {file efile mode fd : Nat} :
      Part root (.redir cmd file efile mode fd) → Part root cmd
  | pipe {left right : Cmd} (k : Side) :
      Part root (.pipe left right) → Part root (k.pick left right)
  | list {left right : Cmd} (k : Side) :
      Part root (.list left right) → Part root (k.pick left right)
  | back {cmd : Cmd} : Part root (.back cmd) → Part root cmd

theorem Cmd.Part.redirects {root cmd : Cmd} (h : root.Part cmd) (hroot : root.Redirects) :
    cmd.Redirects := by
  induction h with
  | root => exact hroot
  | redir _ ih => exact ih.2
  | pipe k _ ih
  | list k _ ih =>
    cases k with
    | left => exact ih.1
    | right => exact ih.2
  | back _ ih => exact ih

/-! ## Tables -/

/-- Exactly the descriptors below `k` are open. -/
def Opens (t : Fds) (k : Nat) : Prop :=
  ∀ fd, (t fd).isSome = true ↔ fd.val < k

section Tables

variable {t : Fds} {o : Object} {k : Nat}

/-- It is the `fdalloc` of the file table, seen through what the file objects stand for. -/
theorem fdalloc_ofile (s : Ftable.Sys) (p : Ftable.ProcId) (f : Ftable.FileId)
    (object : Ftable.FileId → Object) :
    fdalloc (fun fd => (s.ofile (p, fd)).map object) (object f) =
      (Ftable.fdalloc s p f).map fun x => (x.1, fun fd => (x.2.ofile (p, fd)).map object) := by
  unfold fdalloc Ftable.fdalloc
  simp only [Option.isNone_map, Option.map_map]
  congr 1
  funext fd
  refine Prod.ext rfl (funext fun i => ?_)
  by_cases hi : i = fd <;> simp [hi, Ftable.Sys.setFd]

/-- The lowest free descriptor is taken. -/
theorem fdalloc_eq {fd : Fd} (hfree : t fd = none) (hlow : ∀ i < fd, (t i).isSome = true) :
    fdalloc t o = some (fd, Function.update t fd (some o)) := by
  have hfind : (List.finRange nofile).find? (fun i => (t i).isNone) = some fd := by
    refine List.find?_eq_some_iff_getElem.mpr ⟨by rw [hfree]; rfl, fd.val, ?_, ?_, ?_⟩
    · rw [List.length_finRange]
      exact fd.isLt
    · rw [List.getElem_finRange]
      rfl
    · intro j hj
      rw [List.getElem_finRange, Bool.not_eq_true', Option.isNone_eq_false_iff]
      exact hlow _ hj
  unfold fdalloc
  rw [hfind]
  rfl

theorem Opens.fdalloc (h : Opens t k) (hk : k < nofile) :
    fdalloc t o = some (⟨k, hk⟩, Function.update t ⟨k, hk⟩ (some o)) := by
  refine fdalloc_eq ?_ ?_
  · refine Option.not_isSome_iff_eq_none.mp ?_
    rw [h]
    exact Nat.lt_irrefl k
  · intro i hi
    exact (h i).mpr hi

theorem Opens.update (h : Opens t k) (hk : k < nofile) :
    Opens (Function.update t ⟨k, hk⟩ (some o)) (k + 1) := by
  intro fd
  by_cases hfd : fd = ⟨k, hk⟩
  · rw [hfd, Function.update_self]
    simp
  · rw [Function.update_of_ne hfd, h fd]
    have hne : fd.val ≠ k := fun hbad => hfd (Fin.ext hbad)
    omega

theorem fdalloc_subset {t' : Fds} {o' : Object} {i fd : Fd} (h : fdalloc t o' = some (i, t'))
    (ho : t' fd = some o) : t fd = some o ∨ o = o' := by
  obtain ⟨j, _, hj⟩ := Option.map_eq_some_iff.mp h
  cases hj
  by_cases hfd : fd = i
  · rw [hfd, Function.update_self, Option.some_inj] at ho
    exact Or.inr ho.symm
  · rw [Function.update_of_ne hfd] at ho
    exact Or.inl ho

/-- A call does not conjure up what was not open. -/
theorem Op.apply_subset {op : Op} {fd : Fd} (h : op.apply t fd = some o) : ∃ i, t i = some o := by
  cases op with
  | close c =>
    unfold Op.apply at h
    dsimp only at h
    split at h
    · cases h
    · exact ⟨fd, h⟩
  | dup c =>
    unfold Op.apply at h
    dsimp only at h
    by_cases hc : c < nofile
    · rw [dif_pos hc] at h
      cases hopen : t ⟨c, hc⟩ with
      | none =>
        rw [hopen] at h
        exact ⟨fd, h⟩
      | some o' =>
        rw [hopen] at h
        dsimp only at h
        cases halloc : Shell.fdalloc t o' with
        | none =>
          rw [halloc] at h
          exact ⟨fd, h⟩
        | some r =>
          rw [halloc] at h
          rcases fdalloc_subset halloc h with hold | rfl
          · exact ⟨fd, hold⟩
          · exact ⟨_, hopen⟩
    · rw [dif_neg hc] at h
      exact ⟨fd, h⟩

theorem foldl_apply_subset {ops : List Op} {fd : Fd} (h : ops.foldl Op.apply t fd = some o) :
    ∃ i, t i = some o := by
  induction ops generalizing t fd with
  | nil => exact ⟨fd, h⟩
  | cons op ops ih =>
    obtain ⟨i, hi⟩ := ih h
    exact Op.apply_subset hi

end Tables

/-! ## The invariant -/

/-- What a process on these sides may hold when no pipe is being set up. -/
def Entitled (s : Sys) (side : Nat → Option Side) : Object → Prop
  | .readEnd n => n < s.pipes ∧ (s.nodes n = none ∨ side n = some .right)
  | .writeEnd n => n < s.pipes ∧ (s.nodes n = none ∨ side n = some .left)
  | _ => True

/-- The standard descriptors are open. -/
structure Clean (s : Sys) (side : Nat → Option Side) (t : Fds) : Prop where
  opens : Opens t 3
  entitled : ∀ fd o, t fd = some o → Entitled s side o

/-- The standard descriptors and the pipe `n` are open. -/
structure OpenPipe (s : Sys) (side : Nat → Option Side) (n : Nat) (t : Fds) : Prop where
  opens : Opens t 5
  read : t ⟨3, by decide⟩ = some (.readEnd n)
  write : t ⟨4, by decide⟩ = some (.writeEnd n)
  entitled : ∀ fd o, fd.val < 3 → t fd = some o → Entitled s side o

/-- What is known of process `p` at a point when the shell runs `root`. -/
def PointInv (root : Cmd) (s : Sys) (p : Nat) (t : Fds) (side : Nat → Option Side) : Point → Prop
  | .run cmd => root.Part cmd ∧ Clean s side t
  | .opening cmd => root.Part cmd ∧ ∃ t' fd, fd < 3 ∧ Clean s side t' ∧ t = (Op.close fd).apply t'
  | .listWait cmd => root.Part cmd ∧ Clean s side t
  | .forkLeft n p0 p1 left right => (p0 = 3 ∧ p1 = 4) ∧ side n = none ∧
      s.nodes n = some ⟨p, Side.pick left right, fun _ => none⟩ ∧ OpenPipe s side n t
  | .forkRight n p0 p1 right => (p0 = 3 ∧ p1 = 4) ∧ side n = none ∧
      (∃ node, s.nodes n = some node ∧ node.maker = p ∧ node.cmd .right = right ∧
        node.child .right = none) ∧ OpenPipe s side n t
  | .setup k n ops cmd => side n = some k ∧
      (∃ node, s.nodes n = some node ∧ node.cmd k = cmd ∧ node.child k = some p) ∧
      ∃ done t', done ++ ops = setupOps 3 4 k ∧ OpenPipe s side n t' ∧ t = done.foldl Op.apply t'
  | .closing n ops =>
    ∃ done t', done ++ ops = [.close 3, .close 4] ∧ OpenPipe s side n t' ∧
      t = done.foldl Op.apply t'
  | .waiting _ => Clean s side t
  | .exiting => Clean s side t
  | .program => ∀ fd o, t fd = some o → Entitled s side o
  | .zombie => ∀ fd, t fd = none

/-- What is known of a process. -/
structure ProcInv (root : Cmd) (s : Sys) (p : Nat) (x : Proc) : Prop where
  point : PointInv root s p x.fds x.side x.point
  later : ∀ n, s.pipes ≤ n → x.side n = none

/-- What is known of all processes. -/
structure SysInv (root : Cmd) (s : Sys) : Prop where
  procs : ∀ p x, s.procs p = some x → ProcInv root s p x
  unborn : ∀ p, s.nextpid ≤ p → s.procs p = none
  nodes : ∀ n node, s.nodes n = some node →
    n < s.pipes ∧ root.Part (.pipe (node.cmd .left) (node.cmd .right))

section Setup

variable {s : Sys} {side : Nat → Option Side} {n : Nat} {t : Fds}

/-- Closing the descriptors of a pipe. -/
theorem OpenPipe.closed (h : OpenPipe s side n t) :
    Clean s side ([Op.close 3, Op.close 4].foldl Op.apply t) := by
  have htable : ∀ fd, [Op.close 3, Op.close 4].foldl Op.apply t fd =
      if fd.val < 3 then t fd else none := by
    intro fd
    have hfd := h.opens fd
    simp only [List.foldl_cons, List.foldl_nil, Op.apply]
    by_cases hlow : fd.val < 3
    · rw [if_pos hlow, if_neg (by omega), if_neg (by omega)]
    · rw [if_neg hlow]
      by_cases hfour : fd.val = 4
      · rw [if_pos hfour]
      · rw [if_neg hfour]
        by_cases hthree : fd.val = 3
        · rw [if_pos hthree]
        · rw [if_neg hthree, ← Option.not_isSome_iff_eq_none, hfd]
          omega
  constructor
  · intro fd
    have hfd := h.opens fd
    rw [htable]
    split
    · rw [hfd]
      omega
    · simpa using ‹¬fd.val < 3›
  · intro fd o ho
    rw [htable] at ho
    split at ho
    · exact h.entitled fd o ‹_› ho
    · cases ho

/-- The standard descriptor that a side replaces. -/
def Side.std : Side → Fd
  | .left => ⟨1, one_lt_nofile⟩
  | .right => ⟨0, nofile_pos⟩

/-- The descriptor that a side copies there. -/
def Side.fd : Side → Fd
  | .left => ⟨4, by decide⟩
  | .right => ⟨3, by decide⟩

/-- The end of the pipe that a side keeps. -/
def Side.pipeEnd (n : Nat) : Side → Object
  | .left => .writeEnd n
  | .right => .readEnd n

theorem setupOps_eq (k : Side) :
    setupOps 3 4 k = [.close k.std, .dup k.fd, .close 3, .close 4] := by
  cases k with
  | left => rfl
  | right => rfl

theorem OpenPipe.end_eq (h : OpenPipe s side n t) (k : Side) : t k.fd = some (k.pipeEnd n) := by
  cases k with
  | left => exact h.write
  | right => exact h.read

/-- A side closes its standard descriptor and gets its end of the pipe in its place. -/
theorem OpenPipe.replaced (h : OpenPipe s side n t) (k : Side) :
    [Op.close k.std, Op.dup k.fd].foldl Op.apply t =
      Function.update t k.std (some (k.pipeEnd n)) := by
  have hclose : (Op.close k.std).apply t = Function.update t k.std none := by
    funext fd
    unfold Op.apply
    by_cases hfd : fd = k.std
    · rw [hfd, Function.update_self]
      exact if_pos rfl
    · rw [Function.update_of_ne hfd]
      exact if_neg fun hbad => hfd (Fin.ext hbad)
  have hne : k.fd ≠ k.std := by
    cases k with
    | left => decide
    | right => decide
  have hend : Function.update t k.std none k.fd = some (k.pipeEnd n) := by
    rw [Function.update_of_ne hne, h.end_eq]
  have hlow : ∀ i < k.std, (Function.update t k.std none i).isSome = true := by
    intro i hi
    rw [Function.update_of_ne (Fin.ne_of_lt hi), h.opens]
    have hstd : k.std.val < 2 := by
      cases k with
      | left => decide
      | right => decide
    have hlt : i.val < k.std.val := hi
    omega
  rw [List.foldl_cons, hclose, List.foldl_cons, List.foldl_nil]
  unfold Op.apply
  dsimp only
  rw [dif_pos k.fd.isLt, Fin.eta, hend]
  dsimp only
  rw [fdalloc_eq (Function.update_self ..) hlow]
  exact Function.update_idem ..

/-- The descriptors after all calls for one side: the standard ones, of which one is the end of
the pipe. -/
theorem setup_result (h : OpenPipe s side n t) {k : Side} (hside : side n = some k)
    (hn : n < s.pipes) :
    Clean s side ((setupOps 3 4 k).foldl Op.apply t) ∧
      (setupOps 3 4 k).foldl Op.apply t k.std = some (k.pipeEnd n) := by
  have hfd : ∀ i : Fd, i ≠ k.std → Function.update t k.std (some (k.pipeEnd n)) i = t i :=
    fun i hi => Function.update_of_ne hi ..
  have hstd : k.std.val < 2 := by
    cases k with
    | left => decide
    | right => decide
  have hhigh : ∀ i : Fd, 3 ≤ i.val → i ≠ k.std := by
    intro i hi hbad
    rw [hbad] at hi
    omega
  have hopen : OpenPipe s side n (Function.update t k.std (some (k.pipeEnd n))) := by
    refine ⟨?_, ?_, ?_, ?_⟩
    · intro fd
      by_cases heq : fd = k.std
      · rw [heq, Function.update_self]
        simp only [Option.isSome_some, true_iff]
        omega
      · rw [hfd fd heq]
        exact h.opens fd
    · rw [hfd _ (hhigh _ (Nat.le_refl 3))]
      exact h.read
    · rw [hfd _ (hhigh _ (by decide))]
      exact h.write
    · intro fd o hlow ho
      by_cases heq : fd = k.std
      · rw [heq, Function.update_self, Option.some_inj] at ho
        rw [← ho]
        cases k with
        | left | right => exact ⟨hn, Or.inr hside⟩
      · rw [hfd fd heq] at ho
        exact h.entitled fd o hlow ho
  have hsplit : (setupOps 3 4 k).foldl Op.apply t = [Op.close 3, Op.close 4].foldl Op.apply
      (Function.update t k.std (some (k.pipeEnd n))) := by
    rw [← h.replaced k, setupOps_eq]
    rfl
  rw [hsplit]
  refine ⟨hopen.closed, ?_⟩
  simp only [List.foldl_cons, List.foldl_nil, Op.apply]
  rw [if_neg (by omega), if_neg (by omega), Function.update_self]

/-- What is held while a pipe is open. -/
theorem OpenPipe.held (h : OpenPipe s side n t) {fd : Fd} {o : Object} (ho : t fd = some o) :
    Entitled s side o ∨ o = .readEnd n ∨ o = .writeEnd n := by
  by_cases hlow : fd.val < 3
  · exact Or.inl (h.entitled fd o hlow ho)
  · have hopen : fd.val < 5 := (h.opens fd).mp (by rw [ho]; rfl)
    have hcases : fd = ⟨3, by decide⟩ ∨ fd = ⟨4, by decide⟩ := by
      rw [Fin.ext_iff, Fin.ext_iff]
      change fd.val = 3 ∨ fd.val = 4
      omega
    rcases hcases with rfl | rfl
    · rw [h.read, Option.some_inj] at ho
      exact Or.inr (Or.inl ho.symm)
    · rw [h.write, Option.some_inj] at ho
      exact Or.inr (Or.inr ho.symm)

end Setup

end Xv6.Shell
