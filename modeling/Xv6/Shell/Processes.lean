import Xv6.Shell.Descriptors

/-!
# Shell - Descriptors of all processes

What is known of the descriptors of one process is kept by every step of every process.  Only
the left side of a pipe holds its write end, and only the right side its read end, except for
the processes that set it up.

Main results:

- Theorem {lit}`runStep_outcome`, {lit}`programStep_outcome`: the calls of one process.
- Theorem {lit}`SysInv.step`: every step keeps what is known about descriptors.
- Theorem {lit}`runcmd_descriptors`: commands run with clean descriptors.
-/

namespace Xv6.Shell

open Foundations

/-! ## Steps -/

/-- Pipes are added, and process `p` may record its children. -/
structure Ext (p : Nat) (s s' : Sys) : Prop where
  pipes : s.pipes ≤ s'.pipes
  plain : ∀ n, n < s.pipes → s.nodes n = none → s'.nodes n = none
  kept : ∀ n node, s.nodes n = some node → node.maker ≠ p → s'.nodes n = some node
  child : ∀ n node k c, s.nodes n = some node → node.child k = some c →
    ∃ node', s'.nodes n = some node' ∧ node'.cmd = node.cmd ∧ node'.child k = some c

section Steps

variable {root : Cmd} {s s' : Sys} {p q : Nat} {x : Proc} {side : Nat → Option Side} {t : Fds}
  {n : Nat}

theorem Ext.of_eq (hpipes : s'.pipes = s.pipes) (hnodes : s'.nodes = s.nodes) : Ext p s s' := by
  refine ⟨Nat.le_of_eq hpipes.symm, ?_, ?_, ?_⟩
  · intro n _ hnone
    rw [hnodes]
    exact hnone
  · intro n node hnode _
    rw [hnodes]
    exact hnode
  · intro n node k c hnode hc
    rw [hnodes]
    exact ⟨node, hnode, rfl, hc⟩

theorem Ext.entitled (h : Ext p s s') {o : Object} (ho : Entitled s side o) :
    Entitled s' side o := by
  cases o with
  | inherited i => trivial
  | file k => trivial
  | readEnd n | writeEnd n =>
    exact ⟨Nat.lt_of_lt_of_le ho.1 h.pipes, ho.2.imp_left (h.plain n ho.1)⟩

theorem Ext.clean (h : Ext p s s') (hclean : Clean s side t) : Clean s' side t :=
  ⟨hclean.opens, fun fd o ho => h.entitled (hclean.entitled fd o ho)⟩

theorem Ext.openPipe (h : Ext p s s') (hopen : OpenPipe s side n t) : OpenPipe s' side n t :=
  ⟨hopen.opens, hopen.read, hopen.write, fun fd o hfd ho => h.entitled (hopen.entitled fd o hfd ho)⟩

/-- What is known of another process stays true. -/
theorem Ext.procInv (h : Ext p s s') (hq : q ≠ p) (hx : ProcInv root s q x) :
    ProcInv root s' q x := by
  refine ⟨?_, fun n hn => hx.later n (Nat.le_trans h.pipes hn)⟩
  have hpoint := hx.point
  cases hat : x.point with
  | run cmd | listWait cmd =>
    rw [hat] at hpoint
    exact ⟨hpoint.1, h.clean hpoint.2⟩
  | opening cmd =>
    rw [hat] at hpoint
    obtain ⟨hcmd, t, fd, hfd, hclean, heq⟩ := hpoint
    exact ⟨hcmd, t, fd, hfd, h.clean hclean, heq⟩
  | forkLeft n p0 p1 left right =>
    rw [hat] at hpoint
    obtain ⟨hfds, hside, hnode, hopen⟩ := hpoint
    exact ⟨hfds, hside, h.kept n _ hnode hq, h.openPipe hopen⟩
  | forkRight n p0 p1 right =>
    rw [hat] at hpoint
    obtain ⟨hfds, hside, ⟨node, hnode, rfl, hright⟩, hopen⟩ := hpoint
    exact ⟨hfds, hside, ⟨node, h.kept n _ hnode hq, rfl, hright⟩, h.openPipe hopen⟩
  | setup k n ops cmd =>
    rw [hat] at hpoint
    obtain ⟨hside, ⟨node, hnode, rfl, hchild⟩, done, t, hops, hopen, heq⟩ := hpoint
    obtain ⟨node', hnode', hcmd, hchild'⟩ := h.child n node k q hnode hchild
    exact ⟨hside, ⟨node', hnode', congrFun hcmd k, hchild'⟩, done, t, hops, h.openPipe hopen, heq⟩
  | closing n ops =>
    rw [hat] at hpoint
    obtain ⟨done, t, hops, hopen, heq⟩ := hpoint
    exact ⟨done, t, hops, h.openPipe hopen, heq⟩
  | waiting k =>
    rw [hat] at hpoint
    exact h.clean hpoint
  | exiting =>
    rw [hat] at hpoint
    exact h.clean hpoint
  | program =>
    rw [hat] at hpoint
    exact fun fd o ho => h.entitled (hpoint fd o ho)
  | zombie =>
    rw [hat] at hpoint
    exact hpoint

/-- What is known does not depend on more than the pipes and their nodes. -/
theorem ProcInv.of_eq (hx : ProcInv root s p x) (hpipes : s'.pipes = s.pipes)
    (hnodes : s'.nodes = s.nodes) : ProcInv root s' p x :=
  (Ext.of_eq hpipes hnodes).procInv (Nat.ne_of_lt (Nat.lt_succ_self p)) hx

theorem ProcInv.zombie (hx : ProcInv root s p x) :
    ProcInv root s p { x with point := .zombie, fds := fun _ => none } :=
  ⟨fun _ => rfl, hx.later⟩

/-- What a call must leave behind. -/
def OutcomeInv (root : Cmd) (s : Sys) (p : Nat) (x : Proc) : Outcome → Prop
  | .go y => ProcInv root s p y
  | .opened y => ProcInv root s p y
  | .piped y node =>
    ProcInv root (s.apply p x (.piped y node)) p y ∧
    ∀ cmd, node = some cmd → root.Part (.pipe (cmd .left) (cmd .right))
  | .forked y child node =>
    ProcInv root (s.apply p x (.forked y child node)) p y ∧
    ProcInv root (s.apply p x (.forked y child node)) s.nextpid child ∧
    ∀ n k, node = some (n, k) → ∃ node, s.nodes n = some node ∧ node.maker = p ∧
      node.child k = none
  | .exited => True

theorem SysInv.nodes_none (h : SysInv root s) (hn : s.pipes ≤ n) : s.nodes n = none := by
  rw [Option.eq_none_iff_forall_ne_some]
  intro node hnode
  exact absurd (h.nodes n node hnode).1 (Nat.not_lt_of_le hn)

theorem ext_piped (h : SysInv root s) (y : Proc) (node : Option (Side → Cmd)) :
    Ext p s (s.apply p x (.piped y node)) := by
  have hnodes : ∀ m, m < s.pipes → (s.apply p x (.piped y node)).nodes m = s.nodes m := by
    intro m hm
    cases node with
    | none => rfl
    | some cmd => exact Function.update_of_ne (Nat.ne_of_lt hm) ..
  refine ⟨Nat.le_succ _, ?_, ?_, ?_⟩
  · intro m hm hnone
    rw [hnodes m hm]
    exact hnone
  · intro m node hm _
    rw [hnodes m (h.nodes m node hm).1]
    exact hm
  · intro m node k c hm hc
    rw [hnodes m (h.nodes m node hm).1]
    exact ⟨node, hm, rfl, hc⟩

/-- Recording a new process of one side keeps those recorded. -/
theorem Node.child_setChild_of_some {node : Node} {c d : Nat} {j k : Side}
    (hnone : node.child k = none) (hd : node.child j = some d) :
    (node.setChild c k).child j = some d := by
  have hjk : j ≠ k := by
    rintro rfl
    rw [hnone] at hd
    cases hd
  exact (Function.update_of_ne hjk ..).trans hd

theorem ext_forked {y child : Proc} {node : Option (Nat × Side)}
    (hnode : ∀ n k, node = some (n, k) → ∃ node, s.nodes n = some node ∧ node.maker = p ∧
      node.child k = none) : Ext p s (s.apply p x (.forked y child node)) := by
  cases node with
  | none => exact Ext.of_eq rfl rfl
  | some nk =>
    obtain ⟨n, k⟩ := nk
    obtain ⟨node, hn, hmaker, hchild⟩ := hnode n k rfl
    have hself : (s.apply p x (.forked y child (some (n, k)))).nodes n =
        some (node.setChild s.nextpid k) := by
      refine (Function.update_self ..).trans ?_
      rw [hn]
      rfl
    have hother : ∀ m, m ≠ n → (s.apply p x (.forked y child (some (n, k)))).nodes m =
        s.nodes m :=
      fun m hm => Function.update_of_ne hm ..
    refine ⟨Nat.le_refl _, ?_, ?_, ?_⟩
    · intro m _ hnone
      have hm : m ≠ n := by
        rintro rfl
        rw [hn] at hnone
        cases hnone
      rw [hother m hm]
      exact hnone
    · intro m node' hm hne
      have hmn : m ≠ n := by
        rintro rfl
        rw [hn, Option.some_inj] at hm
        rw [← hm] at hne
        exact hne hmaker
      rw [hother m hmn]
      exact hm
    · intro m node' j c hm hc
      by_cases hmn : m = n
      · rw [hmn, hn, Option.some_inj] at hm
        subst hm
        rw [hmn]
        exact ⟨_, hself, rfl, Node.child_setChild_of_some hchild hc⟩
      · rw [hother m hmn]
        exact ⟨node', hm, rfl, hc⟩

/-- One process changes, and pipes and nodes as it may change them. -/
theorem SysInv.update (h : SysInv root s) {y : Proc} (hx : s.procs p = some x)
    (hprocs : s'.procs = Function.update s.procs p (some y)) (hnext : s'.nextpid = s.nextpid)
    (hext : Ext p s s') (hnodes : ∀ n node, s'.nodes n = some node →
      n < s'.pipes ∧ root.Part (.pipe (node.cmd .left) (node.cmd .right)))
    (hy : ProcInv root s' p y) : SysInv root s' := by
  refine ⟨?_, ?_, hnodes⟩
  · intro q z hz
    rw [hprocs] at hz
    by_cases hq : q = p
    · rw [hq, Function.update_self, Option.some_inj] at hz
      rw [← hz, hq]
      exact hy
    · rw [Function.update_of_ne hq] at hz
      exact hext.procInv hq (h.procs q z hz)
  · intro q hq
    rw [hnext] at hq
    have hqp : q ≠ p := by
      rintro rfl
      rw [h.unborn q hq] at hx
      cases hx
    rw [hprocs, Function.update_of_ne hqp]
    exact h.unborn q hq

theorem SysInv.exit (h : SysInv root s) (hx : s.procs p = some x) : SysInv root (s.exit p x) := by
  refine ⟨?_, ?_, h.nodes⟩
  · intro q z hz
    change (if q = p then _ else (s.procs q).map _) = some z at hz
    by_cases hq : q = p
    · rw [if_pos hq, Option.some_inj] at hz
      rw [← hz, hq]
      exact (h.procs p x hx).zombie.of_eq rfl rfl
    · rw [if_neg hq] at hz
      obtain ⟨y, hy, rfl⟩ := Option.map_eq_some_iff.mp hz
      have hinv : ProcInv root (s.exit p x) q y := (h.procs q y hy).of_eq rfl rfl
      exact ⟨hinv.point, hinv.later⟩
  · intro q hq
    have hqp : q ≠ p := by
      rintro rfl
      rw [h.unborn q hq] at hx
      cases hx
    change (if q = p then _ else (s.procs q).map _) = none
    rw [if_neg hqp, h.unborn q hq]
    rfl

/-- A call with such an outcome keeps what is known. -/
theorem SysInv.apply (h : SysInv root s) (hx : s.procs p = some x) {o : Outcome}
    (ho : OutcomeInv root s p x o) : SysInv root (s.apply p x o) := by
  cases o with
  | go y | opened y =>
    exact h.update hx rfl rfl (Ext.of_eq rfl rfl) h.nodes (ProcInv.of_eq ho rfl rfl)
  | piped y node =>
    have hold : ∀ n node, s.nodes n = some node →
        n < s.pipes + 1 ∧ root.Part (.pipe (node.cmd .left) (node.cmd .right)) :=
      fun n node hn => (h.nodes n node hn).imp_left Nat.lt_succ_of_lt
    refine h.update hx rfl rfl (ext_piped h y node) ?_ ho.1
    intro n node' hn
    cases node with
    | none => exact hold n node' hn
    | some cmd =>
      change Function.update s.nodes s.pipes _ n = some node' at hn
      by_cases hnew : n = s.pipes
      · rw [hnew, Function.update_self, Option.some_inj] at hn
        rw [← hn, hnew]
        exact ⟨Nat.lt_succ_self _, ho.2 cmd rfl⟩
      · rw [Function.update_of_ne hnew] at hn
        exact hold n node' hn
  | forked y child node =>
    obtain ⟨hy, hchild, hnode⟩ := ho
    have hext : Ext p s (s.apply p x (.forked y child node)) := ext_forked hnode
    refine ⟨?_, ?_, ?_⟩
    · intro q z hz
      change Function.update (Function.update s.procs p (some y)) s.nextpid _ q = some z at hz
      by_cases hq : q = s.nextpid
      · rw [hq, Function.update_self, Option.some_inj] at hz
        rw [← hz, hq]
        exact ⟨hchild.point, hchild.later⟩
      · rw [Function.update_of_ne hq] at hz
        by_cases hqp : q = p
        · rw [hqp, Function.update_self, Option.some_inj] at hz
          rw [← hz, hqp]
          exact hy
        · rw [Function.update_of_ne hqp] at hz
          exact hext.procInv hqp (h.procs q z hz)
    · intro q hq
      have hlt : s.nextpid < q := hq
      have hold := h.unborn q (Nat.le_of_lt hlt)
      have hqp : q ≠ p := by
        rintro rfl
        rw [hold] at hx
        cases hx
      change Function.update (Function.update s.procs p (some y)) s.nextpid _ q = none
      rw [Function.update_of_ne (Nat.ne_of_gt hlt), Function.update_of_ne hqp]
      exact hold
    · intro n node' hn
      cases node with
      | none => exact h.nodes n node' hn
      | some nk =>
        obtain ⟨m, k⟩ := nk
        change Function.update s.nodes m _ n = some node' at hn
        by_cases hnm : n = m
        · rw [hnm, Function.update_self] at hn
          obtain ⟨node, hsome, rfl⟩ := Option.map_eq_some_iff.mp hn
          rw [hnm]
          exact h.nodes m node hsome
        · rw [Function.update_of_ne hnm] at hn
          exact h.nodes n node' hn
  | exited => exact h.exit hx

/-- Forking for a command without a pipe. -/
theorem outcome_fork1 {ok : Bool} {y child : Proc} (hy : ProcInv root s p y)
    (hchild : ∀ q, ProcInv root s q child) : OutcomeInv root s p x (fork1 ok y child none) := by
  cases ok with
  | false => trivial
  | true => exact ⟨hy.of_eq rfl rfl, (hchild s.nextpid).of_eq rfl rfl, nofun⟩

/-- Entitlement to a pipe is not touched by the side of another one. -/
theorem Entitled.update {k : Side} {o : Object} (hside : side n = none) (hn : s.nodes n ≠ none)
    (ho : Entitled s side o) : Entitled s (Function.update side n (some k)) o := by
  have hkeep : ∀ {m : Nat} {j : Side}, s.nodes m = none ∨ side m = some j →
      s.nodes m = none ∨ Function.update side n (some k) m = some j := by
    intro m j hm
    by_cases hmn : m = n
    · rw [hmn] at hm
      rcases hm with hbad | hbad
      · exact absurd hbad hn
      · rw [hside] at hbad
        cases hbad
    · rw [Function.update_of_ne hmn]
      exact hm
  cases o with
  | inherited i => trivial
  | file i => trivial
  | readEnd m | writeEnd m => exact ⟨ho.1, hkeep ho.2⟩

/-- Forking for one side of a pipe. -/
theorem outcome_forkSide {ok : Bool} {y : Proc} {k : Side} {node : Node} {cmd : Cmd}
    (hx : ProcInv root s p x) (hn : n < s.pipes) (hcmd : node.cmd k = cmd) (hside : x.side n = none)
    (hnode : s.nodes n = some node) (hmaker : node.maker = p) (hchild : node.child k = none)
    (hopen : OpenPipe s x.side n x.fds)
    (hy : ∀ s' : Sys, Ext p s s' → s'.nodes n = some (node.setChild s.nextpid k) →
      ProcInv root s' p y) :
    OutcomeInv root s p x (fork1 ok y (x.forSide k n 3 4 cmd) (some (n, k))) := by
  cases ok with
  | false => trivial
  | true =>
    have hmay : ∀ m j, (some (n, k) : Option (Nat × Side)) = some (m, j) →
        ∃ node, s.nodes m = some node ∧ node.maker = p ∧ node.child j = none := by
      intro m j heq
      cases heq
      exact ⟨node, hnode, hmaker, hchild⟩
    have hext : Ext p s
        (s.apply p x (.forked y (x.forSide k n 3 4 cmd) (some (n, k)))) := ext_forked hmay
    have hset : (s.apply p x (.forked y (x.forSide k n 3 4 cmd) (some (n, k)))).nodes n =
        some (node.setChild s.nextpid k) := by
      refine (Function.update_self ..).trans ?_
      rw [hnode]
      rfl
    refine ⟨hy _ hext hset, ⟨?_, ?_⟩, hmay⟩
    · refine ⟨Function.update_self .., ⟨_, hset, hcmd, Function.update_self ..⟩, [], x.fds,
        rfl, ?_, rfl⟩
      refine hext.openPipe ⟨hopen.opens, hopen.read, hopen.write, ?_⟩
      intro fd o hfd ho
      refine (hopen.entitled fd o hfd ho).update hside ?_
      rw [hnode]
      exact Option.some_ne_none _
    · intro m hm
      have hmn : m ≠ n := by
        rintro rfl
        exact absurd hn (Nat.not_lt_of_le hm)
      exact (Function.update_of_ne hmn ..).trans (hx.later m hm)

/-- `pipe` in a process with the standard descriptors. -/
theorem pipeFds_of_opens (h : Opens t 3) :
    ∃ t', pipeFds t n = some (⟨3, by decide⟩, ⟨4, by decide⟩, t') ∧ Opens t' 5 ∧
      t' ⟨3, by decide⟩ = some (.readEnd n) ∧ t' ⟨4, by decide⟩ = some (.writeEnd n) ∧
      ∀ fd, fd.val < 3 → t' fd = t fd := by
  have hfour := h.update (o := .readEnd n) (by decide)
  refine ⟨_, ?_, hfour.update (o := .writeEnd n) (by decide), ?_, Function.update_self .., ?_⟩
  · unfold pipeFds
    rw [h.fdalloc (by decide)]
    dsimp only
    rw [hfour.fdalloc (by decide)]
  · rw [Function.update_of_ne (by decide), Function.update_self]
  · intro fd hfd
    rw [Function.update_of_ne, Function.update_of_ne]
    · intro hbad
      rw [hbad] at hfd
      exact absurd hfd (by decide)
    · intro hbad
      rw [hbad] at hfd
      exact absurd hfd (by decide)

/-- The standard descriptors after one was closed and a file was opened. -/
theorem Clean.reopened {fd k : Nat} (h : Clean s side t) (hfd : fd < 3) :
    ∃ i t', fdalloc ((Op.close fd).apply t) (.file k) = some (i, t') ∧ Clean s side t' := by
  have hlt : fd < nofile := Nat.lt_trans hfd (by decide)
  have hother : ∀ i : Fd, i ≠ ⟨fd, hlt⟩ → (Op.close fd).apply t i = t i := by
    intro i hi
    exact if_neg fun hbad => hi (Fin.ext hbad)
  refine ⟨⟨fd, hlt⟩, _, fdalloc_eq (if_pos rfl) ?_, ?_, ?_⟩
  · intro i hi
    rw [hother i (Fin.ne_of_lt hi), h.opens]
    have hval : i.val < fd := hi
    omega
  · intro i
    by_cases hi : i = ⟨fd, hlt⟩
    · rw [hi, Function.update_self]
      simpa using hfd
    · rw [Function.update_of_ne hi, hother i hi]
      exact h.opens i
  · intro i o ho
    by_cases hi : i = ⟨fd, hlt⟩
    · rw [hi, Function.update_self, Option.some_inj] at ho
      rw [← ho]
      trivial
    · rw [Function.update_of_ne hi, hother i hi] at ho
      exact h.entitled i o ho

/-- The calls of `runcmd`. -/
theorem runStep_outcome (hroot : root.Redirects) (h : SysInv root s) (hx : s.procs p = some x)
    {ok : Bool} {o : Outcome}
    (ho : runStep s.files s.pipes ok x = some o) : OutcomeInv root s p x o := by
  have hinv := h.procs p x hx
  have hpoint := hinv.point
  have hlater := hinv.later
  unfold runStep at ho
  cases hat : x.point with
  | run cmd =>
    rw [hat] at hpoint ho
    obtain ⟨hcmd, hclean⟩ := hpoint
    cases cmd with
    | exec argv eargv =>
      dsimp only at ho
      split at ho
      · cases ho
        trivial
      · split at ho
        · cases ho
          exact ⟨hclean.entitled, hlater⟩
        · cases ho
          trivial
    | redir cmd file efile mode fd =>
      cases ho
      exact ⟨⟨hcmd.redir, x.fds, fd, Nat.lt_succ_of_lt (hcmd.redirects hroot).1, hclean, rfl⟩,
        hlater⟩
    | pipe left right =>
      dsimp only at ho
      obtain ⟨t, hpipe, hopens, hread, hwrite, hlow⟩ := pipeFds_of_opens hclean.opens
      rw [hpipe] at ho
      cases ok with
      | false =>
        cases ho
        trivial
      | true =>
        cases ho
        have hext : Ext p s (s.apply p x (.piped { x with
          point := .forkLeft s.pipes 3 4 left right, fds := t } (some (Side.pick left right)))) :=
          ext_piped h _ _
        refine ⟨⟨⟨⟨rfl, rfl⟩, hlater s.pipes (Nat.le_refl _), Function.update_self ..,
          ⟨hopens, hread, hwrite, ?_⟩⟩, fun n hn => hlater n (Nat.le_of_succ_le hn)⟩, ?_⟩
        swap
        · intro cmd heq
          cases heq
          exact hcmd
        intro fd o hfd ho
        dsimp only at ho
        rw [hlow fd hfd] at ho
        exact hext.entitled (hclean.entitled fd o ho)
    | list left right =>
      cases ho
      exact outcome_fork1 ⟨⟨hcmd.list .right, hclean⟩, hlater⟩
        fun _ => ⟨⟨hcmd.list .left, hclean⟩, hlater⟩
    | back cmd =>
      cases ho
      exact outcome_fork1 ⟨hclean, hlater⟩ fun _ => ⟨⟨hcmd.back, hclean⟩, hlater⟩
  | opening cmd =>
    rw [hat] at hpoint ho
    obtain ⟨hcmd, t, fd, hfd, hclean, heq⟩ := hpoint
    obtain ⟨i, t', halloc, hclean'⟩ := hclean.reopened (k := s.files) hfd
    dsimp only at ho
    rw [heq, halloc] at ho
    cases ok with
    | false =>
      cases ho
      trivial
    | true =>
      cases ho
      exact ⟨⟨hcmd, hclean'⟩, hlater⟩
  | forkLeft n p0 p1 left right =>
    rw [hat] at hpoint ho
    obtain ⟨⟨rfl, rfl⟩, hside, hnode, hopen⟩ := hpoint
    cases ho
    refine outcome_forkSide hinv (h.nodes n _ hnode).1 rfl hside hnode rfl rfl hopen ?_
    intro s' hext hset
    exact ⟨⟨⟨rfl, rfl⟩, hside, ⟨_, hset, rfl, rfl, rfl⟩, hext.openPipe hopen⟩,
      fun m hm => hlater m (Nat.le_trans hext.pipes hm)⟩
  | forkRight n p0 p1 right =>
    rw [hat] at hpoint ho
    obtain ⟨⟨rfl, rfl⟩, hside, ⟨node, hnode, hmaker, hright, hchild⟩, hopen⟩ := hpoint
    cases ho
    refine outcome_forkSide hinv (h.nodes n _ hnode).1 hright hside hnode hmaker hchild hopen ?_
    intro s' hext _
    exact ⟨⟨[], x.fds, rfl, hext.openPipe hopen, rfl⟩,
      fun m hm => hlater m (Nat.le_trans hext.pipes hm)⟩
  | setup k n ops cmd =>
    rw [hat] at hpoint ho
    obtain ⟨hside, hnode, done, t, hops, hopen, heq⟩ := hpoint
    cases ops with
    | nil =>
      cases ho
      rw [List.append_nil] at hops
      rw [hops] at heq
      obtain ⟨node, hsome, rfl, -⟩ := hnode
      obtain ⟨hn, hpart⟩ := h.nodes n node hsome
      refine ⟨⟨?_, ?_⟩, hlater⟩
      · have hside := hpart.pipe k
        cases k with
        | left | right => exact hside
      · dsimp only
        rw [heq]
        exact (setup_result hopen hside hn).1
    | cons op ops =>
      cases ho
      refine ⟨⟨hside, hnode, done ++ [op], t, ?_, hopen, ?_⟩, hlater⟩
      · rw [List.append_assoc]
        exact hops
      · rw [List.foldl_append, ← heq]
        rfl
  | closing n ops =>
    rw [hat] at hpoint ho
    obtain ⟨done, t, hops, hopen, heq⟩ := hpoint
    cases ops with
    | nil =>
      cases ho
      rw [List.append_nil] at hops
      rw [hops] at heq
      refine ⟨?_, hlater⟩
      change Clean s x.side x.fds
      rw [heq]
      exact hopen.closed
    | cons op ops =>
      cases ho
      refine ⟨⟨done ++ [op], t, ?_, hopen, ?_⟩, hlater⟩
      · rw [List.append_assoc]
        exact hops
      · rw [List.foldl_append, ← heq]
        rfl
  | waiting k =>
    rw [hat] at hpoint ho
    cases k with
    | zero =>
      cases ho
      exact ⟨hpoint, hlater⟩
    | succ k => cases ho
  | exiting =>
    rw [hat] at ho
    cases ho
    trivial
  | listWait cmd | program | zombie =>
    rw [hat] at ho
    cases ho

/-- The calls of a program. -/
theorem programStep_outcome (h : SysInv root s) (hx : s.procs p = some x) {c : ProgramCall}
    {o : Outcome} (ho : programStep s.files s.pipes x c = some o) : OutcomeInv root s p x o := by
  have hinv := h.procs p x hx
  have hpoint := hinv.point
  unfold programStep at ho
  split at ho
  · rename_i hat
    rw [hat] at hpoint
    have hset : ∀ t : Fds, (∀ fd o, t fd = some o → Entitled s x.side o) →
        ProcInv root s p { x with fds := t } := by
      intro t ht
      refine ⟨?_, hinv.later⟩
      dsimp only
      rw [hat]
      exact ht
    cases c with
    | op op =>
      cases ho
      refine hset _ ?_
      intro fd o ho
      obtain ⟨i, hi⟩ := Op.apply_subset ho
      exact hpoint i o hi
    | openFile =>
      dsimp only at ho
      split at ho
      · rename_i i t halloc
        cases ho
        refine hset t ?_
        intro fd o ho
        rcases fdalloc_subset halloc ho with hold | rfl
        · exact hpoint fd o hold
        · trivial
      · cases ho
        exact hinv
    | pipe =>
      dsimp only at ho
      split at ho
      · rename_i p0 p1 t hpipe
        cases ho
        have hext : Ext p s (s.apply p x (.piped { x with fds := t } none)) :=
          ext_piped h _ none
        refine ⟨⟨?_, fun n hn => hinv.later n (Nat.le_of_succ_le hn)⟩, nofun⟩
        dsimp only
        rw [hat]
        intro fd o ho
        have hfresh : s.nodes s.pipes = none := h.nodes_none (Nat.le_refl _)
        unfold pipeFds at hpipe
        split at hpipe
        · cases hpipe
        · rename_i i t' hread
          split at hpipe
          · cases hpipe
          · rename_i j t'' hwrite
            cases hpipe
            rcases fdalloc_subset hwrite ho with hold | rfl
            · rcases fdalloc_subset hread hold with holder | rfl
              · exact hext.entitled (hpoint fd o holder)
              · exact ⟨Nat.lt_succ_self _, Or.inl hfresh⟩
            · exact ⟨Nat.lt_succ_self _, Or.inl hfresh⟩
      · cases ho
        exact hinv
    | fork =>
      cases ho
      refine ⟨hinv.of_eq rfl rfl, ?_, nofun⟩
      refine ⟨?_, hinv.later⟩
      rw [hat]
      exact fun fd o ho => Ext.entitled (p := p) (Ext.of_eq rfl rfl) (hpoint fd o ho)
    | exit =>
      cases ho
      trivial
  · cases ho

/-- A call of `wait` returns. -/
theorem afterWait_inv {point : Point} (hx : ProcInv root s p x)
    (h : afterWait x.point = some point) :
    ProcInv root s p { x with point := point } := by
  have hpoint := hx.point
  refine ⟨?_, hx.later⟩
  dsimp only
  cases hat : x.point with
  | listWait cmd | program =>
    rw [hat] at h hpoint
    cases h
    exact hpoint
  | waiting k =>
    rw [hat] at h hpoint
    cases k with
    | zero => cases h
    | succ k =>
      cases h
      exact hpoint
  | run cmd
  | opening cmd
  | forkLeft n p0 p1 left right
  | forkRight n p0 p1 right
  | setup k n ops cmd
  | closing n ops
  | exiting
  | zombie =>
    rw [hat] at h
    cases h

/-- A zombie goes. -/
theorem SysInv.remove (h : SysInv root s) : SysInv root (s.setProc p none) := by
  refine ⟨?_, ?_, h.nodes⟩
  · intro q z hz
    change Function.update s.procs p none q = some z at hz
    by_cases hq : q = p
    · rw [hq, Function.update_self] at hz
      cases hz
    · rw [Function.update_of_ne hq] at hz
      exact (h.procs q z hz).of_eq rfl rfl
  · intro q hq
    change Function.update s.procs p none q = none
    by_cases hqp : q = p
    · rw [hqp, Function.update_self]
    · rw [Function.update_of_ne hqp]
      exact h.unborn q hq

theorem SysInv.wait (h : SysInv root s) (hx : s.procs p = some x) {c : Option Nat}
    (hwait : s.wait p x c = some s') : SysInv root s' := by
  unfold Sys.wait at hwait
  split at hwait
  · cases hwait
  · rename_i point hafter
    split at hwait
    · cases hwait
      exact h.apply hx (o := .go _) (afterWait_inv (h.procs p x hx) hafter)
    · cases hwait
  · rename_i point c hafter
    split at hwait
    · rename_i fds parent side hc
      split at hwait
      · cases hwait
        have hcp : p ≠ c := by
          rintro rfl
          rw [hx, Option.some_inj] at hc
          rw [hc] at hafter
          cases hafter
        have hx' : (s.setProc c none).procs p = some x := (Function.update_of_ne hcp ..).trans hx
        have hrest := h.remove (p := c)
        exact hrest.apply hx' (o := .go _) (afterWait_inv (hrest.procs p x hx') hafter)
      · cases hwait
    · cases hwait

/-- Every step keeps what is known about descriptors. -/
theorem SysInv.step (hroot : root.Redirects) (h : SysInv root s) {a : Act}
    (hstep : shStep s a = some s') : SysInv root s' := by
  cases a with
  | step p ok =>
    obtain ⟨x, hx, hstep⟩ := Option.bind_eq_some_iff.mp hstep
    obtain ⟨o, ho, rfl⟩ := Option.map_eq_some_iff.mp hstep
    exact h.apply hx (runStep_outcome hroot h hx ho)
  | program p c =>
    obtain ⟨x, hx, hstep⟩ := Option.bind_eq_some_iff.mp hstep
    obtain ⟨o, ho, rfl⟩ := Option.map_eq_some_iff.mp hstep
    exact h.apply hx (programStep_outcome h hx ho)
  | wait p c =>
    obtain ⟨x, hx, hstep⟩ := Option.bind_eq_some_iff.mp hstep
    exact h.wait hx hstep
  | kill p =>
    obtain ⟨x, hx, rfl⟩ := Option.map_eq_some_iff.mp hstep
    exact h.exit hx
  | reap p =>
    unfold shStep at hstep
    dsimp only at hstep
    split at hstep
    · cases hstep
      exact h.remove
    · cases hstep

theorem shInit_inv (cmd : Cmd) : SysInv cmd (shInit cmd) := by
  refine ⟨?_, ?_, nofun⟩
  · intro p x hx
    change (if p = 0 then _ else _) = some x at hx
    split at hx
    · cases hx
      refine ⟨⟨.root, ?_, ?_⟩, fun _ _ => rfl⟩
      · intro fd
        dsimp only
        split
        · simpa using ‹fd.val < 3›
        · simpa using ‹¬fd.val < 3›
      · intro fd o ho
        dsimp only at ho
        split at ho
        · cases ho
          trivial
        · cases ho
    · cases hx
  · intro p hp
    exact if_neg (Nat.ne_of_gt hp)

/-! ## Runs -/

/-- The process sets up the pipe `n` and has calls to go. -/
def Point.SetsUp (n : Nat) : Point → Prop
  | .forkLeft m _ _ _ _ => m = n
  | .forkRight m _ _ _ => m = n
  | .setup _ m ops _ => m = n ∧ ops ≠ []
  | .closing m ops => m = n ∧ ops ≠ []
  | _ => False

/-- A process holds what it is entitled to and the pipe that it sets up. -/
theorem SysInv.held (h : SysInv root s) (hx : s.procs p = some x) {fd : Fd} {o : Object}
    (ho : x.fds fd = some o) :
    Entitled s x.side o ∨ ∃ n, x.point.SetsUp n ∧ (o = .readEnd n ∨ o = .writeEnd n) := by
  have hpoint := (h.procs p x hx).point
  cases hat : x.point with
  | run cmd | listWait cmd =>
    rw [hat] at hpoint
    exact Or.inl (hpoint.2.entitled fd o ho)
  | opening cmd =>
    rw [hat] at hpoint
    obtain ⟨-, t, c, -, hclean, heq⟩ := hpoint
    rw [heq] at ho
    obtain ⟨i, hi⟩ := Op.apply_subset ho
    exact Or.inl (hclean.entitled i o hi)
  | forkLeft n p0 p1 left right | forkRight n p0 p1 right =>
    rw [hat] at hpoint
    obtain ⟨-, -, -, hopen⟩ := hpoint
    exact (hopen.held ho).imp_right fun hend => ⟨n, rfl, hend⟩
  | setup k n ops cmd =>
    rw [hat] at hpoint
    obtain ⟨hside, ⟨node, hnode, -⟩, done, t, hops, hopen, heq⟩ := hpoint
    cases ops with
    | nil =>
      rw [List.append_nil] at hops
      rw [heq, hops] at ho
      exact Or.inl ((setup_result hopen hside (h.nodes n node hnode).1).1.entitled fd o ho)
    | cons op ops =>
      rw [heq] at ho
      obtain ⟨i, hi⟩ := foldl_apply_subset ho
      exact (hopen.held hi).imp_right fun hend => ⟨n, ⟨rfl, List.cons_ne_nil _ _⟩, hend⟩
  | closing n ops =>
    rw [hat] at hpoint
    obtain ⟨done, t, hops, hopen, heq⟩ := hpoint
    cases ops with
    | nil =>
      rw [List.append_nil] at hops
      rw [heq, hops] at ho
      exact Or.inl (hopen.closed.entitled fd o ho)
    | cons op ops =>
      rw [heq] at ho
      obtain ⟨i, hi⟩ := foldl_apply_subset ho
      exact (hopen.held hi).imp_right fun hend => ⟨n, ⟨rfl, List.cons_ne_nil _ _⟩, hend⟩
  | waiting k =>
    rw [hat] at hpoint
    exact Or.inl (hpoint.entitled fd o ho)
  | exiting =>
    rw [hat] at hpoint
    exact Or.inl (hpoint.entitled fd o ho)
  | program =>
    rw [hat] at hpoint
    exact Or.inl (hpoint fd o ho)
  | zombie =>
    rw [hat] at hpoint
    rw [hpoint fd] at ho
    cases ho

/-- A process that has set up its side of a pipe. -/
theorem SysInv.ready (h : SysInv root s) (hx : s.procs p = some x) {k : Side} {cmd : Cmd}
    (hat : x.point = .setup k n [] cmd) :
    (∃ node, s.nodes n = some node ∧ root.Part (.pipe (node.cmd .left) (node.cmd .right)) ∧
        node.cmd k = cmd ∧ node.child k = some p) ∧
      x.side n = some k ∧ Clean s x.side x.fds ∧ x.fds k.std = some (k.pipeEnd n) := by
  have hpoint := (h.procs p x hx).point
  rw [hat] at hpoint
  obtain ⟨hside, ⟨node, hnode, hcmd, hchild⟩, done, t, hops, hopen, heq⟩ := hpoint
  rw [List.append_nil] at hops
  rw [hops] at heq
  obtain ⟨hn, hpart⟩ := h.nodes n node hnode
  obtain ⟨hclean, hend⟩ := setup_result hopen hside hn
  rw [heq]
  exact ⟨⟨node, hnode, hpart, hcmd, hchild⟩, hside, hclean, hend⟩

end Steps

/-- In every interleaving of the processes that a command of the parser makes: a process that
reaches a simple command has exactly the descriptors 0, 1 and 2; the processes of the two sides
of a `PIPE` node of the command start its left and its right command with the ends of the pipe of
the node as descriptors 1 and 0; all others that hold an end of the pipe come from the process of
the side that the end belongs to, except while they set the pipe up, which nothing can block; and
so nobody holds the write end once it is set up and all of the left side are gone. -/
theorem runcmd_descriptors (cmd : Cmd) (hcmd : cmd.Redirects) (as : List Act) (s : Sys)
    (hrun : runFrom shStep (shInit cmd) as = some s) :
    (∀ p x argv eargv, s.procs p = some x → x.point = .run (.exec argv eargv) →
      ∀ fd : Fd, (x.fds fd).isSome = true ↔ fd.val < 3) ∧
    (∀ p x side n c, s.procs p = some x → x.point = .setup side n [] c →
      (∃ node, s.nodes n = some node ∧ cmd.Part (.pipe (node.cmd .left) (node.cmd .right)) ∧
        node.cmd side = c ∧ node.child side = some p) ∧ x.side n = some side ∧
      (∀ fd : Fd, (x.fds fd).isSome = true ↔ fd.val < 3) ∧
      (side = .left → x.fds ⟨1, by decide⟩ = some (.writeEnd n)) ∧
      (side = .right → x.fds ⟨0, by decide⟩ = some (.readEnd n))) ∧
    (∀ p x fd n, s.procs p = some x → s.nodes n ≠ none → ¬x.point.SetsUp n →
      (x.fds fd = some (.writeEnd n) → x.side n = some .left) ∧
      (x.fds fd = some (.readEnd n) → x.side n = some .right)) ∧
    (∀ p x n, s.procs p = some x → x.point.SetsUp n → ∃ t, shStep s (.step p true) = some t) ∧
    ∀ n, s.nodes n ≠ none →
      (∀ p x, s.procs p = some x → ¬x.point.SetsUp n ∧
        (x.side n = some .left → x.point = .zombie)) →
      ∀ p x fd, s.procs p = some x → x.fds fd ≠ some (.writeEnd n) := by
  have h : SysInv cmd s :=
    runFrom_invariant (fun s a t hs hst => hs.step hcmd hst) (shInit_inv cmd) hrun
  have hends : ∀ p x fd n, s.procs p = some x → s.nodes n ≠ none → ¬x.point.SetsUp n →
      (x.fds fd = some (.writeEnd n) → x.side n = some .left) ∧
      (x.fds fd = some (.readEnd n) → x.side n = some .right) := by
    intro p x fd n hx hn hready
    constructor
    · intro ho
      rcases h.held hx ho with ⟨-, hplain | hleft⟩ | ⟨m, hm, hread | hwrite⟩
      · exact absurd hplain hn
      · exact hleft
      · cases hread
      · cases hwrite
        exact absurd hm hready
    · intro ho
      rcases h.held hx ho with ⟨-, hplain | hright⟩ | ⟨m, hm, hread | hwrite⟩
      · exact absurd hplain hn
      · exact hright
      · cases hread
        exact absurd hm hready
      · cases hwrite
  refine ⟨?_, ?_, hends, ?_, ?_⟩
  · intro p x argv eargv hx hat
    have hpoint := (h.procs p x hx).point
    rw [hat] at hpoint
    exact hpoint.2.opens
  · intro p x side n c hx hat
    obtain ⟨hnode, hside, hclean, hend⟩ := h.ready hx hat
    refine ⟨hnode, hside, hclean.opens, ?_, ?_⟩
    · rintro rfl
      exact hend
    · rintro rfl
      exact hend
  · intro p x n hx hsets
    have hsome : (runStep s.files s.pipes true x).isSome = true := by
      unfold runStep
      cases hat : x.point with
      | forkLeft m p0 p1 left right => rfl
      | forkRight m p0 p1 right => rfl
      | setup k m ops cmd | closing m ops => cases ops <;> rfl
      | run cmd
      | opening cmd
      | listWait cmd
      | waiting k
      | exiting
      | program
      | zombie =>
        rw [hat] at hsets
        exact hsets.elim
    obtain ⟨o, ho⟩ := Option.isSome_iff_exists.mp hsome
    refine ⟨s.apply p x o, ?_⟩
    simp only [shStep, hx, Option.bind_some, ho, Option.map_some]
  · intro n hn hgone p x fd hx ho
    obtain ⟨hready, hzombie⟩ := hgone p x hx
    have hat := hzombie ((hends p x fd n hx hn hready).1 ho)
    have hpoint := (h.procs p x hx).point
    rw [hat] at hpoint
    rw [hpoint fd] at ho
    cases ho

/-- A simple command of one word at the given place. -/
def word (q : Nat) : Cmd :=
  .exec (fun i => if i.val = 0 then some q else none)
    fun i => if i.val = 0 then some (q + 1) else none

/-- A pipe of two simple commands, up to where both of them run. -/
def pipeUp : List Act :=
  [.step 0 true, .step 0 true, .step 0 true, .step 1 true, .step 2 true, .step 1 true,
    .step 2 true, .step 1 true, .step 2 true, .step 1 true, .step 2 true]

/-- The state of a process after the calls. -/
def pipeUpProc (p : Nat) : Option Proc :=
  (runFrom shStep (shInit (.pipe (word 0) (word 2))) pipeUp).bind fun s => s.procs p

theorem runcmd_descriptors_pipeUp :
    ∃ s x y, runFrom shStep (shInit (.pipe (word 0) (word 2))) pipeUp = some s ∧
      (s.procs 1 = some x ∧ x.point = .setup .left 0 [] (word 0) ∧
        x.fds ⟨1, by decide⟩ = some (.writeEnd 0)) ∧
      (s.procs 2 = some y ∧ y.point = .setup .right 0 [] (word 2) ∧
        y.fds ⟨0, by decide⟩ = some (.readEnd 0)) ∧
      ∃ node, s.nodes 0 = some node ∧ node.cmd .left = word 0 ∧ node.cmd .right = word 2 := by
  have hboth : (pipeUpProc 1).isSome = true ∧ (pipeUpProc 2).isSome = true := by decide +kernel
  obtain ⟨x, hsome⟩ := Option.isSome_iff_exists.mp hboth.1
  obtain ⟨y, hsome'⟩ := Option.isSome_iff_exists.mp hboth.2
  obtain ⟨s, hrun, hx⟩ := Option.bind_eq_some_iff.mp hsome
  obtain ⟨s', hrun', hy⟩ := Option.bind_eq_some_iff.mp hsome'
  rw [hrun, Option.some_inj] at hrun'
  subst hrun'
  have hleft : x.point = .setup .left 0 [] (word 0) := by
    have hpoint : (pipeUpProc 1).map Proc.point = some (.setup .left 0 [] (word 0)) := rfl
    rw [hsome] at hpoint
    exact Option.some_inj.mp hpoint
  have hright : y.point = .setup .right 0 [] (word 2) := by
    have hpoint : (pipeUpProc 2).map Proc.point = some (.setup .right 0 [] (word 2)) := rfl
    rw [hsome'] at hpoint
    exact Option.some_inj.mp hpoint
  obtain ⟨-, hstart, -⟩ := runcmd_descriptors (.pipe (word 0) (word 2)) ⟨trivial, trivial⟩ pipeUp s
    hrun
  obtain ⟨⟨node, hnode, -, hcmd, -⟩, -, -, hwrite, -⟩ := hstart 1 x .left 0 (word 0) hx hleft
  obtain ⟨⟨node', hnode', -, hcmd', -⟩, -, -, -, hread⟩ := hstart 2 y .right 0 (word 2) hy hright
  rw [hnode, Option.some_inj] at hnode'
  subst hnode'
  exact ⟨s, x, y, hrun, ⟨hx, hleft, hwrite rfl⟩, ⟨hy, hright, hread rfl⟩, node, hnode, hcmd, hcmd'⟩

end Xv6.Shell
