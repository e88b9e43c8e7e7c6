import Xv6.Foundations.LinkedList
import Xv6.Foundations.Runs

/-!
# Coroutines - The list of live coroutines

The functions of {lit}`coroutine.c`.  Records are known by their addresses, and the memory
that `malloc` returns holds whatever it held.  Control is with the host, in the body of a
coroutine, or in the loop of `co_exit`; it is lost when `swtch` is given a context that is not
a saved one.

`co_new` walks to the last coroutine and then assigns to a local variable, so it never links
the new one behind another, and it does not set the `next` field.

Main results:

- Theorem {lit}`Settled.step`: as long as coroutines are created one at a time, in memory
  whose `next` field is zero, the list is exact.
- Theorem {lit}`live_list_exact_iff`: these are exactly the runs in which it is.
-/

namespace Xv6.Coroutine

open Foundations

/-- What {lit}`context` points to: registers saved at the beginning of the body or in
`co_yield`, registers saved in the loop of `co_exit` at `tmp`, or nothing that can be
resumed. -/
inductive Context where
  | ready
  | exited (tmp : Nat) (byReturn : Bool)
  | junk
  deriving DecidableEq

/-- Where control is.  In the loop of `co_exit` the local variables are kept, and whether
it was entered by the return of the body. -/
inductive Control where
  | host
  | body (c : Nat)
  | exiting (c prev tmp : Nat) (byReturn : Bool)
  | lost
  deriving DecidableEq

/-- The memory of the records, the globals, and the coroutines created and not yet exited, in
the order of their creation. -/
structure CoState where
  next : Nat → Nat
  context : Nat → Context
  coList : Nat
  coCurrent : Nat
  control : Control
  live : List Nat

/-- What the program does.  `coNew` says what `malloc` returned: the address of the record
and the word that its `next` field held, and how many rounds the walk of `co_new` makes.
`prev` is the value of the uninitialised variable of `co_exit`.  `reuse` is a change of memory
that belongs to no live coroutine. -/
inductive CoAct where
  | coNewFailed
  | coNew (addr word rounds : Nat)
  | coRun
  | coYield
  | coExit (prev : Nat) (byReturn : Bool)
  | exitRound
  | reuse (addr word : Nat)

/-- The program before the first `co_new`. -/
def coInit (next : Nat → Nat) : CoState where
  next := next
  context := fun _ => .junk
  coList := 0
  coCurrent := 0
  control := .host
  live := []

/-- Whether the walk to the last coroutine ends within the given rounds. -/
def walkEnds (next : Nat → Nat) : Nat → Nat → Bool
  | 0, _ => false
  | rounds + 1, head => if next head = 0 then true else walkEnds next rounds (next head)

/-- `co_new` when `malloc` succeeds.  A walk that does not end has no step. -/
def coNew (s : CoState) (addr word rounds : Nat) : Option CoState :=
  if addr = 0 ∨ addr ∈ s.live then none
  else
    let s := { s with
      next := Function.update s.next addr word
      context := Function.update s.context addr .ready
      live := s.live ++ [addr] }
    if s.coList = 0 then some { s with coList := addr }
    else if walkEnds s.next rounds s.coList then some s
    else none

/-- Resume the coroutine `c`, whose context was `saved`; its context is used up. -/
def resume (s : CoState) (c : Nat) (saved : Context) : CoState :=
  match saved with
  | .ready => { s with context := Function.update s.context c .junk, control := .body c }
  | .exited tmp byReturn =>
    { s with
      context := Function.update s.context c .junk
      control := .exiting c tmp (s.next tmp) byReturn }
  | .junk => { s with control := .lost }

/-- {lit}`swtch(&old->context, new->context)`: the new context is read first. -/
def swtch (s : CoState) (old : Nat) (saved : Context) (new : Nat) : CoState :=
  resume { s with context := Function.update s.context old saved } new (s.context new)

/-- {lit}`swtch(&old->context, host_context)` -/
def swtchHost (s : CoState) (old : Nat) (saved : Context) : CoState :=
  { s with context := Function.update s.context old saved, control := .host }

/-- `co_run`, up to the switch or to its return. -/
def coRun (s : CoState) : CoState :=
  if s.coList ≠ 0 then
    resume { s with coCurrent := s.coList } s.coList (s.context s.coList)
  else s

/-- `co_yield` -/
def coYield (s : CoState) : CoState :=
  let tmp := s.coCurrent
  if s.next tmp ≠ 0 then
    swtch { s with coCurrent := s.next tmp } tmp .ready (s.next tmp)
  else swtchHost { s with coCurrent := 0 } tmp .ready

/-- `co_exit` returns to the body that called it.  A body that returned is left for good. -/
def exitReturns (s : CoState) (c : Nat) (byReturn : Bool) : CoState :=
  { s with control := if byReturn then .lost else .body c }

/-- `co_exit` up to its loop. -/
def coExit (s : CoState) (c prev : Nat) (byReturn : Bool) : CoState :=
  if s.coCurrent = 0 then exitReturns s c byReturn
  else { s with control := .exiting c prev s.coList byReturn }

/-- One round of the loop of `co_exit`. -/
def exitRound (s : CoState) (c prev tmp : Nat) (byReturn : Bool) : CoState :=
  if tmp = 0 then exitReturns s c byReturn
  else if tmp = s.coCurrent then
    let s := { s with live := s.live.erase tmp }
    if s.next tmp ≠ 0 then
      let s := if prev ≠ 0 then { s with next := Function.update s.next prev (s.next tmp) } else s
      swtch { s with coList := s.next tmp } s.coCurrent (.exited tmp byReturn) tmp
    else swtchHost { s with coList := 0 } s.coCurrent (.exited tmp byReturn)
  else { s with control := .exiting c tmp (s.next tmp) byReturn }

/-- One step: the host calls `co_new` and `co_run`, the bodies `co_yield` and `co_exit`. -/
def coStep (s : CoState) (a : CoAct) : Option CoState :=
  match a, s.control with
  | .coNewFailed, .host => some s
  | .coNew addr word rounds, .host => coNew s addr word rounds
  | .coRun, .host => some (coRun s)
  | .coYield, .body _ => some (coYield s)
  | .coExit prev byReturn, .body c => some (coExit s c prev byReturn)
  | .exitRound, .exiting c prev tmp byReturn => some (exitRound s c prev tmp byReturn)
  | .reuse addr word, _ =>
    if addr ∈ s.live then none
    else some { s with next := Function.update s.next addr word }
  | _, _ => none

/-! ## The list -/

/-- A pointer as an optional address. -/
def ptr (addr : Nat) : Option Nat :=
  if addr = 0 then none else some addr

/-- Following `next` from {lit}`co_list` reaches null and visits exactly the live coroutines,
in the order of their creation. -/
def Exact (s : CoState) : Prop :=
  Linked (fun c => ptr (s.next c)) (ptr s.coList) s.live

/-- `co_new` is called while no coroutine is live, and the memory it gets for the record is
zero where the `next` field is. -/
def NewAlone (s : CoState) (a : CoAct) : Prop :=
  ∀ addr word rounds, a = .coNew addr word rounds → s.coList = 0 ∧ word = 0

/-- The states of a program that creates its coroutines one at a time. -/
inductive Settled (s : CoState) : Prop
  | empty (hlive : s.live = []) (hlist : s.coList = 0) (hcontrol : s.control = .host)
  | waiting (c : Nat) (hc : c ≠ 0) (hlive : s.live = [c]) (hlist : s.coList = c)
      (hnext : s.next c = 0) (hcontrol : s.control = .host) (hcontext : s.context c = .ready)
  | running (c : Nat) (hc : c ≠ 0) (hlive : s.live = [c]) (hlist : s.coList = c)
      (hnext : s.next c = 0) (hcontrol : s.control = .body c) (hcurrent : s.coCurrent = c)
  | leaving (c prev : Nat) (byReturn : Bool) (hc : c ≠ 0) (hlive : s.live = [c])
      (hlist : s.coList = c) (hnext : s.next c = 0)
      (hcontrol : s.control = .exiting c prev c byReturn) (hcurrent : s.coCurrent = c)

@[simp]
theorem ptr_zero : ptr 0 = none := rfl

theorem ptr_of_ne {addr : Nat} (h : addr ≠ 0) : ptr addr = some addr := if_neg h

theorem ptr_eq_none {addr : Nat} (h : ptr addr = none) : addr = 0 := by
  by_contra hne
  rw [ptr_of_ne hne] at h
  cases h

theorem exact_single {s : CoState} {c : Nat} (hc : c ≠ 0) (hlive : s.live = [c])
    (hlist : s.coList = c) (hnext : s.next c = 0) : Exact s := by
  have hend : ptr (s.next c) = none := by
    rw [hnext]
    rfl
  unfold Exact
  rw [hlive, hlist, ptr_of_ne hc]
  exact ⟨rfl, hend⟩

theorem Settled.exact {s : CoState} (h : Settled s) : Exact s := by
  cases h with
  | empty hlive hlist hcontrol =>
    unfold Exact
    rw [hlive, hlist]
    rfl
  | waiting c hc hlive hlist hnext hcontrol hcontext
  | running c hc hlive hlist hnext hcontrol hcurrent => exact exact_single hc hlive hlist hnext
  | leaving c prev byReturn hc hlive hlist hnext hcontrol hcurrent =>
    exact exact_single hc hlive hlist hnext

/-- The first coroutine is created. -/
theorem coNew_first {s t : CoState} {addr rounds : Nat} (hlist : s.coList = 0)
    (hlive : s.live = []) (hcontrol : s.control = .host)
    (hnew : coNew s addr 0 rounds = some t) : Settled t := by
  unfold coNew at hnew
  simp only [Option.ite_none_left_eq_some, hlist, if_true, Option.some.injEq] at hnew
  obtain ⟨hfresh, rfl⟩ := hnew
  rw [not_or] at hfresh
  refine .waiting addr hfresh.1 ?_ rfl ?_ hcontrol ?_
  · simp [hlive]
  · simp
  · simp

/-- Memory of no live coroutine changes. -/
theorem Settled.reuse {s : CoState} (h : Settled s) {addr : Nat} (hdead : addr ∉ s.live)
    (word : Nat) : Settled { s with next := Function.update s.next addr word } := by
  have hkeep : ∀ c, s.live = [c] → s.next c = 0 → Function.update s.next addr word c = 0 := by
    intro c hlive hnext
    have hne : c ≠ addr := by
      intro heq
      rw [hlive, heq] at hdead
      exact hdead (List.mem_singleton.mpr rfl)
    rw [Function.update_of_ne hne]
    exact hnext
  cases h with
  | empty hlive hlist hcontrol => exact .empty hlive hlist hcontrol
  | waiting c hc hlive hlist hnext hcontrol hcontext =>
    exact .waiting c hc hlive hlist (hkeep c hlive hnext) hcontrol hcontext
  | running c hc hlive hlist hnext hcontrol hcurrent =>
    exact .running c hc hlive hlist (hkeep c hlive hnext) hcontrol hcurrent
  | leaving c prev byReturn hc hlive hlist hnext hcontrol hcurrent =>
    exact .leaving c prev byReturn hc hlive hlist (hkeep c hlive hnext) hcontrol hcurrent

/-- Every step keeps the list as long as coroutines are created one at a time. -/
theorem Settled.step {s t : CoState} {a : CoAct} (h : Settled s) (hnew : NewAlone s a)
    (hstep : coStep s a = some t) : Settled t := by
  cases a with
  | reuse addr word =>
    simp only [coStep, Option.ite_none_left_eq_some, Option.some.injEq] at hstep
    obtain ⟨hdead, rfl⟩ := hstep
    exact h.reuse hdead word
  | coNewFailed =>
    cases hcontrol : s.control with
    | host =>
      simp only [coStep, hcontrol, Option.some.injEq] at hstep
      exact hstep ▸ h
    | body c | exiting c prev tmp byReturn | lost => simp [coStep, hcontrol] at hstep
  | coNew addr word rounds =>
    obtain ⟨hlist, hword⟩ := hnew addr word rounds rfl
    subst hword
    cases h with
    | empty hlive _ hcontrol =>
      simp only [coStep, hcontrol] at hstep
      exact coNew_first hlist hlive hcontrol hstep
    | waiting c hc _ hlist' | running c hc _ hlist' | leaving c prev byReturn hc _ hlist' =>
      exact absurd (hlist'.symm.trans hlist) hc
  | coRun =>
    cases h with
    | empty hlive hlist hcontrol =>
      simp only [coStep, hcontrol, coRun, hlist, ne_eq, not_true_eq_false, if_false,
        Option.some.injEq] at hstep
      subst hstep
      exact .empty hlive hlist hcontrol
    | waiting c hc hlive hlist hnext hcontrol hcontext =>
      simp only [coStep, hcontrol, coRun, hlist, ne_eq, hc, not_false_eq_true, if_true,
        hcontext, resume, Option.some.injEq] at hstep
      subst hstep
      exact .running c hc hlive rfl hnext rfl rfl
    | running c hc hlive hlist hnext hcontrol
    | leaving c prev byReturn hc hlive hlist hnext hcontrol => simp [coStep, hcontrol] at hstep
  | coYield =>
    cases h with
    | empty hlive hlist hcontrol | waiting c hc hlive hlist hnext hcontrol
    | leaving c prev byReturn hc hlive hlist hnext hcontrol => simp [coStep, hcontrol] at hstep
    | running c hc hlive hlist hnext hcontrol hcurrent =>
      simp only [coStep, hcontrol, coYield, hcurrent, hnext, ne_eq, not_true_eq_false,
        if_false, swtchHost, Option.some.injEq] at hstep
      subst hstep
      exact .waiting c hc hlive hlist hnext rfl (by simp)
  | coExit prev byReturn =>
    cases h with
    | empty hlive hlist hcontrol | waiting c hc hlive hlist hnext hcontrol
    | leaving c prev byReturn hc hlive hlist hnext hcontrol => simp [coStep, hcontrol] at hstep
    | running c hc hlive hlist hnext hcontrol hcurrent =>
      simp only [coStep, hcontrol, coExit, hcurrent, hc, if_false, hlist,
        Option.some.injEq] at hstep
      subst hstep
      exact .leaving c prev byReturn hc hlive rfl hnext rfl rfl
  | exitRound =>
    cases h with
    | empty hlive hlist hcontrol | waiting c hc hlive hlist hnext hcontrol
    | running c hc hlive hlist hnext hcontrol => simp [coStep, hcontrol] at hstep
    | leaving c prev byReturn hc hlive hlist hnext hcontrol hcurrent =>
      simp only [coStep, hcontrol, exitRound, hc, if_false, hcurrent, if_true, hnext, ne_eq,
        not_true_eq_false, swtchHost, Option.some.injEq] at hstep
      subst hstep
      exact .empty (by simp [hlive]) rfl rfl

/-- A coroutine that is created while another one is live, or in memory that is not zero, is
not on the list as it should be. -/
theorem newAlone_of_exact {s t : CoState} {a : CoAct} (h : Exact s)
    (hstep : coStep s a = some t) (ht : Exact t) : NewAlone s a := by
  intro addr word rounds ha
  subst ha
  have hnew : coNew s addr word rounds = some t := by
    unfold coStep at hstep
    split at hstep <;> simp_all
  unfold coNew at hnew
  simp only [Option.ite_none_left_eq_some, not_or] at hnew
  obtain ⟨⟨haddr, hfresh⟩, hnew⟩ := hnew
  by_cases hlist : s.coList = 0
  · refine ⟨hlist, ?_⟩
    simp only [hlist, if_true, Option.some.injEq] at hnew
    subst hnew
    unfold Exact at h ht
    rw [hlist, ptr_zero] at h
    have hlive : s.live = [] := h.unique rfl
    simp only [hlive, List.nil_append, ptr_of_ne haddr] at ht
    have hend : ptr (Function.update s.next addr word addr) = none := ht.2
    rw [Function.update_self] at hend
    exact ptr_eq_none hend
  · simp only [hlist, if_false, Option.ite_none_right_eq_some, Option.some.injEq] at hnew
    obtain ⟨-, rfl⟩ := hnew
    have hsame : Linked (fun c => ptr (Function.update s.next addr word c)) (ptr s.coList)
        s.live := by
      apply h.congr
      intro c hc
      have hne : c ≠ addr := by
        intro heq
        exact hfresh (heq ▸ hc)
      simp only [Function.update_of_ne hne]
    have hlonger := congrArg List.length (hsame.unique ht)
    simp at hlonger

/-- The list of live coroutines is exact in every state of a run exactly when each coroutine
is created while no other is live, in memory that is zero where the `next` field is. -/
theorem live_list_exact_iff (next : Nat → Nat) (as : List CoAct) :
    AllStates coStep Exact (coInit next) as ↔ Meets coStep NewAlone (coInit next) as := by
  have hinit : Settled (coInit next) := .empty rfl rfl rfl
  constructor
  · intro hall
    exact meets_of_allStates_of_step (fun s a t hs hC hst => hs.step hC hst)
      (fun s a t hs hst ht => newAlone_of_exact hs.exact hst ht) hinit hall
  · intro hmeets
    exact allStates_of_meets (fun s hs => hs.exact) (fun s a t hs hC hst => hs.step hC hst)
      hinit hmeets

/-- Of two coroutines only the first is on the list. -/
theorem second_coroutine_missing :
    ∃ s, runFrom coStep (coInit fun _ => 0) [.coNew 100 0 0, .coNew 200 0 1] = some s ∧
      s.live = [100, 200] ∧ Linked (fun c => ptr (s.next c)) (ptr s.coList) [100] ∧
      ¬ Exact s := by
  have hrun : (runFrom coStep (coInit fun _ => 0) [.coNew 100 0 0, .coNew 200 0 1]).map
      (fun s => (s.live, s.coList, s.next 100)) = some ([100, 200], 100, 0) := by
    decide
  obtain ⟨s, hs, hread⟩ := Option.map_eq_some_iff.mp hrun
  simp only [Prod.mk.injEq] at hread
  obtain ⟨hlive, hlist, hnext⟩ := hread
  have honly : Linked (fun c => ptr (s.next c)) (ptr s.coList) [100] := by
    have hend : ptr (s.next 100) = none := by
      rw [hnext]
      rfl
    rw [hlist]
    exact ⟨rfl, hend⟩
  refine ⟨s, hs, hlive, honly, ?_⟩
  intro hexact
  unfold Exact at hexact
  rw [hlive] at hexact
  have hlength := congrArg List.length (honly.unique hexact)
  simp at hlength

end Xv6.Coroutine
