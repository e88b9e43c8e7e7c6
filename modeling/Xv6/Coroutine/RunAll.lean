import Xv6.Coroutine.LiveList

/-!
# Coroutines - Running all of them

`co_run_all` walks once along the list and calls `co_run` for each record it passes.  The
bodies are given by the number of their steps: between two steps a body calls `co_yield`, and
after the last one it returns or calls `co_exit`.

One pass is not enough for a body that yields, and with more than one coroutine either the
others are not on the list, or the first one leaves through its own used-up context.

Main results:

- Theorem {lit}`FirstStays.tick`: a first coroutine whose `next` field is not zero never
  exits.
- Theorem {lit}`OnlyFirst.tick`: if it is zero, no other coroutine ever runs.
- Theorem {lit}`co_run_all_completes_iff`: `co_run_all` completes its coroutines exactly when
  there is one, in memory that was zero, with one step.
-/

namespace Xv6.Coroutine

open Foundations

/-- A coroutine to be created: what `malloc` returned for it, how many rounds the walk of
`co_new` makes, the number of steps of its body and how the body ends. -/
structure Spec where
  addr : Nat
  word : Nat
  rounds : Nat
  steps : Nat
  byReturn : Bool

/-- The call of `co_new`. -/
def Spec.act (x : Spec) : CoAct :=
  .coNew x.addr x.word x.rounds

/-- Where the host is in `co_run_all`. -/
inductive HostPc where
  | start
  | loop (tmp : Nat)
  | after (tmp : Nat)
  | returned (result : Nat)
  deriving DecidableEq

/-- The coroutines, the steps each body has made, all steps in the order in which they were
made, and the host. -/
structure RunState where
  co : CoState
  done : Nat → Nat
  trace : List (Nat × Nat)
  host : HostPc

/-- The call of `co_run_all`. -/
def callRunAll (s : CoState) : RunState where
  co := s
  done := fun _ => 0
  trace := []
  host := .start

section Program

variable (prev : Nat) (specs : List Spec)

/-- The number of steps of the body of `c`. -/
def stepsOf (c : Nat) : Nat :=
  ((specs.find? fun x => x.addr = c).map Spec.steps).getD 0

/-- Whether the body of `c` ends by returning. -/
def returnsOf (c : Nat) : Bool :=
  ((specs.find? fun x => x.addr = c).map Spec.byReturn).getD true

/-- The body of `c` goes on: one step and then `co_yield`, or `co_exit` after the last one.
A body that is over returns. -/
def bodyTick (s : RunState) (c : Nat) : RunState :=
  if s.done c < stepsOf specs c then
    let s' := { s with
      trace := s.trace ++ [(c, s.done c)]
      done := Function.update s.done c (s.done c + 1) }
    if s.done c + 1 < stepsOf specs c then { s' with co := coYield s.co }
    else { s' with co := coExit s.co c prev (returnsOf specs c) }
  else { s with co := coExit s.co c prev true }

/-- `co_run_all` of the host. -/
def hostTick (s : RunState) : Option RunState :=
  match s.host with
  | .start =>
    if s.co.coList = 0 then some { s with host := .returned 0 }
    else some { s with host := .loop s.co.coList }
  | .loop tmp =>
    if tmp = 0 then some { s with host := .returned 1 }
    else some { s with co := coRun s.co, host := .after tmp }
  | .after tmp => some { s with host := .loop (s.co.next tmp) }
  | .returned _ => none

/-- One step of the program.  `prev` is the value of the uninitialised variable of
`co_exit`. -/
def tick (s : RunState) (_ : Unit) : Option RunState :=
  match s.co.control with
  | .host => hostTick s
  | .body c => some (bodyTick prev specs s c)
  | .exiting c prev tmp byReturn => some { s with co := exitRound s.co c prev tmp byReturn }
  | .lost => none

/-- Between two steps of a coroutine every other one that has steps left makes one. -/
def RoundRobin (trace : List (Nat × Nat)) : Prop :=
  ∀ before between after c k, trace = before ++ (c, k) :: between ++ (c, k + 1) :: after →
    ∀ x ∈ specs, x.addr ≠ c →
      between.countP (fun e => e.1 = x.addr) =
        if before.countP (fun e => e.1 = x.addr) < x.steps then 1 else 0

/-- `co_run_all` returns 1 with no coroutine left, after all steps of each body, once each
and in order, and round-robin. -/
def Completes (s : CoState) : Prop :=
  ∃ ticks t, runFrom (tick prev specs) (callRunAll s) ticks = some t ∧
    t.host = .returned 1 ∧ t.co.live = [] ∧
    (∀ x ∈ specs, (t.trace.filter fun e => e.1 = x.addr).map Prod.snd = List.range x.steps) ∧
    RoundRobin specs t.trace

end Program

/-! ## The state after the creations -/

/-- What the calls of `co_new` leave. -/
structure Created (specs : List Spec) (s : CoState) : Prop where
  control : s.control = .host
  live : s.live = specs.map Spec.addr
  nonzero : ∀ x ∈ specs, x.addr ≠ 0
  nodup : (specs.map Spec.addr).Nodup
  list : s.coList = (specs.head?.map Spec.addr).getD 0
  next : ∀ x ∈ specs, s.next x.addr = x.word
  context : ∀ x ∈ specs, s.context x.addr = .ready

/-- A call of `co_new` makes a record; only the first record is linked. -/
theorem Created.coNew {specs : List Spec} {s t : CoState} (h : Created specs s) {x : Spec}
    (hnew : coNew s x.addr x.word x.rounds = some t) : Created (specs ++ [x]) t := by
  unfold Coroutine.coNew at hnew
  simp only [Option.ite_none_left_eq_some, not_or] at hnew
  obtain ⟨⟨hzero, hfresh⟩, hnew⟩ := hnew
  rw [h.live] at hfresh
  have hother : ∀ y ∈ specs, y.addr ≠ x.addr := by
    intro y hy heq
    exact hfresh (heq ▸ List.mem_map_of_mem hy)
  have hbase : ∀ list, list = ((specs ++ [x]).head?.map Spec.addr).getD 0 →
      Created (specs ++ [x]) { s with
        next := Function.update s.next x.addr x.word
        context := Function.update s.context x.addr .ready
        live := s.live ++ [x.addr]
        coList := list } := by
    intro list hlist
    refine ⟨h.control, ?_, ?_, ?_, hlist, ?_, ?_⟩
    · simp [h.live]
    · intro y hy
      rcases List.mem_append.mp hy with hy | hy
      · exact h.nonzero y hy
      · rw [List.mem_singleton.mp hy]
        exact hzero
    · rw [List.map_append, List.nodup_append]
      refine ⟨h.nodup, by simp, ?_⟩
      intro a ha b hb hab
      simp only [List.map_cons, List.map_nil, List.mem_singleton] at hb
      exact hfresh (hb ▸ hab ▸ ha)
    · intro y hy
      rcases List.mem_append.mp hy with hy | hy
      · simp only [Function.update_of_ne (hother y hy)]
        exact h.next y hy
      · rw [List.mem_singleton.mp hy]
        simp only [Function.update_self]
    · intro y hy
      rcases List.mem_append.mp hy with hy | hy
      · simp only [Function.update_of_ne (hother y hy)]
        exact h.context y hy
      · rw [List.mem_singleton.mp hy]
        simp only [Function.update_self]
  have hlist := h.list
  cases hspecs : specs with
  | nil =>
    rw [hspecs] at hlist
    have hnil : s.coList = 0 := hlist
    simp only [hnil, if_true, Option.some.injEq] at hnew
    have hfirst := hbase x.addr (by rw [hspecs]; rfl)
    rw [hspecs] at hfirst
    rw [← hnew]
    exact hfirst
  | cons y ys =>
    rw [hspecs] at hlist
    have hcons : s.coList = y.addr := hlist
    have hne : s.coList ≠ 0 := by
      rw [hcons]
      exact h.nonzero y (by simp [hspecs])
    simp only [hne, if_false, Option.ite_none_right_eq_some, Option.some.injEq] at hnew
    have hlater := hbase s.coList (by rw [hspecs]; exact hcons)
    rw [hspecs] at hlater
    rw [← hnew.2]
    exact hlater

/-- The calls of `co_new` leave one record each. -/
theorem created_of_run {next : Nat → Nat} {specs : List Spec} {s : CoState}
    (hrun : runFrom coStep (coInit next) (specs.map Spec.act) = some s) : Created specs s := by
  have hgen : ∀ (done rest : List Spec) (t : CoState), Created done t →
      runFrom coStep t (rest.map Spec.act) = some s → Created (done ++ rest) s := by
    intro done rest
    induction rest generalizing done with
    | nil =>
      intro t ht hrest
      cases hrest
      rw [List.append_nil]
      exact ht
    | cons x rest ih =>
      intro t ht hrest
      obtain ⟨u, hu, hrest'⟩ := runFrom_cons.mp hrest
      have hnew : coNew t x.addr x.word x.rounds = some u := by
        simp only [Spec.act, coStep, ht.control] at hu
        exact hu
      have hdone := ih (done ++ [x]) u (ht.coNew hnew) hrest'
      rwa [List.append_assoc, List.singleton_append] at hdone
  have hinit : Created [] (coInit next) :=
    ⟨rfl, rfl, by simp, List.nodup_nil, rfl, by simp, by simp⟩
  exact hgen [] specs (coInit next) hinit hrun

/-! ## Who is running -/

/-- The coroutine whose stack control is on. -/
def Control.running : Control → Option Nat
  | .host => none
  | .body c => some c
  | .exiting c _ _ _ => some c
  | .lost => none

/-- The running coroutine is the current one, and its context is used up. -/
def Tracked (s : CoState) : Prop :=
  ∀ c, s.control.running = some c → s.coCurrent = c ∧ s.context c = .junk

/-- Who is resumed is the current coroutine. -/
theorem tracked_resume {s : CoState} {c : Nat} (hcurrent : s.coCurrent = c) (saved : Context) :
    Tracked (resume s c saved) := by
  intro d hd
  cases saved with
  | ready | exited tmp byReturn =>
    cases hd
    exact ⟨hcurrent, by simp [resume]⟩
  | junk => cases hd

/-- While the host runs there is nothing to track. -/
theorem tracked_host {s : CoState} (hhost : s.control = .host) : Tracked s := by
  intro c hc
  rw [hhost] at hc
  cases hc

/-- `co_run` resumes the current coroutine. -/
theorem tracked_coRun {s : CoState} (h : Tracked s) : Tracked (coRun s) := by
  unfold coRun
  split_ifs
  · exact tracked_resume rfl _
  · exact h

/-- `co_yield` makes the one it resumes the current one. -/
theorem tracked_coYield (s : CoState) : Tracked (coYield s) := by
  unfold coYield
  simp only
  split_ifs
  · exact tracked_resume rfl _
  · exact tracked_host rfl

/-- A return from `co_exit` does not change who runs. -/
theorem Tracked.exitReturns {s : CoState} (h : Tracked s) {c : Nat}
    (hc : s.control.running = some c) (byReturn : Bool) :
    Tracked (exitReturns s c byReturn) := by
  intro d hd
  cases byReturn with
  | false =>
    cases hd
    exact h c hc
  | true => cases hd

/-- The test at the head of `co_exit` does not change who runs. -/
theorem Tracked.coExit {s : CoState} (h : Tracked s) {c : Nat}
    (hc : s.control.running = some c) (prev : Nat) (byReturn : Bool) :
    Tracked (coExit s c prev byReturn) := by
  unfold Coroutine.coExit
  split_ifs
  · exact h.exitReturns hc byReturn
  · intro d hd
    cases hd
    exact h c hc

/-- A coroutine that leaves with a record behind it jumps to its own used-up context. -/
theorem Tracked.exitRound_lost {s : CoState} (h : Tracked s) {c tmp : Nat}
    (hc : s.control.running = some c) (htmp : tmp ≠ 0) (hfound : tmp = s.coCurrent)
    (hnext : s.next tmp ≠ 0) (prev : Nat) (byReturn : Bool) :
    (exitRound s c prev tmp byReturn).control = .lost := by
  obtain ⟨hcurrent, hjunk⟩ := h c hc
  have htarget : s.context tmp = .junk := by
    rw [hfound, hcurrent]
    exact hjunk
  unfold exitRound
  rw [if_neg htmp, if_pos hfound]
  simp only [if_pos hnext]
  split_ifs <;> simp [swtch, resume, htarget]

/-- A round of the loop of `co_exit` keeps track too. -/
theorem Tracked.exitRound {s : CoState} (h : Tracked s) {c : Nat}
    (hc : s.control.running = some c) (prev tmp : Nat) (byReturn : Bool) :
    Tracked (exitRound s c prev tmp byReturn) := by
  by_cases htmp : tmp = 0
  · unfold Coroutine.exitRound
    rw [if_pos htmp]
    exact h.exitReturns hc byReturn
  by_cases hfound : tmp = s.coCurrent
  · by_cases hnext : s.next tmp ≠ 0
    · have hlost := h.exitRound_lost hc htmp hfound hnext prev byReturn
      intro d hd
      rw [hlost] at hd
      cases hd
    · unfold Coroutine.exitRound
      rw [if_neg htmp, if_pos hfound]
      simp only [if_neg hnext]
      exact tracked_host rfl
  · unfold Coroutine.exitRound
    rw [if_neg htmp, if_neg hfound]
    intro d hd
    cases hd
    exact h c hc

/-- The record of `tmp` is the last one: its coroutine leaves to the host. -/
theorem exitRound_last {s : CoState} {tmp : Nat} (htmp : tmp ≠ 0) (hfound : tmp = s.coCurrent)
    (hnext : s.next tmp = 0) (c prev : Nat) (byReturn : Bool) :
    exitRound s c prev tmp byReturn =
      swtchHost { s with live := s.live.erase tmp, coList := 0 } s.coCurrent
        (.exited tmp byReturn) := by
  simp [exitRound, htmp, ← hfound, hnext]

/-- A round that meets neither the end nor the current coroutine goes on to the next. -/
theorem exitRound_next {s : CoState} {tmp : Nat} (htmp : tmp ≠ 0) (hother : tmp ≠ s.coCurrent)
    (c prev : Nat) (byReturn : Bool) :
    exitRound s c prev tmp byReturn =
      { s with control := .exiting c tmp (s.next tmp) byReturn } := by
  simp [exitRound, htmp, hother]

@[simp]
theorem resume_live (s : CoState) (c : Nat) (saved : Context) :
    (resume s c saved).live = s.live := by
  cases saved <;> rfl

@[simp]
theorem resume_next (s : CoState) (c : Nat) (saved : Context) :
    (resume s c saved).next = s.next := by
  cases saved <;> rfl

@[simp]
theorem resume_coList (s : CoState) (c : Nat) (saved : Context) :
    (resume s c saved).coList = s.coList := by
  cases saved <;> rfl

/-- After a switch the target runs. -/
theorem running_resume {s : CoState} {c d : Nat} {saved : Context}
    (h : (resume s c saved).control.running = some d) : d = c := by
  cases saved with
  | ready | exited tmp byReturn =>
    cases h
    rfl
  | junk => cases h

/-- Running, yielding and entering `co_exit` change neither the records nor the list. -/
structure SameList (s t : CoState) : Prop where
  next : t.next = s.next
  live : t.live = s.live
  list : t.coList = s.coList

/-- `co_run` does not touch the list. -/
theorem sameList_coRun (s : CoState) : SameList s (coRun s) := by
  unfold coRun
  split_ifs
  · exact ⟨resume_next _ _ _, resume_live _ _ _, resume_coList _ _ _⟩
  · exact ⟨rfl, rfl, rfl⟩

/-- `co_yield` does not touch the list. -/
theorem sameList_coYield (s : CoState) : SameList s (coYield s) := by
  unfold coYield
  simp only
  split_ifs
  · exact ⟨resume_next _ _ _, resume_live _ _ _, resume_coList _ _ _⟩
  · exact ⟨rfl, rfl, rfl⟩

/-- The test at the head of `co_exit` does not touch the list. -/
theorem sameList_coExit (s : CoState) (c prev : Nat) (byReturn : Bool) :
    SameList s (coExit s c prev byReturn) := by
  unfold coExit
  split_ifs <;> exact ⟨rfl, rfl, rfl⟩

/-- The coroutines after a step of a body. -/
theorem bodyTick_co (prev : Nat) (specs : List Spec) (s : RunState) (c : Nat) :
    (bodyTick prev specs s c).co = coYield s.co ∨
      ∃ byReturn, (bodyTick prev specs s c).co = coExit s.co c prev byReturn := by
  unfold bodyTick
  simp only
  split_ifs
  · exact Or.inl rfl
  · exact Or.inr ⟨_, rfl⟩
  · exact Or.inr ⟨_, rfl⟩

theorem bodyTick_host (prev : Nat) (specs : List Spec) (s : RunState) (c : Nat) :
    (bodyTick prev specs s c).host = s.host := by
  unfold bodyTick
  simp only
  split_ifs <;> rfl

/-- A body that runs does not touch the list. -/
theorem bodyTick_sameList (prev : Nat) (specs : List Spec) (s : RunState) (c : Nat) :
    SameList s.co (bodyTick prev specs s c).co := by
  rcases bodyTick_co prev specs s c with hco | ⟨byReturn, hco⟩
  · rw [hco]
    exact sameList_coYield s.co
  · rw [hco]
    exact sameList_coExit s.co c prev byReturn

/-- Whatever a body calls, who runs is tracked. -/
theorem Tracked.bodyTick {s : RunState} (h : Tracked s.co) {c : Nat}
    (hc : s.co.control.running = some c) (prev : Nat) (specs : List Spec) :
    Tracked (bodyTick prev specs s c).co := by
  rcases bodyTick_co prev specs s c with hco | ⟨byReturn, hco⟩
  · rw [hco]
    exact tracked_coYield s.co
  · rw [hco]
    exact h.coExit hc prev byReturn

/-! ## A first coroutine with a record behind it -/

section Ticks

variable {prev : Nat} {specs : List Spec}

/-- The coroutine `a` stays live, or control is lost. -/
structure FirstStays (a : Nat) (s : RunState) : Prop where
  tracked : Tracked s.co
  suspended : s.co.control ≠ .host → ∃ tmp, s.host = .after tmp
  stays : s.co.control = .lost ∨ a ∈ s.co.live ∧ s.co.next a ≠ 0

/-- The host frees nothing. -/
theorem FirstStays.hostTick {a : Nat} {s t : RunState} (h : FirstStays a s)
    (hhost : s.co.control = .host) (htick : hostTick s = some t) : FirstStays a t := by
  have hstays : a ∈ s.co.live ∧ s.co.next a ≠ 0 := by
    refine h.stays.resolve_left ?_
    rw [hhost]
    exact Control.noConfusion
  unfold Coroutine.hostTick at htick
  split at htick
  · split_ifs at htick <;> cases htick <;>
      exact ⟨h.tracked, fun hne => absurd hhost hne, h.stays⟩
  · next tmp hpc =>
    split_ifs at htick <;> cases htick
    · exact ⟨h.tracked, fun hne => absurd hhost hne, h.stays⟩
    · have hsame := sameList_coRun s.co
      refine ⟨tracked_coRun h.tracked, fun _ => ⟨tmp, rfl⟩, Or.inr ?_⟩
      simp only [hsame.live, hsame.next]
      exact hstays
  · cases htick
    exact ⟨h.tracked, fun hne => absurd hhost hne, h.stays⟩
  · cases htick

/-- No step frees the coroutine, unless control is lost. -/
theorem FirstStays.tick {a : Nat} {s t : RunState} (h : FirstStays a s)
    (htick : tick prev specs s () = some t) : FirstStays a t := by
  unfold Coroutine.tick at htick
  split at htick
  · next hhost => exact h.hostTick hhost htick
  · next c hbody =>
    cases htick
    have hc : s.co.control.running = some c := by rw [hbody]; rfl
    have hstays : a ∈ s.co.live ∧ s.co.next a ≠ 0 := by
      refine h.stays.resolve_left ?_
      rw [hbody]
      exact Control.noConfusion
    have hsame := bodyTick_sameList prev specs s c
    refine ⟨h.tracked.bodyTick hc prev specs, ?_, Or.inr ?_⟩
    · intro _
      rw [bodyTick_host]
      exact h.suspended (by rw [hbody]; exact Control.noConfusion)
    · rw [hsame.live, hsame.next]
      exact hstays
  · next c p tmp byReturn hexit =>
    cases htick
    have hc : s.co.control.running = some c := by rw [hexit]; rfl
    have hstays : a ∈ s.co.live ∧ s.co.next a ≠ 0 := by
      refine h.stays.resolve_left ?_
      rw [hexit]
      exact Control.noConfusion
    refine ⟨h.tracked.exitRound hc p tmp byReturn, ?_, ?_⟩
    · intro _
      exact h.suspended (by rw [hexit]; exact Control.noConfusion)
    · by_cases htmp : tmp = 0
      · right
        simp only [exitRound, if_pos htmp]
        exact hstays
      by_cases hfound : tmp = s.co.coCurrent
      · by_cases hnext : s.co.next tmp = 0
        · right
          have hne : a ≠ tmp := by
            intro heq
            exact hstays.2 (heq ▸ hnext)
          rw [exitRound_last htmp hfound hnext c p byReturn]
          exact ⟨(List.mem_erase_of_ne hne).mpr hstays.1, hstays.2⟩
        · exact Or.inl (h.tracked.exitRound_lost hc htmp hfound hnext p byReturn)
      · right
        rw [exitRound_next htmp hfound c p byReturn]
        exact hstays
  · cases htick

/-! ## A first coroutine without a record behind it -/

/-- Only the coroutine `a` ever runs. -/
structure OnlyFirst (a : Nat) (s : RunState) : Prop where
  tracked : Tracked s.co
  list : s.co.coList = a ∨ s.co.coList = 0
  next : s.co.next a = 0
  running : ∀ c, s.co.control.running = some c → c = a
  trace : ∀ e ∈ s.trace, e.1 = a

/-- After a return from `co_exit` the same coroutine runs. -/
theorem running_exitReturns {s : CoState} {c d : Nat} {byReturn : Bool}
    (h : (exitReturns s c byReturn).control.running = some d) : d = c := by
  cases byReturn with
  | false =>
    cases h
    rfl
  | true => cases h

/-- In `co_exit` the same coroutine runs. -/
theorem running_coExit {s : CoState} {c d prev : Nat} {byReturn : Bool}
    (h : (coExit s c prev byReturn).control.running = some d) : d = c := by
  unfold coExit at h
  split_ifs at h
  · exact running_exitReturns h
  · cases h
    rfl

/-- The host runs only the first coroutine. -/
theorem OnlyFirst.hostTick {a : Nat} {s t : RunState} (h : OnlyFirst a s)
    (htick : hostTick s = some t) : OnlyFirst a t := by
  unfold Coroutine.hostTick at htick
  split at htick
  · split_ifs at htick <;> cases htick <;>
      exact ⟨h.tracked, h.list, h.next, h.running, h.trace⟩
  · split_ifs at htick <;> cases htick
    · exact ⟨h.tracked, h.list, h.next, h.running, h.trace⟩
    · have hsame := sameList_coRun s.co
      refine ⟨tracked_coRun h.tracked, ?_, ?_, ?_, h.trace⟩
      · simp only [hsame.list]
        exact h.list
      · simp only [hsame.next]
        exact h.next
      · intro c hc
        simp only [coRun] at hc
        split_ifs at hc with hlist
        · rw [running_resume hc]
          exact h.list.resolve_right hlist
        · exact h.running c hc
  · cases htick
    exact ⟨h.tracked, h.list, h.next, h.running, h.trace⟩
  · cases htick

/-- It yields to the host or enters `co_exit`. -/
theorem OnlyFirst.bodyTick {a : Nat} {s : RunState} (h : OnlyFirst a s)
    (hbody : s.co.control = .body a) : OnlyFirst a (bodyTick prev specs s a) := by
  have hc : s.co.control.running = some a := by rw [hbody]; rfl
  have hsame := bodyTick_sameList prev specs s a
  refine ⟨h.tracked.bodyTick hc prev specs, ?_, ?_, ?_, ?_⟩
  · rw [hsame.list]
    exact h.list
  · rw [hsame.next]
    exact h.next
  · intro c hrunning
    rcases bodyTick_co prev specs s a with hco | ⟨byReturn, hco⟩
    · rw [hco] at hrunning
      have hcurrent := (h.tracked a hc).1
      simp [coYield, hcurrent, h.next, swtchHost, Control.running] at hrunning
    · rw [hco] at hrunning
      exact running_coExit hrunning
  · intro e he
    unfold Coroutine.bodyTick at he
    simp only at he
    split_ifs at he
    · simp only [List.mem_append, List.mem_singleton] at he
      exact he.elim (h.trace e) (fun heq => by rw [heq])
    · simp only [List.mem_append, List.mem_singleton] at he
      exact he.elim (h.trace e) (fun heq => by rw [heq])
    · exact h.trace e he

/-- No step lets another coroutine run. -/
theorem OnlyFirst.tick {a : Nat} {s t : RunState} (h : OnlyFirst a s)
    (htick : tick prev specs s () = some t) : OnlyFirst a t := by
  unfold Coroutine.tick at htick
  split at htick
  · exact h.hostTick htick
  · next c hbody =>
    cases htick
    have hca : c = a := h.running c (by rw [hbody]; rfl)
    subst hca
    exact h.bodyTick hbody
  · next c p tmp byReturn hexit =>
    cases htick
    have hc : s.co.control.running = some c := by rw [hexit]; rfl
    have hca : c = a := h.running c hc
    have htracked := h.tracked.exitRound hc p tmp byReturn
    by_cases htmp : tmp = 0
    · refine ⟨htracked, ?_, ?_, ?_, h.trace⟩
      · simp only [exitRound, if_pos htmp]
        exact h.list
      · simp only [exitRound, if_pos htmp]
        exact h.next
      · intro d hd
        simp only [exitRound, if_pos htmp] at hd
        rw [running_exitReturns hd]
        exact hca
    by_cases hfound : tmp = s.co.coCurrent
    · have htmpa : tmp = a := by
        rw [hfound, (h.tracked c hc).1]
        exact hca
      have hshape := exitRound_last htmp hfound (htmpa ▸ h.next) c p byReturn
      rw [hshape] at htracked ⊢
      refine ⟨htracked, Or.inr rfl, h.next, ?_, h.trace⟩
      intro d hd
      cases hd
    · have hshape := exitRound_next htmp hfound c p byReturn
      rw [hshape] at htracked ⊢
      refine ⟨htracked, h.list, h.next, ?_, h.trace⟩
      intro d hd
      cases hd
      exact hca
  · cases htick

/-! ## One coroutine -/

/-- The one pass over a single coroutine that yields. -/
inductive OnePass (a : Nat) (s : RunState) : Prop
  | start (hhost : s.host = .start) (hcontrol : s.co.control = .host) (hlist : s.co.coList = a)
      (hlive : s.co.live = [a]) (hnext : s.co.next a = 0) (hcontext : s.co.context a = .ready)
      (hdone : s.done a = 0)
  | loop (hhost : s.host = .loop a) (hcontrol : s.co.control = .host) (hlist : s.co.coList = a)
      (hlive : s.co.live = [a]) (hnext : s.co.next a = 0) (hcontext : s.co.context a = .ready)
      (hdone : s.done a = 0)
  | body (hhost : s.host = .after a) (hcontrol : s.co.control = .body a)
      (hcurrent : s.co.coCurrent = a) (hlive : s.co.live = [a]) (hnext : s.co.next a = 0)
      (hdone : s.done a = 0)
  | yielded (hhost : s.host = .after a) (hcontrol : s.co.control = .host)
      (hlive : s.co.live = [a]) (hnext : s.co.next a = 0)
  | last (hhost : s.host = .loop 0) (hcontrol : s.co.control = .host) (hlive : s.co.live = [a])
  | returned (hhost : s.host = .returned 1) (hcontrol : s.co.control = .host)
      (hlive : s.co.live = [a])

theorem OnePass.live {a : Nat} {s : RunState} (h : OnePass a s) : s.co.live = [a] := by
  cases h <;> assumption

/-- Each step is the next one of the pass. -/
theorem OnePass.tick {a : Nat} {s t : RunState} (ha : a ≠ 0) (hsteps : 1 < stepsOf specs a)
    (h : OnePass a s) (htick : tick prev specs s () = some t) : OnePass a t := by
  unfold Coroutine.tick at htick
  cases h with
  | start hhost hcontrol hlist hlive hnext hcontext hdone =>
    simp only [hcontrol, hostTick, hhost, hlist, if_neg ha, Option.some.injEq] at htick
    subst htick
    exact .loop rfl hcontrol hlist hlive hnext hcontext hdone
  | loop hhost hcontrol hlist hlive hnext hcontext hdone =>
    simp only [hcontrol, hostTick, hhost, coRun, hlist, ne_eq, ha, not_false_eq_true,
      if_true, if_false, hcontext, resume, Option.some.injEq] at htick
    subst htick
    exact .body rfl rfl rfl hlive hnext hdone
  | body hhost hcontrol hcurrent hlive hnext hdone =>
    have hfirst : 0 < stepsOf specs a := Nat.lt_of_succ_lt hsteps
    simp only [hcontrol, bodyTick, hdone, hfirst, if_true, Nat.zero_add, hsteps, coYield,
      hcurrent, hnext, ne_eq, not_true_eq_false, if_false, swtchHost, Option.some.injEq] at htick
    subst htick
    exact .yielded hhost rfl hlive hnext
  | yielded hhost hcontrol hlive hnext =>
    simp only [hcontrol, hostTick, hhost, hnext, Option.some.injEq] at htick
    subst htick
    exact .last rfl hcontrol hlive
  | last hhost hcontrol hlive =>
    simp only [hcontrol, hostTick, hhost, if_true, Option.some.injEq] at htick
    subst htick
    exact .returned rfl hcontrol hlive
  | returned hhost hcontrol hlive =>
    simp only [hcontrol, hostTick, hhost] at htick
    cases htick

end Ticks

theorem stepsOf_head (x : Spec) (rest : List Spec) : stepsOf (x :: rest) x.addr = x.steps := by
  simp [stepsOf]

/-- A single coroutine with one step, in memory that was zero, is completed. -/
theorem completes_single {s : CoState} {x : Spec} (h : Created [x] s) (hword : x.word = 0)
    (hsteps : x.steps = 1) (prev : Nat) : Completes prev [x] s := by
  have hmem : x ∈ [x] := List.mem_singleton.mpr rfl
  have ha := h.nonzero x hmem
  have hlist : s.coList = x.addr := h.list
  have hnext : s.next x.addr = 0 := (h.next x hmem).trans hword
  have hlive : s.live = [x.addr] := h.live
  have hone : stepsOf [x] x.addr = 1 := (stepsOf_head x []).trans hsteps
  have hcontext : s.context x.addr = .ready := h.context x hmem
  -- start, `co_run`, the step, the round of `co_exit`, and the end of the loop
  have hrun : runFrom (tick prev [x]) (callRunAll s) (List.replicate 6 ()) = some
      { co :=
          { next := s.next
            context := Function.update s.context x.addr (.exited x.addr (returnsOf [x] x.addr))
            coList := 0
            coCurrent := x.addr
            control := .host
            live := [] }
        done := Function.update (fun _ => 0) x.addr 1
        trace := [(x.addr, 0)]
        host := .returned 1 } := by
    simp [runFrom, tick, callRunAll, hostTick, h.control, hlist, ha, coRun, hcontext, resume,
      bodyTick, hone, coExit, exitRound, hnext, swtchHost, hlive]
  refine ⟨List.replicate 6 (), _, hrun, rfl, rfl, ?_, ?_⟩
  · intro y hy
    rw [List.mem_singleton.mp hy, hsteps]
    simp
  · -- there is only one step
    intro before between after c k htrace
    have hlength := congrArg List.length htrace
    simp only [List.length_append, List.length_cons, List.length_nil] at hlength
    omega

/-- `co_run_all` completes the coroutines created before it exactly when there is one of them,
its record came from memory that was zero where the `next` field is, and its body has one
step.  With no coroutine it returns 0 at once. -/
theorem co_run_all_completes_iff (next : Nat → Nat) (prev : Nat) (specs : List Spec)
    (hsteps : ∀ x ∈ specs, 0 < x.steps) (s : CoState)
    (hnew : runFrom coStep (coInit next) (specs.map Spec.act) = some s) :
    (specs ≠ [] →
      (Completes prev specs s ↔ ∃ x, specs = [x] ∧ x.word = 0 ∧ x.steps = 1)) ∧
    (specs = [] →
      runFrom (tick prev specs) (callRunAll s) [()] =
        some { callRunAll s with host := .returned 0 }) := by
  have hcreated := created_of_run hnew
  have htracked : Tracked s := tracked_host hcreated.control
  have hlist := hcreated.list
  constructor
  swap
  · intro hnil
    rw [hnil] at hlist
    have hzero : s.coList = 0 := hlist
    simp [runFrom, tick, callRunAll, hcreated.control, hostTick, hzero]
  intro hne
  constructor
  swap
  · intro hone
    obtain ⟨x, hspecs, hword, hx⟩ := hone
    rw [hspecs] at hcreated ⊢
    exact completes_single hcreated hword hx prev
  intro hcompletes
  obtain ⟨ticks, t, hrun, hreturned, hlive, hall, -⟩ := hcompletes
  cases hspecs : specs with
  | nil => exact absurd hspecs hne
  | cons x rest =>
    have hmem : x ∈ specs := by simp [hspecs]
    rw [hspecs] at hlist
    have hfirst : s.coList = x.addr := hlist
    have hxlive : x.addr ∈ s.live := by
      rw [hcreated.live]
      exact List.mem_map_of_mem hmem
    -- the first record has nothing behind it, or its coroutine is still live at the end
    have hword : x.word = 0 := by
      by_contra hword
      have hinit : FirstStays x.addr (callRunAll s) := by
        refine ⟨htracked, fun hne => absurd hcreated.control hne, Or.inr ⟨hxlive, ?_⟩⟩
        rw [← hcreated.next x hmem] at hword
        exact hword
      have hfinal := runFrom_invariant (fun s a t hs hst => FirstStays.tick hs hst) hinit hrun
      rcases hfinal.stays with hlost | ⟨hstill, -⟩
      · obtain ⟨tmp, htmp⟩ := hfinal.suspended (by rw [hlost]; exact Control.noConfusion)
        rw [htmp] at hreturned
        cases hreturned
      · rw [hlive] at hstill
        cases hstill
    have hnext : s.next x.addr = 0 := (hcreated.next x hmem).trans hword
    -- no other coroutine makes a step
    have hrest : rest = [] := by
      by_contra hrest
      obtain ⟨y, ys, hys⟩ := List.exists_cons_of_ne_nil hrest
      have hymem : y ∈ specs := by simp [hspecs, hys]
      have hyx : y.addr ≠ x.addr := by
        have hnodup := hcreated.nodup
        rw [hspecs, hys] at hnodup
        intro heq
        simp [heq] at hnodup
      have hinit : OnlyFirst x.addr (callRunAll s) := by
        refine ⟨htracked, Or.inl hfirst, hnext, ?_, by simp [callRunAll]⟩
        intro c hc
        simp [callRunAll, hcreated.control, Control.running] at hc
      have hfinal := runFrom_invariant (fun s a t hs hst => OnlyFirst.tick hs hst) hinit hrun
      have hnone : t.trace.filter (fun e => e.1 = y.addr) = [] := by
        rw [List.filter_eq_nil_iff]
        intro e he
        rw [hfinal.trace e he]
        simpa using hyx.symm
      have hysteps := hall y hymem
      rw [hnone, List.map_nil, eq_comm, List.range_eq_nil] at hysteps
      have hpos := hsteps y hymem
      omega
    -- one pass is not enough for a body that yields
    have hone : x.steps = 1 := by
      by_contra hmany
      have hpos := hsteps x hmem
      have hinit : OnePass x.addr (callRunAll s) := by
        refine .start rfl hcreated.control hfirst ?_ hnext (hcreated.context x hmem) rfl
        rw [callRunAll, hcreated.live, hspecs, hrest]
        rfl
      have hmore : 1 < stepsOf specs x.addr := by
        rw [hspecs, stepsOf_head]
        omega
      have hfinal := runFrom_invariant
        (fun s a t hs hst => OnePass.tick (hcreated.nonzero x hmem) hmore hs hst) hinit hrun
      have hstill := hfinal.live
      rw [hlive] at hstill
      cases hstill
    exact ⟨x, by rw [hrest], hword, hone⟩

/-- A coroutine whose body has one step, in memory that was zero. -/
theorem co_run_all_completes_iff_single :
    ∃ s, runFrom coStep (coInit fun _ => 0) [Spec.act ⟨100, 0, 0, 1, true⟩] = some s ∧
      Completes 0 [⟨100, 0, 0, 1, true⟩] s := by
  obtain ⟨s, hs⟩ : ∃ s, runFrom coStep (coInit fun _ => 0) [Spec.act ⟨100, 0, 0, 1, true⟩] =
      some s := ⟨_, rfl⟩
  have hiff := (co_run_all_completes_iff (fun _ => 0) 0 [⟨100, 0, 0, 1, true⟩] (by simp) s hs).1
    (by simp)
  exact ⟨s, hs, hiff.mpr ⟨_, rfl, rfl, rfl⟩⟩

/-- One coroutine with two steps: `co_run_all` returns 1 while it is live and half done. -/
theorem co_run_all_leaves_coroutine :
    ∃ s t, runFrom coStep (coInit fun _ => 0) [Spec.act ⟨100, 0, 0, 2, true⟩] = some s ∧
      runFrom (tick 0 [⟨100, 0, 0, 2, true⟩]) (callRunAll s) (List.replicate 5 ()) = some t ∧
      t.host = .returned 1 ∧ t.co.live = [100] ∧ t.trace = [(100, 0)] := by
  refine ⟨_, _, rfl, rfl, ?_⟩
  decide

end Xv6.Coroutine
