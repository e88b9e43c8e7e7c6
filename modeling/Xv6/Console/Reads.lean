import Xv6.Console.Input

/-!
# Console - Reads of any number of processes

Processes call `consoleread`, which may wait in the middle and gives {lit}`input.lock` back
while it does, and characters arrive through `consoleintr` at any time.  The state keeps the
committed characters, and for every character taken from the buffer the call that took it.
A call is named by its process and its position among the results of that process.

Main results:

- Theorem {lit}`Accounted.step`: every section keeps the books.
- Theorem {lit}`console_line_discipline`: the counters stay in order, erasing never reaches a
  committed character, and the committed characters are delivered to the calls in order, each
  to one call.
-/

namespace Xv6.Console

open Foundations

/-- Where a process is in a call of `consoleread`: the size asked for, the bytes to go and
the bytes stored so far. -/
inductive ReadPc where
  | idle
  | reading (target n : Nat) (dst : List UInt8)
  | asleep (target n : Nat) (dst : List UInt8)
  deriving DecidableEq

/-- A call that returned: its size, and the bytes it returned or {lit}`-1`. -/
structure ReadResult where
  target : Nat
  bytes : Option (List UInt8)
  deriving DecidableEq

/-- The console and its readers. -/
structure ConsoleState (ι : Type) where
  input : Input
  pc : ι → ReadPc
  killed : ι → Bool
  results : ι → List ReadResult
  committed : List UInt8
  taken : List ((ι × Nat) × UInt8)

/-- The sections.  As for every sleeping process, a kill that comes between the test of the
flag and the sleep does not find it asleep. -/
inductive ConsoleAct (ι : Type) where
  | intr (c : UInt8)
  | read (i : ι) (n : Nat)
  | run (i : ι)
  | kill (i : ι) (asleep : Bool)

/-- {lit}`wakeup(&input.r)` as seen by one process. -/
def ReadPc.wake : ReadPc → ReadPc
  | .asleep target n dst => .reading target n dst
  | pc => pc

section Sections

variable {ι : Type} [DecidableEq ι]

/-- The console after boot; the contents of the buffer do not matter. -/
def consoleinit (buf : Fin inputBuf → UInt8) (killed : ι → Bool) : ConsoleState ι where
  input := ⟨buf, 0, 0, 0⟩
  pc := fun _ => .idle
  killed := killed
  results := fun _ => []
  committed := []
  taken := []

/-- `consoleintr` for one character. -/
def consoleintr (s : ConsoleState ι) (c : UInt8) : ConsoleState ι :=
  match s.input.typed c with
  | (input, none) => { s with input := input }
  | (input, some line) =>
    { s with input := input, committed := s.committed ++ line, pc := fun j => (s.pc j).wake }

/-- The characters `xs` are taken by the current call of `i`. -/
def ConsoleState.takes (s : ConsoleState ι) (i : ι) (input : Input) (xs : List UInt8) :
    ConsoleState ι :=
  { s with
    input := input
    taken := s.taken ++ xs.map fun c => ((i, (s.results i).length), c) }

/-- The call of `i` returns. -/
def ConsoleState.finish (s : ConsoleState ι) (i : ι) (result : ReadResult) : ConsoleState ι :=
  { s with
    pc := Function.update s.pc i .idle
    results := Function.update s.results i (s.results i ++ [result]) }

/-- `consoleread` of `i` from the test of its loop on, up to its return or its next sleep. -/
def consoleread (s : ConsoleState ι) (i : ι) (target n : Nat) (dst : List UInt8) :
    ConsoleState ι :=
  let t := s.input.take target n
  let s' := s.takes i t.input t.taken
  match t.waits with
  | none => s'.finish i ⟨target, some (dst ++ t.stored)⟩
  | some m =>
    if s.killed i then s'.finish i ⟨target, none⟩
    else { s' with pc := Function.update s'.pc i (.asleep target m (dst ++ t.stored)) }

/-- One section. -/
def consoleStep (s : ConsoleState ι) : ConsoleAct ι → Option (ConsoleState ι)
  | .intr c => some (consoleintr s c)
  | .read i n =>
    if s.pc i = .idle then some { s with pc := Function.update s.pc i (.reading n n []) }
    else none
  | .run i =>
    match s.pc i with
    | .reading target n dst => some (consoleread s i target n dst)
    | _ => none
  | .kill i asleep =>
    some { s with
      killed := Function.update s.killed i true
      pc := if asleep then Function.update s.pc i (s.pc i).wake else s.pc }

/-- The characters taken by the `k`-th call of `i`, in order. -/
def ConsoleState.takenBy (s : ConsoleState ι) (i : ι) (k : Nat) : List UInt8 :=
  (s.taken.filter fun x => x.1 = (i, k)).map Prod.snd

/-! ## The books -/

/-- What a process took in the call it is in. -/
def Current : ReadPc → List UInt8 → Prop
  | .idle, xs => xs = []
  | .reading target n dst, xs | .asleep target n dst, xs =>
    xs = dst ∧ dst.length + n = target ∧ ctrlD ∉ dst ∧ (0 < target → 0 < n)

/-- What a call took that returned: the bytes it returned, or a control-D if it returned
none.  Only the calls of killed processes fail. -/
def Finished (killed : Bool) (result : ReadResult) (xs : List UInt8) : Prop :=
  match result.bytes with
  | none => killed = true
  | some bytes =>
    ctrlD ∉ bytes ∧ (0 < result.target → xs = if bytes = [] then [ctrlD] else bytes)

/-- The committed characters are those taken, each by one call, and those still in the
buffer. -/
structure Accounted (s : ConsoleState ι) : Prop where
  held : ∃ pending edited, s.input.Holds pending edited ∧
    s.committed = s.taken.map Prod.snd ++ pending
  current : ∀ i, Current (s.pc i) (s.takenBy i (s.results i).length)
  finished : ∀ i k result, (s.results i)[k]? = some result →
    Finished (s.killed i) result (s.takenBy i k)
  later : ∀ i k, (s.results i).length < k → s.takenBy i k = []

omit [DecidableEq ι] in
theorem Current.wake {pc : ReadPc} {xs : List UInt8} (h : Current pc xs) :
    Current pc.wake xs := by
  cases pc <;> exact h

theorem Accounted.intr {s : ConsoleState ι} (h : Accounted s) (c : UInt8) :
    Accounted (consoleintr s c) := by
  obtain ⟨pending, edited, hheld, hcommitted⟩ := h.held
  obtain ⟨-, edited', htyped⟩ := Input.typed_spec hheld c
  unfold consoleintr
  generalize hresult : s.input.typed c = result at htyped
  obtain ⟨input, _ | line⟩ := result
  · rw [Option.getD_none, List.append_nil] at htyped
    exact ⟨⟨pending, edited', htyped, hcommitted⟩, h.current, h.finished, h.later⟩
  · rw [Option.getD_some] at htyped
    refine ⟨⟨pending ++ line, edited', htyped, ?_⟩, ?_, h.finished, h.later⟩
    · simp only [hcommitted, List.append_assoc]
    · intro i
      exact (h.current i).wake

theorem Accounted.start {s : ConsoleState ι} (h : Accounted s) {i : ι} (hidle : s.pc i = .idle)
    (n : Nat) : Accounted { s with pc := Function.update s.pc i (.reading n n []) } := by
  refine ⟨h.held, ?_, h.finished, h.later⟩
  intro j
  by_cases hji : j = i
  · subst hji
    have hnone := h.current j
    rw [hidle] at hnone
    simp only [Function.update_self]
    exact ⟨hnone, by simp, by simp, id⟩
  · simp only [Function.update_of_ne hji]
    exact h.current j

theorem Accounted.kill {s : ConsoleState ι} (h : Accounted s) (i : ι) (asleep : Bool) :
    Accounted { s with
      killed := Function.update s.killed i true
      pc := if asleep then Function.update s.pc i (s.pc i).wake else s.pc } := by
  refine ⟨h.held, ?_, ?_, h.later⟩
  · intro j
    cases asleep with
    | false => exact h.current j
    | true =>
      by_cases hji : j = i
      · subst hji
        simp only [if_true, Function.update_self]
        exact (h.current j).wake
      · simp only [if_true, Function.update_of_ne hji]
        exact h.current j
  · intro j k result hk
    have hfinished := h.finished j k result hk
    by_cases hji : j = i
    · subst hji
      simp only [Function.update_self]
      unfold Finished at hfinished ⊢
      cases hbytes : result.bytes with
      | none => rfl
      | some bytes =>
        rw [hbytes] at hfinished
        exact hfinished
    · simp only [Function.update_of_ne hji]
      exact hfinished

/-! ## Taking characters -/

theorem takenBy_takes (s : ConsoleState ι) (i : ι) (input : Input) (xs : List UInt8) :
    (s.takes i input xs).takenBy i (s.results i).length =
      s.takenBy i (s.results i).length ++ xs := by
  simp [ConsoleState.takes, ConsoleState.takenBy, List.filter_map, Function.comp_def]

theorem takenBy_takes_of_ne (s : ConsoleState ι) {i j : ι} {k : Nat} (input : Input)
    (xs : List UInt8) (hne : (j, k) ≠ (i, (s.results i).length)) :
    (s.takes i input xs).takenBy j k = s.takenBy j k := by
  have hskip : ¬ (i, (s.results i).length) = (j, k) := Ne.symm hne
  simp [ConsoleState.takes, ConsoleState.takenBy, List.filter_map, Function.comp_def, hskip]

/-- The books in the middle of a section of `i`, whose call took `xs` so far. -/
structure AccountedBut (s : ConsoleState ι) (i : ι) (xs : List UInt8) : Prop where
  held : ∃ pending edited, s.input.Holds pending edited ∧
    s.committed = s.taken.map Prod.snd ++ pending
  own : s.takenBy i (s.results i).length = xs
  current : ∀ j, j ≠ i → Current (s.pc j) (s.takenBy j (s.results j).length)
  finished : ∀ j k result, (s.results j)[k]? = some result →
    Finished (s.killed j) result (s.takenBy j k)
  later : ∀ j k, (s.results j).length < k → s.takenBy j k = []

theorem Accounted.takes {s : ConsoleState ι} (h : Accounted s) {i : ι} {input : Input}
    {pending edited xs rest : List UInt8}
    (hcommitted : s.committed = s.taken.map Prod.snd ++ pending)
    (hsplit : pending = xs ++ rest) (hrest : input.Holds rest edited) :
    AccountedBut (s.takes i input xs) i (s.takenBy i (s.results i).length ++ xs) := by
  constructor
  · refine ⟨rest, edited, hrest, ?_⟩
    simp [ConsoleState.takes, hcommitted, hsplit, Function.comp_def]
  · exact takenBy_takes s i input xs
  · intro j hji
    rw [takenBy_takes_of_ne]
    · exact h.current j
    · intro heq
      exact hji (congrArg Prod.fst heq)
  · intro j k result hk
    rw [takenBy_takes_of_ne]
    · exact h.finished j k result hk
    · intro heq
      cases heq
      -- the current call is not among the results
      have hlt := (List.getElem?_eq_some_iff.mp hk).1
      exact Nat.lt_irrefl _ hlt
  · intro j k hk
    rw [takenBy_takes_of_ne]
    · exact h.later j k hk
    · intro heq
      cases heq
      exact Nat.lt_irrefl _ hk

theorem AccountedBut.finish {s : ConsoleState ι} {i : ι} {xs : List UInt8}
    (h : AccountedBut s i xs) {result : ReadResult} (hresult : Finished (s.killed i) result xs) :
    Accounted (s.finish i result) := by
  have htaken : ∀ j k, (s.finish i result).takenBy j k = s.takenBy j k := fun j k => rfl
  constructor
  · exact h.held
  · intro j
    rw [htaken]
    by_cases hji : j = i
    · subst hji
      simp only [ConsoleState.finish, Function.update_self, List.length_append,
        List.length_singleton]
      exact h.later j _ (Nat.lt_succ_self _)
    · simp only [ConsoleState.finish, Function.update_of_ne hji]
      exact h.current j hji
  · intro j k result' hk
    rw [htaken]
    by_cases hji : j = i
    · subst hji
      simp only [ConsoleState.finish, Function.update_self] at hk
      by_cases hlast : k = (s.results j).length
      · subst hlast
        have heq : result = result' := by simpa using hk
        rw [← heq, h.own]
        exact hresult
      · have hbound := (List.getElem?_eq_some_iff.mp hk).1
        rw [List.length_append, List.length_singleton] at hbound
        rw [List.getElem?_append_left (by omega)] at hk
        exact h.finished j k result' hk
    · simp only [ConsoleState.finish, Function.update_of_ne hji] at hk
      exact h.finished j k result' hk
  · intro j k hk
    rw [htaken]
    apply h.later
    by_cases hji : j = i
    · subst hji
      simp only [ConsoleState.finish, Function.update_self, List.length_append,
        List.length_singleton] at hk
      omega
    · simpa only [ConsoleState.finish, Function.update_of_ne hji] using hk

theorem AccountedBut.sleep {s : ConsoleState ι} {i : ι} {xs : List UInt8} {pc : ReadPc}
    (h : AccountedBut s i xs) (hpc : Current pc xs) :
    Accounted { s with pc := Function.update s.pc i pc } := by
  refine ⟨h.held, ?_, h.finished, h.later⟩
  intro j
  by_cases hji : j = i
  · subst hji
    have hown := h.own
    simp only [Function.update_self]
    unfold ConsoleState.takenBy at hown ⊢
    rwa [hown]
  · simp only [Function.update_of_ne hji]
    exact h.current j hji

/-- A call that ends took the bytes it returns, or one control-D and nothing else. -/
theorem finished_of_ends {target n : Nat} {dst taken stored : List UInt8} {killed : Bool}
    (hlen : dst.length + n = target) (hdst : ctrlD ∉ dst) (hpos : 0 < target → 0 < n)
    (hstored : ctrlD ∉ stored)
    (hends : (taken = stored ∧ (n = target → 0 < n → stored ≠ [])) ∨
      (taken = [ctrlD] ∧ stored = [] ∧ n = target)) :
    Finished killed ⟨target, some (dst ++ stored)⟩ (dst ++ taken) := by
  refine ⟨by simp [hdst, hstored], ?_⟩
  intro htarget
  rcases hends with ⟨htaken, hsome⟩ | ⟨htaken, hnone, hall⟩
  · have hne : dst ++ stored ≠ [] := by
      intro hnil
      obtain ⟨hdnil, hsnil⟩ := List.append_eq_nil_iff.mp hnil
      rw [hdnil, List.length_nil, Nat.zero_add] at hlen
      exact hsome hlen (hpos htarget) hsnil
    rw [if_neg hne, htaken]
  · have hdnil : dst = [] := List.length_eq_zero_iff.mp (by omega)
    rw [hdnil, htaken, hnone]
    rfl

theorem Accounted.consoleread {s : ConsoleState ι} (h : Accounted s) {i : ι} {target n : Nat}
    {dst : List UInt8} (hpc : s.pc i = .reading target n dst) :
    Accounted (consoleread s i target n dst) := by
  obtain ⟨pending, edited, hheld, hcommitted⟩ := h.held
  obtain ⟨hdst, hlen, hplain, hpos⟩ : Current (.reading target n dst) _ := hpc ▸ h.current i
  have htake := Input.take_spec n (by omega : n ≤ target) hheld
  obtain ⟨rest, hsplit, hrest⟩ := htake.held
  have hbut := h.takes (i := i) hcommitted hsplit hrest
  rw [hdst] at hbut
  unfold Xv6.Console.consoleread
  cases hwaits : (s.input.take target n).waits with
  | none =>
    simp only [hwaits]
    exact hbut.finish (finished_of_ends hlen hplain hpos htake.plain (htake.ends hwaits))
  | some m =>
    obtain ⟨htaken, hm, hmn⟩ := htake.waits m hwaits
    by_cases hkilled : s.killed i = true
    · simp only [hwaits, hkilled, if_true]
      have hfailed : Finished (s.killed i) ⟨target, none⟩
          (dst ++ (s.input.take target n).taken) := hkilled
      exact hbut.finish hfailed
    · simp only [hwaits, hkilled, Bool.false_eq_true, if_false]
      have hcurrent : Current (.asleep target m (dst ++ (s.input.take target n).stored))
          (dst ++ (s.input.take target n).taken) := by
        refine ⟨by rw [htaken], ?_, ?_, fun _ => hm⟩
        · rw [List.length_append]
          omega
        · simp [hplain, htake.plain]
      exact hbut.sleep hcurrent

/-- Every section keeps the books. -/
theorem Accounted.step {s t : ConsoleState ι} {a : ConsoleAct ι} (h : Accounted s)
    (hstep : consoleStep s a = some t) : Accounted t := by
  cases a with
  | intr c =>
    cases hstep
    exact h.intr c
  | read i n =>
    simp only [consoleStep, Option.ite_none_right_eq_some, Option.some.injEq] at hstep
    rw [← hstep.2]
    exact h.start hstep.1 n
  | run i =>
    simp only [consoleStep] at hstep
    split at hstep
    · next target n dst hpc =>
      cases hstep
      exact h.consoleread hpc
    · cases hstep
  | kill i asleep =>
    cases hstep
    exact h.kill i asleep

theorem accounted_consoleinit (buf : Fin inputBuf → UInt8) (killed : ι → Bool) :
    Accounted (consoleinit buf killed) := by
  refine ⟨⟨[], [], ⟨Window.empty buf 0, rfl⟩, rfl⟩, fun i => rfl, ?_, fun i k _ => rfl⟩
  intro i k result hk
  simp [consoleinit] at hk

/-- An erasing character leaves the committed characters as they are. -/
theorem Accounted.erase {s : ConsoleState ι} (h : Accounted s) {c : UInt8}
    (hc : Input.Erases c) :
    (consoleintr s c).committed = s.committed ∧ (consoleintr s c).input.buf = s.input.buf ∧
      (consoleintr s c).input.r = s.input.r ∧ (consoleintr s c).input.w = s.input.w ∧
      ((consoleintr s c).input.e - s.input.w).toNat ≤ (s.input.e - s.input.w).toNat := by
  obtain ⟨pending, edited, hheld, -⟩ := h.held
  obtain ⟨hnone, herased⟩ := Input.typed_erase hheld hc
  obtain ⟨edited', hprefix, hheld'⟩ := herased.held
  have hshape : consoleintr s c = { s with input := (s.input.typed c).1 } := by
    unfold consoleintr
    generalize hresult : s.input.typed c = result at hnone
    obtain ⟨input, line⟩ := result
    cases hnone
    rfl
  rw [hshape]
  refine ⟨rfl, herased.buf, herased.r, herased.w, ?_⟩
  have hnew := hheld'.edited_window.sub inputBuf_lt
  rw [herased.w] at hnew
  rw [hnew, hheld.edited_window.sub inputBuf_lt]
  exact hprefix.length_le

/-- In every run, also when the counters wrap: `w - r` and `e - r` stay in order and in
bounds; erasing never reaches a committed character; and the committed characters are, in
order, those taken by the calls and those still in the buffer.  A call of positive size of a
process that is not killed returns exactly the characters it took, or a zero-length result
for a control-D, and every character taken belongs to a call that was made. -/
theorem console_line_discipline (buf : Fin inputBuf → UInt8) (killed : ι → Bool)
    (as : List (ConsoleAct ι)) (s : ConsoleState ι)
    (hrun : runFrom consoleStep (consoleinit buf killed) as = some s) :
    (s.input.w - s.input.r).toNat ≤ (s.input.e - s.input.r).toNat ∧
    (s.input.e - s.input.r).toNat ≤ inputBuf ∧
    (∀ c, Input.Erases c →
      (consoleintr s c).committed = s.committed ∧ (consoleintr s c).input.buf = s.input.buf ∧
      (consoleintr s c).input.r = s.input.r ∧ (consoleintr s c).input.w = s.input.w ∧
      ((consoleintr s c).input.e - s.input.w).toNat ≤ (s.input.e - s.input.w).toNat) ∧
    (∃ pending, s.committed = s.taken.map Prod.snd ++ pending ∧
      pending.length = (s.input.w - s.input.r).toNat ∧
      ∀ k c, pending[k]? = some c →
        s.input.buf (ringSlot inputBuf (s.input.r + UInt32.ofNat k)) = c) ∧
    (∀ i k result, (s.results i)[k]? = some result → 0 < result.target →
      s.killed i = true ∧ result.bytes = none ∨
      ∃ bytes, result.bytes = some bytes ∧ ctrlD ∉ bytes ∧
        s.takenBy i k = if bytes = [] then [ctrlD] else bytes) ∧
    (∀ i k c, ((i, k), c) ∈ s.taken →
      k < (s.results i).length ∨ k = (s.results i).length ∧ s.pc i ≠ .idle) := by
  have hbooks : Accounted s :=
    runFrom_invariant (fun s a t hs hst => hs.step hst) (accounted_consoleinit buf killed) hrun
  obtain ⟨pending, edited, hheld, hcommitted⟩ := hbooks.held
  refine ⟨hheld.committed_le, ?_, fun c hc => hbooks.erase hc, ?_, ?_, ?_⟩
  · rw [hheld.window.sub inputBuf_lt]
    exact hheld.window.fits
  · have hwindow := hheld.pending_window
    exact ⟨pending, hcommitted, (hwindow.sub inputBuf_lt).symm, hwindow.entries⟩
  · intro i k result hk hpos
    have hfinished := hbooks.finished i k result hk
    unfold Finished at hfinished
    cases hbytes : result.bytes with
    | none =>
      rw [hbytes] at hfinished
      exact Or.inl ⟨hfinished, rfl⟩
    | some bytes =>
      rw [hbytes] at hfinished
      exact Or.inr ⟨bytes, rfl, hfinished.1, hfinished.2 hpos⟩
  · intro i k c hmem
    have hne : s.takenBy i k ≠ [] := by
      apply List.ne_nil_of_mem (a := c)
      rw [ConsoleState.takenBy, List.mem_map]
      exact ⟨((i, k), c), by simpa using hmem, rfl⟩
    rcases Nat.lt_trichotomy k (s.results i).length with hlt | heq | hgt
    · exact Or.inl hlt
    · refine Or.inr ⟨heq, ?_⟩
      intro hidle
      have hcurrent := hbooks.current i
      rw [hidle, ← heq] at hcurrent
      exact hne hcurrent
    · exact absurd (hbooks.later i k hgt) hne

/-- A line with a control-D behind it is typed; the first read gets the line, the second the
zero-length result. -/
theorem console_line_discipline_two_reads :
    ∃ s : ConsoleState Unit,
      runFrom consoleStep (consoleinit (fun _ => 0) fun _ => false)
        [.intr 97, .intr 10, .intr ctrlD, .read () 5, .run (), .read () 5, .run ()] = some s ∧
      s.results () = [⟨5, some [97, 10]⟩, ⟨5, some []⟩] ∧
      (s.input.w - s.input.r).toNat ≤ (s.input.e - s.input.r).toNat := by
  have hrun : (runFrom consoleStep (consoleinit (fun _ => 0) fun _ => false : ConsoleState Unit)
      [.intr 97, .intr 10, .intr ctrlD, .read () 5, .run (), .read () 5, .run ()]).map
        (fun s => s.results ()) = some [⟨5, some [97, 10]⟩, ⟨5, some []⟩] := by
    decide +kernel
  obtain ⟨s, hs, hresults⟩ := Option.map_eq_some_iff.mp hrun
  exact ⟨s, hs, hresults, (console_line_discipline _ _ _ s hs).1⟩

end Sections

end Xv6.Console
