import Xv6.Pipe.Fifo

/-!
# Pipes - Lost wakeups

A reader sleeps only on an empty pipe whose write end is open, a writer only on a full pipe
whose read end is open.  `pipewrite` breaks this in one place: when it gives up on a full
buffer, because it was killed or the read end is closed, it returns without the
{lit}`wakeup(&p->nread)` that its other exits make.  If it filled the buffer itself, readers
that found the pipe empty before stay asleep on a full one.

Main results:

- Theorem {lit}`Awake.step`: every other section keeps the sleepers right.
- Theorem {lit}`pipe_wakeups_iff`: a run loses no wakeup exactly when no write gives up in
  that situation.
-/

namespace Xv6

open Foundations

section Wakeup

variable {ι : Type} [DecidableEq ι]

/-- Every sleeping process has to sleep. -/
structure Awake (s : PipeState ι) : Prop where
  reader : ∀ i n, s.pc i = .sleepRead n → s.pipe.nread = s.pipe.nwrite ∧ s.pipe.writeopen = true
  writer : ∀ i rest, s.pc i = .sleepWrite rest → s.pipe.full = true ∧ s.pipe.readopen = true

/-- No section of `pipewrite` of `i` starts on an empty pipe with a reader asleep, has more
bytes to store than fit, and cannot wait for room. -/
def NoSilentGiveUp (s : PipeState ι) (a : PipeAct ι) : Prop :=
  ∀ i rest, a = .run i → s.pc i = .writing rest →
    s.pipe.nread = s.pipe.nwrite → (s.killed i = true ∨ s.pipe.readopen = false) →
    pipesize < rest.length → ∀ j n, s.pc j ≠ .sleepRead n

/-! ## Wakeups as seen by one process -/

namespace PipePc

variable {pc : PipePc} {n : Nat} {rest : List UInt8}

theorem wakeRead_ne (pc : PipePc) (n : Nat) : pc.wakeRead ≠ .sleepRead n := by
  cases pc <;> simp [wakeRead]

theorem wakeWrite_ne (pc : PipePc) (rest : List UInt8) : pc.wakeWrite ≠ .sleepWrite rest := by
  cases pc <;> simp [wakeWrite]

theorem of_wakeRead (h : pc.wakeRead = .sleepWrite rest) : pc = .sleepWrite rest := by
  cases pc <;> simp_all [wakeRead]

theorem of_wakeWrite (h : pc.wakeWrite = .sleepRead n) : pc = .sleepRead n := by
  cases pc <;> simp_all [wakeWrite]

theorem wake_ne_sleepRead (pc : PipePc) (n : Nat) : pc.wakeRead.wakeWrite ≠ .sleepRead n := by
  cases pc <;> simp [wakeRead, wakeWrite]

theorem wake_ne_sleepWrite (pc : PipePc) (rest : List UInt8) :
    pc.wakeRead.wakeWrite ≠ .sleepWrite rest := by
  cases pc <;> simp [wakeRead, wakeWrite]

end PipePc

/-! ## The sections -/

/-- A process moves to a point of its call where it does not sleep; nothing else changes. -/
theorem Awake.move {s : PipeState ι} (h : Awake s) (i : ι) {pc : PipePc}
    (hread : ∀ n, pc ≠ .sleepRead n) (hwrite : ∀ rest, pc ≠ .sleepWrite rest) :
    Awake { s with pc := Function.update s.pc i pc } := by
  constructor
  · intro j n hj
    by_cases hji : j = i
    · subst hji
      simp only [Function.update_self] at hj
      exact absurd hj (hread n)
    · simp only [Function.update_of_ne hji] at hj
      exact h.reader j n hj
  · intro j rest hj
    by_cases hji : j = i
    · subst hji
      simp only [Function.update_self] at hj
      exact absurd hj (hwrite rest)
    · simp only [Function.update_of_ne hji] at hj
      exact h.writer j rest hj

/-- A reader goes to sleep on an empty pipe. -/
theorem Awake.sleepRead {s : PipeState ι} (h : Awake s) (i : ι) (n : Nat)
    (hempty : s.pipe.nread = s.pipe.nwrite) (hopen : s.pipe.writeopen = true) :
    Awake { s with pc := Function.update s.pc i (.sleepRead n) } := by
  constructor
  · intro j m hj
    exact ⟨hempty, hopen⟩
  · intro j rest hj
    by_cases hji : j = i
    · subst hji
      simp at hj
    · simp only [Function.update_of_ne hji] at hj
      exact h.writer j rest hj

theorem Awake.piperead {s : PipeState ι} (h : Awake s) (hqueued : Queued s) (i : ι) (n : Nat) :
    Awake (piperead s i n) := by
  unfold Xv6.piperead
  split_ifs with hwait hkilled
  · exact h.move i (by simp) (by simp)
  · exact h.sleepRead i n (by simpa [Pipe.empty] using hwait.1) hwait.2
  · obtain ⟨unread, -, hunread⟩ := hqueued
    have hdrain := Pipe.drain_spec n hunread
    constructor
    · intro j m hj
      have hsleep : s.pc j = .sleepRead m := by
        by_cases hji : j = i
        · subst hji
          simp at hj
        · simp only [Function.update_of_ne hji] at hj
          exact PipePc.of_wakeWrite hj
      -- a sleeping reader says that the pipe is empty and open, and then the caller waits
      have hreader := h.reader j m hsleep
      exact absurd ⟨by simpa [Pipe.empty] using hreader.1, hreader.2⟩ hwait
    · intro j rest hj
      by_cases hji : j = i
      · subst hji
        simp at hj
      · simp only [Function.update_of_ne hji] at hj
        exact absurd hj (PipePc.wakeWrite_ne _ rest)

omit [DecidableEq ι] in
theorem Awake.pipeclose {s : PipeState ι} (h : Awake s) (writable : Bool) :
    Awake (pipeclose s writable) := by
  unfold Xv6.pipeclose
  split_ifs
  · constructor
    · intro j n hj
      exact absurd hj (PipePc.wakeRead_ne _ n)
    · intro j rest hj
      exact h.writer j rest (PipePc.of_wakeRead hj)
  · constructor
    · intro j n hj
      exact h.reader j n (PipePc.of_wakeWrite hj)
    · intro j rest hj
      exact absurd hj (PipePc.wakeWrite_ne _ rest)

theorem Awake.kill {s : PipeState ι} (h : Awake s) (i : ι) (asleep : Bool) :
    Awake (killUser s i asleep) := by
  cases asleep with
  | false => exact ⟨h.reader, h.writer⟩
  | true =>
    have hmove := h.move i (PipePc.wake_ne_sleepRead (s.pc i))
      (PipePc.wake_ne_sleepWrite (s.pc i))
    exact ⟨hmove.reader, hmove.writer⟩

/-- The three exits of a section of `pipewrite`. -/
theorem pipewrite_pc (s : PipeState ι) (i : ι) (rest : List UInt8) :
    (pipewrite s i rest).pc =
      if (s.pipe.fill rest).2.2 = [] then
        Function.update (fun j => (s.pc j).wakeRead) i .idle
      else if (s.pipe.fill rest).1.readopen = false ∨ s.killed i = true then
        Function.update s.pc i .idle
      else Function.update (fun j => (s.pc j).wakeRead) i (.sleepWrite (s.pipe.fill rest).2.2) := by
  simp only [pipewrite]
  split_ifs <;> rfl

/-- Sleeping writers stay right: a full pipe stays full. -/
theorem Awake.pipewrite_writer {s : PipeState ι} (h : Awake s) (hqueued : Queued s) (i : ι)
    (rest : List UInt8) (j : ι) (left : List UInt8)
    (hj : (pipewrite s i rest).pc j = .sleepWrite left) :
    (pipewrite s i rest).pipe.full = true ∧ (pipewrite s i rest).pipe.readopen = true := by
  obtain ⟨unread, -, hunread⟩ := hqueued
  have hfill := Pipe.fill_spec rest hunread
  rw [pipewrite_pipe]
  have hold : s.pc j = .sleepWrite left →
      (s.pipe.fill rest).1.full = true ∧ (s.pipe.fill rest).1.readopen = true := by
    intro hsleep
    have hwriter := h.writer j left hsleep
    have hlength := hunread.full_iff.mp hwriter.1
    have hfits := hfill.unread.fits
    rw [List.length_append] at hfits
    have hall : (unread ++ (s.pipe.fill rest).2.1).length = pipesize := by
      rw [List.length_append]
      omega
    exact ⟨hfill.unread.full_iff.mpr hall, hfill.readopen.trans hwriter.2⟩
  rw [pipewrite_pc] at hj
  by_cases hji : j = i
  · subst hji
    split_ifs at hj with hdone hgive
    · simp at hj
    · simp at hj
    · push Not at hgive
      exact ⟨hfill.stuck hdone, by simpa using hgive.1⟩
  · split_ifs at hj
    · simp only [Function.update_of_ne hji] at hj
      exact hold (PipePc.of_wakeRead hj)
    · simp only [Function.update_of_ne hji] at hj
      exact hold hj
    · simp only [Function.update_of_ne hji] at hj
      exact hold (PipePc.of_wakeRead hj)

/-- A reader that still sleeps after a section of `pipewrite`: the writer gave up. -/
theorem pipewrite_silent {s : PipeState ι} {i j : ι} {rest : List UInt8} {n : Nat}
    (hj : (pipewrite s i rest).pc j = .sleepRead n) :
    s.pc j = .sleepRead n ∧ (s.pipe.fill rest).2.2 ≠ [] ∧
      ((s.pipe.fill rest).1.readopen = false ∨ s.killed i = true) := by
  rw [pipewrite_pc] at hj
  by_cases hji : j = i
  · subst hji
    split_ifs at hj <;> simp at hj
  · split_ifs at hj with hdone hgive
    · simp only [Function.update_of_ne hji] at hj
      exact absurd hj (PipePc.wakeRead_ne _ n)
    · simp only [Function.update_of_ne hji] at hj
      exact ⟨hj, hdone, hgive⟩
    · simp only [Function.update_of_ne hji] at hj
      exact absurd hj (PipePc.wakeRead_ne _ n)

/-- An empty pipe takes up to `PIPESIZE` bytes. -/
theorem fill_left_ne_nil_iff {p : Pipe} (h : p.Unread []) (rest : List UInt8) :
    (p.fill rest).2.2 ≠ [] ↔ pipesize < rest.length := by
  have hfill := Pipe.fill_spec rest h
  have hunread := hfill.unread
  rw [List.nil_append] at hunread
  have hlength : rest.length = (p.fill rest).2.1.length + (p.fill rest).2.2.length := by
    rw [← List.length_append, ← hfill.split]
  constructor
  · intro hleft
    have hfull := hunread.full_iff.mp (hfill.stuck hleft)
    have hpos := List.length_pos_iff.mpr hleft
    omega
  · intro hlong hleft
    have hfits := hunread.fits
    rw [hleft, List.length_nil] at hlength
    omega

/-- A write that does not give up silently leaves no reader asleep on its bytes. -/
theorem Awake.pipewrite {s : PipeState ι} (h : Awake s) (hqueued : Queued s) {i : ι}
    {rest : List UInt8} (hpc : s.pc i = .writing rest) (hcond : NoSilentGiveUp s (.run i)) :
    Awake (pipewrite s i rest) := by
  constructor
  · intro j n hj
    obtain ⟨hsleep, hleft, hgive⟩ := pipewrite_silent hj
    have hreader := h.reader j n hsleep
    obtain ⟨unread, -, hunread⟩ := hqueued
    have hnil : unread = [] := (hunread.stop_eq_start_iff pipesize_lt).mp hreader.1.symm
    subst hnil
    have hlong := (fill_left_ne_nil_iff hunread rest).mp hleft
    have hflags : s.killed i = true ∨ s.pipe.readopen = false := by
      rw [(Pipe.fill_spec rest hunread).readopen] at hgive
      exact hgive.symm
    exact absurd hsleep (hcond i rest rfl hpc hreader.1 hflags hlong j n)
  · exact h.pipewrite_writer hqueued i rest

/-- Every section that meets the condition keeps the sleepers right. -/
theorem Awake.step {s t : PipeState ι} {a : PipeAct ι} (h : Awake s) (hqueued : Queued s)
    (hcond : NoSilentGiveUp s a) (hstep : pipeStep s a = some t) : Awake t := by
  cases a with
  | write i bytes | read i n =>
    simp only [pipeStep, Option.ite_none_right_eq_some, Option.some.injEq] at hstep
    rw [← hstep.2]
    exact h.move i (by simp) (by simp)
  | run i =>
    simp only [pipeStep] at hstep
    split at hstep
    · next rest hpc =>
      cases hstep
      exact h.pipewrite hqueued hpc hcond
    · next n hpc =>
      cases hstep
      exact h.piperead hqueued i n
    · cases hstep
  | close writable =>
    cases hstep
    exact h.pipeclose writable
  | kill i asleep =>
    cases hstep
    exact h.kill i asleep

/-- A write that gives up silently leaves a reader asleep on a full pipe. -/
theorem noSilentGiveUp_of_awake {s t : PipeState ι} {a : PipeAct ι} (hqueued : Queued s)
    (hstep : pipeStep s a = some t) (h : Awake t) : NoSilentGiveUp s a := by
  intro i rest ha hpc hempty hflags hlong j n hsleep
  subst ha
  simp only [pipeStep, hpc, Option.some.injEq] at hstep
  obtain ⟨unread, -, hunread⟩ := hqueued
  have hnil : unread = [] := (hunread.stop_eq_start_iff pipesize_lt).mp hempty.symm
  subst hnil
  have hfill := Pipe.fill_spec rest hunread
  have hleft := (fill_left_ne_nil_iff hunread rest).mpr hlong
  have hgive : (s.pipe.fill rest).1.readopen = false ∨ s.killed i = true := by
    rw [hfill.readopen]
    exact hflags.symm
  have hji : j ≠ i := by
    intro heq
    rw [heq, hpc] at hsleep
    cases hsleep
  have hstill : t.pc j = .sleepRead n := by
    rw [← hstep, pipewrite_pc, if_neg hleft, if_pos hgive, Function.update_of_ne hji]
    exact hsleep
  have hreader := (h.reader j n hstill).1
  rw [← hstep, pipewrite_pipe] at hreader
  have hnone := (hfill.unread.stop_eq_start_iff pipesize_lt).mp hreader.symm
  have hfull := hfill.unread.full_iff.mp (hfill.stuck hleft)
  rw [hnone, List.length_nil] at hfull
  cases hfull

omit [DecidableEq ι] in
theorem awake_pipealloc (data : Fin pipesize → UInt8) (killed : ι → Bool) :
    Awake (pipealloc data killed) := by
  constructor <;> intro i x hi <;> cases hi

/-- A run from `pipealloc` passes only through states without a lost wakeup exactly when none
of its writes gives up silently. -/
theorem pipe_wakeups_iff (data : Fin pipesize → UInt8) (killed : ι → Bool)
    (as : List (PipeAct ι)) :
    AllStates pipeStep Awake (pipealloc data killed) as ↔
      Meets pipeStep NoSilentGiveUp (pipealloc data killed) as := by
  have hqueued := queued_pipealloc data killed
  constructor
  · intro hall
    exact meets_of_allStates (fun s a t hs hst => Queued.step hs hst)
      (fun s a t hs hst ht => noSilentGiveUp_of_awake hs hst ht) hqueued hall
  · intro hmeets
    exact allStates_of_meets (I := fun s => Queued s ∧ Awake s) (fun s hs => hs.2)
      (fun s a t hs hC hst => ⟨hs.1.step hst, hs.2.step hs.1 hC hst⟩)
      ⟨hqueued, awake_pipealloc data killed⟩ hmeets

/-- A reader goes to sleep on the empty pipe, a writer with one byte more than fits is killed
and gives up on the full buffer: the reader sleeps on. -/
theorem reader_asleep_on_full_pipe :
    ∃ s : PipeState Bool,
      runFrom pipeStep (pipealloc (fun _ => 0) fun _ => false)
        [.read true 1, .run true, .write false (List.replicate 513 0), .kill false false,
          .run false] = some s ∧
      s.pc true = .sleepRead 1 ∧ s.pipe.full = true ∧ ¬ Awake s := by
  have hrun : (runFrom pipeStep (pipealloc (fun _ => 0) fun _ => false : PipeState Bool)
      [.read true 1, .run true, .write false (List.replicate 513 0), .kill false false,
        .run false]).map (fun s => (s.pc true, s.pipe.full, s.pipe.empty)) =
      some (.sleepRead 1, true, false) := by
    decide +kernel
  obtain ⟨s, hs, hread⟩ := Option.map_eq_some_iff.mp hrun
  simp only [Prod.mk.injEq] at hread
  refine ⟨s, hs, hread.1, hread.2.1, ?_⟩
  intro hawake
  have hempty := (hawake.reader true 1 hread.1).1
  simp [Pipe.empty, hempty] at hread

end Wakeup

end Xv6
