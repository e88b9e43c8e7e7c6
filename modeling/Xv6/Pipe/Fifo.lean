import Xv6.Foundations.Ring
import Xv6.Foundations.Runs

/-!
# Pipes - A bounded queue of bytes

The functions of {lit}`pipe.c` that move bytes, as sections between taking and giving back
{lit}`p->lock`: a writer stores until it is done or the buffer is full, a reader takes what
there is.  A process that waits gives the lock back, so a call is a sequence of sections and
those of different processes interleave.

Main results:

- Theorem {lit}`fill_spec`: the loop of `pipewrite` up to a full buffer.
- Theorem {lit}`drain_spec`: the copy loop of `piperead`.
- Theorem {lit}`pipe_fifo`: in every run what was read is a prefix of what was written, and
  the rest is in the buffer.
-/

namespace Xv6

open Foundations

/-- {lit}`PIPESIZE` -/
abbrev pipesize : Nat := 512

/-- {lit}`struct pipe` without its lock. -/
structure Pipe where
  data : Fin pipesize → UInt8
  nread : UInt32
  nwrite : UInt32
  readopen : Bool
  writeopen : Bool

namespace Pipe

/-- The test {lit}`p->nwrite == p->nread + PIPESIZE`. -/
def full (p : Pipe) : Bool :=
  p.nwrite == p.nread + 512

/-- The test {lit}`p->nread == p->nwrite`. -/
def empty (p : Pipe) : Bool :=
  p.nread == p.nwrite

/-- {lit}`p->data[p->nwrite++ % PIPESIZE] = b` -/
def put (p : Pipe) (b : UInt8) : Pipe :=
  { p with data := Function.update p.data (ringSlot pipesize p.nwrite) b, nwrite := p.nwrite + 1 }

/-- The loop of `pipewrite` until all bytes are stored or the buffer is full: the pipe, the
bytes stored and the bytes that are left. -/
def fill : List UInt8 → Pipe → Pipe × List UInt8 × List UInt8
  | [], p => (p, [], [])
  | b :: bs, p =>
    if p.full then (p, [], b :: bs)
    else
      let (q, stored, left) := fill bs (p.put b)
      (q, b :: stored, left)

/-- The copy loop of `piperead`: the pipe and the bytes copied to `addr`. -/
def drain : Nat → Pipe → Pipe × List UInt8
  | 0, p => (p, [])
  | n + 1, p =>
    if p.empty then (p, [])
    else
      let b := p.data (ringSlot pipesize p.nread)
      let (q, bs) := drain n { p with nread := p.nread + 1 }
      (q, b :: bs)

/-- The unread bytes. -/
def Unread (p : Pipe) (xs : List UInt8) : Prop :=
  Window p.data p.nread p.nwrite xs

end Pipe

/-- Where a process is in its call. -/
inductive PipePc where
  | idle
  | writing (rest : List UInt8)
  | sleepWrite (rest : List UInt8)
  | reading (n : Nat)
  | sleepRead (n : Nat)
  deriving DecidableEq

/-- A pipe and its users.  `stored` and `fetched` are the bytes that passed through the two
ends so far, in lock order. -/
structure PipeState (ι : Type) where
  pipe : Pipe
  pc : ι → PipePc
  killed : ι → Bool
  stored : List UInt8
  fetched : List UInt8

/-- The sections.  `kill i asleep` sets the flag of `i`; it makes `i` runnable if it finds it
sleeping, and a kill that comes between the test of the flag and the sleep does not. -/
inductive PipeAct (ι : Type) where
  | write (i : ι) (bytes : List UInt8)
  | read (i : ι) (n : Nat)
  | run (i : ι)
  | close (writable : Bool)
  | kill (i : ι) (asleep : Bool)

namespace PipePc

/-- {lit}`wakeup(&p->nread)` as seen by one process. -/
def wakeRead : PipePc → PipePc
  | sleepRead n => reading n
  | pc => pc

/-- {lit}`wakeup(&p->nwrite)` as seen by one process. -/
def wakeWrite : PipePc → PipePc
  | sleepWrite rest => writing rest
  | pc => pc

end PipePc

section Sections

variable {ι : Type} [DecidableEq ι]

/-- `pipealloc`: the buffer holds whatever the page held. -/
def pipealloc (data : Fin pipesize → UInt8) (killed : ι → Bool) : PipeState ι where
  pipe := ⟨data, 0, 0, true, true⟩
  pc := fun _ => .idle
  killed := killed
  stored := []
  fetched := []

/-- `pipewrite` from the test for a full buffer on, up to its return or its next sleep. -/
def pipewrite (s : PipeState ι) (i : ι) (rest : List UInt8) : PipeState ι :=
  let (p, stored, left) := s.pipe.fill rest
  let t := { s with pipe := p, stored := s.stored ++ stored }
  let woken := fun j => (s.pc j).wakeRead
  if left = [] then { t with pc := Function.update woken i .idle }
  else if p.readopen = false ∨ s.killed i = true then
    { t with pc := Function.update s.pc i .idle }
  else { t with pc := Function.update woken i (.sleepWrite left) }

/-- `piperead` from the test for an empty buffer on, up to its return or its next sleep. -/
def piperead (s : PipeState ι) (i : ι) (n : Nat) : PipeState ι :=
  if s.pipe.empty ∧ s.pipe.writeopen then
    if s.killed i then { s with pc := Function.update s.pc i .idle }
    else { s with pc := Function.update s.pc i (.sleepRead n) }
  else
    let (p, bytes) := s.pipe.drain n
    { s with
      pipe := p
      fetched := s.fetched ++ bytes
      pc := Function.update (fun j => (s.pc j).wakeWrite) i .idle }

/-- `pipeclose` -/
def pipeclose (s : PipeState ι) (writable : Bool) : PipeState ι :=
  if writable then
    { s with pipe := { s.pipe with writeopen := false }, pc := fun j => (s.pc j).wakeRead }
  else
    { s with pipe := { s.pipe with readopen := false }, pc := fun j => (s.pc j).wakeWrite }

/-- `kill` -/
def killUser (s : PipeState ι) (i : ι) (asleep : Bool) : PipeState ι :=
  { s with
    killed := Function.update s.killed i true
    pc := if asleep then Function.update s.pc i (s.pc i).wakeRead.wakeWrite else s.pc }

/-- One section. -/
def pipeStep (s : PipeState ι) : PipeAct ι → Option (PipeState ι)
  | .write i bytes =>
    if s.pc i = .idle then some { s with pc := Function.update s.pc i (.writing bytes) }
    else none
  | .read i n =>
    if s.pc i = .idle then some { s with pc := Function.update s.pc i (.reading n) } else none
  | .run i =>
    match s.pc i with
    | .writing rest => some (pipewrite s i rest)
    | .reading n => some (piperead s i n)
    | _ => none
  | .close writable => some (pipeclose s writable)
  | .kill i asleep => some (killUser s i asleep)

end Sections

/-! ## The loops -/

theorem pipesize_dvd : pipesize ∣ 2 ^ 32 := by decide

theorem pipesize_lt : pipesize < 2 ^ 32 := by decide

namespace Pipe

variable {p : Pipe} {xs : List UInt8}

/-- The test of `pipewrite`. -/
theorem Unread.full_iff (h : p.Unread xs) : p.full = true ↔ xs.length = pipesize := by
  rw [full, beq_iff_eq]
  exact h.stop_eq_iff pipesize_lt le_rfl

/-- The test of `piperead`. -/
theorem Unread.empty_iff (h : p.Unread xs) : p.empty = true ↔ xs = [] := by
  rw [empty, beq_iff_eq, eq_comm]
  exact h.stop_eq_start_iff pipesize_lt

/-- A byte is put behind those that are unread. -/
theorem Unread.put (h : p.Unread xs) (hfull : p.full = false) (b : UInt8) :
    (p.put b).Unread (xs ++ [b]) := by
  have hroom : xs.length < pipesize := by
    have hfits := h.fits
    have hne : xs.length ≠ pipesize := by
      intro heq
      rw [h.full_iff.mpr heq] at hfull
      exact Bool.noConfusion hfull
    omega
  exact Window.push pipesize_dvd h hroom b

/-- What the loop of `pipewrite` does up to a full buffer. -/
structure Filled (p : Pipe) (xs bytes : List UInt8) (r : Pipe × List UInt8 × List UInt8) :
    Prop where
  split : bytes = r.2.1 ++ r.2.2
  unread : r.1.Unread (xs ++ r.2.1)
  stuck : r.2.2 ≠ [] → r.1.full = true
  readopen : r.1.readopen = p.readopen
  writeopen : r.1.writeopen = p.writeopen

/-- The loop of `pipewrite` appends bytes until the buffer is full. -/
theorem fill_spec (bytes : List UInt8) {p : Pipe} {xs : List UInt8} (h : p.Unread xs) :
    Filled p xs bytes (p.fill bytes) := by
  induction bytes generalizing p xs with
  | nil =>
    rw [fill.eq_1]
    exact ⟨rfl, by simpa using h, fun hne => absurd rfl hne, rfl, rfl⟩
  | cons b bs ih =>
    rw [fill.eq_2]
    by_cases hfull : p.full = true
    · rw [if_pos hfull]
      exact ⟨rfl, by simpa using h, fun _ => hfull, rfl, rfl⟩
    · rw [if_neg hfull]
      have hput := h.put (by simpa using hfull) b
      have hrest := ih hput
      constructor
      · simp only [List.cons_append, ← hrest.split]
      · have hunread := hrest.unread
        rwa [List.append_assoc, List.singleton_append] at hunread
      · exact hrest.stuck
      · exact hrest.readopen
      · exact hrest.writeopen

/-- What the copy loop of `piperead` does. -/
structure Drained (p : Pipe) (xs : List UInt8) (r : Pipe × List UInt8) : Prop where
  unread : ∃ ys, xs = r.2 ++ ys ∧ r.1.Unread ys
  readopen : r.1.readopen = p.readopen
  writeopen : r.1.writeopen = p.writeopen

/-- The loop of `piperead` takes bytes from the front. -/
theorem drain_spec (n : Nat) {p : Pipe} {xs : List UInt8} (h : p.Unread xs) :
    Drained p xs (p.drain n) := by
  induction n generalizing p xs with
  | zero =>
    rw [drain.eq_1]
    exact ⟨⟨xs, rfl, h⟩, rfl, rfl⟩
  | succ n ih =>
    rw [drain.eq_2]
    by_cases hempty : p.empty = true
    · rw [if_pos hempty]
      exact ⟨⟨xs, rfl, h⟩, rfl, rfl⟩
    · rw [if_neg hempty]
      cases xs with
      | nil => exact absurd (h.empty_iff.mpr rfl) hempty
      | cons x xs =>
        have hpop : Pipe.Unread { p with nread := p.nread + 1 } xs := Window.pop h
        have hhead : p.data (ringSlot pipesize p.nread) = x := Window.head h
        have hrest := ih hpop
        obtain ⟨ys, hsplit, hys⟩ := hrest.unread
        constructor
        · refine ⟨ys, ?_, hys⟩
          simp only [hhead, List.cons_append, ← hsplit]
        · exact hrest.readopen
        · exact hrest.writeopen

end Pipe

/-! ## The queue -/

section Queue

variable {ι : Type} [DecidableEq ι]

/-- What was written is what was read followed by what the buffer holds. -/
def Queued (s : PipeState ι) : Prop :=
  ∃ unread, s.stored = s.fetched ++ unread ∧ s.pipe.Unread unread

omit [DecidableEq ι] in
/-- Only the counters, the buffer and the history matter. -/
theorem Queued.congr {s t : PipeState ι} (h : Queued s) (hdata : t.pipe.data = s.pipe.data)
    (hread : t.pipe.nread = s.pipe.nread) (hwrite : t.pipe.nwrite = s.pipe.nwrite)
    (hstored : t.stored = s.stored) (hfetched : t.fetched = s.fetched) : Queued t := by
  obtain ⟨unread, hsplit, hunread⟩ := h
  refine ⟨unread, ?_, ?_⟩
  · rw [hstored, hfetched, hsplit]
  · unfold Pipe.Unread at hunread ⊢
    rwa [hdata, hread, hwrite]

theorem pipewrite_pipe (s : PipeState ι) (i : ι) (rest : List UInt8) :
    (pipewrite s i rest).pipe = (s.pipe.fill rest).1 := by
  simp only [pipewrite]
  split_ifs <;> rfl

theorem pipewrite_stored (s : PipeState ι) (i : ι) (rest : List UInt8) :
    (pipewrite s i rest).stored = s.stored ++ (s.pipe.fill rest).2.1 := by
  simp only [pipewrite]
  split_ifs <;> rfl

theorem pipewrite_fetched (s : PipeState ι) (i : ι) (rest : List UInt8) :
    (pipewrite s i rest).fetched = s.fetched := by
  simp only [pipewrite]
  split_ifs <;> rfl

/-- What a writer stores is behind what was stored before. -/
theorem Queued.pipewrite {s : PipeState ι} (h : Queued s) (i : ι) (rest : List UInt8) :
    Queued (pipewrite s i rest) := by
  obtain ⟨unread, hsplit, hunread⟩ := h
  have hfill := Pipe.fill_spec rest hunread
  refine ⟨unread ++ (s.pipe.fill rest).2.1, ?_, ?_⟩
  · rw [pipewrite_stored, pipewrite_fetched, hsplit, List.append_assoc]
  · rw [pipewrite_pipe]
    exact hfill.unread

/-- What a reader fetches is what was stored first. -/
theorem Queued.piperead {s : PipeState ι} (h : Queued s) (i : ι) (n : Nat) :
    Queued (piperead s i n) := by
  unfold Xv6.piperead
  split_ifs
  · exact h.congr rfl rfl rfl rfl rfl
  · exact h.congr rfl rfl rfl rfl rfl
  · obtain ⟨unread, hsplit, hunread⟩ := h
    have hdrain := Pipe.drain_spec n hunread
    obtain ⟨left, hleft, hrest⟩ := hdrain.unread
    refine ⟨left, ?_, hrest⟩
    simp only [hsplit, List.append_assoc, ← hleft]

omit [DecidableEq ι] in
theorem Queued.pipeclose {s : PipeState ι} (h : Queued s) (writable : Bool) :
    Queued (pipeclose s writable) := by
  unfold Xv6.pipeclose
  split_ifs
  · exact h.congr rfl rfl rfl rfl rfl
  · exact h.congr rfl rfl rfl rfl rfl

/-- Every section keeps the queue. -/
theorem Queued.step {s t : PipeState ι} {a : PipeAct ι} (h : Queued s)
    (hstep : pipeStep s a = some t) : Queued t := by
  cases a with
  | write i bytes | read i n =>
    simp only [pipeStep, Option.ite_none_right_eq_some, Option.some.injEq] at hstep
    rw [← hstep.2]
    exact h.congr rfl rfl rfl rfl rfl
  | run i =>
    simp only [pipeStep] at hstep
    split at hstep
    · cases hstep
      exact h.pipewrite i _
    · cases hstep
      exact h.piperead i _
    · cases hstep
  | close writable =>
    cases hstep
    exact h.pipeclose writable
  | kill i asleep =>
    cases hstep
    exact h.congr rfl rfl rfl rfl rfl

omit [DecidableEq ι] in
theorem queued_pipealloc (data : Fin pipesize → UInt8) (killed : ι → Bool) :
    Queued (pipealloc data killed) :=
  ⟨[], rfl, Window.empty data 0⟩

/-- In every run from `pipealloc`, also when the counters wrap: the buffer holds at most
`PIPESIZE` bytes, what was read is a prefix of what was written, and the unread bytes are the
last `nwrite - nread` ones, in order. -/
theorem pipe_fifo (data : Fin pipesize → UInt8) (killed : ι → Bool) (as : List (PipeAct ι))
    (s : PipeState ι) (hrun : runFrom pipeStep (pipealloc data killed) as = some s) :
    (s.pipe.nwrite - s.pipe.nread).toNat ≤ pipesize ∧
      s.fetched <+: s.stored ∧
      ∃ unread, s.stored = s.fetched ++ unread ∧
        unread.length = (s.pipe.nwrite - s.pipe.nread).toNat ∧
        ∀ k b, unread[k]? = some b →
          s.pipe.data (ringSlot pipesize (s.pipe.nread + UInt32.ofNat k)) = b := by
  have hqueued : Queued s :=
    runFrom_invariant (fun s a t hs hst => Queued.step hs hst) (queued_pipealloc data killed) hrun
  obtain ⟨unread, hsplit, hunread⟩ := hqueued
  have hlength := Window.sub pipesize_lt hunread
  refine ⟨?_, ?_, unread, hsplit, hlength.symm, hunread.entries⟩
  · rw [hlength]
    exact hunread.fits
  · rw [hsplit]
    exact List.prefix_append s.fetched unread

/-- Two bytes are written by one process and one is read by another. -/
theorem pipe_fifo_two_writes :
    ∃ s : PipeState Bool,
      runFrom pipeStep (pipealloc (fun _ => 0) fun _ => false)
        [.write false [7, 9], .read true 1, .run false, .run true] = some s ∧
      s.fetched = [7] ∧ s.fetched <+: s.stored := by
  have hrun : (runFrom pipeStep (pipealloc (fun _ => 0) fun _ => false : PipeState Bool)
      [.write false [7, 9], .read true 1, .run false, .run true]).isSome = true := by
    decide +kernel
  obtain ⟨s, hs⟩ := Option.isSome_iff_exists.mp hrun
  have hfetched : (runFrom pipeStep (pipealloc (fun _ => 0) fun _ => false : PipeState Bool)
      [.write false [7, 9], .read true 1, .run false, .run true]).map PipeState.fetched
        = some [7] := by
    decide +kernel
  rw [hs] at hfetched
  exact ⟨s, hs, Option.some.inj hfetched, (pipe_fifo _ _ _ s hs).2.1⟩

end Queue

end Xv6
