import Xv6.Ide.Driver

/-!
# IDE - The queue of requests

The queue of the driver is the list of the requests that are submitted and not completed.
The device works on the first of them, and the processes that wait for one of them are those
that hold the lock of its buffer.

Main results:

- Theorem {lit}`Queue.iderw`: a request joins at the end and is started if it is alone.
- Theorem {lit}`Queue.ideintr`: the first request leaves and the next is started.
- Theorem {lit}`Queue.step`: every section keeps the queue.
-/

namespace Xv6.Ide

open Foundations

/-- The buffer a process waits for. -/
def Pc.target {n : Nat} : Pc n → Option (Fin n)
  | .idle => none
  | .asleep b => some b
  | .awake b => some b

section Pc

variable {n : Nat} {pc : Pc n} {b c : Fin n}

@[simp]
theorem Pc.target_wakeup (b : Fin n) (pc : Pc n) : (pc.wakeup b).target = pc.target := by
  cases pc with
  | idle => rfl
  | awake c => rfl
  | asleep c =>
    rw [wakeup]
    split_ifs <;> rfl

@[simp]
theorem Pc.target_kill (pc : Pc n) : pc.kill.target = pc.target := by
  cases pc <;> rfl

theorem Pc.of_wakeup (h : pc.wakeup b = .asleep c) : pc = .asleep c ∧ c ≠ b := by
  cases pc with
  | idle => cases h
  | awake d => cases h
  | asleep d =>
    rw [wakeup] at h
    split_ifs at h with hdb
    cases h
    exact ⟨rfl, hdb⟩

theorem Pc.kill_ne (pc : Pc n) (b : Fin n) : pc.kill ≠ .asleep b := by
  cases pc <;> simp [kill]

end Pc

section Requests

variable {ι : Type} {n : Nat} {β : Type}

/-! ## The queue -/

/-- The device works on the request of the buffer `x`, or has carried it out. -/
structure Serves (device : Device β) (disk : Bool → Nat → β) (x : Buf β) : Prop where
  block : x.blockno.toNat < fssize
  work : match device with
    | .idle => False
    | .working regs write =>
      regs = .encode x.dev x.blockno ∧ write = if x.dirty then some x.data else none
    | .finished read =>
      if x.dirty then read = none ∧ disk x.disk1 x.blockno.toNat = x.data
      else read = some (disk x.disk1 x.blockno.toNat)

/-- The requests `queue` are submitted and not completed. -/
structure Queue (s : IdeState ι n β) (queue : List (Fin n)) : Prop where
  linked : Linked s.qnext s.idequeue queue
  nodup : queue.Nodup
  submitted : s.submitted = s.completed ++ queue
  started : s.started = s.completed ++ queue.take 1
  quiet : queue = [] → s.device = .idle
  serves : ∀ b, queue.head? = some b → Serves s.device s.disk (s.bufs b)
  unsynced : ∀ b ∈ queue, (s.bufs b).synced = false
  owned : ∀ b ∈ queue, ∃ i, (s.pc i).target = some b
  waits : ∀ i b, (s.pc i).target = some b →
    s.holder b = some i ∧ (b ∈ queue ∨ (s.bufs b).synced = true)
  asleep : ∀ i b, s.pc i = .asleep b → b ∈ queue
  ends : s.stop ≠ some .endless

theorem queue_ideinit (bufs : Fin n → Buf β) (qnext : Fin n → Option (Fin n))
    (disk : Bool → Nat → β) (havedisk1 : Bool) :
    Queue (ideinit bufs qnext disk havedisk1 : IdeState ι n β) [] := by
  constructor
  · exact rfl
  · exact List.nodup_nil
  · rfl
  · rfl
  · intro _
    rfl
  · simp
  · simp
  · simp
  · intro i b hi
    simp [ideinit, Pc.target] at hi
  · intro i b hi
    simp [ideinit] at hi
  · simp [ideinit]

variable {s : IdeState ι n β} {queue : List (Fin n)}

/-- A buffer whose holder is not in `iderw` is not in the queue, and nobody waits for it. -/
theorem Queue.not_awaited (h : Queue s queue) {b : Fin n}
    (hidle : ∀ i, s.holder b = some i → s.pc i = .idle) :
    b ∉ queue ∧ ∀ i, (s.pc i).target ≠ some b := by
  have hnone : ∀ i, (s.pc i).target ≠ some b := by
    intro i hi
    rw [hidle i (h.waits i b hi).1] at hi
    cases hi
  refine ⟨?_, hnone⟩
  intro hmem
  obtain ⟨i, hi⟩ := h.owned b hmem
  exact hnone i hi

/-- The lock of a buffer that nobody waits for changes hands. -/
theorem Queue.setHolder (h : Queue s queue) {b : Fin n} (hnone : ∀ i, (s.pc i).target ≠ some b)
    (holder : Option ι) :
    Queue { s with holder := Function.update s.holder b holder } queue := by
  refine { h with waits := ?_ }
  intro i c hi
  have hcb : c ≠ b := by
    intro heq
    exact hnone i (heq ▸ hi)
  simp only [Function.update_of_ne hcb]
  exact h.waits i c hi

theorem free_iff {b : Fin n} :
    free s b = true ↔ ∀ i, s.holder b = some i → s.pc i = .idle := by
  unfold free
  cases s.holder b <;> simp

theorem Queue.edit (h : Queue s queue) {b : Fin n} (hfree : free s b = true) (x : Buf β) :
    Queue { s with bufs := Function.update s.bufs b x } queue := by
  obtain ⟨hnot, hnone⟩ := h.not_awaited (free_iff.mp hfree)
  have hkeep : ∀ c ∈ queue, Function.update s.bufs b x c = s.bufs c := by
    intro c hc
    have hcb : c ≠ b := by
      intro heq
      exact hnot (heq ▸ hc)
    exact Function.update_of_ne hcb x s.bufs
  refine { h with serves := ?_, unsynced := ?_, waits := ?_ }
  · intro c hc
    simp only [hkeep c (List.mem_of_mem_head? hc)]
    exact h.serves c hc
  · intro c hc
    simp only [hkeep c hc]
    exact h.unsynced c hc
  · intro i c hi
    have hcb : c ≠ b := by
      intro heq
      exact hnone i (heq ▸ hi)
    simp only [Function.update_of_ne hcb]
    exact h.waits i c hi

/-- The device carries out the command for the first request. -/
theorem Serves.done {x : Buf β} {regs : Registers} {write : Option β}
    {disk : Bool → Nat → β} (h : Serves (.working regs write) disk x) :
    regs.sector = x.blockno.toNat ∧ regs.disk1 = x.disk1 := by
  rw [h.work.1]
  exact Registers.decode x h.block

/-- The device takes a state that serves the first request. -/
theorem Queue.setDevice (h : Queue s queue) {b : Fin n} {rest : List (Fin n)}
    (hqueue : queue = b :: rest) {device : Device β} {disk : Bool → Nat → β}
    (hserves : Serves device disk (s.bufs b)) :
    Queue { s with device := device, disk := disk } queue := by
  subst hqueue
  refine { h with quiet := nofun, serves := ?_ }
  intro c hc
  cases hc
  exact hserves

theorem Queue.deviceDone (h : Queue s queue) {t : IdeState ι n β}
    (hstep : deviceDone s = some t) : Queue t queue := by
  have hhead : ∀ regs write, s.device = .working regs write →
      ∃ b rest, queue = b :: rest ∧ Serves (.working regs write) s.disk (s.bufs b) ∧
        regs.sector = (s.bufs b).blockno.toNat ∧ regs.disk1 = (s.bufs b).disk1 := by
    intro regs write hdevice
    cases hqueue : queue with
    | nil =>
      rw [h.quiet hqueue] at hdevice
      cases hdevice
    | cons b rest =>
      have hserves := h.serves b (by rw [hqueue]; rfl)
      rw [hdevice] at hserves
      exact ⟨b, rest, rfl, hserves, hserves.done⟩
  unfold Xv6.Ide.deviceDone at hstep
  split at hstep
  · next regs data hdevice =>
    obtain ⟨b, rest, hqueue, hserves, hsector, hdisk⟩ := hhead regs _ hdevice
    cases hstep
    refine h.setDevice hqueue ⟨hserves.block, ?_⟩
    have hwork := hserves.work.2
    by_cases hdirty : (s.bufs b).dirty = true
    · rw [if_pos hdirty, Option.some.injEq] at hwork
      simp [hdirty, hsector, hdisk, hwork]
    · rw [if_neg hdirty] at hwork
      cases hwork
  · next regs hdevice =>
    obtain ⟨b, rest, hqueue, hserves, hsector, hdisk⟩ := hhead regs _ hdevice
    cases hstep
    refine h.setDevice hqueue ⟨hserves.block, ?_⟩
    have hwork := hserves.work.2
    by_cases hdirty : (s.bufs b).dirty = true
    · rw [if_pos hdirty] at hwork
      cases hwork
    · simp [hdirty, hsector, hdisk]
  · cases hstep

/-- A panic changes nothing in the queue. -/
theorem Queue.panic (h : Queue s queue) {stop : Stop} (hstop : stop ≠ .endless) :
    Queue { s with stop := some stop } queue := by
  refine { h with ends := ?_ }
  intro heq
  exact hstop (Option.some.inj heq)

section Processes

variable [DecidableEq ι]

theorem Queue.kill (h : Queue s queue) (i : ι) :
    Queue { s with pc := Function.update s.pc i (s.pc i).kill } queue := by
  have htarget : ∀ j, (Function.update s.pc i (s.pc i).kill j).target = (s.pc j).target := by
    intro j
    by_cases hji : j = i
    · subst hji
      rw [Function.update_self, Pc.target_kill]
    · rw [Function.update_of_ne hji]
  refine { h with owned := ?_, waits := ?_, asleep := ?_ }
  · intro b hb
    simp only [htarget]
    exact h.owned b hb
  · intro j b hj
    simp only [htarget] at hj
    exact h.waits j b hj
  · intro j b hj
    by_cases hji : j = i
    · subst hji
      simp only [Function.update_self] at hj
      exact absurd hj (Pc.kill_ne _ b)
    · simp only [Function.update_of_ne hji] at hj
      exact h.asleep j b hj

/-- A woken process returns. -/
theorem Queue.leave (h : Queue s queue) {i : ι} {b : Fin n} (htarget : (s.pc i).target = some b)
    (hsynced : (s.bufs b).synced = true) :
    Queue { s with pc := Function.update s.pc i .idle } queue := by
  refine { h with owned := ?_, waits := ?_, asleep := ?_ }
  · intro c hc
    obtain ⟨j, hj⟩ := h.owned c hc
    have hji : j ≠ i := by
      intro heq
      rw [heq, htarget, Option.some.injEq] at hj
      rw [hj, h.unsynced c hc] at hsynced
      cases hsynced
    refine ⟨j, ?_⟩
    simp only [Function.update_of_ne hji]
    exact hj
  · intro j c hj
    by_cases hji : j = i
    · subst hji
      simp [Pc.target] at hj
    · simp only [Function.update_of_ne hji] at hj
      exact h.waits j c hj
  · intro j c hj
    by_cases hji : j = i
    · subst hji
      simp at hj
    · simp only [Function.update_of_ne hji] at hj
      exact h.asleep j c hj

/-- A woken process goes back to sleep. -/
theorem Queue.sleep (h : Queue s queue) {i : ι} {b : Fin n} (htarget : (s.pc i).target = some b)
    (hmem : b ∈ queue) : Queue { s with pc := Function.update s.pc i (.asleep b) } queue := by
  have hsame : ∀ j, (Function.update s.pc i (.asleep b) j).target = (s.pc j).target := by
    intro j
    by_cases hji : j = i
    · subst hji
      rw [Function.update_self, htarget]
      rfl
    · rw [Function.update_of_ne hji]
  refine { h with owned := ?_, waits := ?_, asleep := ?_ }
  · intro c hc
    simp only [hsame]
    exact h.owned c hc
  · intro j c hj
    simp only [hsame] at hj
    exact h.waits j c hj
  · intro j c hj
    by_cases hji : j = i
    · subst hji
      simp only [Function.update_self, Pc.asleep.injEq] at hj
      exact hj ▸ hmem
    · simp only [Function.update_of_ne hji] at hj
      exact h.asleep j c hj

theorem Queue.resume (h : Queue s queue) {i : ι} {b : Fin n} (hpc : s.pc i = .awake b) :
    Queue (await s i b) queue := by
  have htarget : (s.pc i).target = some b := by
    rw [hpc]
    rfl
  unfold await
  by_cases hsynced : (s.bufs b).synced = true
  · rw [if_pos hsynced]
    exact h.leave htarget hsynced
  · rw [if_neg hsynced]
    exact h.sleep htarget ((h.waits i b htarget).2.resolve_right hsynced)

/-! ## Submitting a request -/

omit [DecidableEq ι] in
theorem Queue.length_le (h : Queue s queue) : queue.length ≤ n := by
  have hcard := h.nodup.length_le_card
  rwa [Fintype.card_fin] at hcard

omit [DecidableEq ι] in
theorem idestart_ok {t : IdeState ι n β} {b : Fin n} (hok : idestart s b = .ok t) :
    (s.bufs b).blockno.toNat < fssize ∧
      t = { s with
        device := command (s.bufs b)
        started := s.started ++ [b] } := by
  unfold idestart at hok
  split_ifs at hok with hblock
  cases hok
  exact ⟨Nat.lt_of_not_le hblock, rfl⟩

omit [DecidableEq ι] in
theorem idestart_error {b : Fin n} {stop : Stop} (herror : idestart s b = .error stop) :
    stop = .incorrectBlockno := by
  unfold idestart at herror
  split_ifs at herror
  cases herror
  rfl

/-- The state once `b` is linked behind the queue. -/
def linkLast (s : IdeState ι n β) (b : Fin n) : List (Fin n) → IdeState ι n β
  | [] => { s with idequeue := some b }
  | first :: rest => { s with qnext := Function.update s.qnext (rest.getLastD first) (some b) }

omit [DecidableEq ι] in
/-- The walk along the queue ends. -/
theorem enqueue_eq {b : Fin n} (hlinked : Linked s.qnext s.idequeue queue)
    (hlength : queue.length ≤ n) : enqueue s b = .ok (linkLast s b queue) := by
  unfold enqueue
  cases queue with
  | nil =>
    have hnone : s.idequeue = none := hlinked
    split
    · rfl
    · next first hfirst =>
      rw [hnone] at hfirst
      cases hfirst
  | cons first rest =>
    have hlast := lastCell_eq hlinked.2 (Nat.lt_succ_of_lt hlength)
    split
    · next hnone =>
      rw [hlinked.1] at hnone
      cases hnone
    · next first' hfirst =>
      rw [hlinked.1, Option.some.injEq] at hfirst
      subst hfirst
      simp only [hlast]
      rfl

/-- The state of the queue in the middle of `iderw`. -/
def submit (s : IdeState ι n β) (b : Fin n) (queue : List (Fin n)) : IdeState ι n β :=
  linkLast { s with
    qnext := Function.update s.qnext b none
    submitted := s.submitted ++ [b] } b queue

omit [DecidableEq ι] in
theorem submit_linked {b : Fin n} (hlinked : Linked s.qnext s.idequeue queue)
    (hnodup : queue.Nodup) (hnot : b ∉ queue) :
    Linked (submit s b queue).qnext (submit s b queue).idequeue (queue ++ [b]) := by
  have hkeep : Linked (Function.update s.qnext b none) s.idequeue queue := by
    apply hlinked.congr
    intro c hc
    have hcb : c ≠ b := by
      intro heq
      exact hnot (heq ▸ hc)
    exact Function.update_of_ne hcb _ _
  have hlast : Function.update s.qnext b none b = none := Function.update_self b none s.qnext
  cases queue with
  | nil => exact ⟨rfl, hlast⟩
  | cons first rest => exact hkeep.concat hnodup hnot hlast

/-- How `iderw` comes to its first sleep. -/
inductive Submitted (s : IdeState ι n β) (i : ι) (b : Fin n) (queue : List (Fin n)) :
    Except Stop (IdeState ι n β) → Prop
  | refused (stop : Stop) (hstop : stop ≠ .endless) : Submitted s i b queue (.error stop)
  | queued (first : Fin n) (rest : List (Fin n)) (hqueue : queue = first :: rest) :
      Submitted s i b queue
        (.ok { submit s b queue with pc := Function.update s.pc i (.asleep b) })
  | started (hqueue : queue = []) (hblock : (s.bufs b).blockno.toNat < fssize) :
      Submitted s i b queue
        (.ok { submit s b queue with
          pc := Function.update s.pc i (.asleep b)
          device := command (s.bufs b)
          started := s.started ++ [b] })

theorem iderw_cases (h : Queue s queue) {i : ι} {b : Fin n} (hidle : s.pc i = .idle) :
    Submitted s i b queue (iderw s i b) ∧
      ∀ t, iderw s i b = .ok t →
        s.holder b = some i ∧ (s.bufs b).synced = false ∧ b ∉ queue := by
  by_cases hholder : s.holder b = some i
  swap
  · have herror : iderw s i b = .error .notLocked := by simp [iderw, hholder]
    rw [herror]
    exact ⟨.refused _ (by decide), by simp⟩
  by_cases hsynced : (s.bufs b).synced = true
  · have herror : iderw s i b = .error .nothingToDo := by simp [iderw, hholder, hsynced]
    rw [herror]
    exact ⟨.refused _ (by decide), by simp⟩
  by_cases hdisk : (s.bufs b).dev ≠ 0 ∧ s.havedisk1 = false
  · have herror : iderw s i b = .error .noDisk1 := by simp [iderw, hholder, hsynced, hdisk]
    rw [herror]
    exact ⟨.refused _ (by decide), by simp⟩
  have hnot : b ∉ queue := by
    refine (h.not_awaited ?_).1
    intro j hj
    rw [hholder, Option.some.injEq] at hj
    rw [← hj]
    exact hidle
  refine ⟨?_, fun t _ => ⟨hholder, by simpa using hsynced, hnot⟩⟩
  have hqueued : enqueue { s with
      qnext := Function.update s.qnext b none
      submitted := s.submitted ++ [b] } b = .ok (submit s b queue) := by
    refine enqueue_eq ?_ h.length_le
    apply h.linked.congr
    intro c hc
    have hcb : c ≠ b := by
      intro heq
      exact hnot (heq ▸ hc)
    exact Function.update_of_ne hcb _ _
  have hbody : iderw s i b =
      if (submit s b queue).idequeue = some b then
        (idestart (submit s b queue) b).bind fun t => .ok (await t i b)
      else .ok (await (submit s b queue) i b) := by
    simp only [iderw, hholder, ne_eq, not_true_eq_false, if_false, hsynced, hdisk,
      Bool.false_eq_true, hqueued]
    rfl
  rw [hbody]
  cases hqueue : queue with
  | nil =>
    have hfirst : (submit s b []).idequeue = some b := rfl
    rw [if_pos hfirst, idestart]
    by_cases hblock : fssize ≤ (s.bufs b).blockno.toNat
    · have herror : fssize ≤ ((submit s b []).bufs b).blockno.toNat := hblock
      rw [if_pos herror]
      exact .refused _ (by decide)
    · have hstart : ¬ fssize ≤ ((submit s b []).bufs b).blockno.toNat := hblock
      rw [if_neg hstart]
      have hasleep : Submitted s i b [] _ := .started rfl (Nat.lt_of_not_le hblock)
      simpa [Except.bind, await, submit, linkLast, hsynced] using hasleep
  | cons first rest =>
    have hother : (submit s b (first :: rest)).idequeue ≠ some b := by
      have hfirst := h.linked.head?_eq
      rw [hqueue, List.head?_cons] at hfirst
      intro heq
      have hb : s.idequeue = some b := heq
      rw [hfirst, Option.some.injEq] at hb
      rw [hqueue, hb] at hnot
      exact hnot List.mem_cons_self
    rw [if_neg hother]
    have hasleep : Submitted s i b (first :: rest) _ := .queued first rest rfl
    simpa [await, submit, linkLast, hsynced] using hasleep

/-- A request joins the queue. -/
theorem Queue.join (h : Queue s queue) {t : IdeState ι n β} {i : ι} {b : Fin n}
    (hidle : s.pc i = .idle) (hheld : s.holder b = some i)
    (hunsynced : (s.bufs b).synced = false) (hnot : b ∉ queue)
    (hlinked : Linked t.qnext t.idequeue (queue ++ [b])) (hbufs : t.bufs = s.bufs)
    (hholder : t.holder = s.holder) (hpc : t.pc = Function.update s.pc i (.asleep b))
    (hsubmitted : t.submitted = s.submitted ++ [b]) (hcompleted : t.completed = s.completed)
    (hstarted : t.started = s.completed ++ (queue ++ [b]).take 1)
    (hserves : ∀ c, (queue ++ [b]).head? = some c → Serves t.device t.disk (s.bufs c))
    (hstop : t.stop = s.stop) : Queue t (queue ++ [b]) := by
  constructor
  · exact hlinked
  · refine List.nodup_append.mpr ⟨h.nodup, List.nodup_singleton b, ?_⟩
    intro c hc d hd hcd
    rw [List.mem_singleton] at hd
    rw [hcd, hd] at hc
    exact hnot hc
  · rw [hsubmitted, hcompleted, h.submitted, List.append_assoc]
  · rw [hstarted, hcompleted]
  · simp
  · rw [hbufs]
    exact hserves
  · intro c hc
    rw [hbufs]
    rcases List.mem_append.mp hc with hc | hc
    · exact h.unsynced c hc
    · rw [List.mem_singleton.mp hc]
      exact hunsynced
  · intro c hc
    rcases List.mem_append.mp hc with hc | hc
    · obtain ⟨j, hj⟩ := h.owned c hc
      have hji : j ≠ i := by
        intro heq
        rw [heq, hidle] at hj
        cases hj
      refine ⟨j, ?_⟩
      rw [hpc, Function.update_of_ne hji]
      exact hj
    · refine ⟨i, ?_⟩
      rw [hpc, Function.update_self, List.mem_singleton.mp hc]
      rfl
  · intro j c hj
    rw [hpc] at hj
    rw [hholder, hbufs]
    by_cases hji : j = i
    · subst hji
      rw [Function.update_self] at hj
      cases hj
      exact ⟨hheld, Or.inl (by simp)⟩
    · rw [Function.update_of_ne hji] at hj
      obtain ⟨hown, hwhere⟩ := h.waits j c hj
      exact ⟨hown, hwhere.imp (fun hc => List.mem_append_left [b] hc) id⟩
  · intro j c hj
    rw [hpc] at hj
    by_cases hji : j = i
    · subst hji
      rw [Function.update_self] at hj
      cases hj
      simp
    · rw [Function.update_of_ne hji] at hj
      exact List.mem_append_left [b] (h.asleep j c hj)
  · rw [hstop]
    exact h.ends

omit [DecidableEq ι] in
/-- Linking changes the links and the list of requests only. -/
theorem submit_fields (s : IdeState ι n β) (b : Fin n) (queue : List (Fin n)) :
    (submit s b queue).bufs = s.bufs ∧ (submit s b queue).holder = s.holder ∧
      (submit s b queue).submitted = s.submitted ++ [b] ∧
      (submit s b queue).completed = s.completed ∧ (submit s b queue).started = s.started ∧
      (submit s b queue).device = s.device ∧ (submit s b queue).disk = s.disk ∧
      (submit s b queue).stop = s.stop := by
  cases queue <;> exact ⟨rfl, rfl, rfl, rfl, rfl, rfl, rfl, rfl⟩

omit [DecidableEq ι] in
theorem serves_command {x : Buf β} (hblock : x.blockno.toNat < fssize)
    (disk : Bool → Nat → β) : Serves (command x) disk x :=
  ⟨hblock, rfl, rfl⟩

/-- A request that is submitted. -/
theorem Queue.iderw (h : Queue s queue) {t : IdeState ι n β} {i : ι} {b : Fin n}
    (hidle : s.pc i = .idle) (hok : iderw s i b = .ok t) : Queue t (queue ++ [b]) := by
  obtain ⟨hcases, hguard⟩ := iderw_cases h (b := b) hidle
  obtain ⟨hheld, hunsynced, hnot⟩ := hguard t hok
  have hlinked := submit_linked h.linked h.nodup hnot
  obtain ⟨hbufs, hholder, hsubmitted, hcompleted, hstarted, hdevice, hdisk, hstop⟩ :=
    submit_fields s b queue
  rw [hok] at hcases
  cases hcases with
  | queued first rest hqueue =>
    refine h.join hidle hheld hunsynced hnot hlinked hbufs hholder rfl hsubmitted hcompleted
      ?_ ?_ hstop
    · have htake : (queue ++ [b]).take 1 = queue.take 1 := by
        rw [hqueue]
        rfl
      rw [htake, ← h.started]
      exact hstarted
    · intro c hc
      have hhead : queue.head? = some c := by
        rw [hqueue] at hc ⊢
        exact hc
      simp only [hdevice, hdisk]
      exact h.serves c hhead
  | started hqueue hblock =>
    refine h.join hidle hheld hunsynced hnot hlinked hbufs hholder rfl hsubmitted hcompleted
      ?_ ?_ hstop
    · have hold := h.started
      rw [hqueue, List.take_nil, List.append_nil] at hold
      rw [hqueue]
      simp only [hold]
      rfl
    · intro c hc
      rw [hqueue] at hc
      cases hc
      exact serves_command hblock _

/-! ## Completing a request -/

omit [DecidableEq ι] in
/-- The first request leaves the queue. -/
theorem Queue.shift {b : Fin n} {rest : List (Fin n)} (h : Queue s (b :: rest))
    {t : IdeState ι n β} {x : Buf β} (hx : x.synced = true)
    (hlinked : Linked t.qnext t.idequeue rest)
    (hbufs : t.bufs = Function.update s.bufs b x) (hholder : t.holder = s.holder)
    (hpc : t.pc = fun i => (s.pc i).wakeup b) (hsubmitted : t.submitted = s.submitted)
    (hcompleted : t.completed = s.completed ++ [b])
    (hstarted : t.started = t.completed ++ rest.take 1)
    (hquiet : rest = [] → t.device = .idle)
    (hserves : ∀ c, rest.head? = some c → Serves t.device t.disk (s.bufs c))
    (hstop : t.stop = s.stop) : Queue t rest := by
  have hnodup := List.nodup_cons.mp h.nodup
  have hkeep : ∀ c ∈ rest, t.bufs c = s.bufs c := by
    intro c hc
    have hcb : c ≠ b := by
      intro heq
      exact hnodup.1 (heq ▸ hc)
    rw [hbufs, Function.update_of_ne hcb]
  constructor
  · exact hlinked
  · exact hnodup.2
  · rw [hsubmitted, hcompleted, h.submitted, List.append_assoc]
    rfl
  · exact hstarted
  · exact hquiet
  · intro c hc
    rw [hkeep c (List.mem_of_mem_head? hc)]
    exact hserves c hc
  · intro c hc
    rw [hkeep c hc]
    exact h.unsynced c (List.mem_cons_of_mem b hc)
  · intro c hc
    obtain ⟨j, hj⟩ := h.owned c (List.mem_cons_of_mem b hc)
    refine ⟨j, ?_⟩
    rw [hpc, Pc.target_wakeup]
    exact hj
  · intro j c hj
    rw [hpc, Pc.target_wakeup] at hj
    obtain ⟨hown, hwhere⟩ := h.waits j c hj
    rw [hholder]
    refine ⟨hown, ?_⟩
    by_cases hcb : c = b
    · rw [hcb, hbufs, Function.update_self]
      exact Or.inr hx
    · rw [hbufs, Function.update_of_ne hcb]
      exact hwhere.imp (fun hc => (List.mem_cons.mp hc).resolve_left hcb) id
  · intro j c hj
    rw [hpc] at hj
    obtain ⟨hasleep, hcb⟩ := Pc.of_wakeup hj
    exact (List.mem_cons.mp (h.asleep j c hasleep)).resolve_left hcb
  · rw [hstop]
    exact h.ends

omit [DecidableEq ι] in
theorem ideintr_eq {b : Fin n} {rest : List (Fin n)}
    (hlinked : Linked s.qnext s.idequeue (b :: rest))
    (read : Option β) :
    ideintr s read =
      match rest with
      | [] => .ok (complete s b read)
      | c :: _ => idestart (complete s b read) c := by
  have hfirst := hlinked.1
  have hnext := hlinked.2.head?_eq
  unfold ideintr
  cases rest with
  | nil =>
    rw [List.head?_nil] at hnext
    simp only [hfirst, hnext]
  | cons c rest =>
    rw [List.head?_cons] at hnext
    simp only [hfirst, hnext]

omit [DecidableEq ι] in
/-- The interrupt completes the first request and starts the next. -/
theorem Queue.ideintr (h : Queue s queue) {t : IdeState ι n β} {read : Option β}
    (hdevice : s.device = .finished read) (hok : ideintr s read = .ok t) :
    ∃ b rest, queue = b :: rest ∧ Queue t rest := by
  cases queue with
  | nil =>
    rw [h.quiet rfl] at hdevice
    cases hdevice
  | cons b rest =>
    refine ⟨b, rest, rfl, ?_⟩
    rw [ideintr_eq h.linked] at hok
    have hold := h.started
    have hsynced : ((if (s.bufs b).dirty then s.bufs b
        else { s.bufs b with data := read.getD (s.bufs b).data }).sync).synced = true := by
      simp [Buf.sync, Buf.synced]
    cases rest with
    | nil =>
      cases hok
      refine h.shift hsynced h.linked.2 rfl rfl rfl rfl rfl ?_ (fun _ => rfl) (by simp) rfl
      rw [List.take_nil, List.append_nil]
      exact hold
    | cons c rest =>
      obtain ⟨hblock, ht⟩ := idestart_ok hok
      have hcb : c ≠ b := by
        intro heq
        exact (List.nodup_cons.mp h.nodup).1 (heq ▸ List.mem_cons_self)
      have hbuf : (complete s b read).bufs c = s.bufs c := Function.update_of_ne hcb _ _
      rw [hbuf] at hblock ht
      subst ht
      refine h.shift hsynced h.linked.2 rfl rfl rfl rfl rfl ?_ (by simp) ?_ rfl
      · simp only [complete, hold]
        rfl
      · intro d hd
        cases hd
        exact serves_command hblock _

omit [DecidableEq ι] in
theorem ideintr_error (h : Queue s queue) {read : Option β} {stop : Stop}
    (herror : ideintr s read = .error stop) : stop = .incorrectBlockno := by
  cases queue with
  | nil =>
    have hnone : s.idequeue = none := h.linked
    simp only [Xv6.Ide.ideintr, hnone] at herror
    cases herror
  | cons b rest =>
    rw [ideintr_eq h.linked] at herror
    cases rest with
    | nil => cases herror
    | cons c rest => exact idestart_error herror

/-! ## Every section -/

/-- Every section keeps the queue. -/
theorem Queue.step (h : Queue s queue) {t : IdeState ι n β} {a : IdeAct ι n β}
    (hstep : ideStep s a = some t) : ∃ queue', Queue t queue' := by
  unfold ideStep at hstep
  split_ifs at hstep
  cases a with
  | acquiresleep i b =>
    simp only [Option.ite_none_right_eq_some, Option.some.injEq] at hstep
    obtain ⟨⟨-, hfree⟩, rfl⟩ := hstep
    have hnone := (h.not_awaited (b := b) (by simp [hfree])).2
    exact ⟨queue, h.setHolder hnone _⟩
  | releasesleep i b =>
    simp only [Option.ite_none_right_eq_some, Option.some.injEq] at hstep
    obtain ⟨⟨hidle, hheld⟩, rfl⟩ := hstep
    have hnone := (h.not_awaited (b := b) (by simp [hheld, hidle])).2
    exact ⟨queue, h.setHolder hnone _⟩
  | edit b x =>
    simp only [Option.ite_none_right_eq_some, Option.some.injEq] at hstep
    obtain ⟨hfree, rfl⟩ := hstep
    exact ⟨queue, h.edit hfree x⟩
  | iderw i b =>
    simp only [Option.ite_none_right_eq_some, Option.some.injEq] at hstep
    obtain ⟨hidle, rfl⟩ := hstep
    cases hresult : Xv6.Ide.iderw s i b with
    | ok t => exact ⟨queue ++ [b], h.iderw hidle hresult⟩
    | error stop =>
      have hcases := (iderw_cases h (b := b) hidle).1
      rw [hresult] at hcases
      cases hcases with
      | refused _ hstop => exact ⟨queue, h.panic hstop⟩
  | resume i =>
    simp only at hstep
    split at hstep
    · next b hpc =>
      cases hstep
      exact ⟨queue, h.resume hpc⟩
    · cases hstep
  | kill i =>
    cases hstep
    exact ⟨queue, h.kill i⟩
  | device => exact ⟨queue, h.deviceDone hstep⟩
  | ideintr =>
    simp only at hstep
    split at hstep
    · next read hdevice =>
      cases hstep
      cases hresult : Xv6.Ide.ideintr s read with
      | ok t =>
        obtain ⟨b, rest, -, hrest⟩ := h.ideintr hdevice hresult
        exact ⟨rest, hrest⟩
      | error stop =>
        have hstop : stop ≠ .endless := by
          rw [ideintr_error h hresult]
          decide
        exact ⟨queue, h.panic hstop⟩
    · cases hstep

end Processes

end Requests

end Xv6.Ide
