import Xv6.Bio.Cache
import Xv6.Ide.Queue

/-!
# IDE - The queued driver refines the in-memory disk

Every section of the queued driver is explained by the in-memory disk, where a request is
carried out when its interrupt is handled.  The two disks differ only while a write is on the
disk and its interrupt is not handled yet.

Main results:

- Theorem {lit}`Explained.step`: one section.
- Theorem {lit}`Sees.iderw`: the in-memory disk does what the cache takes `iderw` for.
- Theorem {lit}`ide_refines_memide`: requests are started and completed once each, in the
  order in which they were submitted, nobody sleeps on a completed request, and disk and
  buffers are those of the in-memory disk.
-/

namespace Xv6.Ide

open Foundations

section Refinement

variable {ι : Type} {n : Nat} {β : Type} {s t : IdeState ι n β} {queue : List (Fin n)}
  {d : MemDisk n β}

/-- The contents of disk 1 when the in-memory disk holds `memdisk`: a write that the device
has carried out is there before its interrupt is handled. -/
def landed (s : IdeState ι n β) (memdisk : Nat → β) : Nat → β :=
  match s.device, s.idequeue with
  | .finished none, some b =>
    Function.update memdisk (s.bufs b).blockno.toNat (s.bufs b).data
  | _, _ => memdisk

/-- The in-memory disk `d` explains the state of the driver. -/
structure Explained (s : IdeState ι n β) (queue : List (Fin n)) (d : MemDisk n β) : Prop where
  inv : Queue s queue
  bufs : d.bufs = s.bufs
  disk : s.disk true = landed s d.memdisk
  onDisk1 : ∀ b ∈ queue, (s.bufs b).dev = 1

theorem landed_of_device (h : ∀ read, s.device ≠ .finished read) (memdisk : Nat → β) :
    landed s memdisk = memdisk := by
  unfold landed
  split
  · next hdevice _ => exact absurd hdevice (h none)
  · rfl

/-- Only the device, the head of the queue and its buffer matter. -/
theorem landed_congr (hdevice : t.device = s.device) (hqueue : t.idequeue = s.idequeue)
    (hbuf : ∀ b, s.idequeue = some b → t.bufs b = s.bufs b) (memdisk : Nat → β) :
    landed t memdisk = landed s memdisk := by
  unfold landed
  rw [hdevice, hqueue]
  split
  · next b _ hfirst => rw [hbuf b hfirst]
  · rfl

/-- A section that touches neither the device nor the buffers. -/
theorem Explained.same (h : Explained s queue d) (hqueue : Queue t queue)
    (hbufs : t.bufs = s.bufs) (hdisk : t.disk = s.disk) (hdevice : t.device = s.device)
    (hfirst : t.idequeue = s.idequeue) : Explained t queue d := by
  refine ⟨hqueue, by rw [hbufs, h.bufs], ?_, ?_⟩
  · rw [hdisk, landed_congr hdevice hfirst (fun b _ => by rw [hbufs])]
    exact h.disk
  · rw [hbufs]
    exact h.onDisk1

theorem disk1_of_dev {x : Buf β} (hdev : x.dev = 1) : x.disk1 = true := by
  rw [Buf.disk1, hdev]
  rfl

theorem Explained.edit (h : Explained s queue d) {b : Fin n} (hfree : free s b = true)
    (x : Buf β) :
    Explained { s with bufs := Function.update s.bufs b x } queue
      { d with bufs := Function.update d.bufs b x } := by
  have hnot := (h.inv.not_awaited (free_iff.mp hfree)).1
  have hkeep : ∀ c ∈ queue, Function.update s.bufs b x c = s.bufs c := by
    intro c hc
    have hcb : c ≠ b := by
      intro heq
      exact hnot (heq ▸ hc)
    exact Function.update_of_ne hcb x s.bufs
  refine ⟨h.inv.edit hfree x, by rw [h.bufs], ?_, ?_⟩
  · have hsame := landed_congr (s := s) (t := { s with bufs := Function.update s.bufs b x }) rfl
      rfl (fun c hc => hkeep c ?_) d.memdisk
    · rw [hsame]
      exact h.disk
    · exact List.mem_of_mem_head? (h.inv.linked.head?_eq ▸ hc)
  · intro c hc
    simp only [hkeep c hc]
    exact h.onDisk1 c hc

/-- The device carries out a command. -/
theorem Explained.deviceDone (h : Explained s queue d) (hstep : deviceDone s = some t) :
    Explained t queue d := by
  have hqueue := h.inv.deviceDone hstep
  have hdisk := h.disk
  unfold Xv6.Ide.deviceDone at hstep
  split at hstep
  · next regs data hdevice =>
    cases hq : queue with
    | nil =>
      rw [h.inv.quiet hq] at hdevice
      cases hdevice
    | cons b rest =>
      have hmem : b ∈ queue := by simp [hq]
      have hserves := h.inv.serves b (by rw [hq]; rfl)
      rw [hdevice] at hserves
      obtain ⟨hsector, hdisk1⟩ := hserves.done
      rw [disk1_of_dev (h.onDisk1 b hmem)] at hdisk1
      have hdata : data = (s.bufs b).data := by
        have hwork := hserves.work.2
        split_ifs at hwork
        exact Option.some.inj hwork
      have hfirst : s.idequeue = some b := (hq ▸ h.inv.linked).1
      rw [landed_of_device (by simp [hdevice])] at hdisk
      cases hstep
      rw [← hq]
      refine ⟨hqueue, h.bufs, ?_, h.onDisk1⟩
      simp only [hdisk1, Function.update_self, landed, hfirst, hsector, hdata, hdisk]
  · next regs hdevice =>
    rw [landed_of_device (by simp [hdevice])] at hdisk
    cases hstep
    exact ⟨hqueue, h.bufs, hdisk, h.onDisk1⟩
  · cases hstep

/-- What the interrupt does to the buffers and the device. -/
theorem ideintr_fields {b : Fin n} {rest : List (Fin n)}
    (hlinked : Linked s.qnext s.idequeue (b :: rest)) {read : Option β}
    (hok : ideintr s read = .ok t) :
    t.bufs = (complete s b read).bufs ∧ t.disk = s.disk ∧ ∀ r, t.device ≠ .finished r := by
  rw [ideintr_eq hlinked] at hok
  cases rest with
  | nil =>
    cases hok
    exact ⟨rfl, rfl, by simp [complete]⟩
  | cons c rest =>
    obtain ⟨-, ht⟩ := idestart_ok hok
    rw [ht]
    exact ⟨rfl, rfl, by simp [command]⟩

/-- A request is carried out by the in-memory disk when its interrupt is handled. -/
theorem Explained.ideintr (h : Explained s queue d) {read : Option β}
    (hdevice : s.device = .finished read) (hok : ideintr s read = .ok t) :
    ∃ b d' queue', s.idequeue = some b ∧ memIderw d b = some d' ∧ Explained t queue' d' := by
  obtain ⟨b, rest, hq, hqueue⟩ := h.inv.ideintr hdevice hok
  subst hq
  have hfirst : s.idequeue = some b := h.inv.linked.1
  have hserves := h.inv.serves b rfl
  have hdev := h.onDisk1 b List.mem_cons_self
  have hunsynced := h.inv.unsynced b List.mem_cons_self
  have hblock : ¬ fssize ≤ (s.bufs b).blockno.toNat := Nat.not_le_of_lt hserves.block
  have hwork := hserves.work
  rw [hdevice, disk1_of_dev hdev] at hwork
  obtain ⟨hbufs, hdisk, hother⟩ := ideintr_fields h.inv.linked hok
  have hrest : ∀ c ∈ rest, (t.bufs c).dev = 1 := by
    intro c hc
    have hcb : c ≠ b := by
      intro heq
      exact (List.nodup_cons.mp h.inv.nodup).1 (heq ▸ hc)
    rw [hbufs, complete]
    simp only [Function.update_of_ne hcb]
    exact h.onDisk1 c (List.mem_cons_of_mem b hc)
  have hold := h.disk
  by_cases hdirty : (s.bufs b).dirty = true
  · simp only [hdirty, if_true] at hwork
    refine ⟨b, ⟨Function.update d.memdisk (s.bufs b).blockno.toNat (s.bufs b).data,
      Function.update d.bufs b (s.bufs b).sync⟩, rest, hfirst, ?_, hqueue, ?_, ?_, hrest⟩
    · simp [memIderw, h.bufs, hunsynced, hdev, hblock, hdirty]
    · rw [hbufs, h.bufs]
      simp [complete, hdirty]
    · rw [landed_of_device hother, hdisk, hold]
      simp only [landed, hdevice, hwork.1, hfirst]
  · simp only [hdirty, Bool.false_eq_true, if_false] at hwork
    have hmem : s.disk true = d.memdisk := by
      rw [hold]
      simp only [landed, hdevice, hwork]
    refine ⟨b, ⟨d.memdisk, Function.update d.bufs b
      (Buf.sync { s.bufs b with data := d.memdisk (s.bufs b).blockno.toNat })⟩, rest, hfirst, ?_,
      hqueue, ?_, ?_, hrest⟩
    · simp [memIderw, h.bufs, hunsynced, hdev, hblock, hdirty]
    · rw [hbufs, h.bufs]
      simp [complete, hdirty, hwork, hmem]
    · rw [landed_of_device hother, hdisk]
      exact hmem

section Processes

variable [DecidableEq ι]

theorem Explained.iderw (h : Explained s queue d) {i : ι} {b : Fin n} (hidle : s.pc i = .idle)
    (hdev : (s.bufs b).dev = 1) (hok : iderw s i b = .ok t) :
    Explained t (queue ++ [b]) d := by
  have hqueue := h.inv.iderw hidle hok
  have hcases := (iderw_cases h.inv (b := b) hidle).1
  obtain ⟨hbufs, -, -, -, -, hdevice, hdisk, -⟩ := submit_fields s b queue
  have honDisk1 : ∀ c ∈ queue ++ [b], (s.bufs c).dev = 1 := by
    intro c hc
    rcases List.mem_append.mp hc with hc | hc
    · exact h.onDisk1 c hc
    · rw [List.mem_singleton.mp hc]
      exact hdev
  rw [hok] at hcases
  cases hcases with
  | queued first rest hq =>
    refine ⟨hqueue, h.bufs.trans hbufs.symm, ?_, by simpa only [hbufs] using honDisk1⟩
    have hsame := landed_congr (s := s)
      (t := { submit s b queue with pc := Function.update s.pc i (.asleep b) }) hdevice
      (by rw [hq]; rfl) (fun c _ => congrFun hbufs c) d.memdisk
    rw [hsame, ← h.disk]
    exact congrFun hdisk true
  | started hq hblock =>
    refine ⟨hqueue, h.bufs.trans hbufs.symm, ?_, by simpa only [hbufs] using honDisk1⟩
    have hold := h.disk
    rw [landed_of_device (by simp [h.inv.quiet hq])] at hold
    rw [landed_of_device (by simp [command]), ← hold]
    exact congrFun hdisk true

/-- Requests are for disk 1, the one that the in-memory disk has. -/
def OnlyDisk1 (s : IdeState ι n β) (a : IdeAct ι n β) : Prop :=
  ∀ i b, a = .iderw i b → (s.bufs b).dev = 1

instance decidableOnlyDisk1 (s : IdeState ι n β) : (a : IdeAct ι n β) → Decidable (OnlyDisk1 s a)
  | .iderw _ b =>
    decidable_of_iff ((s.bufs b).dev = 1)
      ⟨fun h _ _ ha => by cases ha; exact h, fun h => h _ b rfl⟩
  | .acquiresleep _ _ | .releasesleep _ _ | .edit _ _ | .resume _ | .kill _ | .device
  | .ideintr => isTrue fun _ _ ha => by cases ha

/-- Every section is explained by the in-memory disk. -/
theorem Explained.step (h : Explained s queue d) {a : IdeAct ι n β} (hdisk1 : OnlyDisk1 s a)
    (hstep : ideStep s a = some t) :
    ∃ d', runFrom memStep d (ideEvents s a) = some d' ∧ ∃ queue', Explained t queue' d' := by
  unfold ideStep at hstep
  split_ifs at hstep
  cases a with
  | acquiresleep i b =>
    simp only [Option.ite_none_right_eq_some, Option.some.injEq] at hstep
    obtain ⟨⟨-, hfree⟩, rfl⟩ := hstep
    have hnone := (h.inv.not_awaited (b := b) (by simp [hfree])).2
    exact ⟨d, rfl, queue, h.same (h.inv.setHolder hnone _) rfl rfl rfl rfl⟩
  | releasesleep i b =>
    simp only [Option.ite_none_right_eq_some, Option.some.injEq] at hstep
    obtain ⟨⟨hidle, hheld⟩, rfl⟩ := hstep
    have hnone := (h.inv.not_awaited (b := b) (by simp [hheld, hidle])).2
    exact ⟨d, rfl, queue, h.same (h.inv.setHolder hnone _) rfl rfl rfl rfl⟩
  | edit b x =>
    simp only [Option.ite_none_right_eq_some, Option.some.injEq] at hstep
    obtain ⟨hfree, rfl⟩ := hstep
    exact ⟨_, rfl, queue, h.edit hfree x⟩
  | iderw i b =>
    simp only [Option.ite_none_right_eq_some, Option.some.injEq] at hstep
    obtain ⟨hidle, rfl⟩ := hstep
    refine ⟨d, rfl, ?_⟩
    cases hresult : Xv6.Ide.iderw s i b with
    | ok t => exact ⟨queue ++ [b], h.iderw hidle (hdisk1 i b rfl) hresult⟩
    | error stop =>
      have hcases := (iderw_cases h.inv (b := b) hidle).1
      rw [hresult] at hcases
      cases hcases with
      | refused _ hstop => exact ⟨queue, h.same (h.inv.panic hstop) rfl rfl rfl rfl⟩
  | resume i =>
    simp only at hstep
    split at hstep
    · next b hpc =>
      cases hstep
      exact ⟨d, rfl, queue, h.same (h.inv.resume hpc) rfl rfl rfl rfl⟩
    · cases hstep
  | kill i =>
    cases hstep
    exact ⟨d, rfl, queue, h.same (h.inv.kill i) rfl rfl rfl rfl⟩
  | device => exact ⟨d, rfl, queue, h.deviceDone hstep⟩
  | ideintr =>
    simp only at hstep
    split at hstep
    · next read hdevice =>
      cases hstep
      cases hresult : Xv6.Ide.ideintr s read with
      | ok t =>
        obtain ⟨b, d', queue', hfirst, hmem, hexplained⟩ := h.ideintr hdevice hresult
        refine ⟨d', ?_, queue', hexplained⟩
        have hevents : ideEvents s .ideintr = [.done b] := by
          simp only [ideEvents, hdevice, hfirst, hresult]
        rw [hevents, runFrom_cons]
        exact ⟨d', hmem, rfl⟩
      | error stop =>
        have hstop : stop ≠ .endless := by
          rw [ideintr_error h.inv hresult]
          decide
        have hevents : ideEvents s .ideintr = [] := by
          cases hfirst : s.idequeue <;> simp only [ideEvents, hdevice, hfirst, hresult]
        rw [hevents]
        exact ⟨d, rfl, queue, h.same (h.inv.panic hstop) rfl rfl rfl rfl⟩
    · cases hstep

/-- In every run of the queued driver: the requests that were submitted are those completed
and those in the queue; those started are those completed and the first of the queue, on which
the device works; nobody sleeps on a request that left the queue; and the walk along the queue
ends.  If the requests are for the disk that the in-memory driver has, then buffers and disk
are those of the in-memory driver that carries the requests out one by one in the order in
which they are completed. -/
theorem ide_refines_memide (bufs : Fin n → Buf β) (qnext : Fin n → Option (Fin n))
    (disk : Bool → Nat → β) (havedisk1 : Bool) (as : List (IdeAct ι n β)) (s : IdeState ι n β)
    (hrun : runFrom ideStep (ideinit bufs qnext disk havedisk1) as = some s) :
    (∃ queue, Linked s.qnext s.idequeue queue ∧ queue.Nodup ∧
      s.submitted = s.completed ++ queue ∧ s.started = s.completed ++ queue.take 1 ∧
      (∀ b, queue.head? = some b → Serves s.device s.disk (s.bufs b)) ∧
      (queue = [] → s.device = .idle) ∧
      (∀ i b, s.pc i = .asleep b → b ∈ queue)) ∧
    s.stop ≠ some .endless ∧
    (Meets ideStep OnlyDisk1 (ideinit bufs qnext disk havedisk1) as →
      ∃ d, runFrom memStep ⟨disk true, bufs⟩
          (traceFrom ideStep ideEvents (ideinit bufs qnext disk havedisk1) as) = some d ∧
        s.bufs = d.bufs ∧ s.disk true = landed s d.memdisk) := by
  have hinit : Queue (ideinit bufs qnext disk havedisk1 : IdeState ι n β) [] :=
    queue_ideinit bufs qnext disk havedisk1
  obtain ⟨queue, hqueue⟩ : ∃ queue, Queue s queue :=
    runFrom_invariant (I := fun s => ∃ queue, Queue s queue)
      (fun s a t hs hst => hs.elim fun queue hq => hq.step hst) ⟨[], hinit⟩ hrun
  refine ⟨⟨queue, hqueue.linked, hqueue.nodup, hqueue.submitted, hqueue.started, hqueue.serves,
    hqueue.quiet, hqueue.asleep⟩, hqueue.ends, ?_⟩
  intro hmeets
  have hstart : Explained (ideinit bufs qnext disk havedisk1 : IdeState ι n β) []
      ⟨disk true, bufs⟩ := ⟨hinit, rfl, rfl, by simp⟩
  obtain ⟨d, htrace, queue', hexplained⟩ :=
    runFrom_simulates_of_meets (R := fun s d => ∃ queue, Explained s queue d)
      (fun s a t d hs hC hst => hs.elim fun queue hq => hq.step hC hst) ⟨[], hstart⟩ hmeets hrun
  exact ⟨d, htrace, hexplained.bufs.symm, hexplained.disk⟩

/-- Two buffers. -/
def bufA : Fin 2 := ⟨0, Nat.two_pos⟩

/-- The second of them. -/
def bufB : Fin 2 := ⟨1, Nat.one_lt_two⟩

/-- The first is without data and for block 2, the second has data to be written to block 3. -/
def twoBufs (b : Fin 2) : Buf Nat :=
  if b = bufA then ⟨false, false, 1, 2, 0⟩ else ⟨true, true, 1, 3, 9⟩

/-- The driver before the two processes submit them. -/
def twoInit : IdeState Bool 2 Nat :=
  ideinit twoBufs (fun _ => none) (fun _ k => k + 5) true

/-- The second process submits its buffer while the device works on that of the first. -/
def twoRequests : List (IdeAct Bool 2 Nat) :=
  [.acquiresleep false bufA, .acquiresleep true bufB, .iderw false bufA, .iderw true bufB,
    .device, .ideintr, .device, .ideintr, .resume true, .resume false, .releasesleep false bufA,
    .releasesleep true bufB]

/-- The in-memory driver reads block 2, and then writes block 3. -/
theorem ide_refines_memide_twoRequests :
    ∃ s d, runFrom ideStep twoInit twoRequests = some s ∧ s.completed = [bufA, bufB] ∧
      (s.bufs bufA).data = 7 ∧ s.disk true 3 = 9 ∧
      runFrom memStep ⟨fun k => k + 5, twoBufs⟩ (traceFrom ideStep ideEvents twoInit twoRequests) =
        some d ∧
      s.bufs = d.bufs := by
  have hrun : (runFrom ideStep twoInit twoRequests).map
      (fun s => (s.completed, (s.bufs bufA).data, s.disk true 3)) = some ([bufA, bufB], 7, 9) := by
    decide +kernel
  obtain ⟨s, hs, hdone⟩ := Option.map_eq_some_iff.mp hrun
  simp only [Prod.mk.injEq] at hdone
  obtain ⟨-, -, hrefines⟩ := ide_refines_memide _ _ _ _ twoRequests s hs
  obtain ⟨d, hd, hbufs, -⟩ := hrefines (by decide +kernel)
  exact ⟨s, d, hs, hdone.1, hdone.2.1, hdone.2.2, hd, hbufs⟩

end Processes

/-- The fields of a buffer of the cache that the driver uses. -/
def ofBio (x : Bio.Buf β) : Buf β :=
  ⟨x.valid, x.dirty, x.id.dev, x.id.blockno, x.data⟩

/-- The cache and the in-memory disk have the same buffers and blocks. -/
structure Sees (c : Bio.CacheState n β) (d : MemDisk n β) : Prop where
  bufs : d.bufs = ofBio ∘ c.buf
  disk : ∀ k : UInt32, d.memdisk k.toNat = c.disk ⟨1, k⟩

/-- The one step that `iderw` is for the cache is that of the in-memory disk. -/
theorem Sees.iderw {c c' : Bio.CacheState n β} {b : Fin n} (h : Sees c d)
    (hdev : (c.buf b).id.dev = 1) (hblock : (c.buf b).id.blockno.toNat < fssize)
    (hstep : c.iderw b = some c') : ∃ d', memIderw d b = some d' ∧ Sees c' d' := by
  obtain ⟨memdisk, _⟩ := d
  obtain ⟨rfl, hdisk⟩ := h
  have hid : (c.buf b).id = ⟨1, (c.buf b).id.blockno⟩ := by rw [← hdev]
  unfold Bio.CacheState.iderw at hstep
  split at hstep
  next hdirty =>
    cases hstep
    refine ⟨⟨Function.update memdisk (c.buf b).id.blockno.toNat (c.buf b).data,
        Function.update (ofBio ∘ c.buf) b (ofBio (c.buf b)).sync⟩,
      by simp [memIderw, Buf.synced, ofBio, hdev, hblock, hdirty], ?_, fun k => ?_⟩
    · simp [Bio.CacheState.setBuf, Function.comp_update, ofBio, Buf.sync]
    · rw [hid]
      simp [Function.update_apply, ← hdisk, UInt32.toNat_inj]
  next hclean =>
    split at hstep
    next hvalid =>
      cases hstep
      refine ⟨⟨memdisk, Function.update _ b _⟩,
        by simp [memIderw, Buf.synced, ofBio, hdev, hblock, hclean, hvalid]; rfl, ?_, hdisk⟩
      rw [hid, ← hdisk]
      simp [Bio.CacheState.setBuf, Function.comp_update, ofBio, Buf.sync, hdev, hclean]
    next => cases hstep

end Refinement

end Xv6.Ide
