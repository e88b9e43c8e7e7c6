import Xv6.Foundations.RefCount
import Xv6.Foundations.Runs
import Xv6.Fs.Calls
import Xv6.Fs.LogSpace

/-!
# File system - Writers that share an open file

Any number of processes call `filewrite` on one file object.  A call writes its bytes in
chunks; for each chunk it begins an operation, takes the lock of the inode, writes at the
offset of the file, advances the offset, releases the lock and ends the operation.  These are
the steps that the processes interleave.  The state keeps the chunks in the order in which the
lock was taken.

`begin_op` reserves 10 blocks of the log for an operation, but a chunk of 6656 bytes can need
more: several operations that are open at once may together exceed the log, and then
{lit}`log_write` panics.

Main results:

- Theorem {lit}`chunkSection_spec`: one section appends its chunk, or the log is full.
- Theorem {lit}`appended_iff_logFits`: the writers append exactly their chunks as long as the
  log has space for each.
-/

namespace Xv6.Fs

open Foundations

/-! ## Model -/

/-- Where a process is in `filewrite`, with the number of bytes of the call and those not yet
written when the loop was last tested: outside, at the test of the loop, behind `begin_op`, or
behind `iunlock` with what {lit}`writei` returned. -/
inductive Writer
  | idle
  | loop (n : Nat) (rest : List UInt8)
  | begun (n : Nat) (rest : List UInt8)
  | wrote (n : Nat) (rest : List UInt8) (r : Option UInt32)

/-- A chunk, and the offset at which it was written. -/
structure Chunk where
  pid : Fin nproc
  off : Nat
  bytes : List UInt8

/-- The kernel state with the writers; the chunks written in the order of their sections, the
calls made by each process, the results returned, and why the system stopped. -/
structure Shared where
  fs : FsState
  pc : Fin nproc → Writer
  order : List Chunk
  asked : Fin nproc → List (List UInt8)
  results : List (Fin nproc × Option Nat)
  stopped : Option Stop

/-- Nobody writes yet. -/
def sharedInit (fs : FsState) : Shared where
  fs := fs
  pc _ := .idle
  order := []
  asked _ := []
  results := []
  stopped := none

/-- Advance the offset by what {lit}`writei` returned. -/
def advance (f : Fin nfile) : Option UInt32 → FsM Unit
  | none => pure ()
  | some n => if n > 0 then setFile f fun x => { x with off := x.off + n } else pure ()

/-- The part of the loop under the lock of the inode. -/
def chunkSection (p : Fin nproc) (f : Fin nfile) (ip : Fin ninode) (src : List UInt8) :
    FsM (Option UInt32) := do
  ilock p ip
  let s ← Exec.get
  let r ← writei ip src (s.ftable f).off
  advance f r
  iunlock p ip
  return r

namespace Shared

/-- Set the place of a process. -/
def goto (s : Shared) (p : Fin nproc) (pc : Writer) : Shared :=
  { s with pc := Function.update s.pc p pc }

/-- Return from `filewrite`. -/
def leave (s : Shared) (p : Fin nproc) (r : Option Nat) : Shared :=
  { s.goto p .idle with results := s.results ++ [(p, r)] }

/-- The tests at the start of `filewrite`. -/
def enter (f : Fin nfile) (s : Shared) (p : Fin nproc) (src : List UInt8) : Shared :=
  if (s.fs.ftable f).writable = false then s.leave p none
  else
    match (s.fs.ftable f).type with
    | .pipe => { s with stopped := some .pipe }
    | .none => { s with stopped := some .filewrite }
    | .inode =>
      { s.goto p (.loop src.length src) with
        asked := Function.update s.asked p (s.asked p ++ [src]) }

/-- `begin_op`; no step while it sleeps. -/
def begin (s : Shared) (p : Fin nproc) (n : Nat) (rest : List UInt8) : Option Shared :=
  match beginOp s.fs with
  | .ok (_, t) => some { s.goto p (.begun n rest) with fs := t }
  | .error _ => none

/-- The section under the lock. -/
def write (f : Fin nfile) (s : Shared) (p : Fin nproc) (n : Nat) (rest : List UInt8) : Shared :=
  match (s.fs.ftable f).ip with
  | none => { s with stopped := some .nullPointer }
  | some ip =>
    match chunkSection p f ip (rest.take filewriteMax) s.fs with
    | .ok (r, t) =>
      { s.goto p (.wrote n rest r) with
        fs := t
        order := s.order ++ r.toList.map fun k =>
          ⟨p, (s.fs.ftable f).off.toNat, (rest.take filewriteMax).take k.toNat⟩ }
    | .error e => { s with stopped := some e }

/-- `end_op` and the tests behind it. -/
def finish (s : Shared) (p : Fin nproc) (n : Nat) (rest : List UInt8) (r : Option UInt32) :
    Shared :=
  match endOp s.fs with
  | .error e => { s with stopped := some e }
  | .ok (_, t) =>
    match r with
    | none => { s.leave p none with fs := t }
    | some k =>
      if k.toNat ≠ (rest.take filewriteMax).length then
        { s with fs := t, stopped := some .shortFilewrite }
      else { s.goto p (.loop n (rest.drop k.toNat)) with fs := t }

end Shared

/-- The steps of the writers. -/
inductive WriterAct
  | call (p : Fin nproc) (src : List UInt8)
  | beginOp (p : Fin nproc)
  | chunk (p : Fin nproc)
  | endOp (p : Fin nproc)
  | ret (p : Fin nproc)

/-- One step of a writer. -/
def sharedStep (f : Fin nfile) (s : Shared) (a : WriterAct) : Option Shared :=
  if s.stopped ≠ none then none
  else
    match a with
    | .call p src =>
      match s.pc p with
      | .idle => some (s.enter f p src)
      | _ => none
    | .beginOp p =>
      match s.pc p with
      | .loop n rest => if rest = [] then none else s.begin p n rest
      | _ => none
    | .chunk p =>
      match s.pc p with
      | .begun n rest => some (s.write f p n rest)
      | _ => none
    | .endOp p =>
      match s.pc p with
      | .wrote n rest r => some (s.finish p n rest r)
      | _ => none
    | .ret p =>
      match s.pc p with
      | .loop n rest => if rest = [] then some (s.leave p (some n)) else none
      | _ => none

/-! ## What the writers do together -/

/-- A list cut into pieces of `m` elements. -/
def pieces {α : Type} (m : Nat) (l : List α) : List (List α) :=
  if h : l = [] ∨ m = 0 then []
  else
    have : 0 < l.length := List.length_pos_of_ne_nil fun hl => h (Or.inl hl)
    l.take m :: pieces m (l.drop m)
termination_by l.length
decreasing_by
  rw [List.length_drop]
  omega

/-- The chunks of a write. -/
def chunksOf (src : List UInt8) : List (List UInt8) :=
  pieces filewriteMax src

theorem chunksOf_nil : chunksOf [] = [] := by
  rw [chunksOf, pieces, dif_pos (Or.inl rfl)]

theorem chunksOf_ne {src : List UInt8} (h : src ≠ []) :
    chunksOf src = src.take filewriteMax :: chunksOf (src.drop filewriteMax) := by
  have hmax : ¬ (src = [] ∨ filewriteMax = 0) := by
    rintro (hsrc | hzero)
    · exact h hsrc
    · exact absurd hzero (by decide)
  rw [chunksOf, pieces, dif_neg hmax]
  rfl

/-- The bytes of its call that a process has not written. -/
def Writer.pending : Writer → List UInt8
  | .idle => []
  | .loop _ rest => rest
  | .begun _ rest => rest
  | .wrote _ rest _ => rest.drop filewriteMax

/-- The bytes of the file. -/
def Shared.bytes (s : Shared) (ip : Fin ninode) : List UInt8 :=
  contents s.fs.disk (s.fs.icache ip).copy

/-- The writers append to `data`: the contents are the chunks in the order of the lock, each
chunk has a range of its own, the ranges are disjoint and cover the appended region, each
process writes the chunks of its calls in order, and no call fails. -/
structure Appended (ip : Fin ninode) (data : List UInt8) (s : Shared) : Prop where
  running : s.stopped = none
  bytes_eq : s.bytes ip = data ++ s.order.flatMap Chunk.bytes
  range : ∀ c ∈ s.order, data.length ≤ c.off ∧
    ((s.bytes ip).drop c.off).take c.bytes.length = c.bytes
  disjoint : s.order.Pairwise fun c c' => c.off + c.bytes.length ≤ c'.off
  cover : ∀ o, data.length ≤ o → o < (s.bytes ip).length →
    ∃ c ∈ s.order, c.off ≤ o ∧ o < c.off + c.bytes.length
  inOrder : ∀ p, (s.order.filter fun c => c.pid = p).map Chunk.bytes ++
    chunksOf (s.pc p).pending = (s.asked p).flatMap chunksOf
  returned : ∀ r ∈ s.results, r.2 ≠ none

/-- A file object that is open for writing, on a regular file whose inode is cached and not
locked. -/
structure OpenFile (s : FsState) (f : Fin nfile) (ip : Fin ninode) : Prop where
  cached : Cached s ip
  regular : (s.icache ip).copy.type = tFile
  valid : (s.icache ip).valid = true
  unlocked : (s.icache ip).lock = none
  held : 1 ≤ (s.icache ip).ref
  type : (s.ftable f).type = .inode
  file : (s.ftable f).ip = some ip
  writable : (s.ftable f).writable = true

/-- Its offset is at the end of the file. -/
structure OpenAtEnd (s : FsState) (f : Fin nfile) (ip : Fin ninode) : Prop
    extends OpenFile s f ip where
  off : (s.ftable f).off = (s.icache ip).copy.size

/-- The file stays within its largest size, and there are free blocks for the chunk. -/
def Room (f : Fin nfile) (ip : Fin ninode) (s : Shared) : WriterAct → Prop
  | .chunk p =>
    match s.pc p with
    | .begun _ rest =>
      (s.fs.ftable f).off.toNat + (rest.take filewriteMax).length ≤ maxfile * bsize ∧
      s.fs.writePlan ip (s.fs.ftable f).off.toNat (rest.take filewriteMax).length ≠ none
    | _ => True
  | _ => True

/-- The blocks in the log and those of the plan of the chunk, with the inode still to come. -/
def LogFits (f : Fin nfile) (ip : Fin ninode) (s : Shared) : WriterAct → Prop
  | .chunk p =>
    match s.pc p with
    | .begun _ rest =>
      ∀ log ∈ s.fs.writePlan ip (s.fs.ftable f).off.toNat (rest.take filewriteMax).length,
        (s.fs.logged ∪ log.toFinset).card < logCap s.fs.sb
    | _ => True
  | _ => True

instance (f : Fin nfile) (ip : Fin ninode) (s : Shared) (a : WriterAct) :
    Decidable (Room f ip s a) := by
  unfold Room
  split
  · split <;> infer_instance
  · infer_instance

instance (f : Fin nfile) (ip : Fin ninode) (s : Shared) (a : WriterAct) :
    Decidable (LogFits f ip s a) := by
  unfold LogFits
  split
  · split <;> infer_instance
  · infer_instance

/-! ## One section -/

section Section

variable {s : FsState} {f : Fin nfile} {ip : Fin ninode} {p : Fin nproc}

/-- The state with another holder of the lock of an inode. -/
def FsState.lockedBy (s : FsState) (ip : Fin ninode) (l : Option (Fin nproc)) : FsState :=
  { s with icache := Function.update s.icache ip { s.icache ip with lock := l } }

theorem lockedBy_icache (s : FsState) (ip : Fin ninode) (l : Option (Fin nproc)) :
    (s.lockedBy ip l).icache ip = { s.icache ip with lock := l } := by
  simp [FsState.lockedBy]

theorem Cached.lockedBy (h : Cached s ip) (l : Option (Fin nproc)) :
    Cached (s.lockedBy ip l) ip := by
  have hentry := lockedBy_icache s ip l
  constructor
  · exact h.image
  · rw [hentry]
    exact h.inum
  · rw [hentry]
    exact h.copy
  · rw [hentry]
    exact h.type

/-- The log and the number of operations do not matter. -/
theorem OpenFile.setLog (h : OpenFile s f ip) (lh : List Nat) (outstanding : Int) :
    OpenFile { s with lh := lh, outstanding := outstanding } f ip :=
  ⟨⟨h.cached.image, h.cached.inum, h.cached.copy, h.cached.type⟩, h.regular, h.valid, h.unlocked,
    h.held, h.type, h.file, h.writable⟩

theorem OpenAtEnd.setLog (h : OpenAtEnd s f ip) (lh : List Nat) (outstanding : Int) :
    OpenAtEnd { s with lh := lh, outstanding := outstanding } f ip :=
  ⟨h.toOpenFile.setLog lh outstanding, h.off⟩

theorem OpenFile.ilock (h : OpenFile s f ip) :
    ilock p ip s = .ok ((), s.lockedBy ip (some p)) := by
  have hheld := h.held
  unfold Fs.ilock
  rw [bind_ok (a := s) (t := s) rfl, if_neg (by omega), if_neg (by rw [h.unlocked]; simp),
    bind_ok (a := ()) (t := s.lockedBy ip (some p)) rfl, if_pos h.valid]
  rfl

theorem OpenFile.not_dev (h : OpenFile s f ip) (l : Option (Fin nproc)) :
    ((s.lockedBy ip l).icache ip).copy.type ≠ tDev := by
  rw [lockedBy_icache]
  show (s.icache ip).copy.type ≠ tDev
  rw [h.regular]
  decide

/-- Bytes written at the end of a file. -/
theorem writeData_end {data src : List UInt8} {off : UInt32} (hoff : off.toNat = data.length)
    (hfit : off.toNat + src.length ≤ maxfile * bsize) :
    writeData data off src = some (data ++ src) := by
  have hmax : maxfile * bsize < 2 ^ 32 := by decide
  unfold writeData
  rw [if_neg (by omega), if_neg (by omega), hoff, List.take_length,
    List.drop_eq_nil_of_le (by omega), List.append_nil]

/-- The end of a section: the offset moves to the end of the file, and the lock is released. -/
theorem release_spec {n : UInt32} (hcached : Cached s ip)
    (hregular : (s.icache ip).copy.type = tFile) (hvalid : (s.icache ip).valid = true)
    (hlock : (s.icache ip).lock = some p) (hheld : 1 ≤ (s.icache ip).ref)
    (htype : (s.ftable f).type = .inode) (hfile : (s.ftable f).ip = some ip)
    (hwritable : (s.ftable f).writable = true)
    (hoff : (s.ftable f).off + n = (s.icache ip).copy.size) (hn : n > 0) :
    wp (do advance f (some n); iunlock p ip; return some n) (fun r t => r = some n ∧
      OpenAtEnd t f ip ∧ t.lh = s.lh ∧ t.outstanding = s.outstanding ∧ t.disk = s.disk ∧
      (t.icache ip).copy = (s.icache ip).copy) (fun _ => False) s := by
  have hentry := lockedBy_icache s ip none
  have hrel := hcached.lockedBy none
  simp only [advance]
  rw [if_pos hn]
  simp only [setFile, wp_bind, wp_modify, iunlock, wp_get]
  rw [if_neg (by rw [hlock]; simp; omega)]
  simp only [setInode, wp_modify, wp_pure]
  have hcopy : ((s.lockedBy ip none).icache ip).copy = (s.icache ip).copy := by
    rw [hentry]
  refine ⟨trivial, ⟨⟨?_, ?_, ?_, ?_, ?_, ?_, ?_, ?_⟩, ?_⟩, trivial, trivial, trivial, hcopy⟩
  · exact ⟨hrel.image, hrel.inum, hrel.copy, hrel.type⟩
  · exact (congrArg Dinode.type hcopy).trans hregular
  · exact (congrArg Inode.valid hentry).trans hvalid
  · exact congrArg Inode.lock hentry
  · exact hheld.trans_eq (congrArg Inode.ref hentry).symm
  · simp [htype]
  · simp [hfile]
  · simp [hwritable]
  · refine Eq.trans ?_ (congrArg Dinode.size hcopy).symm
    simp [hoff]

/-- One section appends its chunk, or the log is full. -/
theorem chunkSection_spec (h : OpenAtEnd s f ip) (hout : 1 ≤ s.outstanding) (hnodup : s.lh.Nodup)
    {src : List UInt8} (hsrc : src ≠ [])
    (hfit : (s.ftable f).off.toNat + src.length ≤ maxfile * bsize) {log : List Nat}
    (hplan : s.writePlan ip (s.ftable f).off.toNat src.length = some log) :
    wp (chunkSection p f ip src) (fun r t => r = some (UInt32.ofNat src.length) ∧
      OpenAtEnd t f ip ∧ t.lh.Nodup ∧ t.outstanding = s.outstanding ∧
      contents t.disk (t.icache ip).copy = contents s.disk (s.icache ip).copy ++ src ∧
      (s.logged ∪ log.toFinset).card < logCap s.sb)
      (fun _ => ¬ (s.logged ∪ log.toFinset).card < logCap s.sb) s := by
  have hpos : 0 < src.length := List.length_pos_of_ne_nil hsrc
  have hmax : maxfile * bsize < 2 ^ 32 := by decide
  have hlen : src.length < 2 ^ 32 := by omega
  have hn : (UInt32.ofNat src.length).toNat = src.length := UInt32.toNat_ofNat_of_lt' hlen
  have hentry := lockedBy_icache s ip (some p)
  have hcached := h.cached.lockedBy (some p)
  have hdev := h.not_dev (some p)
  have hsize : (s.ftable f).off.toNat = (contents s.disk (s.icache ip).copy).length := by
    rw [contents_length, h.off]
  have hdata : writeData (contents (s.lockedBy ip (some p)).disk
      ((s.lockedBy ip (some p)).icache ip).copy) (s.ftable f).off src =
        some (contents s.disk (s.icache ip).copy ++ src) := by
    rw [hentry]
    exact writeData_end hsize hfit
  have hoff : (s.ftable f).off = ((s.lockedBy ip (some p)).icache ip).copy.size := by
    rw [hentry]
    exact h.off
  have hplan' : (s.lockedBy ip (some p)).writePlan ip (s.ftable f).off.toNat src.length =
      some log := by
    rw [← hplan, FsState.writePlan, FsState.writeLog, hentry]
    rfl
  have hwrite := wp_and_right (writei_spec hcached hout hdev hlen hdata)
    (writei_plan hcached hout hnodup hdev hsrc hoff hfit hplan')
  unfold chunkSection
  rw [wp_bind, wp_of_ok h.ilock, wp_bind, wp_get]
  refine wp_bind_of hwrite ?_
  rintro r _ ⟨⟨hr, d, l, x, rfl, hchanged⟩, -, hl, hcard⟩
  subst hr
  obtain ⟨hcached', htype, hcontents⟩ := Changed.cached (l := l) hcached hchanged
  have hworked : ((s.lockedBy ip (some p)).worked ip d l x).icache ip =
      { s.icache ip with lock := some p, copy := x } := by
    simp [FsState.worked, FsState.lockedBy]
  rw [hentry] at htype
  -- the new size and the advanced offset are the same number
  have hadv : (s.ftable f).off + UInt32.ofNat src.length = x.size := by
    apply UInt32.toNat_inj.mp
    rw [← contents_length d x, hcontents, List.length_append, ← hsize, UInt32.toNat_add, hn]
    omega
  have hgrow : UInt32.ofNat src.length > 0 := by
    rw [gt_iff_lt, UInt32.lt_iff_toNat_lt, hn]
    exact hpos
  refine wp_mono (release_spec hcached' ?_ ?_ ?_ ?_ h.type h.file h.writable ?_ hgrow) ?_
    fun _ he => he.elim
  · rw [hworked]
    exact htype.trans h.regular
  · rw [hworked]
    exact h.valid
  · rw [hworked]
  · rw [hworked]
    exact h.held
  · rw [hworked]
    exact hadv
  · rintro r t ⟨rfl, hopen, hlh, houts, hdisk, hcopy⟩
    refine ⟨rfl, hopen, ?_, houts, ?_, hcard⟩
    · rw [hlh]
      exact hl
    · rw [hdisk, hcopy, hworked]
      exact hcontents

end Section

/-! ## Chunks one behind the other -/

/-- The chunks lie one behind the other from `o` on. -/
def Laid : Nat → List Chunk → Prop
  | _, [] => True
  | o, c :: cs => c.off = o ∧ Laid (o + c.bytes.length) cs

namespace Laid

variable {o : Nat} {cs : List Chunk} {data : List UInt8}

theorem append (h : Laid o cs) {c : Chunk}
    (hc : c.off = o + (cs.flatMap Chunk.bytes).length) : Laid o (cs ++ [c]) := by
  induction cs generalizing o with
  | nil => exact ⟨by simpa using hc, trivial⟩
  | cons c' cs ih =>
    refine ⟨h.1, ih h.2 ?_⟩
    rw [hc, List.flatMap_cons, List.length_append]
    omega

theorem le (h : Laid o cs) {c : Chunk} (hc : c ∈ cs) : o ≤ c.off := by
  induction cs generalizing o with
  | nil => exact absurd hc List.not_mem_nil
  | cons c' cs ih =>
    obtain ⟨hoff, hrest⟩ := h
    rcases List.mem_cons.mp hc with rfl | hmem
    · exact hoff.ge
    · have hle := ih hrest hmem
      omega

theorem pairwise (h : Laid o cs) :
    cs.Pairwise fun c c' => c.off + c.bytes.length ≤ c'.off := by
  induction cs generalizing o with
  | nil => exact List.Pairwise.nil
  | cons c cs ih =>
    obtain ⟨hoff, hrest⟩ := h
    refine List.Pairwise.cons ?_ (ih hrest)
    intro c' hc'
    rw [hoff]
    exact hrest.le hc'

/-- A chunk is read back from its range. -/
theorem range (h : Laid data.length cs) {c : Chunk} (hc : c ∈ cs) :
    ((data ++ cs.flatMap Chunk.bytes).drop c.off).take c.bytes.length = c.bytes := by
  induction cs generalizing data with
  | nil => exact absurd hc List.not_mem_nil
  | cons c' cs ih =>
    obtain ⟨hoff, hrest⟩ := h
    rw [List.flatMap_cons]
    rcases List.mem_cons.mp hc with rfl | hmem
    · rw [hoff, List.drop_left, List.take_left]
    · rw [← List.append_assoc]
      rw [← List.length_append] at hrest
      exact ih hrest hmem

/-- Every byte behind `data` is in the range of a chunk. -/
theorem cover (h : Laid data.length cs) {o : Nat} (hlo : data.length ≤ o)
    (hhi : o < (data ++ cs.flatMap Chunk.bytes).length) :
    ∃ c ∈ cs, c.off ≤ o ∧ o < c.off + c.bytes.length := by
  induction cs generalizing data with
  | nil =>
    rw [List.flatMap_nil, List.append_nil] at hhi
    omega
  | cons c cs ih =>
    obtain ⟨hoff, hrest⟩ := h
    by_cases hin : o < c.off + c.bytes.length
    · exact ⟨c, List.mem_cons_self, by omega, hin⟩
    · rw [List.flatMap_cons, ← List.append_assoc] at hhi
      rw [← List.length_append] at hrest
      obtain ⟨c', hmem, hc'⟩ := ih hrest (by rw [List.length_append]; omega) hhi
      exact ⟨c', List.mem_cons_of_mem c hmem, hc'⟩

end Laid

/-! ## Invariant -/

/-- A process between `begin_op` and `end_op` has bytes to write, and what {lit}`writei`
returned is the length of the chunk. -/
def Writer.Ready : Writer → Prop
  | .idle => True
  | .loop _ _ => True
  | .begun _ rest => rest ≠ []
  | .wrote _ rest r => r = some (UInt32.ofNat (rest.take filewriteMax).length)

/-- Whether the process has an operation open. -/
def Writer.opened : Writer → Int
  | .idle => 0
  | .loop _ _ => 0
  | .begun _ _ => 1
  | .wrote _ _ _ => 1

theorem Writer.opened_nonneg (pc : Writer) : 0 ≤ pc.opened := by
  cases pc <;> simp [Writer.opened]

/-- What each step keeps; `k` operations of others are open. -/
structure WriteInv (f : Fin nfile) (ip : Fin ninode) (data : List UInt8) (k : Int) (s : Shared) :
    Prop where
  file : OpenAtEnd s.fs f ip
  running : s.stopped = none
  bytes_eq : s.bytes ip = data ++ s.order.flatMap Chunk.bytes
  laid : Laid data.length s.order
  inOrder : ∀ p, (s.order.filter fun c => c.pid = p).map Chunk.bytes ++
    chunksOf (s.pc p).pending = (s.asked p).flatMap chunksOf
  returned : ∀ r ∈ s.results, r.2 ≠ none
  ready : ∀ p, (s.pc p).Ready
  nodup : s.fs.lh.Nodup
  count : s.fs.outstanding = k + total Writer.opened s.pc

section Invariant

variable {f : Fin nfile} {ip : Fin ninode} {data : List UInt8} {k : Int} {s : Shared}
  {p : Fin nproc}

/-- The invariant says what the writers do together. -/
theorem WriteInv.appended (h : WriteInv f ip data k s) : Appended ip data s where
  running := h.running
  bytes_eq := h.bytes_eq
  range c hc := ⟨h.laid.le hc, by rw [h.bytes_eq]; exact h.laid.range hc⟩
  disjoint := h.laid.pairwise
  cover o hlo hhi := h.laid.cover hlo (by rw [← h.bytes_eq]; exact hhi)
  inOrder := h.inOrder
  returned := h.returned

/-- A process goes on in the same file, with as many bytes to write. -/
theorem WriteInv.goto (h : WriteInv f ip data k s) {t : FsState} {pc : Writer}
    (hfile : OpenAtEnd t f ip)
    (hbytes : contents t.disk (t.icache ip).copy = contents s.fs.disk (s.fs.icache ip).copy)
    (hnodup : t.lh.Nodup)
    (hcount : t.outstanding = s.fs.outstanding - (s.pc p).opened + pc.opened)
    (hpending : pc.pending = (s.pc p).pending) (hready : pc.Ready) :
    WriteInv f ip data k { s.goto p pc with fs := t } where
  file := hfile
  running := h.running
  bytes_eq := hbytes.trans h.bytes_eq
  laid := h.laid
  inOrder := by
    intro q
    by_cases hq : q = p
    · subst hq
      simp only [Shared.goto, Function.update_self, hpending]
      exact h.inOrder q
    · simp only [Shared.goto, Function.update_of_ne hq]
      exact h.inOrder q
  returned := h.returned
  ready := by
    intro q
    by_cases hq : q = p
    · subst hq
      simp only [Shared.goto, Function.update_self]
      exact hready
    · simp only [Shared.goto, Function.update_of_ne hq]
      exact h.ready q
  nodup := hnodup
  count := by
    simp only [Shared.goto, total_update, hcount, h.count]
    omega

/-- A process with nothing left to write returns. -/
theorem WriteInv.leave (h : WriteInv f ip data k s) {n : Nat} (hpc : s.pc p = .loop n []) :
    WriteInv f ip data k (s.leave p (some n)) := by
  have hgoto : WriteInv f ip data k { s.goto p .idle with fs := s.fs } :=
    h.goto h.file rfl h.nodup (by rw [hpc]; simp [Writer.opened]) (by rw [hpc]; rfl) trivial
  refine { hgoto with returned := ?_ }
  intro r hr
  rcases List.mem_append.mp hr with hold | hnew
  · exact h.returned r hold
  · rw [List.mem_singleton.mp hnew]
    simp

/-- A call of `filewrite`. -/
theorem WriteInv.enter (h : WriteInv f ip data k s) (hpc : s.pc p = .idle) (src : List UInt8) :
    WriteInv f ip data k (s.enter f p src) := by
  unfold Shared.enter
  rw [if_neg (by rw [h.file.writable]; simp), h.file.type]
  refine ⟨h.file, h.running, h.bytes_eq, h.laid, ?_, h.returned, ?_, h.nodup, ?_⟩
  · intro q
    by_cases hq : q = p
    · subst hq
      have hbefore := h.inOrder q
      rw [hpc, Writer.pending, chunksOf_nil, List.append_nil] at hbefore
      simp only [Shared.goto, Function.update_self, Writer.pending, List.flatMap_append,
        List.flatMap_singleton, hbefore]
    · simp only [Shared.goto, Function.update_of_ne hq]
      exact h.inOrder q
  · intro q
    by_cases hq : q = p
    · subst hq
      simp only [Shared.goto, Function.update_self]
      trivial
    · simp only [Shared.goto, Function.update_of_ne hq]
      exact h.ready q
  · simp only [Shared.goto, total_update, hpc, h.count, Writer.opened]
    omega

/-- The length of a chunk fits in a word. -/
theorem toNat_chunkLength (rest : List UInt8) :
    (UInt32.ofNat (rest.take filewriteMax).length).toNat = (rest.take filewriteMax).length := by
  have hlen := List.length_take_le filewriteMax rest
  exact UInt32.toNat_ofNat_of_lt' (hlen.trans_lt (by decide))

/-- `begin_op`. -/
theorem WriteInv.begin (h : WriteInv f ip data k s) {n : Nat} {rest : List UInt8}
    (hpc : s.pc p = .loop n rest) (hrest : rest ≠ []) {t : Shared}
    (ht : s.begin p n rest = some t) : WriteInv f ip data k t := by
  simp only [Shared.begin, beginOp] at ht
  rw [bind_ok (a := s.fs) (t := s.fs) rfl] at ht
  by_cases hsleep : s.fs.lh.length + (s.fs.outstanding + 1) * maxopblocks > logsize
  · rw [if_pos hsleep] at ht
    exact absurd ht (by simp [Exec.stop])
  · rw [if_neg hsleep] at ht
    cases ht
    refine h.goto (h.file.setLog s.fs.lh (s.fs.outstanding + 1)) rfl h.nodup ?_ ?_ hrest
    · rw [hpc]
      simp [Writer.opened]
    · rw [hpc]
      rfl

/-- `end_op`. -/
theorem WriteInv.finish (h : WriteInv f ip data k s) {n : Nat} {rest : List UInt8}
    {r : Option UInt32} (hpc : s.pc p = .wrote n rest r) :
    WriteInv f ip data k (s.finish p n rest r) := by
  have hready := h.ready p
  rw [hpc] at hready
  have hr : r = some (UInt32.ofNat (rest.take filewriteMax).length) := hready
  have hn := toNat_chunkLength rest
  subst hr
  simp only [Shared.finish, endOp, Exec.modify]
  rw [if_neg (fun hne => hne hn)]
  refine h.goto (h.file.setLog _ _) rfl ?_ ?_ ?_ trivial
  · -- the last operation commits and empties the log
    show (if s.fs.outstanding - 1 = 0 then [] else s.fs.lh).Nodup
    split
    · exact List.nodup_nil
    · exact h.nodup
  · rw [hpc]
    simp [Writer.opened]
  · rw [hpc]
    show rest.drop (UInt32.ofNat (rest.take filewriteMax).length).toNat = rest.drop filewriteMax
    rw [hn, List.length_take]
    rcases Nat.le_total filewriteMax rest.length with hle | hle
    · rw [Nat.min_eq_left hle]
    · rw [Nat.min_eq_right hle, List.drop_length, List.drop_eq_nil_of_le hle]

/-- A section that returned appended its chunk. -/
theorem WriteInv.wrote (h : WriteInv f ip data k s) {n : Nat} {rest src : List UInt8}
    (hpc : s.pc p = .begun n rest) (hsrc : src = rest.take filewriteMax) {t : FsState}
    (hfile : OpenAtEnd t f ip) (hnodup : t.lh.Nodup) (hout : t.outstanding = s.fs.outstanding)
    (hbytes : contents t.disk (t.icache ip).copy =
      contents s.fs.disk (s.fs.icache ip).copy ++ src) :
    WriteInv f ip data k
      { s.goto p (.wrote n rest (some (UInt32.ofNat src.length))) with
        fs := t
        order := s.order ++ [⟨p, (s.fs.ftable f).off.toNat, src⟩] } := by
  have hne : rest ≠ [] := by
    have hready := h.ready p
    rw [hpc] at hready
    exact hready
  have hold := h.bytes_eq
  unfold Shared.bytes at hold
  refine ⟨hfile, h.running, ?_, h.laid.append ?_, ?_, h.returned, ?_, hnodup, ?_⟩
  · show contents t.disk (t.icache ip).copy = _
    rw [hbytes, hold]
    simp
  · rw [← List.length_append, ← hold, contents_length]
    exact congrArg UInt32.toNat h.file.off
  · intro q
    by_cases hq : q = p
    · subst hq
      have hbefore := h.inOrder q
      rw [hpc, Writer.pending, chunksOf_ne hne, ← hsrc] at hbefore
      simp only [Shared.goto, Function.update_self, Writer.pending, List.filter_append,
        List.map_append, List.append_assoc]
      rw [← hbefore]
      simp
    · have hother : p ≠ q := fun hpq => hq hpq.symm
      have hskip : (s.order ++ [(⟨p, (s.fs.ftable f).off.toNat, src⟩ : Chunk)]).filter
          (fun c => c.pid = q) = s.order.filter fun c => c.pid = q := by
        simp [List.filter_append, hother]
      simp only [Shared.goto, Function.update_of_ne hq]
      rw [hskip]
      exact h.inOrder q
  · intro q
    by_cases hq : q = p
    · subst hq
      simp only [Shared.goto, Function.update_self, Writer.Ready, hsrc]
    · simp only [Shared.goto, Function.update_of_ne hq]
      exact h.ready q
  · simp only [Shared.goto, total_update, hpc, h.count, hout, Writer.opened]
    omega

/-- A section keeps the invariant, or the log is too small for it and the system stops. -/
theorem WriteInv.write (h : WriteInv f ip data k s) (hk : 0 ≤ k) {n : Nat} {rest : List UInt8}
    (hpc : s.pc p = .begun n rest) (hroom : Room f ip s (.chunk p)) :
    (LogFits f ip s (.chunk p) ∧ WriteInv f ip data k (s.write f p n rest)) ∨
      (¬ LogFits f ip s (.chunk p) ∧ (s.write f p n rest).stopped ≠ none) := by
  simp only [Room, hpc] at hroom
  obtain ⟨hfit, hplanned⟩ := hroom
  obtain ⟨log, hplan⟩ := Option.ne_none_iff_exists'.mp hplanned
  have hfits : LogFits f ip s (.chunk p) ↔
      (s.fs.logged ∪ log.toFinset).card < logCap s.fs.sb := by
    simp only [LogFits, hpc, hplan, Option.mem_def, Option.some.injEq, forall_eq']
  have hne : rest.take filewriteMax ≠ [] := by
    have hready := h.ready p
    rw [hpc] at hready
    exact fun hnil => hready ((List.take_eq_nil_iff.mp hnil).resolve_left (by decide))
  have hout : 1 ≤ s.fs.outstanding := by
    have hpos : 0 < total Writer.opened s.pc :=
      total_pos Writer.opened_nonneg p (by rw [hpc]; simp [Writer.opened])
    rw [h.count]
    omega
  have hspec := chunkSection_spec (p := p) h.file hout h.nodup hne hfit hplan
  have hn := toNat_chunkLength rest
  unfold Shared.write
  rw [h.file.file, hfits]
  cases hres : chunkSection p f ip (rest.take filewriteMax) s.fs with
  | ok r =>
    obtain ⟨r, t⟩ := r
    rw [wp_of_ok hres] at hspec
    obtain ⟨rfl, hfile, hnodup, hout', hbytes, hcard⟩ := hspec
    have hinv := h.wrote hpc rfl hfile hnodup hout' hbytes
    refine Or.inl ⟨hcard, ?_⟩
    simp only [hres, Option.toList_some, List.map_singleton]
    rw [hn, List.take_length]
    exact hinv
  | error e =>
    rw [wp_of_error hres] at hspec
    refine Or.inr ⟨hspec, ?_⟩
    simp [hres]

/-- One step: the invariant is kept exactly by the steps for which the log has space. -/
theorem WriteInv.step (h : WriteInv f ip data k s) (hk : 0 ≤ k) {a : WriterAct} {t : Shared}
    (hroom : Room f ip s a) (ht : sharedStep f s a = some t) :
    (LogFits f ip s a ∧ WriteInv f ip data k t) ∨ (¬ LogFits f ip s a ∧ t.stopped ≠ none) := by
  unfold sharedStep at ht
  rw [if_neg (fun hne => hne h.running)] at ht
  cases a with
  | call p src =>
    cases hpc : s.pc p with
    | idle =>
      simp only [hpc] at ht
      cases ht
      exact Or.inl ⟨trivial, h.enter hpc src⟩
    | _ => simp [hpc] at ht
  | beginOp p =>
    cases hpc : s.pc p with
    | loop n rest =>
      simp only [hpc] at ht
      split at ht
      · exact absurd ht (by simp)
      · exact Or.inl ⟨trivial, h.begin hpc ‹_› ht⟩
    | _ => simp [hpc] at ht
  | chunk p =>
    cases hpc : s.pc p with
    | begun n rest =>
      simp only [hpc] at ht
      cases ht
      exact h.write hk hpc hroom
    | _ => simp [hpc] at ht
  | endOp p =>
    cases hpc : s.pc p with
    | wrote n rest r =>
      simp only [hpc] at ht
      cases ht
      exact Or.inl ⟨trivial, h.finish hpc⟩
    | _ => simp [hpc] at ht
  | ret p =>
    cases hpc : s.pc p with
    | loop n rest =>
      simp only [hpc] at ht
      split at ht
      · rename_i hnil
        subst hnil
        cases ht
        exact Or.inl ⟨trivial, h.leave hpc⟩
      · exact absurd ht (by simp)
    | _ => simp [hpc] at ht

end Invariant

/-! ## Runs of the writers -/

theorem WriteInv.init {fs : FsState} {f : Fin nfile} {ip : Fin ninode}
    (h : OpenAtEnd fs f ip) (hnodup : fs.lh.Nodup) :
    WriteInv f ip (contents fs.disk (fs.icache ip).copy) fs.outstanding (sharedInit fs) where
  file := h
  running := rfl
  bytes_eq := (List.append_nil _).symm
  laid := trivial
  inOrder _ := chunksOf_nil
  returned _ hr := absurd hr List.not_mem_nil
  ready _ := trivial
  nodup := hnodup
  count := by simp [sharedInit, total, Writer.opened]

/-- Processes that share an open file append exactly their chunks, in the order of the lock, as
long as the log has space for the blocks of each chunk when its section begins. -/
theorem appended_iff_logFits {fs : FsState} {f : Fin nfile} {ip : Fin ninode}
    (h : OpenAtEnd fs f ip) (hnodup : fs.lh.Nodup) (hout : 0 ≤ fs.outstanding)
    (as : List WriterAct) (hroom : Meets (sharedStep f) (Room f ip) (sharedInit fs) as) :
    AllStates (sharedStep f) (Appended ip (contents fs.disk (fs.icache ip).copy))
      (sharedInit fs) as ↔
    Meets (sharedStep f) (LogFits f ip) (sharedInit fs) as := by
  refine allStates_iff_meets (fun s hs => hs.appended) ?_ (WriteInv.init h hnodup) hroom
  intro s a t hs hroom ht
  rcases hs.step hout hroom ht with hkept | ⟨hfull, hstop⟩
  · exact Or.inl hkept
  · exact Or.inr ⟨hfull, fun happended => hstop happended.running⟩

/-! ## Two writers -/

/-- Two processes call `filewrite` with `n` bytes each, and both begin before either writes. -/
def twoWriters (n : Nat) : List WriterAct :=
  [.call ⟨0, nproc_pos⟩ (List.replicate n 1), .call ⟨1, one_lt_nproc⟩ (List.replicate n 2),
    .beginOp ⟨0, nproc_pos⟩, .beginOp ⟨1, one_lt_nproc⟩, .chunk ⟨0, nproc_pos⟩,
    .chunk ⟨1, one_lt_nproc⟩]

/-- A small file system: 30 blocks of log, 64 inodes, and data blocks from 42 on. -/
def smallSb : Superblock :=
  ⟨100, 58, 64, 30, 2, 32, 41⟩

/-- An empty regular file. -/
def emptyFile : Dinode :=
  ⟨tFile, 0, 0, 1, 0, fun _ => 0⟩

/-- The root directory, with one block of data. -/
def smallRoot : Dinode :=
  ⟨tDir, 0, 0, 1, 48, fun k => if k.val = 0 then 42 else 0⟩

/-- The root directory has the entries `.`, `..` and `a`, which is inode 2; there are `n` empty
files, from inode 2 on. -/
def smallDisk : Nat → Disk
  | 0 => putDinode smallSb
    (Function.update
      (Function.update
        (Function.update (fun _ => Bytes.zero bsize) 1
          ((Bytes.zero bsize).overwrite 0
            ([100, 58, 64, 30, 2, 32, 41].flatMap fun w => encodeLE 4 w)))
        41 ((Bytes.zero bsize).overwrite 0 [255, 255, 255, 255, 255, 7]))
      42 ((((Bytes.zero bsize).overwrite 0 [1, 0, 46]).overwrite 16 [1, 0, 46, 46]).overwrite
        32 [2, 0, 97]))
    1 smallRoot
  | n + 1 => putDinode smallSb (smallDisk n) (n + 2) emptyFile

/-- Two processes in the root directory have the file `a` open for writing. -/
def smallFs : FsState where
  disk := smallDisk 1
  sb := smallSb
  lh := []
  outstanding := 0
  icache k :=
    if k.val = 0 then ⟨2, 1, none, true, emptyFile⟩
    else if k.val = 1 then ⟨1, 2, none, true, smallRoot⟩
    else ⟨0, 0, none, false, Dinode.fresh 0⟩
  ftable f :=
    if f.val = 0 then ⟨.inode, 2, true, true, some ⟨0, ninode_pos⟩, 0⟩
    else ⟨.none, 0, false, false, none, 0⟩
  proc p :=
    if p.val < 2 then
      ⟨fun fd => if fd.val = 0 then some ⟨0, nfile_pos⟩ else none, some ⟨1, one_lt_ninode⟩⟩
    else ⟨fun _ => none, none⟩
  initproc := ⟨0, nproc_pos⟩

theorem emptyFile_ref (d : Disk) (k : Nat) : emptyFile.ref d k = 0 := by
  have haddr : ∀ k, emptyFile.addr k = 0 := by
    intro k
    unfold Dinode.addr
    split <;> rfl
  simp [Dinode.ref, haddr]

theorem smallRoot_ref (d : Disk) (k : Nat) : smallRoot.ref d k = if k = 0 then 42 else 0 := by
  have haddr : ∀ k < 13, (smallRoot.addr k).toNat = if k = 0 then 42 else 0 := by decide
  have htype : smallRoot.type ≠ 0 := by decide
  by_cases hk : k < 13
  · rw [ref_addr htype hk, haddr k hk]
  · rw [ref_above (by omega) (Or.inl (by decide)), if_neg (by omega)]

theorem smallDisk_root : inodeTable smallSb (smallDisk 0) 1 = smallRoot := by
  rw [inodeTable, if_pos (by decide)]
  exact dinodeAt_putDinode_same _ _ _ _

theorem smallDisk_free {i : Nat} (hi : i ≠ 1) :
    (inodeTable smallSb (smallDisk 0) i).type = 0 := by
  have hall : ∀ i < 64, i ≠ 1 → (dinodeAt smallSb (smallDisk 0) i).type = 0 := by
    decide +kernel
  unfold inodeTable
  split
  · exact hall i ‹_› hi
  · rfl

/-- The root directory owns block 42, and nothing else is owned. -/
theorem smallDisk_refs (q : Nat × Nat) :
    refs (smallDisk 0) (inodeTable smallSb (smallDisk 0)) q = if q = (1, 0) then 42 else 0 := by
  obtain ⟨i, k⟩ := q
  unfold refs
  by_cases hi : i = 1
  · rw [hi, smallDisk_root, smallRoot_ref]
    simp
  · rw [ref_free (smallDisk_free hi), if_neg (by simp [hi])]

theorem smallDisk_zero_image : Image smallSb (smallDisk 0) where
  geo := by constructor <;> decide
  super := by decide +kernel
  owned := by
    have hbits : ∀ b < 100, (bitSet smallSb (smallDisk 0) b = true ↔ b < 43) := by
      decide +kernel
    have howner : ∀ q, refs (smallDisk 0) (inodeTable smallSb (smallDisk 0)) q ≠ 0 →
        q = (1, 0) := by
      intro q hq
      rw [smallDisk_refs] at hq
      exact (ite_ne_right_iff.mp hq).1
    refine ⟨fun p q hp heq => ?_, fun p hp => ?_, fun b hb => ?_⟩
    · rw [howner p hp, howner q (heq ▸ hp)]
    · rw [howner p hp, smallDisk_refs]
      decide
    · rw [hbits b hb, show smallSb.nmeta = 42 from rfl]
      constructor
      · intro hlt
        by_cases hmeta : b < 42
        · exact Or.inl hmeta
        · exact Or.inr ⟨(1, 0), by rw [smallDisk_refs]; decide,
            by rw [smallDisk_refs, if_pos rfl]; omega⟩
      · rintro (hmeta | ⟨p, hp, rfl⟩)
        · omega
        · rw [howner p hp, smallDisk_refs, if_pos rfl]
          omega
  mapped := by
    intro i htype bn hbn
    by_cases hi : i = 1
    · rw [hi, smallDisk_root] at hbn ⊢
      have hzero : bn = 0 := by
        have hsize : smallRoot.size.toNat = 48 := by decide
        simp only [bsize_eq] at hbn
        omega
      rw [hzero, smallRoot_ref]
      decide
    · exact absurd (smallDisk_free hi) htype

/-- What is on the disk with `n` files. -/
structure SmallImage (n : Nat) : Prop where
  image : Image smallSb (smallDisk n)
  root : inodeTable smallSb (smallDisk n) 1 = smallRoot
  data : contents (smallDisk n) smallRoot = contents (smallDisk 0) smallRoot
  files : ∀ i, 2 ≤ i → i < n + 2 → inodeTable smallSb (smallDisk n) i = emptyFile
  free : ∀ i, i ≠ 1 → i < 2 ∨ n + 2 ≤ i → (inodeTable smallSb (smallDisk n) i).type = 0

theorem smallDisk_image {n : Nat} (hn : n ≤ 62) : SmallImage n := by
  induction n with
  | zero => exact ⟨smallDisk_zero_image, smallDisk_root, rfl, fun i _ _ => by omega,
      fun i hi _ => smallDisk_free hi⟩
  | succ n ih =>
    obtain ⟨himage, hroot, hdata, hfiles, hfree⟩ := ih (by omega)
    have hlt : n + 2 < smallSb.ninodes := by
      have hninodes : smallSb.ninodes = 64 := rfl
      omega
    have hchanged : Changed smallSb (smallDisk n) (n + 2) (smallDisk (n + 1)) emptyFile _ :=
      himage.putDinode hlt
        (funext fun k => by rw [emptyFile_ref, ref_free (hfree _ (by omega) (by omega))])
        fun _ bn hbn => absurd hbn (Nat.not_lt_zero _)
    have hroot' : inodeTable smallSb (smallDisk (n + 1)) 1 = smallRoot := by
      rw [hchanged.table, Function.update_of_ne (by omega), hroot]
    refine ⟨hchanged.image, hroot', ?_, fun i hi hlt => ?_, fun i hi hor => ?_⟩
    · have hsame := hchanged.contents_eq (j := 1) (by omega) (by rw [hroot]; decide)
      rw [hroot', hroot] at hsame
      rw [hsame, hdata]
    · rw [hchanged.table]
      by_cases hlast : i = n + 2
      · rw [hlast, Function.update_self]
      · rw [Function.update_of_ne hlast, hfiles i hi (by omega)]
    · rw [hchanged.table, Function.update_of_ne (by omega), hfree i hi (by omega)]

theorem smallFs_cached : Cached smallFs ⟨0, by decide⟩ where
  image := (smallDisk_image (by decide)).image
  inum := (by decide : 2 < 64)
  copy := ((smallDisk_image (by decide)).files 2 (le_refl 2) (by decide)).symm
  type := (by decide : emptyFile.type ≠ 0)

theorem smallFs_open : OpenAtEnd smallFs ⟨0, by decide⟩ ⟨0, by decide⟩ where
  cached := smallFs_cached
  regular := rfl
  valid := rfl
  unlocked := rfl
  held := le_refl 1
  type := rfl
  file := rfl
  writable := rfl
  off := rfl

/-- Two writers of three bytes. -/
theorem appended_twoWriters :
    AllStates (sharedStep ⟨0, by decide⟩) (Appended ⟨0, by decide⟩ []) (sharedInit smallFs)
      (twoWriters 3) :=
  (appended_iff_logFits smallFs_open List.nodup_nil (le_refl 0) (twoWriters 3)
    (by decide +kernel)).mpr (by decide +kernel)

/-- Two writers of a full chunk each need more blocks than the log has: the second one panics in
{lit}`log_write`. -/
theorem twoWriters_stop :
    OpenAtEnd smallFs ⟨0, by decide⟩ ⟨0, by decide⟩ ∧
    Meets (sharedStep ⟨0, by decide⟩) (Room ⟨0, by decide⟩ ⟨0, by decide⟩) (sharedInit smallFs)
      (twoWriters 6656) ∧
    ∃ t, runFrom (sharedStep ⟨0, by decide⟩) (sharedInit smallFs) (twoWriters 6656) = some t ∧
      t.stopped = some .tooBigATransaction ∧ ¬ Appended ⟨0, by decide⟩ [] t := by
  have hrun : (runFrom (sharedStep ⟨0, by decide⟩) (sharedInit smallFs) (twoWriters 6656)).map
      Shared.stopped = some (some .tooBigATransaction) := by
    decide +kernel
  obtain ⟨t, ht, hstop⟩ := Option.map_eq_some_iff.mp hrun
  refine ⟨smallFs_open, by decide +kernel, t, ht, hstop, ?_⟩
  intro happended
  rw [happended.running] at hstop
  exact absurd hstop (by simp)

end Xv6.Fs
