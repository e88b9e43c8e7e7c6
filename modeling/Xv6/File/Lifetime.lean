import Xv6.File.Table
import Xv6.Foundations.RefCount

/-!
# File table - Reference counts and the life of a pipe

A reference to a file object is a descriptor or, inside a call, a pointer that the call holds.
The count of each file object is the number of its references.  Each end of a pipe is at most
one file object, and a flag of the pipe is set as long as that object is in use; the page goes
to `kfree` with the second of them.

Main results:

- Theorem {lit}`Inv.fileclose`: dropping a reference does not panic and keeps the counts.
- Theorem {lit}`call_done`: what every call keeps, and what a failed one leaves.
- Theorem {lit}`file_refs_exact`: counts, pipes and panics in every state of a run.
-/

namespace Xv6.Ftable

open Foundations

/-- Whether a descriptor refers to `f`. -/
def holds (f : FileId) (o : Option FileId) : Int :=
  if o = some f then 1 else 0

/-- The references: the descriptors and the pointers `held` of a call. -/
structure Refs (s : Sys) (held : List FileId) : Prop where
  count : ∀ f, (s.file f).ref = total (holds f) s.ofile + held.count f
  free : ∀ f, (s.file f).ref = 0 → (s.file f).type = .none
  idle : ∀ p fd, s.state p = .unused ∨ s.state p = .zombie → s.ofile (p, fd) = none

/-- The file object `f` is an end of a pipe. -/
def IsEnd (s : Sys) (f : FileId) (pipe : Nat) (writable : Bool) : Prop :=
  (s.file f).type = .pipe ∧ (s.file f).pipe = pipe ∧ (s.file f).writable = writable

/-- The flag of one end. -/
def Ends.isOpen (e : Ends) (writable : Bool) : Bool :=
  if writable then e.writeopen else e.readopen

/-- The pipes: a flag is set exactly if the end is a file object, and the page was freed
exactly if both flags are clear. -/
structure Pipes (s : Sys) : Prop where
  known : ∀ f pipe w, IsEnd s f pipe w → pipe < s.pipes
  single : ∀ f g pipe w, IsEnd s f pipe w → IsEnd s g pipe w → f = g
  flag : ∀ pipe w, pipe < s.pipes → ((s.ends pipe).isOpen w = true ↔ ∃ f, IsEnd s f pipe w)
  freed : ∀ pipe, pipe < s.pipes →
    s.kfrees.count pipe = if (s.ends pipe).readopen || (s.ends pipe).writeopen then 0 else 1
  fresh : ∀ pipe, s.pipes ≤ pipe → s.kfrees.count pipe = 0

/-- The tables inside a call that holds the pointers `held`. -/
structure Inv (s : Sys) (held : List FileId) : Prop where
  refs : Refs s held
  pipes : Pipes s
  running : s.panic = none

/-- The pipes depend only on which file objects are ends. -/
theorem Pipes.congr {s t : Sys} (h : Pipes s)
    (hend : ∀ f pipe w, IsEnd t f pipe w ↔ IsEnd s f pipe w)
    (hends : t.ends = s.ends) (hpipes : t.pipes = s.pipes) (hkfrees : t.kfrees = s.kfrees) :
    Pipes t := by
  constructor
  · intro f pipe w hf
    rw [hpipes]
    exact h.known f pipe w ((hend f pipe w).mp hf)
  · intro f g pipe w hf hg
    exact h.single f g pipe w ((hend f pipe w).mp hf) ((hend g pipe w).mp hg)
  · intro pipe w hlt
    rw [hpipes] at hlt
    rw [hends, h.flag pipe w hlt]
    simp only [hend]
  · rw [hpipes, hends, hkfrees]
    exact h.freed
  · rw [hpipes, hkfrees]
    exact h.fresh

theorem holds_nonneg (f : FileId) (o : Option FileId) : 0 ≤ holds f o := by
  unfold holds
  split_ifs <;> decide

theorem holds_some (f g : FileId) : holds f (some g) = if g = f then 1 else 0 := by
  simp [holds]

theorem holds_none (f : FileId) : holds f none = 0 := rfl

theorem count_cons_int (f g : FileId) (held : List FileId) :
    (((g :: held).count f : Nat) : Int) = held.count f + if g = f then 1 else 0 := by
  rw [List.count_cons]
  by_cases h : g = f <;> simp [h]

/-! ## File objects -/

section Files

variable {s : Sys} {held : List FileId} {f : FileId}

/-- A descriptor refers to an object in use. -/
theorem Refs.ref_pos (h : Refs s held) {d : ProcId × Fd} (hd : s.ofile d = some f) :
    0 < (s.file f).ref := by
  have hpos : 0 < total (holds f) s.ofile :=
    total_pos (holds_nonneg f) d (by rw [hd, holds_some]; simp)
  rw [h.count f]
  omega

theorem Refs.held_pos (h : Refs s held) (hf : f ∈ held) : 0 < (s.file f).ref := by
  have hcount : 0 < held.count f := List.count_pos_iff.mpr hf
  have hnonneg : 0 ≤ total (holds f) s.ofile := total_nonneg (holds_nonneg f)
  rw [h.count f]
  omega

theorem isEnd_setFile_of_ne {g : FileId} {x : File} {pipe : Nat} {w : Bool} (hg : g ≠ f) :
    IsEnd (s.setFile f x) g pipe w ↔ IsEnd s g pipe w := by
  simp only [IsEnd, Sys.setFile, Function.update_of_ne hg]

theorem isEnd_setFile_self {x : File} {pipe : Nat} {w : Bool} :
    IsEnd (s.setFile f x) f pipe w ↔ x.type = .pipe ∧ x.pipe = pipe ∧ x.writable = w := by
  simp only [IsEnd, Sys.setFile, Function.update_self]

/-- Setting a count to the number of references. -/
theorem Inv.setRef (h : Inv s held) {held' : List FileId} {n : Int} (hn : 0 < n)
    (hself : n = total (holds f) s.ofile + held'.count f)
    (hother : ∀ g, g ≠ f → held'.count g = held.count g) :
    Inv (s.setFile f { s.file f with ref := n }) held' := by
  refine ⟨⟨?_, ?_, h.refs.idle⟩, ?_, h.running⟩
  · intro g
    by_cases hg : g = f
    · subst hg
      simpa only [Sys.setFile, Function.update_self] using hself
    · simp only [Sys.setFile, Function.update_of_ne hg, hother g hg]
      exact h.refs.count g
  · intro g
    by_cases hg : g = f
    · subst hg
      simp only [Sys.setFile, Function.update_self]
      omega
    · simp only [Sys.setFile, Function.update_of_ne hg]
      exact h.refs.free g
  · refine h.pipes.congr ?_ rfl rfl rfl
    intro g pipe w
    by_cases hg : g = f
    · subst hg
      rw [isEnd_setFile_self]
      rfl
    · exact isEnd_setFile_of_ne hg

/-- What `filealloc` returns: an object that nothing refers to, of no type. -/
theorem Inv.filealloc (h : Inv s held) {t : Sys} (halloc : filealloc s = some (f, t)) :
    Inv t (f :: held) ∧ f ∉ held ∧ (t.file f).type = .none ∧
      t = s.setFile f { s.file f with ref := 1 } := by
  simp only [Ftable.filealloc, Option.map_eq_some_iff, Prod.mk.injEq] at halloc
  obtain ⟨g, hfind, rfl, rfl⟩ := halloc
  have hzero : (s.file g).ref = 0 := by simpa using List.find?_some hfind
  have hcount := h.refs.count g
  have hnonneg : 0 ≤ total (holds g) s.ofile := total_nonneg (holds_nonneg g)
  rw [hzero] at hcount
  have hheld : held.count g = 0 := by omega
  refine ⟨h.setRef (by decide) ?_ ?_, List.count_eq_zero.mp hheld, ?_, rfl⟩
  · rw [count_cons_int, if_pos rfl]
    omega
  · intro k hk
    rw [List.count_cons_of_ne (Ne.symm hk)]
  · simp only [Sys.setFile, Function.update_self]
    exact h.refs.free g hzero

/-- `filedup` on an object in use makes one more reference. -/
theorem Inv.filedup (h : Inv s held) (hpos : 0 < (s.file f).ref) :
    ∃ t, filedup s f = .ok t ∧ Inv t (f :: held) ∧
      t = s.setFile f { s.file f with ref := (s.file f).ref + 1 } := by
  have hnot : ¬ (s.file f).ref < 1 := by omega
  refine ⟨_, by rw [Ftable.filedup, if_neg hnot], h.setRef (by omega) ?_ ?_, rfl⟩
  · rw [count_cons_int, if_pos rfl, h.refs.count f]
    omega
  · intro k hk
    rw [List.count_cons_of_ne (Ne.symm hk)]

end Files

/-! ## Closing -/

section Pipeclose

variable (s : Sys) (pipe : Nat) (w : Bool)

@[simp]
theorem pipeclose_file : (pipeclose s pipe w).file = s.file := by
  simp only [pipeclose]
  split_ifs <;> rfl

@[simp]
theorem pipeclose_ofile : (pipeclose s pipe w).ofile = s.ofile := by
  simp only [pipeclose]
  split_ifs <;> rfl

@[simp]
theorem pipeclose_state : (pipeclose s pipe w).state = s.state := by
  simp only [pipeclose]
  split_ifs <;> rfl

@[simp]
theorem pipeclose_pipes : (pipeclose s pipe w).pipes = s.pipes := by
  simp only [pipeclose]
  split_ifs <;> rfl

@[simp]
theorem pipeclose_panic : (pipeclose s pipe w).panic = s.panic := by
  simp only [pipeclose]
  split_ifs <;> rfl

@[simp]
theorem pipeclose_ends :
    (pipeclose s pipe w).ends = Function.update s.ends pipe ((s.ends pipe).close w) := by
  simp only [pipeclose]
  split_ifs <;> rfl

/-- The page is freed if both ends are closed now. -/
theorem pipeclose_count_self : (pipeclose s pipe w).kfrees.count pipe = s.kfrees.count pipe +
    if ((s.ends pipe).close w).readopen || ((s.ends pipe).close w).writeopen then 0 else 1 := by
  simp only [pipeclose]
  cases ((s.ends pipe).close w).readopen <;> cases ((s.ends pipe).close w).writeopen <;> simp

theorem pipeclose_count_of_ne {q : Nat} (hq : q ≠ pipe) :
    (pipeclose s pipe w).kfrees.count q = s.kfrees.count q := by
  simp only [pipeclose]
  split_ifs
  · simp [List.count_append, Ne.symm hq]
  · rfl

end Pipeclose

theorem Ends.isOpen_close (e : Ends) (v w : Bool) :
    (e.close w).isOpen v = (e.isOpen v && v != w) := by
  cases v <;> cases w <;> simp [Ends.close, Ends.isOpen]

theorem Ends.open_of_isOpen {e : Ends} {w : Bool} (h : e.isOpen w = true) :
    (e.readopen || e.writeopen) = true := by
  cases w
  · have hread : e.readopen = true := h
    simp [hread]
  · have hwrite : e.writeopen = true := h
    simp [hwrite]

section Closing

variable {s : Sys} {held : List FileId} {f : FileId}

theorem isEnd_pipeclose {pipe q : Nat} {v w : Bool} {g : FileId} :
    IsEnd (pipeclose s pipe w) g q v ↔ IsEnd s g q v := by
  simp only [IsEnd, pipeclose_file]

/-- An object of no type is no end. -/
theorem isEnd_setFile_none {x : File} (hx : x.type = .none) {g : FileId} {pipe : Nat} {w : Bool} :
    IsEnd (s.setFile f x) g pipe w ↔ IsEnd s g pipe w ∧ g ≠ f := by
  by_cases hg : g = f
  · subst hg
    rw [isEnd_setFile_self, hx]
    simp
  · rw [isEnd_setFile_of_ne hg]
    simp [hg]

/-- The pipes after an end is closed: its object is no end any more. -/
theorem Pipes.close (h : Pipes s) {pipe : Nat} {w : Bool} (hend : IsEnd s f pipe w) {x : File}
    (hx : x.type = .none) : Pipes (pipeclose (s.setFile f x) pipe w) := by
  have hlt : pipe < s.pipes := h.known f pipe w hend
  have hopen : (s.ends pipe).isOpen w = true := (h.flag pipe w hlt).mpr ⟨f, hend⟩
  have hiff : ∀ g q v, IsEnd (pipeclose (s.setFile f x) pipe w) g q v ↔ IsEnd s g q v ∧ g ≠ f :=
    fun g q v => isEnd_pipeclose.trans (isEnd_setFile_none hx)
  constructor
  · intro g q v hg
    rw [pipeclose_pipes]
    exact h.known g q v ((hiff g q v).mp hg).1
  · intro g k q v hg hk
    exact h.single g k q v ((hiff g q v).mp hg).1 ((hiff k q v).mp hk).1
  · intro q v hq
    rw [pipeclose_pipes] at hq
    rw [pipeclose_ends]
    simp only [hiff]
    by_cases hqp : q = pipe
    · subst hqp
      simp only [Function.update_self]
      show ((s.ends q).close w).isOpen v = true ↔ _
      rw [Ends.isOpen_close, Bool.and_eq_true, h.flag q v hq, bne_iff_ne]
      constructor
      · rintro ⟨⟨g, hg⟩, hvw⟩
        refine ⟨g, hg, ?_⟩
        rintro rfl
        exact hvw (hg.2.2.symm.trans hend.2.2)
      · rintro ⟨g, hg, hgf⟩
        refine ⟨⟨g, hg⟩, ?_⟩
        rintro rfl
        exact hgf (h.single g f q v hg hend)
    · rw [Function.update_of_ne hqp]
      show (s.ends q).isOpen v = true ↔ _
      rw [h.flag q v hq]
      constructor
      · rintro ⟨g, hg⟩
        refine ⟨g, hg, ?_⟩
        rintro rfl
        exact hqp (hg.2.1.symm.trans hend.2.1)
      · rintro ⟨g, hg, -⟩
        exact ⟨g, hg⟩
  · intro q hq
    rw [pipeclose_pipes] at hq
    rw [pipeclose_ends]
    by_cases hqp : q = pipe
    · subst hqp
      have hbefore : s.kfrees.count q = 0 := by
        rw [h.freed q hq, if_pos (Ends.open_of_isOpen hopen)]
      rw [pipeclose_count_self, Function.update_self]
      show s.kfrees.count q + _ = _
      rw [hbefore, Nat.zero_add]
    · rw [pipeclose_count_of_ne _ _ _ hqp, Function.update_of_ne hqp]
      exact h.freed q hq
  · intro q hq
    rw [pipeclose_pipes] at hq
    have hne : q ≠ pipe := by
      rintro rfl
      exact absurd hq (Nat.not_le.mpr hlt)
    rw [pipeclose_count_of_ne _ _ _ hne]
    exact h.fresh q hq

/-- The counts once the last reference to `f` is gone. -/
theorem Refs.drop (h : Refs s (f :: held)) (hone : (s.file f).ref = 1) {x : File}
    (href : x.ref = 0) (htype : x.type = .none) : Refs (s.setFile f x) held := by
  refine ⟨?_, ?_, h.idle⟩
  · intro g
    have hcount := h.count g
    rw [count_cons_int] at hcount
    by_cases hg : g = f
    · subst hg
      rw [if_pos rfl] at hcount
      simp only [Sys.setFile, Function.update_self, href]
      omega
    · rw [if_neg (Ne.symm hg)] at hcount
      simp only [Sys.setFile, Function.update_of_ne hg]
      omega
  · intro g
    by_cases hg : g = f
    · subst hg
      intro _
      simp only [Sys.setFile, Function.update_self, htype]
    · simp only [Sys.setFile, Function.update_of_ne hg]
      exact h.free g

/-- `fileclose` gives up a reference: it does not panic, and changes no descriptor. -/
theorem Inv.fileclose (h : Inv s (f :: held)) :
    ∃ t, fileclose s f = .ok t ∧ Inv t held ∧ t.ofile = s.ofile ∧ t.state = s.state := by
  have hpos : 0 < (s.file f).ref := h.refs.held_pos List.mem_cons_self
  have hnot : ¬ (s.file f).ref < 1 := by omega
  have hcount := h.refs.count f
  rw [count_cons_int, if_pos rfl] at hcount
  by_cases hmore : (s.file f).ref - 1 > 0
  · refine ⟨_, by rw [Ftable.fileclose, if_neg hnot, if_pos hmore], h.setRef hmore ?_ ?_, rfl, rfl⟩
    · omega
    · intro g hg
      rw [List.count_cons_of_ne (Ne.symm hg)]
  · have hone : (s.file f).ref = 1 := by omega
    by_cases hpipe : (s.file f).type = .pipe
    · have hend : IsEnd s f (s.file f).pipe (s.file f).writable := ⟨hpipe, rfl, rfl⟩
      refine ⟨pipeclose (s.setFile f { s.file f with ref := 0, type := .none }) (s.file f).pipe
        (s.file f).writable, ?_, ⟨?_, h.pipes.close hend rfl, ?_⟩, ?_, ?_⟩
      · simp only [Ftable.fileclose, if_neg hnot, if_neg hmore, if_pos hpipe]
      · have hrefs : Refs (s.setFile f { s.file f with ref := 0, type := .none }) held :=
          h.refs.drop hone rfl rfl
        constructor
        · rw [pipeclose_file, pipeclose_ofile]
          exact hrefs.count
        · rw [pipeclose_file]
          exact hrefs.free
        · rw [pipeclose_state, pipeclose_ofile]
          exact hrefs.idle
      · rw [pipeclose_panic]
        exact h.running
      · rw [pipeclose_ofile]
        rfl
      · rw [pipeclose_state]
        rfl
    · refine ⟨s.setFile f { s.file f with ref := 0, type := .none }, ?_,
        ⟨h.refs.drop hone rfl rfl, ?_, h.running⟩, rfl, rfl⟩
      · simp only [Ftable.fileclose, if_neg hnot, if_neg hmore, if_neg hpipe]
      · refine h.pipes.congr ?_ rfl rfl rfl
        intro g pipe w
        rw [isEnd_setFile_none rfl]
        refine ⟨fun hg => hg.1, fun hg => ⟨hg, ?_⟩⟩
        rintro rfl
        exact hpipe hg.1

end Closing

/-! ## Descriptors -/

section Descriptors

variable {s : Sys} {held : List FileId} {f : FileId} {p : ProcId} {fd : Fd}

theorem Inv.swap {g : FileId} (h : Inv s (f :: g :: held)) : Inv s (g :: f :: held) := by
  refine ⟨⟨?_, h.refs.free, h.refs.idle⟩, h.pipes, h.running⟩
  intro k
  rw [(List.Perm.swap f g held).count_eq k]
  exact h.refs.count k

/-- The references after a descriptor is changed. -/
theorem Inv.setFd (h : Inv s held) {held' : List FileId} {o : Option FileId}
    (hcount : ∀ g, holds g o + held'.count g = holds g (s.ofile (p, fd)) + held.count g)
    (hidle : s.state p = .unused ∨ s.state p = .zombie → o = none) :
    Inv (s.setFd p fd o) held' := by
  refine ⟨⟨?_, h.refs.free, ?_⟩, h.pipes.congr (fun _ _ _ => Iff.rfl) rfl rfl rfl, h.running⟩
  · intro g
    have hg := h.refs.count g
    have hchange := hcount g
    show (s.file g).ref = total (holds g) (Function.update s.ofile (p, fd) o) + held'.count g
    rw [total_update]
    omega
  · intro q i hq
    by_cases hqi : (q, i) = (p, fd)
    · obtain ⟨rfl, rfl⟩ := Prod.mk.inj hqi
      simp only [Sys.setFd, Function.update_self]
      exact hidle hq
    · simp only [Sys.setFd, Function.update_of_ne hqi]
      exact h.refs.idle q i hq

/-- A reference of the call becomes a descriptor. -/
theorem Inv.store (h : Inv s (f :: held)) (hempty : s.ofile (p, fd) = none)
    (hlive : s.state p = .active ∨ s.state p = .embryo) :
    Inv (s.setFd p fd (some f)) held := by
  refine h.setFd ?_ ?_
  · intro g
    rw [hempty, holds_none, holds_some, count_cons_int]
    omega
  · intro hidle
    rcases hlive with hlive | hlive <;> simp [hlive] at hidle

/-- A descriptor becomes a reference of the call. -/
theorem Inv.take (h : Inv s held) (hfull : s.ofile (p, fd) = some f) :
    Inv (s.setFd p fd none) (f :: held) := by
  refine h.setFd ?_ fun _ => rfl
  intro g
  rw [hfull, holds_none, holds_some, count_cons_int]
  omega

theorem Inv.setState (h : Inv s held) {x : ProcState}
    (hidle : x = .unused ∨ x = .zombie → ∀ fd, s.ofile (p, fd) = none) :
    Inv (s.setState p x) held := by
  refine ⟨⟨h.refs.count, h.refs.free, ?_⟩, h.pipes.congr (fun _ _ _ => Iff.rfl) rfl rfl rfl,
    h.running⟩
  intro q fd hq
  by_cases hqp : q = p
  · subst hqp
    simp only [Sys.setState, Function.update_self] at hq
    exact hidle hq fd
  · simp only [Sys.setState, Function.update_of_ne hqp] at hq
    exact h.refs.idle q fd hq

/-- What `fdalloc` does. -/
theorem fdalloc_eq_some {t : Sys} (h : fdalloc s p f = some (fd, t)) :
    s.ofile (p, fd) = none ∧ t = s.setFd p fd (some f) := by
  simp only [fdalloc, Option.map_eq_some_iff, Prod.mk.injEq] at h
  obtain ⟨i, hfind, rfl, rfl⟩ := h
  have hnone := List.find?_some hfind
  exact ⟨by simpa using hnone, rfl⟩

theorem argfd_eq_some {n : Int} (h : argfd s p n = some (fd, f)) : s.ofile (p, fd) = some f := by
  unfold argfd at h
  split_ifs at h
  simp only [Option.map_eq_some_iff, Prod.mk.injEq] at h
  obtain ⟨g, hg, rfl, rfl⟩ := h
  exact hg

/-- Counting and changing a descriptor can be done in either order. -/
theorem filedup_setFd (o : Option FileId) :
    filedup (s.setFd p fd o) f = (filedup s f).map fun t => t.setFd p fd o := by
  have hfile : ((s.setFd p fd o).file f).ref = (s.file f).ref := rfl
  by_cases hzero : (s.file f).ref < 1
  · rw [filedup, if_pos (hfile ▸ hzero), filedup, if_pos hzero]
    rfl
  · rw [filedup, if_neg (hfile ▸ hzero), filedup, if_neg hzero]
    rfl

theorem pipeclose_setFd (o : Option FileId) (pipe : Nat) (w : Bool) :
    pipeclose (s.setFd p fd o) pipe w = (pipeclose s pipe w).setFd p fd o := by
  have hends : (s.setFd p fd o).ends = s.ends := rfl
  simp only [pipeclose, hends]
  split_ifs <;> rfl

theorem fileclose_setFd (o : Option FileId) :
    fileclose (s.setFd p fd o) f = (fileclose s f).map fun t => t.setFd p fd o := by
  have hfile : ((s.setFd p fd o).file f).ref = (s.file f).ref := rfl
  by_cases hzero : (s.file f).ref < 1
  · rw [fileclose, if_pos (hfile ▸ hzero), fileclose, if_pos hzero]
    rfl
  · by_cases hmore : (s.file f).ref - 1 > 0
    · rw [fileclose, if_neg (hfile ▸ hzero), if_pos (hfile ▸ hmore), fileclose, if_neg hzero,
        if_pos hmore]
      rfl
    · rw [fileclose, if_neg (hfile ▸ hzero), if_neg (hfile ▸ hmore), fileclose, if_neg hzero,
        if_neg hmore]
      have htype : ((s.setFd p fd o).file f).type = (s.file f).type := rfl
      by_cases hpipe : (s.file f).type = .pipe
      · simp only [htype, if_pos hpipe]
        exact congrArg Except.ok (pipeclose_setFd (s := s.setFile f
          { s.file f with ref := 0, type := .none }) o (s.file f).pipe (s.file f).writable)
      · simp only [htype, if_neg hpipe]
        rfl

end Descriptors

/-! ## The calls -/

/-- A call returned `r`: the counts are right, and if it failed the descriptors are as they
were. -/
structure Done (s t : Sys) (r : Int) : Prop where
  inv : Inv t []
  kept : r = -1 → t.ofile = s.ofile ∧ t.state = s.state

theorem ok_bind {α β : Type} (a : α) (k : α → Except Panic β) : (Except.ok a >>= k) = k a :=
  rfl

section Calls

variable {s : Sys} {p : ProcId}

/-- A call that fails at once. -/
theorem Inv.done_fail (h : Inv s []) : Done s s (-1) :=
  ⟨h, fun _ => ⟨rfl, rfl⟩⟩

theorem Fd.ne_neg_one (fd : Fd) : ((fd : Nat) : Int) ≠ -1 := by
  omega

theorem sysDup_done (h : Inv s []) (hp : s.state p = .active) (n : Int) :
    ∃ t r, sysDup s p n = .ok (t, r) ∧ Done s t r := by
  unfold sysDup
  cases hargfd : argfd s p n with
  | none => exact ⟨s, -1, rfl, h.done_fail⟩
  | some a =>
    obtain ⟨i, f⟩ := a
    cases halloc : fdalloc s p f with
    | none => exact ⟨s, -1, by simp only [halloc], h.done_fail⟩
    | some b =>
      obtain ⟨fd, t⟩ := b
      obtain ⟨hempty, rfl⟩ := fdalloc_eq_some halloc
      obtain ⟨t, hdup, hinv, rfl⟩ := h.filedup (h.refs.ref_pos (argfd_eq_some hargfd))
      refine ⟨_, fd, ?_, hinv.store hempty (Or.inl hp), fun hr => absurd hr fd.ne_neg_one⟩
      simp only [halloc, filedup_setFd, hdup]
      rfl

theorem sysClose_done (h : Inv s []) (n : Int) :
    ∃ t r, sysClose s p n = .ok (t, r) ∧ Done s t r := by
  unfold sysClose
  cases hargfd : argfd s p n with
  | none => exact ⟨s, -1, rfl, h.done_fail⟩
  | some a =>
    obtain ⟨fd, f⟩ := a
    obtain ⟨t, hclose, hinv, -, -⟩ := (h.take (argfd_eq_some hargfd)).fileclose
    refine ⟨t, 0, ?_, hinv, by simp⟩
    simp only [hclose]
    rfl

/-- Setting the fields of an object that is no end of a pipe, to those of an inode. -/
theorem Inv.openInode {held : List FileId} {f : FileId} (h : Inv s held)
    (htype : (s.file f).type = .none) (hpos : 0 < (s.file f).ref) (ip : Nat) (omode : UInt32) :
    Inv (s.setFile f (openInode (s.file f) ip omode)) held := by
  refine ⟨⟨?_, ?_, h.refs.idle⟩, ?_, h.running⟩
  · intro g
    by_cases hg : g = f
    · subst hg
      simp only [Sys.setFile, Function.update_self, Ftable.openInode]
      exact h.refs.count g
    · simp only [Sys.setFile, Function.update_of_ne hg]
      exact h.refs.count g
  · intro g
    by_cases hg : g = f
    · subst hg
      simp only [Sys.setFile, Function.update_self, Ftable.openInode]
      omega
    · simp only [Sys.setFile, Function.update_of_ne hg]
      exact h.refs.free g
  · refine h.pipes.congr ?_ rfl rfl rfl
    intro g pipe w
    by_cases hg : g = f
    · subst hg
      rw [isEnd_setFile_self]
      simp [Ftable.openInode, IsEnd, htype]
    · exact isEnd_setFile_of_ne hg

theorem sysOpen_done (h : Inv s []) (hp : s.state p = .active) (ip : Option Nat)
    (omode : UInt32) : ∃ t r, sysOpen s p ip omode = .ok (t, r) ∧ Done s t r := by
  cases ip with
  | none => exact ⟨s, -1, rfl, h.done_fail⟩
  | some ip =>
    simp only [sysOpen]
    cases halloc : filealloc s with
    | none => exact ⟨s, -1, rfl, h.done_fail⟩
    | some a =>
      obtain ⟨f, s₁⟩ := a
      obtain ⟨hinv₁, -, htype, hs₁⟩ := h.filealloc halloc
      have hframe : s₁.ofile = s.ofile ∧ s₁.state = s.state := by
        rw [hs₁]
        exact ⟨rfl, rfl⟩
      cases hfd : fdalloc s₁ p f with
      | none =>
        obtain ⟨t, hclose, hinv, hofile, hstate⟩ := hinv₁.fileclose
        refine ⟨t, -1, ?_, hinv, fun _ => ⟨hofile.trans hframe.1, hstate.trans hframe.2⟩⟩
        simp only [hfd, hclose]
        rfl
      | some b =>
        obtain ⟨fd, s₂⟩ := b
        obtain ⟨hempty, rfl⟩ := fdalloc_eq_some hfd
        have hpos := hinv₁.refs.held_pos List.mem_cons_self
        have hstored := hinv₁.store hempty (Or.inl (by rw [hframe.2]; exact hp))
        refine ⟨_, fd, by simp only [hfd], hstored.openInode htype hpos ip omode, ?_⟩
        exact fun hr => absurd hr fd.ne_neg_one

/-- Which objects are ends once `pipealloc` has set the fields of two objects. -/
theorem isEnd_openPipe {f0 f1 : FileId} (hne : f0 ≠ f1) (h0 : (s.file f0).type = .none)
    (h1 : (s.file f1).type = .none) (g : FileId) (pipe : Nat) (w : Bool) :
    IsEnd (openPipe s f0 f1) g pipe w ↔
      IsEnd s g pipe w ∨ (pipe = s.pipes ∧ g = if w then f1 else f0) := by
  by_cases hg1 : g = f1
  · subst hg1
    have hnew : IsEnd (openPipe s f0 g) g pipe w ↔ s.pipes = pipe ∧ true = w := by
      simp only [IsEnd, openPipe, Sys.setFile, Function.update_self, true_and]
    have hold : ¬ IsEnd s g pipe w := fun hend => by simp [IsEnd, h1] at hend
    rw [hnew, or_iff_right hold, eq_comm]
    cases w <;> simp [Ne.symm hne]
  · by_cases hg0 : g = f0
    · subst hg0
      have hnew : IsEnd (openPipe s g f1) g pipe w ↔ s.pipes = pipe ∧ false = w := by
        simp only [IsEnd, openPipe, Sys.setFile, Function.update_of_ne hne, Function.update_self,
          true_and]
      have hold : ¬ IsEnd s g pipe w := fun hend => by simp [IsEnd, h0] at hend
      rw [hnew, or_iff_right hold, eq_comm]
      cases w <;> simp [hne]
    · have hnot : ¬ (g = if w then f1 else f0) := by
        cases w <;> simp [hg0, hg1]
      simp only [hnot, and_false, or_false]
      simp only [IsEnd, openPipe, Sys.setFile, Function.update_of_ne hg1,
        Function.update_of_ne hg0]

/-- The pipes with the new one. -/
theorem Pipes.openPipe {f0 f1 : FileId} (h : Pipes s) (hne : f0 ≠ f1)
    (h0 : (s.file f0).type = .none) (h1 : (s.file f1).type = .none) :
    Pipes (openPipe s f0 f1) := by
  have hiff := isEnd_openPipe hne h0 h1
  have hpipes : (Ftable.openPipe s f0 f1).pipes = s.pipes + 1 := rfl
  have hends : (Ftable.openPipe s f0 f1).ends = Function.update s.ends s.pipes ⟨true, true⟩ := rfl
  have hkfrees : (Ftable.openPipe s f0 f1).kfrees = s.kfrees := rfl
  constructor
  · intro g pipe w hg
    rw [hpipes]
    rcases (hiff g pipe w).mp hg with hg | ⟨hpipe, -⟩
    · exact Nat.lt_succ_of_lt (h.known g pipe w hg)
    · omega
  · intro g k pipe w hg hk
    rcases (hiff g pipe w).mp hg with hg | ⟨hpipe, hg⟩
    · have hlt := h.known g pipe w hg
      rcases (hiff k pipe w).mp hk with hk | ⟨hpipe, -⟩
      · exact h.single g k pipe w hg hk
      · omega
    · rcases (hiff k pipe w).mp hk with hk | ⟨-, hk⟩
      · have hlt := h.known k pipe w hk
        omega
      · rw [hg, hk]
  · intro pipe w hlt
    rw [hpipes] at hlt
    rw [hends]
    simp only [hiff]
    by_cases hpipe : pipe = s.pipes
    · rw [hpipe, Function.update_self]
      constructor
      · intro _
        exact ⟨_, Or.inr ⟨rfl, rfl⟩⟩
      · intro _
        cases w <;> rfl
    · rw [Function.update_of_ne hpipe, h.flag pipe w (by omega)]
      simp [hpipe]
  · intro pipe hlt
    rw [hpipes] at hlt
    rw [hends, hkfrees]
    by_cases hpipe : pipe = s.pipes
    · rw [hpipe, Function.update_self, h.fresh s.pipes (Nat.le_refl _)]
      rfl
    · rw [Function.update_of_ne hpipe]
      exact h.freed pipe (by omega)
  · intro pipe hle
    rw [hpipes] at hle
    rw [hkfrees]
    exact h.fresh pipe (by omega)

theorem openPipe_ref (f0 f1 g : FileId) : ((openPipe s f0 f1).file g).ref = (s.file g).ref := by
  simp only [openPipe, Sys.setFile]
  by_cases hg1 : g = f1
  · subst hg1
    by_cases hg0 : g = f0
    · subst hg0
      simp only [Function.update_self]
    · simp only [Function.update_self, Function.update_of_ne hg0]
  · by_cases hg0 : g = f0
    · subst hg0
      simp only [Function.update_of_ne hg1, Function.update_self]
    · simp only [Function.update_of_ne hg1, Function.update_of_ne hg0]

theorem Inv.openPipe {held : List FileId} {f0 f1 : FileId} (h : Inv s (f1 :: f0 :: held))
    (hne : f0 ≠ f1) (h0 : (s.file f0).type = .none) (h1 : (s.file f1).type = .none) :
    Inv (openPipe s f0 f1) (f1 :: f0 :: held) := by
  refine ⟨⟨?_, ?_, h.refs.idle⟩, h.pipes.openPipe hne h0 h1, h.running⟩
  · intro g
    rw [openPipe_ref]
    exact h.refs.count g
  · intro g hzero
    rw [openPipe_ref] at hzero
    have hg1 : g ≠ f1 := by
      rintro rfl
      have hpos := h.refs.held_pos (f := g) (by simp)
      omega
    have hg0 : g ≠ f0 := by
      rintro rfl
      have hpos := h.refs.held_pos (f := g) (by simp)
      omega
    simp only [Ftable.openPipe, Sys.setFile, Function.update_of_ne hg1, Function.update_of_ne hg0]
    exact h.refs.free g hzero

/-- Two references are given up. -/
theorem Inv.fileclose_two {held : List FileId} {f g : FileId} (h : Inv s (f :: g :: held)) :
    ∃ t, (do
        let s ← Ftable.fileclose s f
        Ftable.fileclose s g) = .ok t ∧ Inv t held ∧ t.ofile = s.ofile ∧ t.state = s.state := by
  obtain ⟨s₁, hclose, hinv₁, hofile₁, hstate₁⟩ := h.fileclose
  obtain ⟨t, hclose₁, hinv, hofile, hstate⟩ := hinv₁.fileclose
  refine ⟨t, ?_, hinv, hofile.trans hofile₁, hstate.trans hstate₁⟩
  rw [hclose]
  exact hclose₁

/-- What `pipealloc` does: it returns two new references or none, and changes no
descriptor. -/
theorem Inv.pipealloc (h : Inv s []) (page : Bool) :
    ∃ t files, pipealloc s page = .ok (t, files) ∧ t.ofile = s.ofile ∧ t.state = s.state ∧
      ((files = none ∧ Inv t []) ∨ ∃ f0 f1, files = some (f0, f1) ∧ Inv t [f0, f1]) := by
  simp only [Ftable.pipealloc]
  cases halloc : Ftable.filealloc s with
  | none => exact ⟨s, none, rfl, rfl, rfl, Or.inl ⟨rfl, h⟩⟩
  | some a =>
    obtain ⟨f0, s₁⟩ := a
    obtain ⟨hinv₁, -, htype₀, hs₁⟩ := h.filealloc halloc
    have hofile₁ : s₁.ofile = s.ofile := by rw [hs₁]; rfl
    have hstate₁ : s₁.state = s.state := by rw [hs₁]; rfl
    cases halloc₁ : Ftable.filealloc s₁ with
    | none =>
      obtain ⟨t, hclose, hinv, hofile, hstate⟩ := hinv₁.fileclose
      refine ⟨t, none, ?_, hofile.trans hofile₁, hstate.trans hstate₁, Or.inl ⟨rfl, hinv⟩⟩
      simp only [halloc₁, hclose]
      rfl
    | some b =>
      obtain ⟨f1, s₂⟩ := b
      obtain ⟨hinv₂, hnot, htype₁, hs₂⟩ := hinv₁.filealloc halloc₁
      have hofile₂ : s₂.ofile = s.ofile := by rw [hs₂]; exact hofile₁
      have hstate₂ : s₂.state = s.state := by rw [hs₂]; exact hstate₁
      have hne : f0 ≠ f1 := by
        rintro rfl
        exact hnot List.mem_cons_self
      have htype₀' : (s₂.file f0).type = .none := by
        rw [hs₂]
        simp only [Sys.setFile, Function.update_of_ne hne]
        exact htype₀
      cases page with
      | true =>
        refine ⟨Ftable.openPipe s₂ f0 f1, some (f0, f1), ?_, hofile₂, hstate₂, Or.inr ?_⟩
        · simp only [halloc₁, if_true]
        · exact ⟨f0, f1, rfl, (hinv₂.openPipe hne htype₀' htype₁).swap⟩
      | false =>
        obtain ⟨t, hclose, hinv, hofile, hstate⟩ := hinv₂.swap.fileclose_two
        refine ⟨t, none, ?_, hofile.trans hofile₂, hstate.trans hstate₂, Or.inl ⟨rfl, hinv⟩⟩
        simp only [halloc₁, Bool.false_eq_true, if_false]
        rw [← bind_assoc, hclose]
        rfl

theorem sysPipe_done (h : Inv s []) (hp : s.state p = .active) (arg page : Bool) :
    ∃ t r, sysPipe s p arg page = .ok (t, r) ∧ Done s t r := by
  cases arg with
  | false => exact ⟨s, -1, rfl, h.done_fail⟩
  | true =>
    obtain ⟨s₁, files, halloc, hofile₁, hstate₁, hfiles⟩ := h.pipealloc page
    simp only [sysPipe, Bool.not_true, Bool.false_eq_true, if_false, halloc]
    rcases hfiles with ⟨rfl, hinv⟩ | ⟨rf, wf, rfl, hinv⟩
    · exact ⟨s₁, -1, rfl, hinv, fun _ => ⟨hofile₁, hstate₁⟩⟩
    · have hlive : s₁.state p = .active := by rw [hstate₁]; exact hp
      simp only [ok_bind]
      cases hfd0 : fdalloc s₁ p rf with
      | none =>
        obtain ⟨t, hclose, hinv', hofile, hstate⟩ := hinv.fileclose_two
        refine ⟨t, -1, ?_, hinv', fun _ => ⟨hofile.trans hofile₁, hstate.trans hstate₁⟩⟩
        simp only
        rw [← bind_assoc, hclose]
        rfl
      | some a =>
        obtain ⟨fd0, s₂⟩ := a
        obtain ⟨hempty₀, rfl⟩ := fdalloc_eq_some hfd0
        have hinv₂ := hinv.store hempty₀ (Or.inl hlive)
        simp only
        cases hfd1 : fdalloc (s₁.setFd p fd0 (some rf)) p wf with
        | none =>
          -- the descriptor that was stored is taken back
          have hback : (s₁.setFd p fd0 (some rf)).setFd p fd0 none = s₁ := by
            simp only [Sys.setFd, Function.update_idem]
            rw [← hempty₀, Function.update_eq_self]
          obtain ⟨t, hclose, hinv', hofile, hstate⟩ := hinv.fileclose_two
          refine ⟨t, -1, ?_, hinv', fun _ => ⟨hofile.trans hofile₁, hstate.trans hstate₁⟩⟩
          simp only [hback]
          rw [← bind_assoc, hclose]
          rfl
        | some b =>
          obtain ⟨fd1, s₃⟩ := b
          obtain ⟨hempty₁, rfl⟩ := fdalloc_eq_some hfd1
          exact ⟨_, 0, rfl, hinv₂.store hempty₁ (Or.inl hlive), by simp⟩

/-- The loop of `fork`: the child has the descriptors of the list that the parent has. -/
theorem dupFds_done {held : List FileId} {np : ProcId} :
    ∀ (fds : List Fd) (s : Sys), Inv s held → s.state np = .embryo → fds.Nodup →
      (∀ fd ∈ fds, s.ofile (np, fd) = none) →
      ∃ t, dupFds p np fds s = .ok t ∧ Inv t held ∧ t.state = s.state := by
  intro fds
  induction fds with
  | nil =>
    intro s h _ _ _
    exact ⟨s, rfl, h, rfl⟩
  | cons fd fds ih =>
    intro s h hnp hnodup hempty
    obtain ⟨hfresh, hnodup⟩ := List.nodup_cons.mp hnodup
    cases hfd : s.ofile (p, fd) with
    | none =>
      obtain ⟨t, hdup, hinv, hstate⟩ :=
        ih s h hnp hnodup fun i hi => hempty i (List.mem_cons_of_mem fd hi)
      exact ⟨t, by simp only [dupFds, hfd]; exact hdup, hinv, hstate⟩
    | some f =>
      obtain ⟨s₁, hdup₁, hinv₁, hs₁⟩ := h.filedup (h.refs.ref_pos hfd)
      have hofile₁ : s₁.ofile = s.ofile := by rw [hs₁]; rfl
      have hstate₁ : s₁.state = s.state := by rw [hs₁]; rfl
      have hslot : s₁.ofile (np, fd) = none := by
        rw [hofile₁]
        exact hempty fd List.mem_cons_self
      have hinv₂ := hinv₁.store hslot (Or.inr (by rw [hstate₁]; exact hnp))
      obtain ⟨t, hdup, hinv, hstate⟩ := ih (s₁.setFd np fd (some f)) hinv₂
        (by rw [← hnp, ← hstate₁]; rfl) hnodup (by
          intro i hi
          have hother : (np, i) ≠ (np, fd) := by
            intro heq
            exact hfresh ((Prod.mk.inj heq).2 ▸ hi)
          simp only [Sys.setFd, Function.update_of_ne hother, hofile₁]
          exact hempty i (List.mem_cons_of_mem fd hi))
      refine ⟨t, ?_, hinv, hstate.trans hstate₁⟩
      simp only [dupFds, hfd, hdup₁, ok_bind]
      exact hdup

theorem fork_done (h : Inv s []) (stack copied : Bool) :
    ∃ t r, fork s p stack copied = .ok (t, r) ∧ Done s t r := by
  unfold fork
  cases hfind : (List.finRange nproc).find? fun np => s.state np = .unused with
  | none => exact ⟨s, -1, rfl, h.done_fail⟩
  | some np =>
    have hunused : s.state np = .unused := by simpa using List.find?_some hfind
    have hempty : ∀ fd, s.ofile (np, fd) = none := fun fd => h.refs.idle np fd (Or.inl hunused)
    have hembryo : Inv (s.setState np .embryo) [] := h.setState (by simp)
    -- a failed call puts the entry back
    have hback : (s.setState np .embryo).setState np .unused = s := by
      simp only [Sys.setState, Function.update_idem]
      rw [← hunused, Function.update_eq_self]
    simp only [hback]
    cases stack with
    | false => exact ⟨s, -1, rfl, h.done_fail⟩
    | true =>
      cases copied with
      | false => exact ⟨s, -1, rfl, h.done_fail⟩
      | true =>
        obtain ⟨t, hdup, hinv, -⟩ := dupFds_done (p := p) (List.finRange nofile)
          (s.setState np .embryo) hembryo (by simp [Sys.setState]) (List.nodup_finRange _)
          (fun fd _ => hempty fd)
        refine ⟨t.setState np .active, np, ?_, hinv.setState (by simp), ?_⟩
        · simp only [Bool.not_true, Bool.false_eq_true, if_false, hdup, ok_bind]
          rfl
        · intro hr
          omega

/-- The loop of `exit`: the descriptors of the list are gone. -/
theorem closeFds_done {held : List FileId} :
    ∀ (fds : List Fd) (s : Sys), Inv s held →
      ∃ t, closeFds p fds s = .ok t ∧ Inv t held ∧
        (∀ fd, s.ofile (p, fd) = none ∨ fd ∈ fds → t.ofile (p, fd) = none) := by
  intro fds
  induction fds with
  | nil =>
    intro s h
    exact ⟨s, rfl, h, by simp⟩
  | cons fd fds ih =>
    intro s h
    cases hfd : s.ofile (p, fd) with
    | none =>
      obtain ⟨t, hclose, hinv, hgone⟩ := ih s h
      refine ⟨t, by simp only [closeFds, hfd]; exact hclose, hinv, ?_⟩
      intro i hi
      rcases hi with hi | hi
      · exact hgone i (Or.inl hi)
      · rcases List.mem_cons.mp hi with rfl | hi
        · exact hgone i (Or.inl hfd)
        · exact hgone i (Or.inr hi)
    | some f =>
      obtain ⟨s₁, hclose₁, hinv₁, hofile₁, -⟩ := (h.take hfd).fileclose
      obtain ⟨t, hclose, hinv, hgone⟩ := ih s₁ hinv₁
      rw [fileclose_setFd] at hclose₁
      refine ⟨t, ?_, hinv, ?_⟩
      · cases hf : fileclose s f with
        | error e =>
          rw [hf] at hclose₁
          cases hclose₁
        | ok s₂ =>
          rw [hf] at hclose₁
          cases hclose₁
          simp only [closeFds, hfd, hf, ok_bind]
          exact hclose
      · intro i hi
        by_cases hifd : i = fd
        · refine hgone i (Or.inl ?_)
          rw [hofile₁, hifd]
          exact Function.update_self _ _ _
        · rcases hi with hi | hi
          · refine hgone i (Or.inl ?_)
            have hother : (p, i) ≠ (p, fd) := fun heq => hifd (Prod.mk.inj heq).2
            rw [hofile₁]
            simp only [Sys.setFd, Function.update_of_ne hother]
            exact hi
          · exact hgone i (Or.inr ((List.mem_cons.mp hi).resolve_left hifd))

theorem exit_done (h : Inv s []) (hp : p ≠ initproc) :
    ∃ t r, exit s p = .ok (t, r) ∧ Done s t r := by
  obtain ⟨t, hclose, hinv, hgone⟩ := closeFds_done (p := p) (List.finRange nofile) s h
  refine ⟨t.setState p .zombie, 0, ?_, hinv.setState ?_, by simp⟩
  · simp only [exit, if_neg hp, hclose, ok_bind]
    rfl
  · intro _ fd
    exact hgone fd (Or.inr (List.mem_finRange fd))

/-- Every call of an active process returns with the counts right, except `exit` of the first
process. -/
theorem call_done (h : Inv s []) (hp : s.state p = .active) (c : Call) :
    (∃ t r, call s p c = .ok (t, r) ∧ Done s t r) ∨ call s p c = .error .initExiting := by
  cases c with
  | dup fd => exact Or.inl (sysDup_done h hp fd)
  | close fd => exact Or.inl (sysClose_done h fd)
  | openFile ip omode => exact Or.inl (sysOpen_done h hp ip omode)
  | pipe arg page => exact Or.inl (sysPipe_done h hp arg page)
  | fork stack copied => exact Or.inl (fork_done h stack copied)
  | exit =>
    by_cases hinit : p = initproc
    · right
      simp only [call, exit, if_pos hinit]
    · exact Or.inl (exit_done h hinit)

end Calls

/-! ## Runs -/

/-- The descriptors of processes in use that refer to `f`. -/
def descriptors (s : Sys) (f : FileId) : Finset (ProcId × Fd) :=
  Finset.univ.filter fun d => s.state d.1 ≠ .unused ∧ s.ofile d = some f

/-- Every count is the number of descriptors. -/
def RefsExact (s : Sys) : Prop :=
  ∀ f, (s.file f).ref = (descriptors s f).card

/-- A descriptor of a process in use refers to an end of the pipe. -/
def InUse (s : Sys) (pipe : Nat) : Prop :=
  ∃ f, (s.file f).type = .pipe ∧ (s.file f).pipe = pipe ∧ (descriptors s f).Nonempty

/-- Every pipe was freed once if no descriptor refers to it any more, and else never. -/
def FreedExactlyOnce (s : Sys) : Prop :=
  ∀ pipe, (pipe < s.pipes → ¬ InUse s pipe → s.kfrees.count pipe = 1) ∧
    (InUse s pipe ∨ s.pipes ≤ pipe → s.kfrees.count pipe = 0)

/-- A call that returns -1 leaves descriptors, counts and processes as they were. -/
def FailuresKeep (s : Sys) : Prop :=
  ∀ p c t, s.panic = none → s.state p = .active → call s p c = .ok (t, -1) →
    t.ofile = s.ofile ∧ (∀ f, (t.file f).ref = (s.file f).ref) ∧ t.state = s.state

section Runs

variable {s : Sys}

theorem Refs.total_eq_card (h : Refs s []) (f : FileId) :
    total (holds f) s.ofile = (descriptors s f).card := by
  have hfilter : descriptors s f = Finset.univ.filter fun d => s.ofile d = some f := by
    refine Finset.filter_congr ?_
    intro d _
    refine ⟨fun hd => hd.2, fun hd => ⟨?_, hd⟩⟩
    intro hunused
    rw [h.idle d.1 d.2 (Or.inl hunused)] at hd
    cases hd
  rw [hfilter]
  simp only [total, holds, Finset.sum_boole]

theorem Inv.refsExact (h : Inv s []) : RefsExact s := by
  intro f
  rw [h.refs.count f, h.refs.total_eq_card f, List.count_nil, Nat.cast_zero, add_zero]

/-- A pipe is in use as long as one of its ends is a file object. -/
theorem Inv.inUse_iff (h : Inv s []) (pipe : Nat) : InUse s pipe ↔ ∃ f w, IsEnd s f pipe w := by
  constructor
  · rintro ⟨f, htype, hpipe, -⟩
    exact ⟨f, _, htype, hpipe, rfl⟩
  · rintro ⟨f, w, htype, hpipe, -⟩
    refine ⟨f, htype, hpipe, ?_⟩
    rw [← Finset.card_pos]
    have hexact := h.refsExact f
    by_contra hnone
    have hzero : (s.file f).ref = 0 := by omega
    rw [h.refs.free f hzero] at htype
    cases htype

theorem Inv.freedExactlyOnce (h : Inv s []) : FreedExactlyOnce s := by
  intro pipe
  rw [h.inUse_iff]
  have hopen : pipe < s.pipes → ((∃ f w, IsEnd s f pipe w) ↔
      ((s.ends pipe).readopen || (s.ends pipe).writeopen) = true) := by
    intro hlt
    have hread : (s.ends pipe).readopen = true ↔ ∃ f, IsEnd s f pipe false :=
      h.pipes.flag pipe false hlt
    have hwrite : (s.ends pipe).writeopen = true ↔ ∃ f, IsEnd s f pipe true :=
      h.pipes.flag pipe true hlt
    rw [Bool.or_eq_true, hread, hwrite]
    constructor
    · rintro ⟨f, w, hend⟩
      cases w with
      | false => exact Or.inl ⟨f, hend⟩
      | true => exact Or.inr ⟨f, hend⟩
    · rintro (⟨f, hend⟩ | ⟨f, hend⟩)
      · exact ⟨f, false, hend⟩
      · exact ⟨f, true, hend⟩
  constructor
  · intro hlt hunused
    rw [hopen hlt] at hunused
    rw [h.pipes.freed pipe hlt, if_neg hunused]
  · rintro (⟨f, w, hend⟩ | hle)
    · have hlt := h.pipes.known f pipe w hend
      rw [h.pipes.freed pipe hlt, if_pos ((hopen hlt).mp ⟨f, w, hend⟩)]
    · exact h.pipes.fresh pipe hle

theorem Inv.failuresKeep (h : Inv { s with panic := none } []) : FailuresKeep s := by
  intro p c t hpanic hp hcall
  have hself : { s with panic := none } = s := by rw [← hpanic]
  rw [hself] at h
  rcases call_done h hp c with ⟨t', r, hdone, hinv, hkept⟩ | herror
  · rw [hcall] at hdone
    obtain ⟨rfl, rfl⟩ := Prod.mk.inj (Except.ok.inj hdone)
    obtain ⟨hofile, hstate⟩ := hkept rfl
    refine ⟨hofile, ?_, hstate⟩
    intro f
    rw [hinv.refs.count f, h.refs.count f, hofile]
  · rw [hcall] at herror
    cases herror

/-- The tables between calls; once the first process has exited, they are as it left them. -/
def Sound (s : Sys) : Prop :=
  Inv { s with panic := none } [] ∧ (s.panic = none ∨ s.panic = some .initExiting)

theorem sound_step (s : Sys) (a : Act) (t : Sys) (h : Sound s) (hstep : fileStep s a = some t) :
    Sound t := by
  obtain ⟨hinv, -⟩ := h
  cases a with
  | call p c =>
    simp only [fileStep] at hstep
    split_ifs at hstep with hguard
    simp only [Bool.and_eq_true, Option.isNone_iff_eq_none, decide_eq_true_eq] at hguard
    have hself : { s with panic := none } = s := by rw [← hguard.1]
    rw [hself] at hinv
    rcases call_done hinv hguard.2 c with ⟨t', r, hcall, hinv', -⟩ | hcall
    · rw [hcall] at hstep
      obtain rfl : t' = t := Option.some.inj hstep
      have hself' : { t' with panic := none } = t' := by rw [← hinv'.running]
      exact ⟨hself'.symm ▸ hinv', Or.inl hinv'.running⟩
    · rw [hcall] at hstep
      cases hstep
      exact ⟨hself.symm ▸ hinv, Or.inr rfl⟩
  | reap p =>
    simp only [fileStep] at hstep
    split_ifs at hstep with hguard
    simp only [Bool.and_eq_true, Option.isNone_iff_eq_none, decide_eq_true_eq] at hguard
    cases hstep
    refine ⟨hinv.setState ?_, Or.inl hguard.1⟩
    intro _ fd
    exact hinv.refs.idle p fd (Or.inr hguard.2)

theorem sound_sysInit : Sound sysInit := by
  refine ⟨⟨⟨?_, fun _ _ => rfl, fun _ _ _ => rfl⟩, ⟨?_, ?_, ?_, ?_, ?_⟩, rfl⟩, Or.inl rfl⟩
  · intro f
    have hzero : total (holds f) sysInit.ofile = 0 := Finset.sum_eq_zero fun _ _ => rfl
    show (0 : Int) = total (holds f) sysInit.ofile + _
    rw [hzero]
    simp
  · rintro f pipe w ⟨htype, -, -⟩
    cases htype
  · rintro f g pipe w ⟨htype, -, -⟩
    cases htype
  · intro pipe w hlt
    exact absurd hlt (Nat.not_lt_zero pipe)
  · intro pipe hlt
    exact absurd hlt (Nat.not_lt_zero pipe)
  · intro pipe _
    rfl

end Runs

/-- In every state of every run the counts are the numbers of descriptors, every pipe was
freed exactly once if no descriptor is left and else never, no failed call changes anything,
and neither `filedup` nor `fileclose` has panicked. -/
theorem file_refs_exact (acts : List Act) :
    AllStates fileStep
      (fun s => RefsExact s ∧ FreedExactlyOnce s ∧ FailuresKeep s ∧
        s.panic ≠ some .filedup ∧ s.panic ≠ some .fileclose) sysInit acts := by
  refine allStates_of_meets (I := Sound) (C := fun _ _ => True) ?_
    (fun s a t h _ hstep => sound_step s a t h hstep) sound_sysInit
    (meets_of_forall (fun _ _ => trivial) _ _)
  rintro s ⟨hinv, hpanic⟩
  refine ⟨hinv.refsExact, hinv.freedExactlyOnce, hinv.failuresKeep, ?_, ?_⟩
  · rcases hpanic with hpanic | hpanic <;> simp [hpanic]
  · rcases hpanic with hpanic | hpanic <;> simp [hpanic]

/-- A pipe shared by a parent and its child is freed when the child exits, the parent having
closed both ends. -/
example : (runFrom fileStep sysInit
    [.call initproc (.pipe true true), .call initproc (.fork true true),
      .call initproc (.close 0), .call initproc (.close 1),
      .call ⟨1, by decide⟩ .exit]).map (fun s => (s.pipes, s.kfrees)) = some (1, [0]) := by
  decide +kernel

end Xv6.Ftable
