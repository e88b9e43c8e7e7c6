import Xv6.Vm.ExecFailure

/-!
# Virtual memory - The image that `exec` builds

For a file whose segments ascend, what a successful `exec` leaves in memory is what file and
arguments say: later segments do not reach earlier ones, each string is pushed below those before
it, and the array of pointers goes below all of them.

Main results:

- Theorem {lit}`bytesAfter_segment`: every segment is in the image when all are loaded.
- Theorem {lit}`pushBytes_strings`: every string is on the stack when all are pushed.
- Theorem {lit}`exec_builds_image`: the image of a successful call.
-/

namespace Xv6.Vm

open Foundations
open Ftable (ProcId)

/-! ## The property -/

/-- The loadable segments start at page boundaries, ascend from `sz` on and are in the file. -/
def Ascending (file : List UInt8) : List (Option ProgHdr) → Nat → Prop
  | [], _ => True
  | none :: _, _ => True
  | some ph :: phs, sz =>
    (ph.type = elfProgLoad → ph.vaddr.toNat % pgsize = 0 ∧ sz ≤ ph.vaddr.toNat ∧
      ph.off.toNat + ph.filesz.toNat ≤ file.length) ∧ Ascending file phs (ph.sizeAfter sz)

/-- The user memory has these bytes from `va` on. -/
def Holds (m : Machine) (root va : Nat) (bytes : List UInt8) : Prop :=
  ∀ k < bytes.length, userByte m root (va + k) = some (bytes.getD k 0)

/-- The image with root `d` is the one that file and arguments describe. -/
structure Described (s : Kernel) (p : ProcId) (file : List UInt8) (elf : ElfHdr)
    (argv : List (List UInt8)) (d : Nat) : Prop where
  pgdir : (s.proc p).pgdir = some d
  segments : ∀ ph, some ph ∈ progHdrs file elf → ph.type = elfProgLoad →
    Holds s.machine d ph.vaddr.toNat ((file.drop ph.off.toNat).take ph.filesz.toNat) ∧
    ∀ va, ph.vaddr.toNat + ph.filesz.toNat ≤ va → va < ph.top → userByte s.machine d va = some 0
  pages : ∀ va, va < 2 ^ 47 →
    (flat s.machine d va ≠ none ↔ pgsize ≤ va ∧ va < (s.proc p).sz)
  guard : ∀ va, (s.proc p).sz - 2 * pgsize ≤ va → va < (s.proc p).sz - pgsize →
    ¬Accessible s.machine d va
  start : (s.proc p).tf.rip = elf.entry
  argc : (s.proc p).tf.rdi.toNat = argv.length
  array : (s.proc p).tf.rsi.toNat = (s.proc p).tf.rsp.toNat + 24
  aligned : (s.proc p).tf.rsp.toNat % 8 = 0
  stackPage : (s.proc p).sz - pgsize ≤ (s.proc p).tf.rsp.toNat
  words : ∃ ptrs : List Nat,
    Holds s.machine d (s.proc p).tf.rsp.toNat
      (wordBytes ([0xffffffff, argv.length, (s.proc p).tf.rsi.toNat] ++ ptrs ++ [0])) ∧
    List.Forall₂ (fun arg a => (s.proc p).tf.rsi.toNat + 8 * (argv.length + 1) ≤ a ∧
      a + arg.length < (s.proc p).sz ∧ Holds s.machine d a (arg ++ [0])) argv ptrs

/-! ## Segments -/

section Segments

variable {file : List UInt8} {phs : List (Option ProgHdr)} {sz va : Nat} {byte : Nat → UInt8}
  {ph : ProgHdr}

theorem ProgHdr.le_sizeAfter (ph : ProgHdr) (sz : Nat) : sz ≤ ph.sizeAfter sz := by
  unfold ProgHdr.sizeAfter
  split
  · exact le_max_left ..
  · exact le_refl sz

theorem le_sizeAfter : sz ≤ sizeAfter phs sz := by
  induction phs generalizing sz with
  | nil => exact le_refl sz
  | cons head phs ih =>
    cases head with
    | none => exact le_refl sz
    | some ph => exact (ph.le_sizeAfter sz).trans ih

theorem AllPass.sizeAfter_le {checked : Bool} {n : Nat} (h : AllPass checked file n phs sz)
    (hsz : sz ≤ 2 ^ 47) : sizeAfter phs sz ≤ 2 ^ 47 := by
  induction phs generalizing sz with
  | nil => exact hsz
  | cons head phs ih =>
    cases head with
    | none => exact hsz
    | some ph =>
      refine ih h.2 ?_
      unfold ProgHdr.sizeAfter
      split
      · rename_i hload
        exact max_le hsz (h.1 hload).1.2.1
      · exact hsz

/-- Each segment is between the sizes before and after. -/
theorem segment_range {checked : Bool} {n : Nat} (h : Ascending file phs sz)
    (hpass : AllPass checked file n phs sz) (hmem : some ph ∈ phs) (hload : ph.type = elfProgLoad) :
    sz ≤ ph.vaddr.toNat ∧ ph.top ≤ sizeAfter phs sz ∧
      ph.off.toNat + ph.filesz.toNat ≤ file.length ∧ ph.filesz.toNat ≤ ph.memsz.toNat := by
  induction phs generalizing sz with
  | nil => cases hmem
  | cons head phs ih =>
    cases head with
    | none => exact absurd hpass id
    | some qh =>
      rcases List.mem_cons.mp hmem with heq | hmem
      · cases heq
        have htop : ph.top ≤ ph.sizeAfter sz := by
          rw [ProgHdr.sizeAfter, if_pos hload]
          exact le_max_right ..
        have hin := h.1 hload
        exact ⟨hin.2.1, htop.trans le_sizeAfter, hin.2.2,
          UInt64.le_iff_toNat_le.mp (hpass.1 hload).1.1⟩
      · have hnext := ih h.2 hpass.2 hmem
        exact ⟨(qh.le_sizeAfter sz).trans hnext.1, hnext.2⟩

/-- Segments that ascend from `sz` on do not change what is below. -/
theorem bytesAfter_below (h : Ascending file phs sz) (hva : va < sz) :
    bytesAfter file phs byte va = byte va := by
  induction phs generalizing sz byte with
  | nil => rfl
  | cons head phs ih =>
    cases head with
    | none => rfl
    | some ph =>
      rw [bytesAfter, ih h.2 (hva.trans_le (ph.le_sizeAfter sz))]
      unfold ProgHdr.bytesAfter
      split
      · rename_i hload
        have hlow := (h.1 hload).2.1
        unfold ProgHdr.load overlay
        rw [if_neg (by omega)]
      · rfl

/-- Each segment is in the image: its bytes from the file, and then zeros. -/
theorem bytesAfter_segment {checked : Bool} {n : Nat} (h : Ascending file phs sz)
    (hfile : file.length < 2 ^ 32) (hpass : AllPass checked file n phs sz)
    (hzero : ∀ va, sz ≤ va → byte va = 0) (hmem : some ph ∈ phs) (hload : ph.type = elfProgLoad) :
    (∀ k < ph.filesz.toNat,
      bytesAfter file phs byte (ph.vaddr.toNat + k) = file.getD (ph.off.toNat + k) 0) ∧
    ∀ va, ph.vaddr.toNat + ph.filesz.toNat ≤ va → va < ph.top →
      bytesAfter file phs byte va = 0 := by
  induction phs generalizing sz byte with
  | nil => cases hmem
  | cons head phs ih =>
    cases head with
    | none => exact absurd hpass id
    | some qh =>
      have hfits : qh.type = elfProgLoad → qh.off.toNat % 2 ^ 32 = qh.off.toNat ∧
          qh.filesz.toNat % 2 ^ 32 = qh.filesz.toNat := by
        intro hq
        have hin := (h.1 hq).2.2
        omega
      rw [bytesAfter]
      rcases List.mem_cons.mp hmem with heq | hmem
      · cases heq
        have hsize : ph.sizeAfter sz = max sz ph.top := if_pos hload
        have hbytes : ph.bytesAfter file byte = ph.load file byte := if_pos hload
        have hle := UInt64.le_iff_toNat_le.mp (hpass.1 hload).1.1
        have hlow := (h.1 hload).2
        have hlater : ∀ va, va < ph.top →
            bytesAfter file phs (ph.bytesAfter file byte) va = ph.load file byte va := by
          intro va hva
          rw [bytesAfter_below h.2 (by omega), hbytes]
        unfold ProgHdr.top at hlater ⊢
        refine ⟨?_, ?_⟩
        · intro k hk
          rw [hlater _ (by omega)]
          unfold ProgHdr.load overlay
          rw [(hfits hload).1, (hfits hload).2, List.length_take, List.length_drop,
            if_pos (by omega), Nat.add_sub_cancel_left]
          simp only [List.getD_eq_getElem?_getD, List.getElem?_take_of_lt hk,
            List.getElem?_drop]
        · intro va hva hva'
          rw [hlater va hva']
          unfold ProgHdr.load overlay
          rw [(hfits hload).1, (hfits hload).2, List.length_take, List.length_drop,
            if_neg (by omega)]
          exact hzero va (by omega)
      · refine ih h.2 hpass.2 ?_ hmem
        intro va hva
        unfold ProgHdr.sizeAfter at hva
        unfold ProgHdr.bytesAfter
        split at hva
        · rename_i hq
          have hle := UInt64.le_iff_toNat_le.mp (hpass.1 hq).1.1
          rw [if_pos hq]
          unfold ProgHdr.load overlay
          unfold ProgHdr.top at hva
          rw [(hfits hq).1, (hfits hq).2, List.length_take, if_neg (by omega)]
          exact hzero va (by omega)
        · rename_i hq
          rw [if_neg hq]
          exact hzero va hva

end Segments

/-! ## Strings -/

section Strings

variable {base sp va : Nat} {args : List (List UInt8)} {arg : List UInt8} {byte : Nat → UInt8}

/-- Where a string goes that fits. -/
theorem pushAddr_bounds (hbase : base % 8 = 0) (hsp : sp < 2 ^ 64)
    (hfit : base + arg.length + 1 ≤ sp) :
    base ≤ pushAddr sp arg ∧ pushAddr sp arg + arg.length + 1 ≤ sp := by
  rw [pushAddr_of_le (by omega) hsp]
  omega

theorem spAfter_bounds (hbase : base % 8 = 0) (hsp : sp < 2 ^ 64) (hmod : sp % 8 = 0)
    (h : ArgsFit base args sp) : spAfter args sp ≤ sp ∧ spAfter args sp % 8 = 0 := by
  induction args generalizing sp with
  | nil => exact ⟨le_refl sp, hmod⟩
  | cons arg args ih =>
    rw [ArgsFit] at h
    have haddr := pushAddr_bounds hbase hsp h.1
    have hnext := ih (show pushAddr sp arg < 2 ^ 64 by omega) (Nat.mul_mod_left _ 8) h.2
    rw [spAfter_cons]
    exact ⟨by omega, hnext.2⟩

/-- Strings that fit are between `base` and `sp`. -/
theorem pushBytes_outside (hbase : base % 8 = 0) (hsp : sp < 2 ^ 64) (h : ArgsFit base args sp)
    (hva : va < base ∨ sp ≤ va) : pushBytes args sp byte va = byte va := by
  induction args generalizing sp byte with
  | nil => rfl
  | cons arg args ih =>
    rw [ArgsFit] at h
    have haddr := pushAddr_bounds hbase hsp h.1
    rw [pushBytes_cons, ih (by omega) h.2 (by omega)]
    unfold overlay
    rw [if_neg]
    rw [List.length_append, List.length_singleton]
    omega

/-- Each string is on the stack, above the stack pointer. -/
theorem pushBytes_strings (byte : Nat → UInt8) (hbase : base % 8 = 0) (hsp : sp < 2 ^ 64)
    (hmod : sp % 8 = 0) (h : ArgsFit base args sp) :
    List.Forall₂ (fun arg a => spAfter args sp ≤ a ∧ a + arg.length + 1 ≤ sp ∧
      ∀ k < (arg ++ [0]).length, pushBytes args sp byte (a + k) = (arg ++ [0]).getD k 0)
      args (argAddrs args sp) := by
  induction args generalizing sp byte with
  | nil => exact List.Forall₂.nil
  | cons arg args ih =>
    rw [ArgsFit] at h
    have haddr := pushAddr_bounds hbase hsp h.1
    have hlt : pushAddr sp arg < 2 ^ 64 := by omega
    have hnext : pushAddr sp arg % 8 = 0 := Nat.mul_mod_left _ 8
    have hle := (spAfter_bounds hbase hlt hnext h.2).1
    rw [argAddrs, spAfter_cons, pushBytes_cons]
    refine List.Forall₂.cons ⟨hle, haddr.2, ?_⟩ ?_
    · intro k hk
      rw [pushBytes_outside hbase hlt h.2 (Or.inr (Nat.le_add_right _ k))]
      unfold overlay
      rw [if_pos (by omega), Nat.add_sub_cancel_left]
    · refine (ih (overlay byte (pushAddr sp arg) (arg ++ [0])) hlt hnext h.2).imp ?_
      rintro a b ⟨hlow, hhigh, hbytes⟩
      exact ⟨hlow, by omega, hbytes⟩

end Strings

/-! ## Segments beyond the user half -/

/-- The code gives no page back. -/
def Shrinks {α : Type} (x : VmM α) : Prop :=
  ∀ m, wp x (fun _ m' => m'.free.length ≤ m.free.length) (fun _ => True) m

section Beyond

variable {α β : Type} {m₀ m : Machine} {root sz newsz : Nat} {byte : Nat → UInt8}
  {file : List UInt8} {checked : Bool}

theorem Shrinks.bind {x : VmM α} {f : α → VmM β} (hx : Shrinks x) (hf : ∀ a, Shrinks (f a)) :
    Shrinks (x >>= f) :=
  fun m => wp_bind_of (hx m) fun a m' hle => wp_mono (hf a m')
    (fun _ _ hle' => hle'.trans hle) fun _ he => he

theorem shrinks_pure (a : α) : Shrinks (pure a) :=
  fun _ => le_refl _

theorem shrinks_modify {g : Machine → Machine} (h : ∀ m, (g m).free = m.free) :
    Shrinks (Exec.modify g) :=
  fun m => (congrArg List.length (h m)).le

theorem shrinks_kalloc : Shrinks kalloc := by
  intro m
  refine wp_kalloc (fun _ => le_refl _) ?_
  intro f fs hfree
  rw [hfree]
  exact Nat.le_succ fs.length

theorem shrinks_descend (t : Nat) (i : Index) (alloc : Bool) : Shrinks (descend t i alloc) := by
  refine Shrinks.bind (fun _ => le_refl _) fun m => ?_
  split
  · exact shrinks_pure _
  · split
    · exact shrinks_pure _
    · refine shrinks_kalloc.bind fun r => ?_
      cases r with
      | none => exact shrinks_pure _
      | some f =>
        refine Shrinks.bind (shrinks_modify fun _ => rfl) fun _ => ?_
        refine Shrinks.bind (shrinks_modify fun _ => rfl) fun _ => ?_
        exact shrinks_pure _

theorem shrinks_walkpgdir (va : Nat) (alloc : Bool) : Shrinks (walkpgdir root va alloc) := by
  refine (shrinks_descend _ _ _).bind fun r => ?_
  cases r with
  | none => exact shrinks_pure _
  | some pdp =>
    refine (shrinks_descend _ _ _).bind fun r => ?_
    cases r with
    | none => exact shrinks_pure _
    | some pd =>
      refine (shrinks_descend _ _ _).bind fun r => ?_
      cases r with
      | none | some pgtab => exact shrinks_pure _

theorem shrinks_mapPage (a : Nat) (pa perm : UInt64) : Shrinks (mapPage root a pa perm) := by
  refine (shrinks_walkpgdir _ _).bind fun r => ?_
  cases r with
  | none => exact shrinks_pure _
  | some e =>
    refine Shrinks.bind (fun _ => le_refl _) fun m => ?_
    split
    · exact fun _ => trivial
    · refine Shrinks.bind (shrinks_modify fun _ => rfl) fun _ => ?_
      exact shrinks_pure _

theorem shrinks_mappagesLoop (perm : UInt64) (n a : Nat) (pa : UInt64) :
    Shrinks (mappagesLoop root perm n a pa) := by
  induction n generalizing a pa with
  | zero => exact shrinks_mapPage _ _ _
  | succ n ih =>
    refine (shrinks_mapPage _ _ _).bind fun r => ?_
    split
    · exact shrinks_pure _
    · exact ih _ _

/-- Each round of the loop of `allocuvm` takes a page. -/
theorem allocPage_takes (oldsz a : Nat) :
    wp (allocPage root oldsz newsz a) (fun more m' => more = true → m'.free.length < m.free.length)
      (fun _ => True) m := by
  unfold allocPage
  rw [wp_bind]
  refine wp_kalloc ?_ ?_
  · intro _
    refine wp_bind_of wp_true ?_
    rintro _ m' - hbad
    cases hbad
  · intro f fs hfree
    simp only
    rw [wp_bind, wp_modify]
    refine wp_bind_of (shrinks_mappagesLoop _ _ _ _ _) ?_
    intro r m' hle
    have hlt : m'.free.length < m.free.length := by
      rw [hfree]
      exact Nat.lt_succ_of_le hle
    split
    · refine wp_bind_of wp_true fun _ _ _ => wp_bind_of wp_true ?_
      rintro _ m' - hbad
      cases hbad
    · exact fun _ => hlt

/-- With fewer pages than the loop needs, it fails. -/
theorem allocuvmLoop_short {oldsz : Nat} {pages : List Nat} (h : m.free.length < pages.length) :
    wp (allocuvmLoop root oldsz newsz pages) (fun r _ => r = 0) (fun _ => True) m := by
  induction pages generalizing m with
  | nil => exact absurd h (Nat.not_lt_zero _)
  | cons a pages ih =>
    refine wp_bind_of (allocPage_takes oldsz a) ?_
    intro more m' hless
    cases more with
    | false => exact rfl
    | true =>
      have hlt := hless rfl
      rw [List.length_cons] at h
      exact ih (by omega)

theorem Forest.free_length {H : List Holding} (h : Forest m H) : m.free.length ≤ 57344 := by
  have hsub : m.free ⊆ List.range 57344 := by
    intro f hf
    have hlt := (h.freeable f hf).2
    unfold phystop pgsize at hlt
    exact List.mem_range.mpr (by omega)
  have hle := (h.nodup.subperm hsub).length_le
  rwa [List.length_range] at hle

/-- There are not enough pages for an image that ends above the user half. -/
theorem Image.allocuvm_beyond (h : Image m₀ m root sz byte) (hlow : 2 ^ 47 < newsz)
    (hhigh : newsz < kernbase) :
    wp (Vm.allocuvm root sz newsz) (fun r _ => r = 0) (fun _ => True) m := by
  have hsize := h.size_le
  have hfree := h.forest.free_length
  have hround := pgroundup_of_le h.high
  unfold Vm.allocuvm
  rw [if_neg (Nat.not_le.mpr hhigh), if_neg (by unfold phystop pgsize at hsize; omega)]
  refine allocuvmLoop_short ?_
  unfold pagesBelow pagesFrom
  rw [List.length_map, List.length_range]
  unfold phystop pgsize at *
  omega

theorem Image.loadSegment_beyond {ph : ProgHdr} (h : Image m₀ m root sz byte)
    (hbeyond : ph.Beyond) :
    wp (Vm.loadSegment (Vm.loader checked) root file ph sz) (fun r _ => r = none) (fun _ => True)
      m := by
  have hkernbase : kernbase < 2 ^ 64 := by decide
  have htop : ph.top < 2 ^ 64 := hbeyond.2.2.trans hkernbase
  unfold Vm.loadSegment
  rw [if_neg (UInt64.not_lt.mpr hbeyond.1), if_neg (by rw [ph.add_lt_iff]; omega),
    ph.toNat_add htop]
  refine wp_bind_of (h.allocuvm_beyond hbeyond.2.1 hbeyond.2.2) ?_
  rintro r m₁ rfl
  exact rfl

/-- The loop over the program headers does not get past such a segment. -/
theorem Image.loadSegments_beyond {phs : List (Option ProgHdr)} (h : Image m₀ m root sz byte)
    (hbeyond : MeetsBeyond checked file m₀.free.length phs sz) :
    wp (Vm.loadSegments (Vm.loader checked) root file phs sz) (fun r _ => r = none) (fun _ => True)
      m := by
  induction phs generalizing m sz byte with
  | nil => exact absurd hbeyond id
  | cons head phs ih =>
    cases head with
    | none => exact absurd hbeyond id
    | some ph =>
      rw [Vm.loadSegments]
      by_cases htype : ph.type = elfProgLoad
      · rw [if_neg (fun hbad => hbad htype), wp_bind]
        by_cases hthis : ph.Beyond
        · refine wp_mono (h.loadSegment_beyond hthis) ?_ fun _ he => he
          rintro r m₁ rfl
          exact rfl
        · refine wp_mono (h.loadSegment hthis) ?_ fun _ _ => trivial
          rintro r m₁ (⟨rfl, -⟩ | ⟨rfl, -, -, -, himage⟩)
          · exact rfl
          · rcases hbeyond with ⟨-, hbad⟩ | ⟨-, hrest⟩
            · exact absurd hbad hthis
            · rw [ProgHdr.sizeAfter, if_pos htype] at hrest
              exact ih himage hrest
      · rw [if_pos htype]
        rcases hbeyond with ⟨hbad, -⟩ | ⟨-, hrest⟩
        · exact absurd hbad htype
        · rw [ProgHdr.sizeAfter, if_neg htype] at hrest
          exact ih h hrest

end Beyond

/-! ## The call -/

section Call

variable {s : Kernel} {p : ProcId} {file : List UInt8} {elf : ElfHdr} {argv : List (List UInt8)}
  {tf₀ : TrapFrame} {top d : Nat} {byte : Nat → UInt8}

/-- The stack page holds the strings and the array of pointers. -/
structure StackLaid (argv : List (List UInt8)) (top : Nat) : Prop where
  pushed : Pushed argv top
  framed : Framed argv top
  aligned : top % pgsize = 0
  low : 3 * pgsize ≤ top
  high : top ≤ 2 ^ 47

theorem StackLaid.base (h : StackLaid argv top) : (top - pgsize) % 8 = 0 ∧ top % 8 = 0 := by
  have hmod := h.aligned
  have hlow := h.low
  unfold pgsize at *
  omega

theorem StackLaid.bounds (h : StackLaid argv top) :
    top - pgsize + 8 * (argv.length + 4) ≤ spAfter argv top ∧ spAfter argv top ≤ top ∧
      spAfter argv top % 8 = 0 := by
  have hhigh := h.high
  exact ⟨h.framed, spAfter_bounds h.base.1 (by omega) h.base.2 h.pushed⟩

theorem StackLaid.stackAddr (h : StackLaid argv top) :
    Vm.stackAddr (spAfter argv top) argv.length = spAfter argv top - 8 * (argv.length + 4) := by
  have hbounds := h.bounds
  have hhigh := h.high
  unfold Vm.stackAddr
  rw [subAddr_of_le (by omega) (by omega)]
  omega

theorem StackLaid.argvAddr (h : StackLaid argv top) :
    Vm.argvAddr (spAfter argv top) argv.length = spAfter argv top - 8 * (argv.length + 1) := by
  have hbounds := h.bounds
  have hhigh := h.high
  unfold Vm.argvAddr
  rw [subAddr_of_le (by omega) (by omega)]
  omega

theorem wordBytes_ustack_length (argv : List (List UInt8)) (top : Nat) :
    (wordBytes (ustack (spAfter argv top) (argAddrs argv top))).length = 8 * (argv.length + 4) := by
  rw [wordBytes_length, ustack_length, argAddrs_length]

/-- Below the stack page nothing is written. -/
theorem StackLaid.below (h : StackLaid argv top) {va : Nat} (hva : va < top - pgsize) :
    stackBytes argv top byte va = byte va := by
  have hbounds := h.bounds
  have hhigh := h.high
  unfold stackBytes overlay
  rw [h.stackAddr, if_neg (by omega), pushBytes_outside h.base.1 (by omega) h.pushed (Or.inl hva)]

/-- At the stack pointer is the array. -/
theorem StackLaid.words (h : StackLaid argv top) {k : Nat}
    (hk : k < (wordBytes (ustack (spAfter argv top) (argAddrs argv top))).length) :
    stackBytes argv top byte (spAfter argv top - 8 * (argv.length + 4) + k) =
      (wordBytes (ustack (spAfter argv top) (argAddrs argv top))).getD k 0 := by
  unfold stackBytes overlay
  rw [h.stackAddr, if_pos (by omega), Nat.add_sub_cancel_left]

/-- Above the array are the strings. -/
theorem StackLaid.strings (h : StackLaid argv top) (byte : Nat → UInt8) :
    List.Forall₂ (fun arg a => spAfter argv top ≤ a ∧ a + arg.length < top ∧
      ∀ k < (arg ++ [0]).length, stackBytes argv top byte (a + k) = (arg ++ [0]).getD k 0)
      argv (argAddrs argv top) := by
  have hbounds := h.bounds
  have hhigh := h.high
  have hlen := wordBytes_ustack_length argv top
  refine (pushBytes_strings byte h.base.1 (by omega) h.base.2 h.pushed).imp ?_
  rintro arg a ⟨hlow, htop, hbytes⟩
  refine ⟨hlow, htop, ?_⟩
  intro k hk
  rw [← hbytes k hk]
  unfold stackBytes overlay
  rw [h.stackAddr, if_neg (by omega)]

/-- The new image is as described. -/
theorem Started.described {n : Nat} (hfile : file.length < 2 ^ 32)
    (hasc : Ascending file (progHdrs file elf) pgsize) (hbuilt : Built false file elf n)
    (hpushed : Pushed argv (imageTop file elf)) (hframed : Framed argv (imageTop file elf))
    (h : Started tf₀ s p elf.entry argv.length (spAfter argv (imageTop file elf))
      (imageTop file elf) (stackBytes argv (imageTop file elf)
        (bytesAfter file (progHdrs file elf) fun _ => 0)) d) :
    Described s p file elf argv d := by
  have hrange : sizeAfter (progHdrs file elf) pgsize ≤ imageTop file elf - 2 * pgsize := by
    have hle := le_pgroundup (hbuilt.1.sizeAfter_le (by decide))
    unfold imageTop
    omega
  generalize imageTop file elf = top at *
  have hlaid : StackLaid argv top := ⟨hpushed, hframed, h.aligned, h.low, h.high⟩
  have hlow := h.low
  have hhigh := h.high
  have hbounds := hlaid.bounds
  have hrsp : (s.proc p).tf.rsp.toNat = spAfter argv top - 8 * (argv.length + 4) := by
    rw [h.tf, ← hlaid.stackAddr]
    exact UInt64.toNat_ofNat_of_lt' (show _ < 2 ^ 64 by rw [hlaid.stackAddr]; omega)
  have hrsi : (s.proc p).tf.rsi.toNat = spAfter argv top - 8 * (argv.length + 1) := by
    rw [h.tf, ← hlaid.argvAddr]
    exact UInt64.toNat_ofNat_of_lt' (show _ < 2 ^ 64 by rw [hlaid.argvAddr]; omega)
  refine ⟨h.user.pgdir, ?_, ?_, ?_, ?_, ?_, ?_, ?_, ?_, argAddrs argv top, ?_, ?_⟩
  · intro ph hmem hload
    have hplace := segment_range hasc hbuilt.1 hmem hload
    have hbytes := bytesAfter_segment hasc hfile hbuilt.1 (fun _ _ => rfl) hmem hload
    unfold ProgHdr.top at hplace hbytes ⊢
    refine ⟨?_, ?_⟩
    · intro k hk
      rw [List.length_take, List.length_drop] at hk
      rw [h.bytes _ (by omega) (by omega), hlaid.below (by unfold pgsize at *; omega),
        hbytes.1 k (by omega), List.getD_eq_getElem?_getD, List.getD_eq_getElem?_getD,
        List.getElem?_take_of_lt (by omega), List.getElem?_drop]
    · intro va hva hva'
      rw [h.bytes _ (by omega) (by omega), hlaid.below (by unfold pgsize at *; omega),
        hbytes.2 va hva hva']
  · intro va hva
    rw [h.user.pages va hva, h.size, pgroundup_of_mod h.aligned hhigh]
  · intro va hva hva' hbad
    rw [h.size] at hva hva'
    exact (h.guard va (by unfold pgsize at *; omega) (by omega)).mp hbad ⟨hva, hva'⟩
  · rw [h.tf]
    rfl
  · rw [h.tf]
    exact UInt64.toNat_ofNat_of_lt' (show _ < 2 ^ 64 by omega)
  · rw [hrsp, hrsi]
    omega
  · rw [hrsp]
    omega
  · rw [hrsp, h.size]
    omega
  · have hwhole : [0xffffffff, argv.length, argvAddr (spAfter argv top) argv.length] ++
        argAddrs argv top ++ [0] = ustack (spAfter argv top) (argAddrs argv top) := by
      unfold ustack
      rw [argAddrs_length]
    rw [hrsp, hrsi, ← hlaid.argvAddr, hwhole]
    intro k hk
    have hlen := wordBytes_ustack_length argv top
    rw [h.bytes _ (by unfold pgsize at *; omega) (by omega), hlaid.words hk]
  · refine (hlaid.strings (bytesAfter file (progHdrs file elf) fun _ => 0)).imp ?_
    rintro arg a ⟨hlow', hhigh', hbytes⟩
    rw [hrsi, h.size]
    refine ⟨by omega, hhigh', ?_⟩
    intro k hk
    rw [h.bytes _ (by unfold pgsize at *; omega) ?_, hbytes k hk]
    rw [List.length_append, List.length_singleton] at hk
    omega

attribute [local irreducible] freevm setupkvm loadSegments

/-- A segment that ends above the user half makes the call fail. -/
theorem exec_beyond {ip : InodeId} {path : List UInt8} (h : Forest s.machine [])
    (helf : elfHdrOf file = some elf)
    (hbeyond : MeetsBeyond false file s.machine.free.length (progHdrs file elf) pgsize) :
    wp (exec p path (some (ip, file)) argv) (fun r _ => r = -1) (fun _ => True) s := by
  change wp (execWith (loader false) p path (some (ip, file)) argv) _ _ s
  unfold execWith addRef
  simp only
  rw [wp_bind, wp_modify]
  unfold elfHdrOf at helf
  rw [helf]
  simp only
  rw [wp_bind, wp_onMemory]
  refine wp_mono (setupkvm_image h fun _ => trivial) ?_ fun _ he => he
  intro d m₁ himage
  rw [wp_bind, wp_onMemory]
  refine wp_mono (himage.loadSegments_beyond hbeyond) ?_ fun _ he => he
  rintro r m₂ rfl
  simp only
  unfold execBad
  rw [wp_bind, wp_bind]
  refine wp_mono wp_true (fun _ _ _ => ?_) fun _ he => he
  rw [wp_pure, wp_bind, wp_modify, wp_pure]

/-- A successful `exec` builds the image that file and arguments describe. -/
theorem exec_builds_image (s : Kernel) (p : ProcId) (root : Nat) (path : List UInt8) (ip : InodeId)
    (file : List UInt8) (elf : ElfHdr) (argv : List (List UInt8)) (h : UserProcess s p root)
    (hargs : Accepted s p argv) (helf : elfHdrOf file = some elf) (hfile : file.length < 2 ^ 32)
    (hasc : Ascending file (progHdrs file elf) pgsize) :
    wp (exec p path (some (ip, file)) argv)
      (fun r s' => r = 0 → ∃ d, Described s' p file elf argv d) (fun _ => True) s := by
  by_cases hbeyond : MeetsBeyond false file s.machine.free.length (progHdrs file elf) pgsize
  · have hforest : Forest s.machine ([] ++ [userTree root]) := h.forest
    refine wp_mono (exec_beyond (hforest.left (K := [])) helf hbeyond) ?_ fun _ he => he
    rintro r s' rfl hbad
    cases hbad
  · change wp (execWith (loader false) p path (some (ip, file)) argv) _ _ s
    refine wp_mono (exec_outcome h hargs helf hbeyond) ?_ fun _ _ => trivial
    rintro r s' ⟨-, -, ⟨hr, -⟩ | ⟨hbuilt, hpushed, ⟨hr, -⟩ | ⟨-, hframed, d, hstarted⟩⟩⟩ hzero
    · rw [hr] at hzero
      cases hzero
    · rw [hr] at hzero
      cases hzero
    · exact ⟨d, hstarted.described hfile hasc hbuilt hpushed hframed⟩

end Call

section TwoArguments

theorem segElf_ascending : Ascending segElf (progHdrs segElf ⟨elfMagic, 0, 64, 1⟩) pgsize := by
  rw [segElf_progHdrs]
  exact ⟨fun _ => by decide +kernel, trivial⟩

theorem segElf_length : segElf.length < 2 ^ 32 := by
  decide +kernel

attribute [local irreducible] exec execWith segElf

/-- The file with a segment at 4096, with two arguments. -/
theorem exec_builds_image_segElf :
    ∃ s' d, exec Ftable.initproc [] (some (⟨0, ninode_pos⟩, segElf)) [[97], [98]]
        (oneProcess sevenPages pgsize) = .ok (0, s') ∧
      Described s' Ftable.initproc segElf ⟨elfMagic, 0, 64, 1⟩ [[97], [98]] d := by
  obtain ⟨s', hrun⟩ := segElf_run
  have himage := exec_builds_image (oneProcess sevenPages pgsize) Ftable.initproc 1 []
    ⟨0, ninode_pos⟩ segElf ⟨elfMagic, 0, 64, 1⟩ [[97], [98]] sevenPages_user (twoArgs_accepted _)
    segElf_hdr segElf_length segElf_ascending
  rw [wp_of_ok hrun] at himage
  obtain ⟨d, hd⟩ := himage rfl
  exact ⟨s', d, hrun, hd⟩

end TwoArguments

end Xv6.Vm
