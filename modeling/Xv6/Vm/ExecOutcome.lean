import Xv6.Vm.Stack

/-!
# Virtual memory - How `exec` ends

The file, the arguments and the number of free pages decide how `exec` ends.  The segments are
loaded one after the other, then there have to be two more pages for the stack, then the strings and
at last the array of pointers have to fit in the stack page.  What does not fit leads to the label
`bad`; by then the argument registers of the caller may be set already.

Main results:

- Theorem {lit}`execStack_outcome`: the part after the file was loaded.
- Theorem {lit}`exec_outcome`: the whole call.
-/

namespace Xv6.Vm

open Foundations
open Ftable (ProcId)

/-! ## The conditions -/

/-- The ELF header of a file that has one. -/
def elfHdrOf (file : List UInt8) : Option ElfHdr :=
  (readElfHdr file).filter fun elf => elf.magic = elfMagic

/-- The size of the image with its stack. -/
def imageTop (file : List UInt8) (elf : ElfHdr) : Nat :=
  pgroundup (sizeAfter (progHdrs file elf) pgsize) + 2 * pgsize

/-- With `n` free pages all segments are loaded, and there is memory for the stack. -/
def Built (checked : Bool) (file : List UInt8) (elf : ElfHdr) (n : Nat) : Prop :=
  AllPass checked file n (progHdrs file elf) pgsize ∧ Room n (imageTop file elf)

/-- The strings fit in the stack page. -/
def Pushed (argv : List (List UInt8)) (top : Nat) : Prop :=
  ArgsFit (top - pgsize) argv top

/-- A string is longer than everything below it. -/
def Wrapped (argv : List (List UInt8)) (top : Nat) : Prop :=
  ArgsWrap (top - pgsize) argv top

/-- The array of pointers fits below the strings. -/
def Framed (argv : List (List UInt8)) (top : Nat) : Prop :=
  top - pgsize + 8 * (argv.length + 4) ≤ spAfter argv top

/-- The bytes of the memory with the whole stack. -/
def stackBytes (argv : List (List UInt8)) (top : Nat) (byte : Nat → UInt8) : Nat → UInt8 :=
  overlay (pushBytes argv top byte) (stackAddr (spAfter argv top) argv.length)
    (wordBytes (ustack (spAfter argv top) (argAddrs argv top)))

/-! ## The ends -/

/-- Process `p` has its argument registers set. -/
def Kernel.setArgs (s : Kernel) (p : ProcId) (argc addr : Nat) : Kernel :=
  s.setProc p { s.proc p with tf := (s.proc p).tf.setArgs argc addr }

/-- The state is `s` but for the memory, in which nothing that was in use in `m₀` has changed and
the same pages are free. -/
def RolledBack (m₀ : Machine) (s s' : Kernel) : Prop :=
  ∃ m, s' = Kernel.setMachine m s ∧ Turns m₀ m [] []

/-- Process `p`, which had the registers `tf₀`, runs the new image, which has root `d` and ends at
`top`; `argc` strings are above `sp`. -/
structure Started (tf₀ : TrapFrame) (s' : Kernel) (p : ProcId) (entry : UInt64) (argc sp top : Nat)
    (byte : Nat → UInt8) (d : Nat) : Prop where
  user : UserProcess s' p d
  size : (s'.proc p).sz = top
  tf : (s'.proc p).tf =
    (tf₀.setArgs argc (argvAddr sp argc)).start entry (stackAddr sp argc)
  guard : ∀ va, pgsize ≤ va → va < top →
    (Accessible s'.machine d va ↔ ¬(top - 2 * pgsize ≤ va ∧ va < top - pgsize))
  bytes : Contents s'.machine d top byte
  aligned : top % pgsize = 0
  low : 3 * pgsize ≤ top
  high : top ≤ 2 ^ 47

section Lengths

variable {args : List (List UInt8)} {sp : Nat}

theorem argAddrs_length : (argAddrs args sp).length = args.length := by
  induction args generalizing sp with
  | nil => rfl
  | cons arg args ih => rw [argAddrs, List.length_cons, ih, List.length_cons]

theorem wordBytes_length (words : List Nat) : (wordBytes words).length = 8 * words.length := by
  induction words with
  | nil => rfl
  | cons w words ih =>
    rw [wordBytes, List.flatMap_cons, List.length_append, encodeLE_length, List.length_cons]
    change 8 + (wordBytes words).length = _
    omega

theorem ustack_length (ptrs : List Nat) : (ustack sp ptrs).length = ptrs.length + 4 := by
  simp [ustack]

theorem subAddr_of_le {a n : Nat} (hle : n ≤ a) (ha : a < 2 ^ 64) : subAddr a n = a - n := by
  unfold subAddr
  omega

theorem accessible_of_view {m m' : Machine} {root va : Nat}
    (h : view m' root va = view m root va) : Accessible m' root va ↔ Accessible m root va := by
  have hflat : ∀ n, flat n root va = (view n root va).map Prod.fst := by
    intro n
    unfold view
    rw [Option.map_map]
    exact Option.map_id'.symm
  unfold Accessible
  rw [hflat m', hflat m, h]

end Lengths

section Ends

-- the statements mention them, and must not be evaluated
attribute [local irreducible] freevm makeStack copyout

variable {m₀ : Machine} {s : Kernel} {p : ProcId} {d root sz top : Nat} {byte : Nat → UInt8}
  {argv : List (List UInt8)} {path : List UInt8} {entry : UInt64} {E : VmStop → Prop}

theorem wp_onMemory {α : Type} {x : VmM α} {Q : α → Kernel → Prop} :
    wp (onMemory x) Q E s ↔ wp x (fun a m => Q a (Kernel.setMachine m s)) E s.machine :=
  wp_zoom

/-- The label `bad`. -/
theorem execBad_spec (h : Turns m₀ s.machine [] [userTree d]) :
    wp (execBad d) (fun r s' => r = -1 ∧ RolledBack m₀ s s') E s := by
  unfold execBad
  rw [wp_bind, wp_onMemory]
  refine wp_mono (freevm_returns h.forest) ?_ fun _ hbad => hbad
  intro _ m hreturns
  exact ⟨rfl, m, rfl, h.trans hreturns.toTurns⟩

/-- The end of `exec`. -/
theorem commitImage_spec (h : Stacked m₀ s.machine d top byte) (hold : (s.proc p).pgdir = some root)
    (hforest : Forest m₀ ([] ++ [userTree root])) {sp : Nat} :
    wp (commitImage p path d top sp entry)
      (fun r s' => r = 0 ∧ UserProcess s' p d ∧ (s'.proc p).sz = top ∧
        (s'.proc p).tf = (s.proc p).tf.start entry sp ∧
        SameView s.machine s'.machine d) E s := by
  have htop : top < kernbase := h.high.trans_lt (by decide)
  have hboth : Forest s.machine ([userTree root] ++ [userTree d]) :=
    (hforest.frame h.turns).perm List.perm_append_comm
  unfold commitImage
  rw [wp_bind, wp_get, wp_bind, wp_modify]
  unfold switchuvm
  rw [wp_bind, wp_bind, wp_get, Kernel.setProc_proc_self]
  simp only
  rw [wp_pure, hold]
  rw [wp_bind, wp_onMemory, Kernel.setProc_machine]
  refine wp_mono (freevm_returns hboth.left) ?_ fun _ hbad => hbad
  intro _ m hreturns
  have hsame := hreturns.toTurns.view_right hboth
  rw [wp_pure]
  refine ⟨rfl, ⟨?_, hboth.frame hreturns.toTurns, ?_, ?_⟩, ?_, ?_, hsame⟩
  · rw [Kernel.setMachine_proc, Kernel.setProc_proc_self]
  · rw [Kernel.setMachine_proc, Kernel.setProc_proc_self]
    intro va hva
    rw [Kernel.setMachine_machine, flat_ne_none_of_view (hsame va hva)]
    exact h.pages va hva
  · rw [Kernel.setMachine_proc, Kernel.setProc_proc_self]
    exact htop
  · rw [Kernel.setMachine_proc, Kernel.setProc_proc_self]
  · rw [Kernel.setMachine_proc, Kernel.setProc_proc_self]

/-- The array of pointers is stored, or does not fit. -/
theorem execFrame_spec {sp : Nat} {ptrs : List Nat} (h : Stacked m₀ s.machine d top byte)
    (hold : (s.proc p).pgdir = some root) (hforest : Forest m₀ ([] ++ [userTree root]))
    (hbase : top - pgsize ≤ sp) (hsp : sp ≤ top) (hcount : ptrs.length < maxarg) :
    wp (execFrame p path d top sp ptrs entry)
      (fun r s' => (r = -1 ∧ sp < top - pgsize + 8 * (ptrs.length + 4) ∧
          RolledBack m₀ (s.setArgs p ptrs.length (argvAddr sp ptrs.length)) s') ∨
        r = 0 ∧ top - pgsize + 8 * (ptrs.length + 4) ≤ sp ∧
          Started (s.proc p).tf s' p entry ptrs.length sp top
            (overlay byte (stackAddr sp ptrs.length) (wordBytes (ustack sp ptrs))) d) E s := by
  have hmax : maxarg = 32 := rfl
  have hlow := h.low
  have hhigh := h.high
  have hwords : (wordBytes (ustack sp ptrs)).length = 8 * (ptrs.length + 4) := by
    rw [wordBytes_length, ustack_length]
  have haddr : stackAddr sp ptrs.length = sp - 8 * (ptrs.length + 4) := by
    unfold stackAddr
    rw [subAddr_of_le (by unfold pgsize at *; omega) (by omega)]
    omega
  unfold execFrame
  rw [wp_bind, wp_modify, wp_bind, wp_onMemory, Kernel.setProc_machine]
  by_cases hframed : top - pgsize + 8 * (ptrs.length + 4) ≤ sp
  · refine wp_mono (h.copyout_top ?_ ?_) ?_ fun _ hbad => hbad
    · omega
    · omega
    rintro r m₁ ⟨rfl, hdone⟩
    rw [if_neg (by decide)]
    refine wp_mono (commitImage_spec hdone ?_ hforest) ?_ fun _ hbad => hbad
    · rw [Kernel.setMachine_proc, Kernel.setProc_proc_self]
      exact hold
    rintro r s' ⟨rfl, huser, hsize, htf, hsame⟩
    refine Or.inr ⟨rfl, hframed, huser, hsize, ?_, ?_, ?_, hdone.aligned, hlow, hhigh⟩
    · rw [htf, Kernel.setMachine_proc, Kernel.setProc_proc_self]
    · intro va hva hva'
      rw [← hdone.user va hva hva', accessible_of_view (hsame va (by omega))]
      exact Iff.rfl
    · intro va hva hva'
      rw [userByte_of_view (hsame va (by omega))]
      exact hdone.bytes va hva hva'
  · refine wp_mono (h.copyout_guard ?_ ?_ ?_ ?_) ?_ fun _ hbad => hbad
    · omega
    · unfold pgsize at *
      omega
    · unfold pgsize at *
      omega
    · unfold pgsize at *
      omega
    rintro r m₁ ⟨rfl, hturns⟩
    rw [if_pos (by decide)]
    refine wp_mono (execBad_spec hturns) ?_ fun _ hbad => hbad
    rintro r s' ⟨rfl, m₂, rfl, hback⟩
    exact Or.inl ⟨rfl, by omega, m₂, rfl, hback⟩

/-- `exec` after the file was loaded. -/
theorem execStack_outcome (h : Image m₀ s.machine d sz byte) (hold : (s.proc p).pgdir = some root)
    (hforest : Forest m₀ ([] ++ [userTree root])) (htop : top = pgroundup sz + 2 * pgsize)
    (hlen : ∀ arg ∈ argv, arg.length < 2 ^ 32) (hcount : argv.length < maxarg) :
    wp (execStack p path d sz entry argv)
      (fun r s' => ¬(Room m₀.free.length top ∧ Wrapped argv top) ∧
        (r = -1 ∧ ¬(Room m₀.free.length top ∧ Pushed argv top) ∧ RolledBack m₀ s s' ∨
          Room m₀.free.length top ∧ Pushed argv top ∧
            (r = -1 ∧ ¬Framed argv top ∧
                RolledBack m₀
                  (s.setArgs p argv.length (argvAddr (spAfter argv top) argv.length)) s' ∨
              r = 0 ∧ Framed argv top ∧
                Started (s.proc p).tf s' p entry argv.length (spAfter argv top) top
                  (stackBytes argv top byte) d)))
      (fun _ => Room m₀.free.length top ∧ Wrapped argv top) s := by
  unfold execStack
  rw [wp_bind, wp_onMemory]
  refine wp_mono (h.round.makeStack (pgroundup_mod sz) htop hlen hcount.le) ?_ fun _ hbad => hbad
  rintro r m ⟨hwrap, ⟨rfl, hfit, hturns⟩ | ⟨rfl, hroom, hfit, hbase, hsp, hstacked⟩⟩
  · change wp (execBad d) _ _ (Kernel.setMachine m s)
    refine wp_mono (execBad_spec hturns) ?_ fun _ hbad => hbad
    rintro r s' ⟨rfl, m', rfl, hback⟩
    exact ⟨hwrap, Or.inl ⟨rfl, hfit, m', rfl, hback⟩⟩
  · change wp (execFrame p path d top (spAfter argv top) (argAddrs argv top) entry) _ _
      (Kernel.setMachine m s)
    refine wp_mono (execFrame_spec hstacked hold hforest hbase hsp ?_) ?_ fun _ hbad => hbad
    · rw [argAddrs_length]
      exact hcount
    rintro r s' hres
    rw [argAddrs_length] at hres
    refine ⟨hwrap, Or.inr ⟨hroom, hfit, ?_⟩⟩
    rcases hres with ⟨hr, hout, m', rfl, hback⟩ | ⟨hr, hin, hstarted⟩
    · exact Or.inl ⟨hr, Nat.not_le.mpr hout, m', rfl, hback⟩
    · exact Or.inr ⟨hr, hin, hstarted⟩

end Ends

/-! ## The call -/

/-- What `sys_exec` lets pass: fewer than `MAXARG` strings from the memory of the process. -/
def Accepted (s : Kernel) (p : ProcId) (argv : List (List UInt8)) : Prop :=
  argv.length < maxarg ∧ ∀ arg ∈ argv, arg.length < (s.proc p).sz

section Outcome

attribute [local irreducible] freevm makeStack copyout setupkvm loadSegments execStack

variable {s : Kernel} {p : ProcId} {root : Nat} {argv : List (List UInt8)} {path : List UInt8}
  {ip : InodeId} {file : List UInt8} {elf : ElfHdr} {checked : Bool}

theorem Kernel.addRef_back (s : Kernel) (m : Machine) (ip : InodeId) :
    (Kernel.setMachine m (s.addRef ip 1)).addRef ip (-1) = Kernel.setMachine m s := by
  unfold Kernel.addRef Kernel.setMachine
  simp

/-- How `exec` ends, for each file, argument vector and number of free pages. -/
theorem exec_outcome (h : UserProcess s p root) (hargs : Accepted s p argv)
    (helf : elfHdrOf file = some elf)
    (hbeyond : ¬MeetsBeyond checked file s.machine.free.length (progHdrs file elf) pgsize) :
    wp (execWith (loader checked) p path (some (ip, file)) argv)
      (fun r s' =>
        ¬MeetsAstray checked file s.machine.free.length (progHdrs file elf) pgsize ∧
        ¬(Built checked file elf s.machine.free.length ∧ Wrapped argv (imageTop file elf)) ∧
        (r = -1 ∧
            ¬(Built checked file elf s.machine.free.length ∧ Pushed argv (imageTop file elf)) ∧
            RolledBack s.machine s s' ∨
          Built checked file elf s.machine.free.length ∧ Pushed argv (imageTop file elf) ∧
            (r = -1 ∧ ¬Framed argv (imageTop file elf) ∧
                RolledBack s.machine (s.setArgs p argv.length
                  (argvAddr (spAfter argv (imageTop file elf)) argv.length)) s' ∨
              r = 0 ∧ Framed argv (imageTop file elf) ∧
                ∃ d, Started (s.proc p).tf s' p elf.entry argv.length
                  (spAfter argv (imageTop file elf)) (imageTop file elf)
                  (stackBytes argv (imageTop file elf)
                    (bytesAfter file (progHdrs file elf) fun _ => 0)) d)))
      (fun _ => s.machine.free = [] ∨
        MeetsAstray checked file s.machine.free.length (progHdrs file elf) pgsize ∨
        Built checked file elf s.machine.free.length ∧ Wrapped argv (imageTop file elf)) s := by
  have hforest : Forest s.machine ([] ++ [userTree root]) := h.forest
  have hsize := h.pages.size_le h.forest h.size
  have hlen : ∀ arg ∈ argv, arg.length < 2 ^ 32 := by
    intro arg harg
    have hlt := hargs.2 arg harg
    unfold phystop pgsize at hsize
    omega
  unfold execWith addRef
  simp only
  rw [wp_bind, wp_modify]
  unfold elfHdrOf at helf
  rw [helf]
  simp only
  rw [wp_bind, wp_onMemory]
  refine wp_mono (setupkvm_image (hforest.left (K := [])) fun hnil => Or.inl hnil) ?_
    fun _ hbad => hbad
  intro d m₁ himage
  rw [wp_bind, wp_onMemory]
  refine wp_mono (himage.loadSegments hbeyond) ?_ fun _ hbad => Or.inr (Or.inl hbad)
  rintro r m₂ ⟨hastray, ⟨rfl, hfail, hturns⟩ | ⟨rfl, hpass, hloaded⟩⟩
  · simp only
    rw [wp_bind]
    refine wp_mono (execBad_spec hturns) ?_ fun _ hbad => hbad
    rintro r s' ⟨rfl, m₃, rfl, hback⟩
    rw [wp_bind, wp_modify, wp_pure]
    refine ⟨hastray, fun hbad => hfail hbad.1.1, Or.inl ⟨rfl, fun hbad => hfail hbad.1.1, m₃, ?_,
      hback⟩⟩
    exact Kernel.addRef_back s m₃ ip
  · simp only
    rw [wp_bind, wp_modify]
    change wp _ _ _ ((Kernel.setMachine m₂ (s.addRef ip 1)).addRef ip (-1))
    rw [Kernel.addRef_back]
    refine wp_mono (execStack_outcome hloaded h.pgdir hforest rfl hlen hargs.1) ?_
      fun _ hbad => Or.inr (Or.inr ⟨⟨hpass, hbad.1⟩, hbad.2⟩)
    rintro r s' ⟨hwrap, hres⟩
    refine ⟨hastray, fun hbad => hwrap ⟨hbad.1.2, hbad.2⟩, ?_⟩
    rcases hres with ⟨hr, hout, m₃, rfl, hback⟩ | ⟨hroom, hfit, hres⟩
    · exact Or.inl ⟨hr, fun hbad => hout ⟨hbad.1.2, hbad.2⟩, m₃, rfl, hback⟩
    · refine Or.inr ⟨⟨hpass, hroom⟩, hfit, ?_⟩
      rcases hres with ⟨hr, hout, m₃, rfl, hback⟩ | ⟨hr, hin, hstarted⟩
      · exact Or.inl ⟨hr, hout, m₃, rfl, hback⟩
      · exact Or.inr ⟨hr, hin, d, hstarted⟩

end Outcome

end Xv6.Vm
