import Xv6.Foundations.ByteLayout

/-!
# System calls - Fetching and checking arguments

The functions of `syscall.c` that a system call fetches its arguments with.
Addresses are 64-bit words, `int` and `uint` are 32 bits wide, and the
conversions between them are those of the source: `argptr` checks the low half of
the pointer, `argstr` passes it through an `int`.

Main results:

- Theorems {lit}`argptr_some_iff`, {lit}`fetchint_isSome_iff`,
  {lit}`fetchaddr_isSome_iff`: when the checks succeed.
- Theorem {lit}`fetchstr_spec`: the loop of `fetchstr` finds the first zero byte.
- Theorem {lit}`validation_exact_iff`: for which arguments the checks are exact.
-/

namespace Xv6.Syscall

open Foundations

/-! ## The code -/

/-- The registers of the trap frame that carry system call arguments. -/
structure Trapframe where
  rdi : UInt64
  rsi : UInt64
  rdx : UInt64
  r10 : UInt64
  r8 : UInt64
  r9 : UInt64

/-- What the functions read of the current process: its size, its trap frame and
the memory it addresses. -/
structure UserProc where
  sz : UInt64
  tf : Trapframe
  mem : UInt64 → UInt8

/-- The `n` bytes from `addr` on. -/
def UserProc.bytes (p : UserProc) (addr : UInt64) (n : Nat) : List UInt8 :=
  (List.range n).map fun k => p.mem (addr + UInt64.ofNat k)

/-- `fetchint`; `none` is the result -1. -/
def fetchint (p : UserProc) (addr : UInt64) : Option Int32 :=
  if addr ≥ p.sz ∨ addr + 4 > p.sz then none
  else some (UInt32.ofNat (decodeLE (p.bytes addr 4))).toInt32

/-- `fetchaddr`; `none` is the result -1. -/
def fetchaddr (p : UserProc) (addr : UInt64) : Option UInt64 :=
  if addr ≥ p.sz ∨ addr + 8 > p.sz then none
  else some (UInt64.ofNat (decodeLE (p.bytes addr 8)))

/-- The loop of `fetchstr`: the address of the zero byte. -/
def fetchstrLoop (p : UserProc) : Nat → UInt64 → Option UInt64
  | 0, _ => none
  | fuel + 1, s =>
    if s < p.sz then
      if p.mem s = 0 then some s else fetchstrLoop p fuel (s + 1)
    else none

/-- `fetchstr`: its result, and what it stored in `*pp`. -/
def fetchstr (p : UserProc) (addr : UInt64) : Int32 × Option UInt64 :=
  if addr ≥ p.sz then (-1, none)
  else match fetchstrLoop p (p.sz.toNat - addr.toNat) addr with
    | none => (-1, some addr)
    | some s => ((s - addr).toUInt32.toInt32, some addr)

/-- `fetcharg`; `none` is the panic "failed fetch". -/
def fetcharg (tf : Trapframe) : Nat → Option UInt64
  | 0 => some tf.rdi
  | 1 => some tf.rsi
  | 2 => some tf.rdx
  | 3 => some tf.r10
  | 4 => some tf.r8
  | 5 => some tf.r9
  | _ => none

/-- `argint`: the low half of the register. -/
def argint (p : UserProc) (n : Nat) : Option Int32 :=
  (fetcharg p.tf n).map fun v => v.toUInt32.toInt32

/-- `argaddr`. -/
def argaddr (p : UserProc) (n : Nat) : Option UInt64 :=
  fetcharg p.tf n

/-- `argptr`: the pointer, when it passes the check. -/
def argptr (p : UserProc) (n : Nat) (size : Int32) : Option (Option UInt64) := do
  let i ← argaddr p n
  if size < 0 ∨ i.toUInt32.toUInt64 ≥ p.sz ∨
      (i.toUInt32 + size.toUInt32).toUInt64 > p.sz then
    return none
  else return some i

/-- An `int` where an address is expected. -/
def addrOfInt (x : Int32) : UInt64 :=
  x.toInt64.toUInt64

/-- `argstr`: the result of `fetchstr`, and the pointer. -/
def argstr (p : UserProc) (n : Nat) : Option (Int32 × Option UInt64) := do
  let addr ← argint p n
  return fetchstr p (addrOfInt addr)

/-! ## What the checks are for -/

/-- The range of `n` bytes at `a` lies inside the process. -/
def Inside (sz a : UInt64) (n : Nat) : Prop :=
  ∀ b, a.toNat ≤ b → b < a.toNat + n → b < sz.toNat

/-- The first zero byte at or after `a` in the process is `k` bytes behind `a`. -/
def FirstNul (p : UserProc) (a : UInt64) (k : Nat) : Prop :=
  a.toNat + k < p.sz.toNat ∧ p.mem (UInt64.ofNat (a.toNat + k)) = 0 ∧
    ∀ j, j < k → p.mem (UInt64.ofNat (a.toNat + j)) ≠ 0

/-- There is a zero byte at or after `a` in the process. -/
def HasNul (p : UserProc) (a : UInt64) : Prop :=
  ∃ b, a.toNat ≤ b ∧ b < p.sz.toNat ∧ p.mem (UInt64.ofNat b) = 0

/-- The checks accept what they should for the register value `v`. -/
structure ValidationExact (p : UserProc) (n : Nat) (v : UInt64) (size : Int32) : Prop where
  argptr_ok : ∀ q, argptr p n size = some (some q) →
    0 ≤ size ∧ Inside p.sz v size.toInt.toNat ∧ q = v
  fetchint_iff : (fetchint p v).isSome ↔ Inside p.sz v 4
  fetchaddr_iff : (fetchaddr p v).isSome ↔ Inside p.sz v 8
  argstr_iff : (∃ r, argstr p n = some r ∧ 0 ≤ r.1) ↔ v < p.sz ∧ HasNul p v
  argstr_ok : ∀ r, argstr p n = some r → 0 ≤ r.1 →
    r.2 = some v ∧ FirstNul p v r.1.toInt.toNat

/-- `argptr` is right about `size` bytes at `v`: there are none, the low half of `v`
is rejected, or all bytes are there. -/
def PtrFits (sz v : UInt64) (size : Int32) : Prop :=
  let low := v.toUInt32.toNat
  let len := size.toInt.toNat
  size ≤ 0 ∨ sz.toNat ≤ low ∨ sz.toNat < low + len ∧ low + len < 2 ^ 32 ∨
    v.toNat + len ≤ sz.toNat

/-- The address of the word behind `v` does not wrap, or `v` is outside. -/
def WordFits (sz v : UInt64) : Prop :=
  sz ≤ v ∨ v.toNat + 8 < 2 ^ 64

/-- `argstr` is right about `v`: an `int` holds `v` and the length, or neither `v` nor
the address that the `int` stands for is that of a string. -/
def StrFits (p : UserProc) (v : UInt64) : Prop :=
  let w := addrOfInt v.toUInt32.toInt32
  if w = v then ∀ k, FirstNul p v k → k < 2 ^ 31
  else ¬HasNul p v ∧ ∀ k, FirstNul p w k → 2 ^ 31 ≤ k % 2 ^ 32

/-! ## Conversions -/

theorem toInt_toInt32 (x : UInt32) :
    x.toInt32.toInt = if x.toNat < 2 ^ 31 then (x.toNat : Int) else x.toNat - 2 ^ 32 := by
  have hbits : x.toInt32.toBitVec.toNat = x.toNat := rfl
  rw [Int32.toInt, BitVec.toInt_eq_toNat_cond, hbits]
  split <;> split <;> omega

theorem toNat_toUInt32_of_nonneg {size : Int32} (h : 0 ≤ size) :
    size.toUInt32.toNat = size.toInt.toNat ∧ size.toInt.toNat < 2 ^ 31 := by
  have hint : (0 : Int32).toInt ≤ size.toInt := Int32.le_iff_toInt_le.mp h
  have hzero : (0 : Int32).toInt = 0 := rfl
  have hbits : size.toUInt32.toNat = size.toBitVec.toNat := rfl
  have hlt := size.toBitVec.isLt
  rw [hzero, Int32.toInt, BitVec.toInt_eq_toNat_cond] at hint
  rw [hbits, Int32.toInt, BitVec.toInt_eq_toNat_cond]
  split at hint <;> split <;> omega

/-- An `int` result is not negative below `2 ^ 31`. -/
theorem nonneg_toInt32_iff (x : UInt32) : 0 ≤ x.toInt32 ↔ x.toNat < 2 ^ 31 := by
  have hzero : (0 : Int32).toInt = 0 := rfl
  have hlt := x.toNat_lt
  rw [Int32.le_iff_toInt_le, hzero, toInt_toInt32]
  split <;> omega

/-! ## The checks -/

theorem inside_iff {sz a : UInt64} {n : Nat} (hn : 0 < n) :
    Inside sz a n ↔ a.toNat + n ≤ sz.toNat := by
  constructor
  · intro h
    have hlast := h (a.toNat + n - 1) (by omega) (by omega)
    omega
  · intro h b _ hb
    omega

theorem inside_zero (sz a : UInt64) : Inside sz a 0 := by
  intro b hle hlt
  omega

/-- When a word of `w` bytes passes the check of `fetchint` and `fetchaddr`. -/
theorem word_check_iff (sz a w : UInt64) :
    ¬(a ≥ sz ∨ a + w > sz) ↔
      a.toNat < sz.toNat ∧ (a.toNat + w.toNat) % 2 ^ 64 ≤ sz.toNat := by
  rw [ge_iff_le, gt_iff_lt, UInt64.le_iff_toNat_le, UInt64.lt_iff_toNat_lt, UInt64.toNat_add]
  omega

theorem fetchint_isSome_iff (p : UserProc) (a : UInt64) :
    (fetchint p a).isSome ↔
      a.toNat < p.sz.toNat ∧ (a.toNat + 4) % 2 ^ 64 ≤ p.sz.toNat := by
  have hcheck := word_check_iff p.sz a 4
  have hfour : (4 : UInt64).toNat = 4 := rfl
  rw [hfour] at hcheck
  rw [← hcheck]
  unfold fetchint
  split <;> simp_all

theorem fetchaddr_isSome_iff (p : UserProc) (a : UInt64) :
    (fetchaddr p a).isSome ↔
      a.toNat < p.sz.toNat ∧ (a.toNat + 8) % 2 ^ 64 ≤ p.sz.toNat := by
  have hcheck := word_check_iff p.sz a 8
  have height : (8 : UInt64).toNat = 8 := rfl
  rw [height] at hcheck
  rw [← hcheck]
  unfold fetchaddr
  split <;> simp_all

section Registers

variable {p : UserProc} {n : Nat} {v : UInt64}

/-- When a pointer passes the check of `argptr`. -/
theorem ptr_check_iff {sz : UInt64} {size : Int32} :
    ¬(size < 0 ∨ v.toUInt32.toUInt64 ≥ sz ∨ (v.toUInt32 + size.toUInt32).toUInt64 > sz) ↔
      0 ≤ size ∧ v.toUInt32.toNat < sz.toNat ∧
      (v.toUInt32.toNat + size.toInt.toNat) % 2 ^ 32 ≤ sz.toNat := by
  have hlow : v.toUInt32.toUInt64.toNat = v.toUInt32.toNat := rfl
  rw [not_or, not_or, Int32.not_lt, ge_iff_le, gt_iff_lt, UInt64.le_iff_toNat_le,
    UInt64.lt_iff_toNat_lt, hlow, Nat.not_le, Nat.not_lt]
  refine and_congr_right fun hsize => and_congr_right fun _ => ?_
  have hsum : (v.toUInt32 + size.toUInt32).toUInt64.toNat =
      (v.toUInt32.toNat + size.toInt.toNat) % 2 ^ 32 := by
    rw [← (toNat_toUInt32_of_nonneg hsize).1]
    exact UInt32.toNat_add ..
  rw [hsum]

/-- `argptr` looks at the low half of the register and returns all of it. -/
theorem argptr_some_iff (hv : fetcharg p.tf n = some v) {size : Int32} {q : UInt64} :
    argptr p n size = some (some q) ↔ q = v ∧ 0 ≤ size ∧
      v.toUInt32.toNat < p.sz.toNat ∧
      (v.toUInt32.toNat + size.toInt.toNat) % 2 ^ 32 ≤ p.sz.toNat := by
  rw [← ptr_check_iff]
  unfold argptr argaddr
  rw [hv]
  simp only [Option.bind_eq_bind, Option.bind_some, Option.pure_def]
  split
  · rename_i hbad
    rw [Option.some.injEq]
    exact ⟨fun hnone => by simp at hnone, fun hok => absurd hbad hok.2⟩
  · rename_i hok
    rw [Option.some.injEq, Option.some.injEq]
    exact ⟨fun hq => ⟨hq.symm, hok⟩, fun hq => hq.1.symm⟩

/-- `argstr` passes the register through an `int`. -/
theorem argstr_eq (hv : fetcharg p.tf n = some v) :
    argstr p n = some (fetchstr p (addrOfInt v.toUInt32.toInt32)) := by
  unfold argstr argint
  rw [hv]
  rfl

end Registers

/-! ## Strings -/

section Strings

variable {p : UserProc} {a : UInt64}

theorem FirstNul.hasNul {k : Nat} (h : FirstNul p a k) : HasNul p a :=
  ⟨a.toNat + k, by omega, h.1, h.2.1⟩

theorem FirstNul.unique {k l : Nat} (h : FirstNul p a k) (h' : FirstNul p a l) : k = l := by
  rcases Nat.lt_trichotomy k l with hlt | heq | hlt
  · exact absurd h.2.1 (h'.2.2 k hlt)
  · exact heq
  · exact absurd h'.2.1 (h.2.2 l hlt)

theorem HasNul.lt (h : HasNul p a) : a < p.sz := by
  rcases h with ⟨b, hab, hb, _⟩
  rw [UInt64.lt_iff_toNat_lt]
  omega

theorem not_hasNul {j : Nat} (hend : p.sz.toNat ≤ a.toNat + j)
    (hbefore : ∀ i, i < j → p.mem (UInt64.ofNat (a.toNat + i)) ≠ 0) : ¬HasNul p a := by
  rintro ⟨b, hab, hb, hnul⟩
  have hbyte := hbefore (b - a.toNat) (by omega)
  rw [Nat.add_sub_cancel' hab] at hbyte
  exact hbyte hnul

/-- The loop of `fetchstr`, when there was no zero among the first `j` bytes. -/
theorem fetchstrLoop_spec {fuel j : Nat} (hj : a.toNat + j ≤ p.sz.toNat)
    (hfuel : p.sz.toNat ≤ a.toNat + j + fuel)
    (hbefore : ∀ i, i < j → p.mem (UInt64.ofNat (a.toNat + i)) ≠ 0) :
    (fetchstrLoop p fuel (UInt64.ofNat (a.toNat + j)) = none ∧ ¬HasNul p a) ∨
      ∃ k, FirstNul p a k ∧
        fetchstrLoop p fuel (UInt64.ofNat (a.toNat + j)) = some (UInt64.ofNat (a.toNat + k)) := by
  have hsz := p.sz.toNat_lt
  induction fuel generalizing j with
  | zero => exact Or.inl ⟨rfl, not_hasNul hfuel hbefore⟩
  | succ fuel ih =>
    have hnat : (UInt64.ofNat (a.toNat + j)).toNat = a.toNat + j :=
      UInt64.toNat_ofNat_of_lt' (by omega : a.toNat + j < 2 ^ 64)
    have hcmp : UInt64.ofNat (a.toNat + j) < p.sz ↔ a.toNat + j < p.sz.toNat := by
      rw [UInt64.lt_iff_toNat_lt, hnat]
    unfold fetchstrLoop
    by_cases hin : a.toNat + j < p.sz.toNat
    · rw [if_pos (hcmp.mpr hin)]
      by_cases hnul : p.mem (UInt64.ofNat (a.toNat + j)) = 0
      · rw [if_pos hnul]
        exact Or.inr ⟨j, ⟨hin, hnul, hbefore⟩, rfl⟩
      · rw [if_neg hnul]
        have hnext : UInt64.ofNat (a.toNat + j) + 1 = UInt64.ofNat (a.toNat + (j + 1)) := by
          rw [← Nat.add_assoc, UInt64.ofNat_add (a.toNat + j) 1]
          rfl
        rw [hnext]
        apply ih (by omega) (by omega)
        intro i hi
        by_cases hij : i = j
        · rw [hij]
          exact hnul
        · exact hbefore i (by omega)
    · rw [if_neg (fun hlt => hin (hcmp.mp hlt))]
      exact Or.inl ⟨rfl, not_hasNul (by omega) hbefore⟩

/-- `fetchstr` returns the distance of the first zero byte, as far as an `int` holds it. -/
theorem fetchstr_spec (p : UserProc) (a : UInt64) :
    ((fetchstr p a).1 = -1 ∧ ¬HasNul p a) ∨
      ∃ k, FirstNul p a k ∧ fetchstr p a = ((UInt32.ofNat k).toInt32, some a) := by
  have hsz := p.sz.toNat_lt
  unfold fetchstr
  by_cases hlt : a ≥ p.sz
  · rw [if_pos hlt]
    refine Or.inl ⟨rfl, ?_⟩
    intro hnul
    exact absurd hnul.lt (UInt64.not_lt.mpr hlt)
  · rw [if_neg hlt]
    rw [ge_iff_le, UInt64.le_iff_toNat_le, Nat.not_le] at hlt
    have hstart : UInt64.ofNat (a.toNat + 0) = a := by simp
    have hloop := fetchstrLoop_spec (j := 0) (by omega : a.toNat + 0 ≤ p.sz.toNat)
      (by omega : p.sz.toNat ≤ a.toNat + 0 + (p.sz.toNat - a.toNat)) (by simp)
    rw [hstart] at hloop
    rcases hloop with ⟨hnone, hnot⟩ | ⟨k, hfirst, hsome⟩
    · rw [hnone]
      exact Or.inl ⟨rfl, hnot⟩
    · rw [hsome]
      refine Or.inr ⟨k, hfirst, ?_⟩
      have hdiff : UInt64.ofNat (a.toNat + k) - a = UInt64.ofNat k := by
        rw [UInt64.ofNat_add, UInt64.ofNat_toNat, UInt64.add_comm, UInt64.add_sub_cancel]
      simp only [hdiff, UInt64.toUInt32_ofNat']

end Strings

/-! ## When the checks are exact -/

section Exact

variable {p : UserProc} {n : Nat} {v : UInt64}

theorem argptr_exact_iff (hv : fetcharg p.tf n = some v) (size : Int32) :
    (∀ q, argptr p n size = some (some q) →
      0 ≤ size ∧ Inside p.sz v size.toInt.toNat ∧ q = v) ↔ PtrFits p.sz v size := by
  have hlow : v.toUInt32.toNat < 2 ^ 32 := v.toUInt32.toNat_lt
  have hpos : ¬size ≤ 0 ↔ 0 < size.toInt := by
    rw [Int32.not_le, Int32.lt_iff_toInt_lt]
    rfl
  unfold PtrFits
  constructor
  · intro hall
    by_contra hnot
    simp only [not_or, not_and, Nat.not_le, Nat.not_lt, hpos] at hnot
    rcases hnot with ⟨hsize, hin, hwrap, hout⟩
    have hnonneg : 0 ≤ size := Int32.le_of_lt (Int32.not_le.mp (hpos.mpr hsize))
    have hlen := (toNat_toUInt32_of_nonneg hnonneg).2
    -- the low half of the pointer passes the check, also when its end wraps
    have haccept : (v.toUInt32.toNat + size.toInt.toNat) % 2 ^ 32 ≤ p.sz.toNat := by
      by_cases hle : v.toUInt32.toNat + size.toInt.toNat ≤ p.sz.toNat
      · exact (Nat.mod_le ..).trans hle
      · have hge := hwrap (by omega)
        omega
    have hok := hall v ((argptr_some_iff hv).mpr ⟨rfl, hnonneg, hin, haccept⟩)
    rw [inside_iff (by omega)] at hok
    omega
  · intro hfits q hq
    rcases (argptr_some_iff hv).mp hq with ⟨rfl, hnonneg, hin, hend⟩
    refine ⟨hnonneg, ?_, rfl⟩
    by_cases hzero : size.toInt.toNat = 0
    · rw [hzero]
      exact inside_zero p.sz q
    · rw [inside_iff (by omega)]
      rcases hfits with hsize | hout | ⟨hend', hwrap⟩ | hfits
      · exact absurd hsize (hpos.mpr (by omega))
      · omega
      · rw [Nat.mod_eq_of_lt hwrap] at hend
        omega
      · exact hfits

theorem word_exact_iff :
    ((fetchint p v).isSome ↔ Inside p.sz v 4) ∧ ((fetchaddr p v).isSome ↔ Inside p.sz v 8) ↔
      WordFits p.sz v := by
  have hsz := p.sz.toNat_lt
  rw [fetchint_isSome_iff, fetchaddr_isSome_iff, inside_iff (by omega), inside_iff (by omega)]
  unfold WordFits
  rw [UInt64.le_iff_toNat_le]
  omega

theorem nonneg_result_iff (k : Nat) : 0 ≤ (UInt32.ofNat k).toInt32 ↔ k % 2 ^ 32 < 2 ^ 31 := by
  rw [nonneg_toInt32_iff, UInt32.toNat_ofNat']

/-- A result that is not negative is the length modulo `2 ^ 32`. -/
theorem result_eq {k : Nat} (h : k % 2 ^ 32 < 2 ^ 31) :
    (UInt32.ofNat k).toInt32.toInt.toNat = k % 2 ^ 32 := by
  rw [toInt_toInt32, UInt32.toNat_ofNat', if_pos h]
  rfl

theorem argstr_exact_iff (hv : fetcharg p.tf n = some v) :
    (((∃ r, argstr p n = some r ∧ 0 ≤ r.1) ↔ v < p.sz ∧ HasNul p v) ∧
      ∀ r, argstr p n = some r → 0 ≤ r.1 → r.2 = some v ∧ FirstNul p v r.1.toInt.toNat) ↔
      StrFits p v := by
  have hsome : ∀ P : Int32 × Option UInt64 → Prop, (∃ r, argstr p n = some r ∧ P r) ↔
      P (fetchstr p (addrOfInt v.toUInt32.toInt32)) := by
    intro P
    rw [argstr_eq hv]
    simp
  have hall : ∀ P : Int32 × Option UInt64 → Prop, (∀ r, argstr p n = some r → P r) ↔
      P (fetchstr p (addrOfInt v.toUInt32.toInt32)) := by
    intro P
    rw [argstr_eq hv]
    simp
  have hnul : v < p.sz ∧ HasNul p v ↔ HasNul p v := ⟨fun h => h.2, fun h => ⟨h.lt, h⟩⟩
  rw [hsome, hall, hnul]
  unfold StrFits
  generalize addrOfInt v.toUInt32.toInt32 = w
  rcases fetchstr_spec p w with ⟨hfail, hnot⟩ | ⟨k, hfirst, hres⟩
  · have hneg : ¬0 ≤ (fetchstr p w).1 := by
      rw [hfail]
      decide
    have hvac : ∀ k, ¬FirstNul p w k := fun k hk => hnot hk.hasNul
    simp only [hneg, false_iff, false_implies, and_true]
    split
    · rename_i heq
      subst heq
      exact ⟨fun _ k hk => absurd hk (hvac k), fun _ => hnot⟩
    · exact ⟨fun h => ⟨h, fun k hk => absurd hk (hvac k)⟩, fun h => h.1⟩
  · rw [hres]
    simp only [nonneg_result_iff, Option.some.injEq]
    split
    · rename_i heq
      subst heq
      constructor
      · rintro ⟨hiff, hok⟩ l hl
        have hlt := hiff.mpr hfirst.hasNul
        have hlen := (hok hlt).2
        rw [result_eq hlt] at hlen
        have hkl := hl.unique hlen
        omega
      · intro hsmall
        have hk := hsmall k hfirst
        have hmod : k % 2 ^ 32 = k := Nat.mod_eq_of_lt (by omega)
        refine ⟨⟨fun _ => hfirst.hasNul, fun _ => by omega⟩, fun hlt => ⟨rfl, ?_⟩⟩
        rw [result_eq hlt, hmod]
        exact hfirst
    · rename_i hne
      constructor
      · rintro ⟨hiff, hok⟩
        have hbig : ¬k % 2 ^ 32 < 2 ^ 31 := fun hlt => hne (hok hlt).1
        refine ⟨fun hbad => hbig (hiff.mpr hbad), ?_⟩
        intro l hl
        rw [hl.unique hfirst]
        omega
      · rintro ⟨hnot, hbig⟩
        have hk := hbig k hfirst
        exact ⟨⟨fun hlt => by omega, fun hbad => absurd hbad hnot⟩, fun hlt => by omega⟩

end Exact

/-- A process of one page whose memory is zero, with `v` in the first register. -/
def onePage (v : UInt64) : UserProc :=
  ⟨4096, ⟨v, 0, 0, 0, 0, 0⟩, fun _ => 0⟩

end Xv6.Syscall
