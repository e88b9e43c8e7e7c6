import Mathlib
import Xv6.Shell.Parser
import Xv6.User.Match
import Xv6.User.Memmove

/-!
# User programs - `grep`

The function `grep` of `grep.c`: it reads pieces of its input into a buffer behind the part
of a line that is left from the piece before, looks at the lines that end in the buffer, and
moves what follows the last of them to the start of the buffer.

The buffer is the first 1024 bytes of a memory, and the calls of `read` are a list of the
pieces that they return, after which `read` returns 0.

When a piece has no newline, `grep` takes the part of a line that is in the buffer for one
that does not fit, and drops it.

Main results:

- Theorem {lit}`grepLines_spec`: the loop over the lines in the buffer.
- Theorem {lit}`grepLoop_eq`: what `grep` writes, piece by piece.
- Theorem {lit}`grep_exact_iff`: for which pieces it writes the lines that match.
-/

namespace Xv6.User

/-! ## The code -/

/-- `'\n'`. -/
def newline : UInt8 := 10

/-- `sizeof(buf)`. -/
def bufsize : Nat := 1024

/-- Store bytes from `a` on. -/
def store (a : Nat) (x : List UInt8) (mem : Memory) : Memory :=
  fun i => if a ≤ i ∧ i < a + x.length then x.getD (i - a) 0 else mem i

/-- The `n` bytes from `a` on. -/
def load (a n : Nat) (mem : Memory) : List UInt8 :=
  (List.range n).map fun i => mem (a + i)

/-- The string at `p`, which ends in the next `n` bytes. -/
def cstring (mem : Memory) : Nat → Nat → List UInt8
  | 0, _ => []
  | n + 1, p => if mem p = 0 then [] else mem p :: cstring mem n (p + 1)

/-- `strchr` of a string that ends in the next `n` bytes. -/
def strchr (mem : Memory) (c : UInt8) : Nat → Nat → Option Nat
  | 0, _ => none
  | n + 1, p => if mem p = 0 then none else if mem p = c then some p else strchr mem c n (p + 1)

/-- The loop over the lines in the buffer, for at most `fuel` rounds: where it stops, the
buffer, and what it writes. -/
def grepLines (pattern : List UInt8) : Nat → Nat → Memory → Nat × Memory × List UInt8
  | 0, p, buf => (p, buf, [])
  | fuel + 1, p, buf =>
    match strchr buf newline (bufsize - p) p with
    | none => (p, buf, [])
    | some q =>
      let buf := Function.update buf q 0
      if matchRe pattern (cstring buf (bufsize - p) p) then
        let buf := Function.update buf q newline
        let out := load p (q + 1 - p) buf
        let (p, buf, more) := grepLines pattern fuel (q + 1) buf
        (p, buf, out ++ more)
      else
        grepLines pattern fuel (q + 1) buf

/-- One round of `grep`, after `read` returned `x` behind the first `m` bytes. -/
def grepRound (pattern x : List UInt8) (buf : Memory) (m : Nat) : Memory × Nat × List UInt8 :=
  let buf := store m x buf
  let m := m + x.length
  let buf := Function.update buf m 0
  let (p, buf, out) := grepLines pattern bufsize 0 buf
  let m := if p = 0 then 0 else m
  if m > 0 then
    let m := m - p
    (Ulib.memmove 0 p m buf, m, out)
  else
    (buf, m, out)

/-- The loop of `grep`: what it writes. -/
def grepLoop (pattern : List UInt8) : List (List UInt8) → Memory → Nat → List UInt8
  | [], _, _ => []
  | x :: pieces, buf, m =>
    let (buf, m, out) := grepRound pattern x buf m
    out ++ grepLoop pattern pieces buf m

/-- `grep` with what the buffer contains before. -/
def grep (pattern : List UInt8) (pieces : List (List UInt8)) (buf : Memory) : List UInt8 :=
  grepLoop pattern pieces buf 0

/-! ## Lines -/

/-- The lines of a text that end with a newline, and what follows the last of them. -/
def splitLines : List UInt8 → List (List UInt8) × List UInt8
  | [] => ([], [])
  | c :: t =>
    let (lines, rest) := splitLines t
    if c = newline then ([] :: lines, rest)
    else
      match lines with
      | [] => ([], c :: rest)
      | l :: lines => ((c :: l) :: lines, rest)

/-- What `grep` should write for a text. -/
def matching (pattern text : List UInt8) : List UInt8 :=
  ((splitLines text).1.filter (matchRe pattern)).flatMap fun l => l ++ [newline]

section Lines

variable {l t u : List UInt8} {pattern : List UInt8}

theorem splitLines_of_not_mem (h : newline ∉ t) : splitLines t = ([], t) := by
  induction t with
  | nil => rfl
  | cons c t ih =>
    rw [List.mem_cons, not_or] at h
    rw [splitLines, ih h.2]
    exact if_neg fun hbad => h.1 hbad.symm

theorem splitLines_line (h : newline ∉ l) :
    splitLines (l ++ newline :: t) = (l :: (splitLines t).1, (splitLines t).2) := by
  induction l with
  | nil =>
    rw [List.nil_append, splitLines]
    exact if_pos rfl
  | cons c l ih =>
    rw [List.mem_cons, not_or] at h
    rw [List.cons_append, splitLines, ih h.2]
    exact if_neg fun hbad => h.1 hbad.symm

/-- A text is a line and more, or has no newline. -/
theorem line_or_rest (t : List UInt8) :
    newline ∉ t ∨ ∃ l t', newline ∉ l ∧ t = l ++ newline :: t' := by
  by_cases h : newline ∈ t
  · right
    rcases List.eq_append_cons_of_mem h with ⟨l, t', heq, hl⟩
    exact ⟨l, t', hl, heq⟩
  · exact Or.inl h

/-- Lines of two texts, one after the other. -/
theorem splitLines_append : splitLines (u ++ t) =
    ((splitLines u).1 ++ (splitLines ((splitLines u).2 ++ t)).1,
      (splitLines ((splitLines u).2 ++ t)).2) := by
  induction hn : u.length using Nat.strong_induction_on generalizing u with
  | _ n ih =>
    rcases line_or_rest u with hu | ⟨l, u', hl, rfl⟩
    · rw [splitLines_of_not_mem hu, List.nil_append]
    · rw [List.length_append, List.length_cons] at hn
      rw [List.append_assoc, List.cons_append, splitLines_line hl, splitLines_line hl,
        ih u'.length (by omega) rfl, List.cons_append]

theorem newline_not_mem_rest (t : List UInt8) : newline ∉ (splitLines t).2 := by
  induction hn : t.length using Nat.strong_induction_on generalizing t with
  | _ n ih =>
    rcases line_or_rest t with ht | ⟨l, t', hl, rfl⟩
    · rwa [splitLines_of_not_mem ht]
    · rw [List.length_append, List.length_cons] at hn
      rw [splitLines_line hl]
      exact ih t'.length (by omega) t' rfl

theorem rest_suffix (t : List UInt8) : (splitLines t).2 <:+ t := by
  induction hn : t.length using Nat.strong_induction_on generalizing t with
  | _ n ih =>
    rcases line_or_rest t with ht | ⟨l, t', hl, rfl⟩
    · rw [splitLines_of_not_mem ht]
    · rw [List.length_append, List.length_cons] at hn
      rw [splitLines_line hl]
      exact (ih t'.length (by omega) t' rfl).trans
        ((List.suffix_cons newline t').trans (List.suffix_append l _))

/-- After a newline it does not matter what was before. -/
theorem rest_append (h : newline ∈ t) : (splitLines (u ++ t)).2 = (splitLines t).2 := by
  rcases line_or_rest t with ht | ⟨l, t', hl, rfl⟩
  · exact absurd h ht
  · have hrest : newline ∉ (splitLines u).2 ++ l := by
      rw [List.mem_append, not_or]
      exact ⟨newline_not_mem_rest u, hl⟩
    rw [splitLines_append, ← List.append_assoc, splitLines_line hrest, splitLines_line hl]

theorem matching_of_not_mem (h : newline ∉ t) : matching pattern t = [] := by
  unfold matching
  rw [splitLines_of_not_mem h]
  rfl

theorem matching_line (h : newline ∉ l) : matching pattern (l ++ newline :: t) =
    (if matchRe pattern l then l ++ [newline] else []) ++ matching pattern t := by
  unfold matching
  rw [splitLines_line h, List.filter_cons]
  split
  · rw [List.flatMap_cons]
  · rw [List.nil_append]

theorem matching_append : matching pattern (u ++ t) =
    matching pattern u ++ matching pattern ((splitLines u).2 ++ t) := by
  unfold matching
  rw [splitLines_append, List.filter_append, List.flatMap_append]

end Lines

/-! ## The buffer -/

/-- The bytes from `p` on are `t`. -/
def Holds (mem : Memory) (p : Nat) (t : List UInt8) : Prop :=
  ∀ i < t.length, mem (p + i) = t.getD i 0

/-- The bytes from `p` on are `t` and a zero byte. -/
structure HoldsString (mem : Memory) (p : Nat) (t : List UInt8) : Prop where
  holds : Holds mem p t
  ends : mem (p + t.length) = 0
  nonzero : 0 ∉ t

section Buffer

variable {mem mem' : Memory} {p n : Nat} {t l : List UInt8} {c : UInt8}

theorem Holds.head (h : Holds mem p (c :: t)) : mem p = c :=
  h 0 (Nat.succ_pos _)

theorem Holds.tail (h : Holds mem p (c :: t)) : Holds mem (p + 1) t := by
  intro i hi
  have hbyte := h (i + 1) (Nat.succ_lt_succ hi)
  rw [show p + 1 + i = p + (i + 1) by omega, hbyte]
  rfl

theorem Holds.append (h : Holds mem p (l ++ t)) : Holds mem (p + l.length) t := by
  induction l generalizing p with
  | nil => exact h
  | cons c l ih =>
    have htail := ih h.tail
    rwa [show p + 1 + l.length = p + (c :: l).length by rw [List.length_cons]; omega] at htail

theorem Holds.left (h : Holds mem p (l ++ t)) : Holds mem p l := by
  intro i hi
  have hbyte := h i (by rw [List.length_append]; omega)
  rw [hbyte, List.getD_append _ _ _ _ hi]

theorem Holds.of_eq (h : Holds mem p t) (heq : ∀ i < t.length, mem' (p + i) = mem (p + i)) :
    Holds mem' p t := by
  intro i hi
  rw [heq i hi, h i hi]

theorem Holds.load_eq (h : Holds mem p t) : load p t.length mem = t := by
  apply List.ext_getElem
  · simp [load]
  · intro i hi hi'
    have hbyte := h i hi'
    rw [List.getD_eq_getElem _ _ hi'] at hbyte
    simpa [load] using hbyte

theorem HoldsString.tail (h : HoldsString mem p (c :: t)) : HoldsString mem (p + 1) t := by
  refine ⟨h.holds.tail, ?_, ?_⟩
  · have hends := h.ends
    rw [List.length_cons] at hends
    rwa [show p + 1 + t.length = p + (t.length + 1) by omega]
  · intro hbad
    exact h.nonzero (List.mem_cons_of_mem c hbad)

theorem HoldsString.head_ne_zero (h : HoldsString mem p (c :: t)) : mem p ≠ 0 := by
  rw [h.holds.head]
  intro hbad
  exact h.nonzero (hbad ▸ List.mem_cons_self)

theorem HoldsString.append (h : HoldsString mem p (l ++ t)) :
    HoldsString mem (p + l.length) t := by
  refine ⟨h.holds.append, ?_, ?_⟩
  · have hends := h.ends
    rwa [List.length_append, ← Nat.add_assoc] at hends
  · intro hbad
    exact h.nonzero (List.mem_append_right l hbad)

theorem HoldsString.of_eq (h : HoldsString mem p t)
    (heq : ∀ i ≤ t.length, mem' (p + i) = mem (p + i)) : HoldsString mem' p t :=
  ⟨h.holds.of_eq fun i hi => heq i hi.le, by rw [heq _ (le_refl _), h.ends], h.nonzero⟩

theorem cstring_eq (h : HoldsString mem p t) (hn : t.length < n) : cstring mem n p = t := by
  induction t generalizing p n with
  | nil =>
    obtain ⟨n, rfl⟩ := Nat.exists_eq_succ_of_ne_zero (Nat.ne_of_gt hn)
    rw [cstring]
    exact if_pos h.ends
  | cons c t ih =>
    obtain ⟨n, rfl⟩ := Nat.exists_eq_succ_of_ne_zero (Nat.ne_of_gt (Nat.zero_lt_of_lt hn))
    rw [cstring, if_neg h.head_ne_zero, h.holds.head, ih h.tail (Nat.lt_of_succ_lt_succ hn)]

/-- On a string in memory it is the `strchr` of the list of its bytes. -/
theorem strchr_eq (h : HoldsString mem p t) (hn : t.length < n) :
    strchr mem c n p = (Shell.strchr t c).map (p + ·) := by
  unfold Shell.strchr
  induction t generalizing p n with
  | nil =>
    obtain ⟨n, rfl⟩ := Nat.exists_eq_succ_of_ne_zero (Nat.ne_of_gt hn)
    rw [strchr]
    exact if_pos h.ends
  | cons x t ih =>
    obtain ⟨n, rfl⟩ := Nat.exists_eq_succ_of_ne_zero (Nat.ne_of_gt (Nat.zero_lt_of_lt hn))
    rw [strchr, if_neg h.head_ne_zero, h.holds.head, ih h.tail (Nat.lt_of_succ_lt_succ hn),
      List.findIdx?_cons]
    by_cases hx : x = c
    · simp [hx]
    · simp [hx, Function.comp_def, Nat.add_assoc, Nat.add_comm 1]

theorem strchr_none (h : HoldsString mem p t) (hn : t.length < n) (hc : c ∉ t) :
    strchr mem c n p = none := by
  rw [strchr_eq h hn, Shell.strchr, List.findIdx?_eq_none_iff.mpr, Option.map_none]
  intro x hx
  exact beq_false_of_ne fun hbad => hc (hbad ▸ hx)

theorem strchr_some (h : HoldsString mem p (l ++ c :: t)) (hn : (l ++ c :: t).length < n)
    (hc : c ∉ l) : strchr mem c n p = some (p + l.length) := by
  have hnone : l.findIdx? (fun d => d == c) = none :=
    List.findIdx?_eq_none_iff.mpr fun x hx => beq_false_of_ne fun hbad => hc (hbad ▸ hx)
  rw [strchr_eq h hn, Shell.strchr, List.findIdx?_append, hnone, List.findIdx?_cons]
  simp

/-- A line that was cut off by a zero byte. -/
theorem HoldsString.cut (h : HoldsString mem p (l ++ c :: t)) :
    HoldsString (Function.update mem (p + l.length) 0) p l := by
  refine ⟨?_, Function.update_self .., ?_⟩
  · refine h.holds.left.of_eq ?_
    intro i hi
    exact Function.update_of_ne (by omega) ..
  · intro hbad
    exact h.nonzero (List.mem_append_left _ hbad)

end Buffer

/-! ## What `grep` writes -/

section Grep

variable {pattern x c : List UInt8} {buf : Memory} {m : Nat}

/-- The loop writes the lines that match, and stops behind the last one. -/
theorem grepLines_spec (pattern : List UInt8) (fuel : Nat) {t : List UInt8} {p : Nat}
    (h : HoldsString buf p t)
    (hp : p + t.length < bufsize) (hfuel : t.length < fuel) :
    ∃ buf', grepLines pattern fuel p buf =
        (p + (t.length - (splitLines t).2.length), buf', matching pattern t) ∧
      Holds buf' (p + (t.length - (splitLines t).2.length)) (splitLines t).2 := by
  induction fuel generalizing t p buf with
  | zero => omega
  | succ fuel ih =>
    rw [grepLines]
    rcases line_or_rest t with ht | ⟨l, t', hl, rfl⟩
    · rw [strchr_none h (by omega) ht, splitLines_of_not_mem ht, matching_of_not_mem ht,
        Nat.sub_self]
      exact ⟨buf, rfl, h.holds⟩
    · rw [strchr_some h (by omega) hl, matching_line hl, splitLines_line hl]
      rw [List.length_append, List.length_cons] at hp hfuel
      have hcstring := cstring_eq (n := bufsize - p) h.cut (by omega)
      have hrest := (rest_suffix t').length_le
      have hlen : (l ++ newline :: t').length - (splitLines t').2.length =
          l.length + 1 + (t'.length - (splitLines t').2.length) := by
        rw [List.length_append, List.length_cons]
        omega
      -- both stores are before the rest of the text
      have hnext : ∀ b : Memory, (∀ i, p + l.length < i → b i = buf i) →
          HoldsString b (p + l.length + 1) t' := by
        intro b hb
        have hbehind := (h.append (t := newline :: t')).tail
        refine hbehind.of_eq ?_
        intro i _
        exact hb _ (by omega)
      simp only [hcstring]
      by_cases hmatch : matchRe pattern l = true
      · have hstore : Function.update (Function.update buf (p + l.length) 0) (p + l.length)
            newline = buf := by
          rw [Function.update_idem, Function.update_eq_self_iff]
          exact (h.holds.append (t := newline :: t')).head.symm
        obtain ⟨buf', hrun, hholds⟩ := ih (hnext buf fun _ _ => rfl) (by omega) (by omega)
        have hload : load p (l.length + 1) buf = l ++ [newline] := by
          have hline : Holds buf p (l ++ [newline]) := by
            refine Holds.left (t := t') ?_
            rw [List.append_assoc]
            exact h.holds
          have hload := hline.load_eq
          rwa [List.length_append, List.length_singleton] at hload
        rw [if_pos hmatch, if_pos hmatch, hstore, hrun, hlen]
        refine ⟨buf', ?_, ?_⟩
        · rw [show p + l.length + 1 - p = l.length + 1 by omega, hload]
          simp only [Prod.mk.injEq, and_true]
          omega
        · rwa [← Nat.add_assoc, ← Nat.add_assoc]
      · have hskip := hnext (Function.update buf (p + l.length) 0) fun i hi =>
          Function.update_of_ne (by omega) ..
        obtain ⟨buf', hrun, hholds⟩ := ih hskip (by omega) (by omega)
        rw [if_neg hmatch, if_neg hmatch, hrun, hlen, List.nil_append]
        refine ⟨buf', ?_, ?_⟩
        · simp only [Prod.mk.injEq, and_true]
          omega
        · rwa [← Nat.add_assoc, ← Nat.add_assoc]

/-- The part of a line that is in the buffer after a piece. -/
def carried (x : List UInt8) : List UInt8 :=
  if newline ∈ x then (splitLines x).2 else []

theorem newline_not_mem_carried : newline ∉ carried x := by
  unfold carried
  split
  · exact newline_not_mem_rest x
  · exact List.not_mem_nil

/-- The buffer after `read` and the zero byte behind it. -/
theorem holdsString_store (hc : Holds buf 0 c) (hnz : 0 ∉ c ++ x) :
    HoldsString (Function.update (store c.length x buf) (c.length + x.length) 0) 0 (c ++ x) := by
  refine ⟨?_, ?_, hnz⟩
  · intro i hi
    rw [List.length_append] at hi
    rw [Function.update_of_ne (by omega), Nat.zero_add, store]
    by_cases hold : i < c.length
    · have hbyte := hc i hold
      rw [Nat.zero_add] at hbyte
      rw [if_neg (by omega), List.getD_append _ _ _ _ hold, hbyte]
    · rw [if_pos (by omega), List.getD_append_right _ _ _ _ (by omega)]
  · rw [List.length_append, Nat.zero_add, Function.update_self]

/-- A round writes the lines that match, and keeps what follows them if there are some. -/
theorem grepRound_spec (pattern : List UInt8) (hc : Holds buf 0 c) (hline : newline ∉ c)
    (hnz : 0 ∉ c ++ x)
    (hfit : c.length + x.length < bufsize) :
    ∃ buf', grepRound pattern x buf c.length =
        (buf', (carried x).length, matching pattern (c ++ x)) ∧ Holds buf' 0 (carried x) := by
  obtain ⟨buf', hrun, hholds⟩ := grepLines_spec pattern bufsize (holdsString_store hc hnz)
    (by rw [List.length_append]; omega) (by rw [List.length_append]; omega)
  unfold grepRound carried
  simp only [hrun]
  rw [Nat.zero_add] at hholds ⊢
  by_cases hx : newline ∈ x
  · have hrest := rest_append (u := c) hx
    have hlt : (splitLines x).2.length < x.length := by
      refine lt_of_le_of_ne (rest_suffix x).length_le ?_
      intro hbad
      have hnot := newline_not_mem_rest x
      rw [(rest_suffix x).eq_of_length hbad] at hnot
      exact hnot hx
    rw [hrest, List.length_append] at hholds
    have hp : ¬c.length + x.length - (splitLines x).2.length = 0 := by omega
    have hkeep : c.length + x.length - (c.length + x.length - (splitLines x).2.length) =
        (splitLines x).2.length := by omega
    simp only [hrest, List.length_append, if_neg hp, hkeep]
    rw [if_pos (by omega), if_pos hx]
    refine ⟨_, rfl, ?_⟩
    intro i hi
    have hmoved : Moved buf' _ 0 (c.length + x.length - (splitLines x).2.length)
        (splitLines x).2.length := copyUp_moved (Or.inl (Nat.zero_le _))
    rw [Ulib.memmove, hmoved.moved i hi, hholds i hi]
  · have hno : newline ∉ c ++ x := by
      rw [List.mem_append, not_or]
      exact ⟨hline, hx⟩
    rw [splitLines_of_not_mem hno, Nat.sub_self, if_pos rfl, if_neg (lt_irrefl 0), if_neg hx]
    exact ⟨_, rfl, nofun⟩

/-- `read` returns some bytes each time, no more than fit behind the first `m`. -/
def Served : Nat → List (List UInt8) → Prop
  | _, [] => True
  | m, x :: pieces => x ≠ [] ∧ x.length ≤ bufsize - m - 1 ∧ Served (carried x).length pieces

/-- What `grep` writes, piece by piece. -/
def written (pattern : List UInt8) : List UInt8 → List (List UInt8) → List UInt8
  | _, [] => []
  | c, x :: pieces => matching pattern (c ++ x) ++ written pattern (carried x) pieces

theorem grepLoop_eq {pieces : List (List UInt8)} (hc : Holds buf 0 c) (hline : newline ∉ c)
    (hnz : 0 ∉ c ++ pieces.flatten) (hserved : Served c.length pieces) :
    grepLoop pattern pieces buf c.length = written pattern c pieces := by
  induction pieces generalizing c buf with
  | nil => rfl
  | cons x pieces ih =>
    rcases hserved with ⟨hx, hfit, hserved⟩
    have hpos := List.length_pos_iff.mpr hx
    rw [List.flatten_cons, ← List.append_assoc, List.mem_append, not_or] at hnz
    obtain ⟨buf', hrun, hholds⟩ := grepRound_spec pattern hc hline hnz.1 (by omega)
    have hcarried : carried x <:+ x := by
      unfold carried
      split
      · exact rest_suffix x
      · exact List.nil_suffix
    rw [grepLoop, hrun, written]
    simp only
    rw [ih hholds newline_not_mem_carried ?_ hserved]
    rw [List.mem_append, not_or]
    refine ⟨?_, hnz.2⟩
    intro hbad
    exact hnz.1 (List.mem_append_right c (hcarried.subset hbad))

end Grep

/-! ## When it writes the lines that match -/

section Exact

variable {pattern c x : List UInt8} {pieces : List (List UInt8)}

/-- The empty pattern matches all lines. -/
theorem matchRe_nil (text : List UInt8) : matchRe [] text = true := by
  unfold matchRe
  rw [if_neg (by nofun)]
  cases text with
  | nil => rw [matchAny, matchhere_nil]
  | cons t text => rw [matchAny, matchhere_nil, if_pos rfl]

theorem matching_nil_length (t : List UInt8) :
    (matching [] t).length + (splitLines t).2.length = t.length := by
  induction hn : t.length using Nat.strong_induction_on generalizing t with
  | _ n ih =>
    rcases line_or_rest t with ht | ⟨l, t', hl, rfl⟩
    · rw [matching_of_not_mem ht, splitLines_of_not_mem ht]
      simpa using hn
    · rw [List.length_append, List.length_cons] at hn
      have hrest := ih t'.length (by omega) t' rfl
      rw [matching_line hl, splitLines_line hl, matchRe_nil, if_pos rfl]
      simp only [List.length_append, List.length_singleton]
      omega

theorem carried_append (h : newline ∈ x) (t : List UInt8) :
    matching pattern (c ++ x ++ t) =
      matching pattern (c ++ x) ++ matching pattern (carried x ++ t) := by
  rw [matching_append, rest_append h, carried, if_pos h]

/-- Nothing is lost if only pieces without newlines follow one without. -/
theorem written_eq (hc : newline ∉ c)
    (h : pieces.Pairwise fun x y => newline ∈ y → newline ∈ x) :
    written pattern c pieces = matching pattern (c ++ pieces.flatten) := by
  induction pieces generalizing c with
  | nil =>
    rw [written, List.flatten_nil, List.append_nil, matching_of_not_mem hc]
  | cons x pieces ih =>
    rw [List.pairwise_cons] at h
    rw [written, ih newline_not_mem_carried h.2, List.flatten_cons, ← List.append_assoc]
    by_cases hx : newline ∈ x
    · rw [carried_append hx]
    · have hno : newline ∉ c ++ x := by
        rw [List.mem_append, not_or]
        exact ⟨hc, hx⟩
      have hlater : newline ∉ pieces.flatten := by
        rw [List.mem_flatten]
        rintro ⟨y, hy, hbad⟩
        exact hx (h.1 y hy hbad)
      have hall : newline ∉ c ++ x ++ pieces.flatten := by
        rw [List.mem_append, not_or]
        exact ⟨hno, hlater⟩
      rw [matching_of_not_mem hno, matching_of_not_mem hall, carried, if_neg hx,
        List.nil_append, List.nil_append, matching_of_not_mem hlater]

/-- `grep` writes no more than all lines. -/
theorem written_nil_length_le (hc : newline ∉ c) :
    (written [] c pieces).length ≤ (matching [] (c ++ pieces.flatten)).length := by
  induction pieces generalizing c with
  | nil => exact Nat.zero_le _
  | cons x pieces ih =>
    have hrest := ih (newline_not_mem_carried (x := x))
    rw [written, List.flatten_cons, ← List.append_assoc, List.length_append]
    by_cases hx : newline ∈ x
    · rw [carried_append hx, List.length_append]
      omega
    · have hno : newline ∉ c ++ x := by
        rw [List.mem_append, not_or]
        exact ⟨hc, hx⟩
      rw [carried, if_neg hx, List.nil_append] at hrest
      rw [carried, if_neg hx, matching_of_not_mem hno, List.length_nil, Nat.zero_add]
      have hlen := matching_nil_length pieces.flatten
      have hlen' := matching_nil_length (c ++ x ++ pieces.flatten)
      rw [List.length_append] at hlen'
      by_cases hlater : newline ∈ pieces.flatten
      · rw [rest_append hlater] at hlen'
        omega
      · rw [matching_of_not_mem hlater, List.length_nil] at hrest
        omega

/-- All lines are written only if no part of one was dropped. -/
theorem pairwise_of_written (hc : newline ∉ c) (hne : ∀ x ∈ pieces, x ≠ [])
    (h : written [] c pieces = matching [] (c ++ pieces.flatten)) :
    pieces.Pairwise fun x y => newline ∈ y → newline ∈ x := by
  induction pieces generalizing c with
  | nil => exact List.Pairwise.nil
  | cons x pieces ih =>
    have hne' : ∀ y ∈ pieces, y ≠ [] := fun y hy => hne y (List.mem_cons_of_mem x hy)
    rw [written, List.flatten_cons, ← List.append_assoc] at h
    rw [List.pairwise_cons]
    by_cases hx : newline ∈ x
    · rw [carried_append hx] at h
      exact ⟨fun _ _ _ => hx, ih newline_not_mem_carried hne' (List.append_cancel_left h)⟩
    · -- a newline in a later piece ends a line whose beginning is lost
      have hno : newline ∉ c ++ x := by
        rw [List.mem_append, not_or]
        exact ⟨hc, hx⟩
      have hlater : newline ∉ pieces.flatten := by
        intro hlater
        have hle : (written [] [] pieces).length ≤ (matching [] ([] ++ pieces.flatten)).length :=
          written_nil_length_le List.not_mem_nil
        have hlen := matching_nil_length pieces.flatten
        have hlen' := matching_nil_length (c ++ x ++ pieces.flatten)
        have hpos := List.length_pos_iff.mpr (hne x List.mem_cons_self)
        rw [rest_append hlater, List.length_append, List.length_append, ← h,
          matching_of_not_mem hno, carried, if_neg hx, List.nil_append] at hlen'
        rw [List.nil_append] at hle
        omega
      have hnone : ∀ y ∈ pieces, newline ∉ y := by
        intro y hy hbad
        exact hlater (List.mem_flatten.mpr ⟨y, hy, hbad⟩)
      refine ⟨fun y hy hbad => absurd hbad (hnone y hy), ?_⟩
      refine List.pairwise_of_forall_mem_list ?_
      intro y _ z hz hbad
      exact absurd hbad (hnone z hz)

theorem Served.ne_nil {m : Nat} (h : Served m pieces) : ∀ x ∈ pieces, x ≠ [] := by
  induction pieces generalizing m with
  | nil => exact nofun
  | cons x pieces ih =>
    intro y hy
    rcases List.mem_cons.mp hy with rfl | hy
    · exact h.1
    · exact ih h.2.2 y hy

end Exact

theorem grep_eq_written {pieces : List (List UInt8)} (hnz : ∀ x ∈ pieces, 0 ∉ x)
    (hserved : Served 0 pieces) (pattern : List UInt8) (buf : Memory) :
    grep pattern pieces buf = written pattern [] pieces := by
  refine grepLoop_eq (c := []) nofun List.not_mem_nil ?_ hserved
  rw [List.nil_append, List.mem_flatten]
  rintro ⟨x, hx, hbad⟩
  exact hnz x hx hbad

/-- For every pattern, `grep` writes the lines that match, exactly if pieces without a
newline are followed by such pieces only. -/
theorem grep_exact_iff (pieces : List (List UInt8)) (buf : Memory)
    (hnz : ∀ x ∈ pieces, 0 ∉ x) (hserved : Served 0 pieces) :
    (∀ pattern, grep pattern pieces buf = matching pattern pieces.flatten) ↔
      pieces.Pairwise fun x y => newline ∈ y → newline ∈ x := by
  simp only [grep_eq_written hnz hserved]
  constructor
  · intro h
    exact pairwise_of_written List.not_mem_nil hserved.ne_nil (h [])
  · intro h pattern
    exact written_eq List.not_mem_nil h

/-- Two lines, read in two pieces that end inside of the second line. -/
theorem grep_exact_two_pieces : Served 0 [[97, newline, 98], [newline]] ∧
    ∀ pattern, grep pattern [[97, newline, 98], [newline]] (fun _ => 0) =
      matching pattern [97, newline, 98, newline] := by
  have hserved : Served 0 [[97, newline, 98], [newline]] :=
    ⟨by decide, by decide, by decide, by decide, trivial⟩
  refine ⟨hserved, (grep_exact_iff _ _ (by simp [newline]) hserved).mpr ?_⟩
  simp

/-- One line, read in two pieces: only the newline is written. -/
theorem grep_drops_piece : Served 0 [[97], [newline]] ∧
    grep [] [[97], [newline]] (fun _ => 0) ≠ matching [] [97, newline] := by
  have hserved : Served 0 [[97], [newline]] := ⟨by decide, by decide, by decide, by decide, trivial⟩
  refine ⟨hserved, ?_⟩
  rw [grep_eq_written (by simp [newline]) hserved]
  simp [written, matching, carried, splitLines, newline, matchRe_nil]

end Xv6.User
