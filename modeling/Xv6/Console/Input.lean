import Xv6.Foundations.Ring
import Xv6.Foundations.Runs

/-!
# Console - The input buffer

The buffer {lit}`input` of {lit}`console.c` is a ring with three counters: reads take from
`r`, characters before `w` are committed, and the line that is still edited ends at `e`.
This module has the functions that work on the buffer, each as it is carried out between
taking and giving back {lit}`input.lock`.

Main results:

- Theorem {lit}`killLine_spec`: the kill-line loop removes characters of the edited line only.
- Theorem {lit}`typed_spec`: what one character delivered to `consoleintr` does.
- Theorem {lit}`take_spec`: what the loop of `consoleread` takes up to its return or sleep.
-/

namespace Xv6.Console

open Foundations

/-- {lit}`INPUT_BUF` -/
abbrev inputBuf : Nat := 128

/-- {lit}`C('D')` -/
def ctrlD : UInt8 := 4

/-- {lit}`C('H')` -/
def ctrlH : UInt8 := 8

/-- {lit}`'\n'` -/
def newline : UInt8 := 10

/-- {lit}`'\r'` -/
def carriageReturn : UInt8 := 13

/-- {lit}`C('P')` -/
def ctrlP : UInt8 := 16

/-- {lit}`C('U')` -/
def ctrlU : UInt8 := 21

/-- {lit}`C('Z')` -/
def ctrlZ : UInt8 := 26

/-- {lit}`'\x7f'` -/
def delete : UInt8 := 127

/-- The buffer and its counters. -/
structure Input where
  buf : Fin inputBuf → UInt8
  r : UInt32
  w : UInt32
  e : UInt32

namespace Input

/-- The loop of kill-line.  It stops at `w` at the latest, so it is given {lit}`e - w`
rounds. -/
def killLine : Nat → Input → Input
  | 0, b => b
  | k + 1, b =>
    if b.e ≠ b.w ∧ b.buf (ringSlot inputBuf (b.e - 1)) ≠ newline then
      killLine k { b with e := b.e - 1 }
    else b

/-- The characters from `w` to `e`. -/
def line (b : Input) : List UInt8 :=
  (List.range (b.e - b.w).toNat).map fun k => b.buf (ringSlot inputBuf (b.w + UInt32.ofNat k))

/-- {lit}`input.buf[input.e++ % INPUT_BUF] = c` -/
def insert (b : Input) (c : UInt8) : Input :=
  { b with buf := Function.update b.buf (ringSlot inputBuf b.e) c, e := b.e + 1 }

/-- Whether the character just inserted commits the line. -/
def commits (b : Input) (c : UInt8) : Bool :=
  c == newline || c == ctrlD || b.e == b.r + 128

/-- The {lit}`default` case of `consoleintr` after its test. -/
def enter (b : Input) (c : UInt8) : Input × Option (List UInt8) :=
  let b := b.insert c
  if b.commits c then ({ b with w := b.e }, some b.line) else (b, none)

/-- One round of `consoleintr`: the buffer, and the characters that were committed, if `w`
was moved. -/
def typed (b : Input) (c : UInt8) : Input × Option (List UInt8) :=
  -- the reboot and the process listing do not touch the buffer
  if c = ctrlZ then (b, none)
  else if c = ctrlP then (b, none)
  else if c = ctrlU then (b.killLine (b.e - b.w).toNat, none)
  else if c = ctrlH ∨ c = delete then
    if b.e ≠ b.w then ({ b with e := b.e - 1 }, none) else (b, none)
  else if c ≠ 0 ∧ b.e - b.r < 128 then
    b.enter (if c = carriageReturn then newline else c)
  else (b, none)

/-- What the loop of `consoleread` did: the buffer, the bytes stored through `dst`, the
characters taken out of the buffer, and the number of bytes still to read when it has to
wait. -/
structure Taken where
  input : Input
  stored : List UInt8
  taken : List UInt8
  waits : Option Nat

/-- The loop of `consoleread` with `n` bytes to go, until it breaks, ends or has to wait. -/
def take (target : Nat) : Nat → Input → Taken
  | 0, b => ⟨b, [], [], none⟩
  | n + 1, b =>
    if b.r = b.w then ⟨b, [], [], some (n + 1)⟩
    else
      let c := b.buf (ringSlot inputBuf b.r)
      let b := { b with r := b.r + 1 }
      if c = ctrlD then
        if n + 1 < target then ⟨{ b with r := b.r - 1 }, [], [], none⟩ else ⟨b, [], [c], none⟩
      else if c = newline then ⟨b, [c], [c], none⟩
      else
        let more := take target n b
        ⟨more.input, c :: more.stored, c :: more.taken, more.waits⟩

/-- The buffer holds the committed characters `pending` and then the edited line. -/
structure Holds (b : Input) (pending edited : List UInt8) : Prop where
  window : Window b.buf b.r b.e (pending ++ edited)
  border : b.w = b.r + UInt32.ofNat pending.length

end Input

theorem inputBuf_dvd : inputBuf ∣ 2 ^ 32 := by decide

theorem inputBuf_lt : inputBuf < 2 ^ 32 := by decide

namespace Input

variable {b : Input} {pending edited : List UInt8}

/-! ## The counters -/

theorem Holds.length_le (h : b.Holds pending edited) :
    pending.length + edited.length ≤ inputBuf := by
  have hfits := h.window.fits
  rwa [List.length_append] at hfits

theorem Holds.pending_window (h : b.Holds pending edited) : Window b.buf b.r b.w pending := by
  constructor
  · exact h.border
  · have hle := h.length_le
    omega
  · intro k x hk
    have hlt := (List.getElem?_eq_some_iff.mp hk).1
    apply h.window.entries
    rwa [List.getElem?_append_left hlt]

theorem Holds.edited_window (h : b.Holds pending edited) : Window b.buf b.w b.e edited := by
  have hadd : ∀ k, b.w + UInt32.ofNat k = b.r + UInt32.ofNat (pending.length + k) := by
    intro k
    rw [h.border, UInt32.ofNat_add, UInt32.add_assoc]
  constructor
  · rw [hadd, h.window.stop, List.length_append]
  · have hle := h.length_le
    omega
  · intro k x hk
    rw [hadd]
    apply h.window.entries
    rw [List.getElem?_append_right (Nat.le_add_right _ _), Nat.add_sub_cancel_left]
    exact hk

theorem Holds.committed_le (h : b.Holds pending edited) :
    (b.w - b.r).toNat ≤ (b.e - b.r).toNat := by
  rw [h.pending_window.sub inputBuf_lt, h.window.sub inputBuf_lt, List.length_append]
  exact Nat.le_add_right _ _

/-- The characters from `w` to `e` are the edited line. -/
theorem Holds.line_eq (h : b.Holds pending edited) : b.line = edited := by
  have hwindow := h.edited_window
  apply List.ext_getElem?
  intro k
  rw [line, hwindow.sub inputBuf_lt, List.getElem?_map]
  by_cases hk : k < edited.length
  · obtain ⟨x, hx⟩ : ∃ x, edited[k]? = some x := ⟨_, List.getElem?_eq_getElem hk⟩
    rw [List.getElem?_range hk, hx, Option.map_some, hwindow.entries k x hx]
  · rw [List.getElem?_eq_none (by simpa using hk), List.getElem?_eq_none (by simpa using hk)]
    rfl

/-! ## Editing -/

/-- The last character of the edited line is removed. -/
theorem Holds.backspace (h : b.Holds pending edited) (hne : b.e ≠ b.w) :
    ∃ front last, edited = front ++ [last] ∧ Holds { b with e := b.e - 1 } pending front := by
  have hedited : edited ≠ [] := by
    intro hnil
    exact hne ((h.edited_window.stop_eq_start_iff inputBuf_lt).mpr hnil)
  have hsplit := List.dropLast_append_getLast hedited
  refine ⟨edited.dropLast, edited.getLast hedited, hsplit.symm, ?_, h.border⟩
  have hwindow := h.window
  rw [← hsplit, ← List.append_assoc] at hwindow
  exact hwindow.unpush

/-- What erasing leaves: the committed characters and a beginning of the edited line. -/
structure Erased (b : Input) (pending edited : List UInt8) (b' : Input) : Prop where
  held : ∃ edited', edited' <+: edited ∧ b'.Holds pending edited'
  buf : b'.buf = b.buf
  r : b'.r = b.r
  w : b'.w = b.w

theorem Erased.refl (h : b.Holds pending edited) : Erased b pending edited b :=
  ⟨⟨edited, List.prefix_rfl, h⟩, rfl, rfl, rfl⟩

/-- The kill-line loop ends at `w` or behind a newline, within the rounds it is given. -/
theorem killLine_spec (k : Nat) {b : Input} {edited : List UInt8} (h : b.Holds pending edited)
    (hk : edited.length ≤ k) :
    Erased b pending edited (b.killLine k) ∧
      ((b.killLine k).e = (b.killLine k).w ∨
        (b.killLine k).buf (ringSlot inputBuf ((b.killLine k).e - 1)) = newline) := by
  induction k generalizing b edited with
  | zero =>
    have hnil : edited = [] := List.length_eq_zero_iff.mp (Nat.le_zero.mp hk)
    exact ⟨.refl h, Or.inl ((h.edited_window.stop_eq_start_iff inputBuf_lt).mpr hnil)⟩
  | succ k ih =>
    rw [killLine.eq_2]
    by_cases hgo : b.e ≠ b.w ∧ b.buf (ringSlot inputBuf (b.e - 1)) ≠ newline
    · rw [if_pos hgo]
      obtain ⟨front, last, hsplit, hfront⟩ := h.backspace hgo.1
      have hshort : front.length ≤ k := by
        rw [hsplit, List.length_append, List.length_singleton] at hk
        exact Nat.le_of_succ_le_succ hk
      obtain ⟨hrest, hstops⟩ := ih hfront hshort
      obtain ⟨edited', hpre, hheld⟩ := hrest.held
      have hprefix : front <+: edited := by
        rw [hsplit]
        exact List.prefix_append front [last]
      exact ⟨⟨⟨edited', hpre.trans hprefix, hheld⟩, hrest.buf, hrest.r, hrest.w⟩, hstops⟩
    · rw [if_neg hgo]
      refine ⟨.refl h, ?_⟩
      by_contra hnot
      push Not at hnot
      exact hgo hnot

/-- The characters that erase. -/
def Erases (c : UInt8) : Prop :=
  c = ctrlU ∨ c = ctrlH ∨ c = delete

theorem typed_erase (h : b.Holds pending edited) {c : UInt8} (hc : Erases c) :
    (b.typed c).2 = none ∧ Erased b pending edited (b.typed c).1 := by
  have hkill : Erased b pending edited (b.killLine (b.e - b.w).toNat) :=
    (killLine_spec _ h (h.edited_window.sub inputBuf_lt).ge).1
  have hback : b.e ≠ b.w → Erased b pending edited { b with e := b.e - 1 } := by
    intro hne
    obtain ⟨front, last, hsplit, hfront⟩ := h.backspace hne
    refine ⟨⟨front, ?_, hfront⟩, rfl, rfl, rfl⟩
    rw [hsplit]
    exact List.prefix_append front [last]
  rcases hc with hc | hc | hc
  · subst hc
    exact ⟨rfl, hkill⟩
  · subst hc
    by_cases hne : b.e ≠ b.w
    · simp only [typed, if_pos hne]
      exact ⟨rfl, hback hne⟩
    · simp only [typed, if_neg hne]
      exact ⟨rfl, .refl h⟩
  · subst hc
    by_cases hne : b.e ≠ b.w
    · simp only [typed, if_pos hne]
      exact ⟨rfl, hback hne⟩
    · simp only [typed, if_neg hne]
      exact ⟨rfl, .refl h⟩

/-! ## Inserting -/

theorem Holds.insert (h : b.Holds pending edited) (hroom : b.e - b.r < 128) (c : UInt8) :
    (b.insert c).Holds pending (edited ++ [c]) := by
  have hlt : (pending ++ edited).length < inputBuf := by
    rw [← h.window.sub inputBuf_lt]
    exact UInt32.lt_iff_toNat_lt.mp hroom
  refine ⟨?_, h.border⟩
  rw [← List.append_assoc]
  exact h.window.push inputBuf_dvd hlt c

/-- A commit moves `w` to the end of the edited line. -/
theorem Holds.commit (h : b.Holds pending edited) :
    Holds { b with w := b.e } (pending ++ b.line) [] := by
  rw [h.line_eq]
  constructor
  · rw [List.append_nil]
    exact h.window
  · exact h.window.stop

theorem enter_spec (h : b.Holds pending edited) (hroom : b.e - b.r < 128) (c : UInt8) :
    (b.enter c).1.r = b.r ∧
      ∃ edited', (b.enter c).1.Holds (pending ++ (b.enter c).2.getD []) edited' := by
  have hinsert := h.insert hroom c
  unfold enter
  by_cases hcommit : (b.insert c).commits c = true
  · simp only [hcommit, if_true]
    exact ⟨rfl, [], hinsert.commit⟩
  · simp only [hcommit, Bool.false_eq_true, if_false]
    refine ⟨rfl, edited ++ [c], ?_⟩
    rw [Option.getD_none, List.append_nil]
    exact hinsert

/-- One round of `consoleintr`: the characters it commits come behind the pending ones. -/
theorem typed_spec (h : b.Holds pending edited) (c : UInt8) :
    (b.typed c).1.r = b.r ∧
      ∃ edited', (b.typed c).1.Holds (pending ++ (b.typed c).2.getD []) edited' := by
  by_cases herase : Erases c
  · obtain ⟨hnone, herased⟩ := typed_erase h herase
    obtain ⟨edited', -, hheld⟩ := herased.held
    refine ⟨herased.r, edited', ?_⟩
    rw [hnone, Option.getD_none, List.append_nil]
    exact hheld
  · simp only [Erases, not_or] at herase
    have hsame : Holds b (pending ++ (none : Option (List UInt8)).getD []) edited := by
      rw [Option.getD_none, List.append_nil]
      exact h
    unfold typed
    rw [if_neg herase.1, if_neg (not_or.mpr herase.2)]
    by_cases hz : c = ctrlZ
    · rw [if_pos hz]
      exact ⟨rfl, edited, hsame⟩
    by_cases hp : c = ctrlP
    · rw [if_neg hz, if_pos hp]
      exact ⟨rfl, edited, hsame⟩
    by_cases hroom : c ≠ 0 ∧ b.e - b.r < 128
    · rw [if_neg hz, if_neg hp, if_pos hroom]
      exact enter_spec h hroom.2 _
    · rw [if_neg hz, if_neg hp, if_neg hroom]
      exact ⟨rfl, edited, hsame⟩

/-! ## Reading -/

theorem Holds.pop {x : UInt8} (h : b.Holds (x :: pending) edited) :
    b.buf (ringSlot inputBuf b.r) = x ∧ Holds { b with r := b.r + 1 } pending edited := by
  refine ⟨h.window.head, h.window.pop, ?_⟩
  rw [h.border, List.length_cons, ofNat_succ_add]

theorem Holds.empty_iff (h : b.Holds pending edited) : b.r = b.w ↔ pending = [] := by
  rw [eq_comm]
  exact h.pending_window.stop_eq_start_iff inputBuf_lt

/-- What the loop of `consoleread` did with `n` bytes to go.  It waits with part of them
still to come, or it is over: with some bytes, or with the one control-D that ends a read
that has none. -/
structure TakeSpec (target n : Nat) (pending edited : List UInt8) (t : Taken) : Prop where
  held : ∃ rest, pending = t.taken ++ rest ∧ t.input.Holds rest edited
  plain : ctrlD ∉ t.stored
  waits : ∀ m, t.waits = some m → t.taken = t.stored ∧ 0 < m ∧ t.stored.length + m = n
  ends : t.waits = none → (t.taken = t.stored ∧ (n = target → 0 < n → t.stored ≠ [])) ∨
    (t.taken = [ctrlD] ∧ t.stored = [] ∧ n = target)

theorem take_spec {target : Nat} (n : Nat) (hn : n ≤ target) {b : Input}
    {pending : List UInt8} (h : b.Holds pending edited) :
    TakeSpec target n pending edited (b.take target n) := by
  induction n generalizing b pending with
  | zero =>
    rw [take.eq_1]
    refine ⟨⟨pending, rfl, h⟩, by simp, by simp, ?_⟩
    intro _
    exact Or.inl ⟨rfl, fun _ hpos => absurd hpos (Nat.lt_irrefl 0)⟩
  | succ n ih =>
    rw [take.eq_2]
    by_cases hempty : b.r = b.w
    · rw [if_pos hempty]
      exact ⟨⟨pending, rfl, h⟩, by simp, by simp, by simp⟩
    · rw [if_neg hempty]
      cases pending with
      | nil => exact absurd (h.empty_iff.mpr rfl) hempty
      | cons x pending =>
        obtain ⟨hx, hpop⟩ := h.pop
        simp only [hx]
        split_ifs with hd hpartial hnl
        · -- the control-D is put back for the next read
          have hback : Holds { b with r := b.r + 1 - 1 } (x :: pending) edited := by
            rw [UInt32.add_sub_cancel]
            exact h
          refine ⟨⟨x :: pending, rfl, hback⟩, by simp, by simp, ?_⟩
          intro _
          exact Or.inl ⟨rfl, fun heq => absurd heq (Nat.ne_of_lt hpartial)⟩
        · refine ⟨⟨pending, rfl, hpop⟩, by simp, by simp, ?_⟩
          intro _
          exact Or.inr ⟨by rw [hd], rfl, by omega⟩
        · refine ⟨⟨pending, rfl, hpop⟩, ?_, by simp, ?_⟩
          · rw [List.mem_singleton]
            exact Ne.symm hd
          · intro _
            exact Or.inl ⟨rfl, fun _ _ => List.cons_ne_nil x []⟩
        · have hmore := ih (Nat.le_of_succ_le hn) hpop
          obtain ⟨rest, hsplit, hrest⟩ := hmore.held
          constructor
          · exact ⟨rest, by rw [List.cons_append, ← hsplit], hrest⟩
          · rw [List.mem_cons, not_or]
            exact ⟨Ne.symm hd, hmore.plain⟩
          · intro m hm
            obtain ⟨htaken, hpos, hlen⟩ := hmore.waits m hm
            refine ⟨by rw [htaken], hpos, ?_⟩
            rw [List.length_cons]
            omega
          · intro hnone
            rcases hmore.ends hnone with ⟨htaken, -⟩ | ⟨-, -, hall⟩
            · exact Or.inl ⟨by rw [htaken], fun _ _ => List.cons_ne_nil x _⟩
            · omega

end Input

end Xv6.Console
