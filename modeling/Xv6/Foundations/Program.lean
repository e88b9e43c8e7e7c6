import Mathlib

/-!
# Foundations - Programs over operations

Code is written once as a program over a set of operations and run by handlers
that say what the operations do on a state.  A run returns a value or stops.
The module gives rules of pre- and postconditions for runs.

Main results:

- Theorem {lit}`wp_bind`: sequential composition of postconditions.
- Theorem {lit}`wp_zoom`: code on a part of the state.
- Theorem {lit}`wp_forEach`: invariants of loops.
- Theorem {lit}`Prog.run_bind`: running a composed program.
-/

namespace Foundations

/-- A computation on states `σ` that returns a value or stops with `ε`. -/
def Exec (σ ε α : Type) : Type :=
  σ → Except ε (α × σ)

namespace Exec

variable {σ ε α β : Type}

instance : Monad (Exec σ ε) where
  pure a := fun s => .ok (a, s)
  bind m f := fun s =>
    match m s with
    | .ok (a, t) => f a t
    | .error e => .error e

/-- The current state. -/
def get : Exec σ ε σ :=
  fun s => .ok (s, s)

/-- Change the state. -/
def modify (f : σ → σ) : Exec σ ε Unit :=
  fun s => .ok ((), f s)

/-- Stop. -/
def stop (e : ε) : Exec σ ε α :=
  fun _ => .error e

/-- Code that works on a part of the state. -/
def zoom {τ : Type} (part : σ → τ) (put : τ → σ → σ) (m : Exec τ ε α) : Exec σ ε α :=
  fun s =>
    match m (part s) with
    | .ok (a, t) => .ok (a, put t s)
    | .error e => .error e

end Exec

/-! ## Postconditions -/

section Wp

variable {σ ε α β : Type} {m : Exec σ ε α} {f : α → Exec σ ε β}
  {Q : α → σ → Prop} {Q' : β → σ → Prop} {E : ε → Prop} {s : σ}

/-- From `s`, the computation returns with `Q` or stops with `E`. -/
def wp (m : Exec σ ε α) (Q : α → σ → Prop) (E : ε → Prop) (s : σ) : Prop :=
  match m s with
  | .ok (a, t) => Q a t
  | .error e => E e

@[simp]
theorem wp_pure {a : α} : wp (pure a) Q E s ↔ Q a s :=
  Iff.rfl

@[simp]
theorem wp_get {Q : σ → σ → Prop} : wp Exec.get Q E s ↔ Q s s :=
  Iff.rfl

@[simp]
theorem wp_modify {g : σ → σ} {Q : Unit → σ → Prop} :
    wp (Exec.modify g) Q E s ↔ Q () (g s) :=
  Iff.rfl

@[simp]
theorem wp_stop {e : ε} : wp (Exec.stop e : Exec σ ε α) Q E s ↔ E e :=
  Iff.rfl

/-- What code on a part of the state does to the whole. -/
theorem wp_zoom {τ : Type} {part : σ → τ} {put : τ → σ → σ} {n : Exec τ ε α} :
    wp (Exec.zoom part put n) Q E s ↔ wp n (fun a t => Q a (put t s)) E (part s) := by
  unfold wp Exec.zoom
  cases n (part s) with
  | ok r => rfl
  | error e => rfl

theorem bind_apply : (m >>= f) s = match m s with
    | .ok (a, t) => f a t
    | .error e => .error e :=
  rfl

theorem wp_bind : wp (m >>= f) Q' E s ↔ wp m (fun a t => wp (f a) Q' E t) E s := by
  unfold wp
  rw [bind_apply]
  cases m s with
  | ok r => rfl
  | error e => rfl

theorem wp_mono {P : α → σ → Prop} {D : ε → Prop} (h : wp m P D s)
    (hQ : ∀ a t, P a t → Q a t) (hE : ∀ e, D e → E e) : wp m Q E s := by
  unfold wp at h ⊢
  cases hm : m s with
  | ok r =>
    rw [hm] at h
    exact hQ _ _ h
  | error e =>
    rw [hm] at h
    exact hE e h

/-- Compose a specification of the first part with the rest. -/
theorem wp_bind_of {P : α → σ → Prop} (h : wp m P E s)
    (hf : ∀ a t, P a t → wp (f a) Q' E t) : wp (m >>= f) Q' E s :=
  wp_bind.mpr (wp_mono h hf fun _ he => he)

theorem wp_of_ok {a : α} {t : σ} (h : m s = .ok (a, t)) : wp m Q E s ↔ Q a t := by
  unfold wp
  rw [h]

theorem wp_of_error {e : ε} (h : m s = .error e) : wp m Q E s ↔ E e := by
  unfold wp
  rw [h]

/-- A computation that cannot stop returns. -/
theorem wp_never : wp m Q (fun _ => False) s ↔ ∃ a t, m s = .ok (a, t) ∧ Q a t := by
  unfold wp
  cases hm : m s with
  | ok r =>
    constructor
    · intro h
      exact ⟨r.1, r.2, rfl, h⟩
    · rintro ⟨a, t, heq, h⟩
      cases heq
      exact h
  | error e =>
    constructor
    · intro h
      exact h.elim
    · rintro ⟨a, t, heq, _⟩
      cases heq

theorem wp_true : wp m (fun _ _ => True) (fun _ => True) s := by
  unfold wp
  cases m s with
  | ok r => trivial
  | error e => trivial

theorem wp_and {P : α → σ → Prop} (h : wp m P E s) (h' : wp m Q E s) :
    wp m (fun a t => P a t ∧ Q a t) E s := by
  unfold wp at h h' ⊢
  cases hm : m s with
  | ok r =>
    rw [hm] at h h'
    exact ⟨h, h'⟩
  | error e =>
    rw [hm] at h
    exact h

/-- Two specifications of one computation, with the stops of the second. -/
theorem wp_and_right {P : α → σ → Prop} {D : ε → Prop} (h : wp m P D s) (h' : wp m Q E s) :
    wp m (fun a t => P a t ∧ Q a t) E s := by
  unfold wp at h h' ⊢
  cases hm : m s with
  | ok r =>
    rw [hm] at h h'
    exact ⟨h, h'⟩
  | error e =>
    rw [hm] at h'
    exact h'

theorem bind_ok {a : α} {t : σ} (h : m s = .ok (a, t)) : (m >>= f) s = f a t := by
  rw [bind_apply, h]

theorem bind_error {e : ε} (h : m s = .error e) : (m >>= f) s = .error e := by
  rw [bind_apply, h]

theorem exec_bind_assoc {γ : Type} {g : β → Exec σ ε γ} :
    m >>= f >>= g = m >>= fun a => f a >>= g := by
  funext s
  cases hm : m s with
  | ok r =>
    have hmf : (m >>= f) s = f r.1 r.2 := bind_ok hm
    rw [bind_ok hm]
    cases hf : f r.1 r.2 with
    | ok q => rw [bind_ok (hmf.trans hf), bind_ok hf]
    | error e => rw [bind_error (hmf.trans hf), bind_error hf]
  | error e => rw [bind_error hm, bind_error (bind_error hm)]

end Wp

/-! ## Loops -/

/-- Carry out the body for each element of a list. -/
def Exec.forEach {σ ε α : Type} (body : α → Exec σ ε Unit) : List α → Exec σ ε Unit
  | [] => pure ()
  | x :: xs => do
    body x
    Exec.forEach body xs

/-- A property of the elements to go and the state that each round keeps. -/
theorem wp_forEach {σ ε α : Type} {f : α → Exec σ ε Unit} {E : ε → Prop}
    (I : List α → σ → Prop)
    (hbody : ∀ x xs s, I (x :: xs) s → wp (f x) (fun _ t => I xs t) E s)
    {l : List α} {s : σ} (h : I l s) : wp (Exec.forEach f l) (fun _ t => I [] t) E s := by
  induction l generalizing s with
  | nil => exact h
  | cons x xs ih => exact wp_bind_of (hbody x xs s h) fun _ _ ht => ih ht

/-! ## Programs -/

/-- A program: a value, or an operation and what to do with its answer. -/
inductive Prog (Op : Type) (Resp : Op → Type) (α : Type) : Type
  | ret (a : α)
  | op (o : Op) (k : Resp o → Prog Op Resp α)

namespace Prog

variable {Op : Type} {Resp : Op → Type} {σ ε α β : Type}

/-- Sequential composition. -/
def bind : Prog Op Resp α → (α → Prog Op Resp β) → Prog Op Resp β
  | .ret a, f => f a
  | .op o k, f => .op o fun r => (k r).bind f

instance : Monad (Prog Op Resp) where
  pure := .ret
  bind := Prog.bind

instance : LawfulMonad (Prog Op Resp) := by
  refine LawfulMonad.mk' _ ?_ (fun _ _ => rfl) ?_
  · intro α x
    have hmap : ∀ y : Prog Op Resp α, id <$> y = y.bind .ret := fun _ => rfl
    rw [hmap]
    induction x with
    | ret a => rfl
    | op o k ih => exact congrArg (Prog.op o) (funext ih)
  · intro α β γ x f g
    induction x with
    | ret a => rfl
    | op o k ih => exact congrArg (Prog.op o) (funext ih)

/-- One operation. -/
def call (o : Op) : Prog Op Resp (Resp o) :=
  .op o .ret

/-- Run a program with a handler of its operations. -/
def run (h : (o : Op) → Exec σ ε (Resp o)) : Prog Op Resp α → Exec σ ε α
  | .ret a => pure a
  | .op o k => h o >>= fun r => (k r).run h

variable {h : (o : Op) → Exec σ ε (Resp o)} {Q : α → σ → Prop} {Q' : β → σ → Prop}
  {E : ε → Prop} {s : σ}

theorem run_bind (p : Prog Op Resp α) (f : α → Prog Op Resp β) :
    (p >>= f).run h = p.run h >>= fun a => (f a).run h := by
  induction p with
  | ret a => rfl
  | op o k ih =>
    have hstep : ∀ {γ : Type} (l : Resp o → Prog Op Resp γ),
        (Prog.op o l).run h = h o >>= fun r => (l r).run h := fun _ => rfl
    have hop : Prog.op o k >>= f = Prog.op o fun r => k r >>= f := rfl
    rw [hop, hstep, hstep, exec_bind_assoc]
    congr 1
    funext r
    exact ih r

theorem wp_run_bind {p : Prog Op Resp α} {f : α → Prog Op Resp β} :
    wp ((p >>= f).run h) Q' E s ↔ wp (p.run h) (fun a t => wp ((f a).run h) Q' E t) E s := by
  rw [run_bind, wp_bind]

/-- Compose a specification of the first part with the rest of a program. -/
theorem wp_run_bind_of {p : Prog Op Resp α} {f : α → Prog Op Resp β} {P : α → σ → Prop}
    (hp : wp (p.run h) P E s) (hf : ∀ a t, P a t → wp ((f a).run h) Q' E t) :
    wp ((p >>= f).run h) Q' E s :=
  wp_run_bind.mpr (wp_mono hp hf fun _ he => he)

@[simp]
theorem wp_run_pure {a : α} : wp ((pure a : Prog Op Resp α).run h) Q E s ↔ Q a s :=
  Iff.rfl

theorem run_call (o : Op) : (Prog.call o : Prog Op Resp (Resp o)).run h = h o := by
  funext s
  have hcall : (Prog.call o : Prog Op Resp (Resp o)).run h s =
      (h o >>= fun r => (pure r : Exec σ ε (Resp o))) s := rfl
  rw [hcall]
  cases ho : h o s with
  | ok r => exact bind_ok ho
  | error e => exact bind_error ho

/-- Compose a specification of an operation with the rest of a program. -/
theorem wp_call_bind_of {o : Op} {f : Resp o → Prog Op Resp β} {P : Resp o → σ → Prop}
    (ho : wp (h o) P E s) (hf : ∀ a t, P a t → wp ((f a).run h) Q' E t) :
    wp ((Prog.call o >>= f).run h) Q' E s := by
  refine wp_run_bind_of ?_ hf
  rw [run_call]
  exact ho

end Prog

end Foundations
