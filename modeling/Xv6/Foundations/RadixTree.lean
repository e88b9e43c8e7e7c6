import Mathlib

/-!
# Foundations - Trees of linked nodes

Nodes are linked by indexed pointers, as the tables of a radix tree are in memory: a
function gives the child of a node at an index, if there is one.  A path is a list of
indices, the last one first, so that the paths below a node have its path as a tail.
{lit}`Unshared` says that no node is reached by two of the paths that count.  A change
of one pointer then changes what that pointer leads to and nothing else.

Main results:

- Theorem {lit}`nodeAt_of_not_suffix`: other paths than those through the changed
  pointer lead where they led.
- Theorem {lit}`nodeAt_graft`: a pointer to a new node without children.
- Theorem {lit}`nodeAt_setLeaf`: a pointer at the end of the paths that count.
- Theorems {lit}`Unshared.add`, {lit}`Unshared.remove`: one node more, one node less.
-/

namespace Foundations

variable {ν ι : Type}

/-- The node at the end of a path. -/
def nodeAt (child : ν → ι → Option ν) (root : ν) : List ι → Option ν
  | [] => some root
  | i :: p => (nodeAt child root p).bind fun t => child t i

/-- With a path, all its beginnings count. -/
def TailClosed (P : List ι → Prop) : Prop :=
  ∀ i p, P (i :: p) → P p

/-- No node is reached by two of the paths that count. -/
def Unshared (child : ν → ι → Option ν) (root : ν) (P : List ι → Prop) : Prop :=
  ∀ p q f, P p → P q → nodeAt child root p = some f → nodeAt child root q = some f → p = q

/-- Some path that counts leads to the node. -/
def Reaches (child : ν → ι → Option ν) (root : ν) (P : List ι → Prop) (f : ν) : Prop :=
  ∃ p, P p ∧ nodeAt child root p = some f

section Tree

variable {child child' : ν → ι → Option ν} {root t f : ν} {P Q : List ι → Prop} {p q : List ι}
  {i : ι}

theorem nodeAt_cons (ht : nodeAt child root p = some t) :
    nodeAt child root (i :: p) = child t i := by
  rw [nodeAt, ht, Option.bind_some]

/-- Nothing is below a path that leads nowhere. -/
theorem nodeAt_append_none (h : nodeAt child root p = none) (r : List ι) :
    nodeAt child root (r ++ p) = none := by
  induction r with
  | nil => exact h
  | cons j r ih => rw [List.cons_append, nodeAt, ih, Option.bind_none]

/-- A path in two parts. -/
theorem nodeAt_append (r : List ι) :
    nodeAt child root (r ++ p) = (nodeAt child root p).bind fun t => nodeAt child t r := by
  induction r with
  | nil =>
    rw [List.nil_append]
    cases nodeAt child root p with
    | none => rfl
    | some t => rfl
  | cons j r ih =>
    rw [List.cons_append, nodeAt, ih]
    cases nodeAt child root p with
    | none => rfl
    | some t => rfl

/-- A path through the pointer `i` of the root. -/
theorem nodeAt_concat {s : ν} (hs : child root i = some s) :
    nodeAt child root (p ++ [i]) = nodeAt child s p := by
  rw [nodeAt_append]
  have hfirst : nodeAt child root [i] = some s := by rw [nodeAt, nodeAt, Option.bind_some, hs]
  rw [hfirst, Option.bind_some]

/-- Fewer paths share no more nodes. -/
theorem Unshared.mono (h : Unshared child root Q) (hPQ : ∀ p, P p → Q p) :
    Unshared child root P := by
  intro p q f hp hq hpf hqf
  exact h p q f (hPQ p hp) (hPQ q hq) hpf hqf

theorem TailClosed.of_append (hP : TailClosed P) (r : List ι) (h : P (r ++ p)) : P p := by
  induction r with
  | nil => exact h
  | cons j r ih => exact ih (hP j _ h)

/-- Only the nodes inside matter, those from which some path goes on. -/
theorem nodeAt_congr_inner (hP : TailClosed P)
    (h : ∀ s q j, P (j :: q) → nodeAt child root q = some s → child' s j = child s j) (hq : P q) :
    nodeAt child' root q = nodeAt child root q := by
  induction q with
  | nil => rfl
  | cons j q ih =>
    rw [nodeAt, nodeAt, ih (hP j q hq)]
    cases hs : nodeAt child root q with
    | none => rfl
    | some s =>
      rw [Option.bind_some, Option.bind_some]
      exact h s q j hq hs

/-- Changes of nodes that no path leads to do not matter. -/
theorem nodeAt_congr (hP : TailClosed P)
    (h : ∀ s j, Reaches child root P s → child' s j = child s j) (hq : P q) :
    nodeAt child' root q = nodeAt child root q :=
  nodeAt_congr_inner hP (fun s r j hr hs => h s j ⟨r, hP j r hr, hs⟩) hq

/-! ## Changing one pointer -/

/-- A change of the pointer `i` of the node at `p`, and of nodes that no path leads to,
concerns only the paths through that pointer. -/
theorem nodeAt_of_not_suffix (hP : TailClosed P) (hun : Unshared child root P) (hp : P p)
    (ht : nodeAt child root p = some t)
    (hother : ∀ s j, Reaches child root P s → s ≠ t ∨ j ≠ i → child' s j = child s j)
    (hq : P q) (hsuffix : ¬(i :: p) <:+ q) :
    nodeAt child' root q = nodeAt child root q := by
  induction q with
  | nil => rfl
  | cons j q ih =>
    have hq' := hP j q hq
    have hnot : ¬(i :: p) <:+ q := fun hbad => hsuffix (hbad.trans (List.suffix_cons j q))
    rw [nodeAt, nodeAt, ih hq' hnot]
    cases hs : nodeAt child root q with
    | none => rfl
    | some s =>
      rw [Option.bind_some, Option.bind_some]
      refine hother s j ⟨q, hq', hs⟩ ?_
      by_cases hst : s = t
      · right
        rintro rfl
        rw [hst] at hs
        rw [hun q p t hq' hp hs ht] at hsuffix
        exact hsuffix (List.suffix_refl _)
      · exact Or.inl hst

/-- The node with the changed pointer stays where it is. -/
theorem nodeAt_changed (hP : TailClosed P) (hun : Unshared child root P) (hp : P p)
    (ht : nodeAt child root p = some t)
    (hother : ∀ s j, Reaches child root P s → s ≠ t ∨ j ≠ i → child' s j = child s j) :
    nodeAt child' root p = some t := by
  rw [nodeAt_of_not_suffix hP hun hp ht hother hp, ht]
  intro hbad
  have hlen := hbad.length_le
  simp at hlen

section Decidable

variable [DecidableEq ι]

/-- A pointer to a new node without children is set. -/
theorem nodeAt_graft (hP : TailClosed P) (hun : Unshared child root P) (hp : P p)
    (ht : nodeAt child root p = some t) (hnone : child t i = none)
    (hother : ∀ s j, Reaches child root P s → s ≠ t ∨ j ≠ i → child' s j = child s j)
    (hset : child' t i = some f) (hleaf : ∀ j, child' f j = none) (hq : P q) :
    nodeAt child' root q = if q = i :: p then some f else nodeAt child root q := by
  have hp' := nodeAt_changed hP hun hp ht hother
  have hnew : nodeAt child' root (i :: p) = some f := by rw [nodeAt_cons hp', hset]
  have hold : nodeAt child root (i :: p) = none := by rw [nodeAt_cons ht, hnone]
  by_cases hsuffix : (i :: p) <:+ q
  · rcases hsuffix with ⟨r, rfl⟩
    by_cases hr : r = []
    · rw [hr, List.nil_append, if_pos rfl, hnew]
    · -- below the new node there is nothing, now as before
      have hne : r ++ i :: p ≠ i :: p := by
        intro hbad
        exact hr (List.append_left_eq_self.mp hbad)
      rw [if_neg hne, nodeAt_append_none hold]
      rcases List.eq_nil_or_concat r with hnil | ⟨r', j, rfl⟩
      · exact absurd hnil hr
      · rw [List.concat_eq_append, List.append_assoc]
        apply nodeAt_append_none
        rw [List.singleton_append, nodeAt_cons hnew, hleaf]
  · rw [nodeAt_of_not_suffix hP hun hp ht hother hq hsuffix, if_neg]
    rintro rfl
    exact hsuffix (List.suffix_refl _)

/-- A pointer at the end of the paths that count is changed. -/
theorem nodeAt_setLeaf (hP : TailClosed P) (hun : Unshared child root P) (hp : P p)
    (ht : nodeAt child root p = some t) (hend : ∀ j, ¬P (j :: i :: p))
    (hother : ∀ s j, Reaches child root P s → s ≠ t ∨ j ≠ i → child' s j = child s j)
    (hq : P q) :
    nodeAt child' root q = if q = i :: p then child' t i else nodeAt child root q := by
  have hp' := nodeAt_changed hP hun hp ht hother
  by_cases hsuffix : (i :: p) <:+ q
  · rcases hsuffix with ⟨r, rfl⟩
    rcases List.eq_nil_or_concat r with rfl | ⟨r', j, rfl⟩
    · rw [List.nil_append, if_pos rfl, nodeAt_cons hp']
    · rw [List.concat_eq_append, List.append_assoc] at hq
      exact absurd (hP.of_append r' hq) (hend j)
  · rw [nodeAt_of_not_suffix hP hun hp ht hother hq hsuffix, if_neg]
    rintro rfl
    exact hsuffix (List.suffix_refl _)

/-- One path leads to a node that no path led to, the others lead where they led. -/
theorem Unshared.add (h : Unshared child root P) (hf : ¬Reaches child root P f)
    (hnode : ∀ q, P q → nodeAt child' root q =
      if q = p then some f else nodeAt child root q) : Unshared child' root P := by
  intro q r g hq hr hqg hrg
  rw [hnode q hq] at hqg
  rw [hnode r hr] at hrg
  by_cases hqp : q = p
  · by_cases hrp : r = p
    · rw [hqp, hrp]
    · rw [if_pos hqp, Option.some.injEq] at hqg
      rw [if_neg hrp, ← hqg] at hrg
      exact absurd ⟨r, hr, hrg⟩ hf
  · rw [if_neg hqp] at hqg
    by_cases hrp : r = p
    · rw [if_pos hrp, Option.some.injEq] at hrg
      rw [← hrg] at hqg
      exact absurd ⟨q, hq, hqg⟩ hf
    · rw [if_neg hrp] at hrg
      exact h q r g hq hr hqg hrg

/-- One path leads nowhere, the others lead where they led. -/
theorem Unshared.remove (h : Unshared child root P)
    (hnode : ∀ q, P q → nodeAt child' root q =
      if q = p then none else nodeAt child root q) : Unshared child' root P := by
  intro q r g hq hr hqg hrg
  rw [hnode q hq] at hqg
  rw [hnode r hr] at hrg
  by_cases hqp : q = p
  · rw [if_pos hqp] at hqg
    cases hqg
  · by_cases hrp : r = p
    · rw [if_pos hrp] at hrg
      cases hrg
    · rw [if_neg hqp] at hqg
      rw [if_neg hrp] at hrg
      exact h q r g hq hr hqg hrg

/-- What is reached after a node was added. -/
theorem reaches_add (hp : P p) (hnone : nodeAt child root p = none)
    (hnode : ∀ q, P q → nodeAt child' root q =
      if q = p then some f else nodeAt child root q) {g : ν} :
    Reaches child' root P g ↔ g = f ∨ Reaches child root P g := by
  constructor
  · rintro ⟨q, hq, hqg⟩
    rw [hnode q hq] at hqg
    by_cases hqp : q = p
    · rw [if_pos hqp, Option.some.injEq] at hqg
      exact Or.inl hqg.symm
    · rw [if_neg hqp] at hqg
      exact Or.inr ⟨q, hq, hqg⟩
  · rintro (rfl | ⟨q, hq, hqg⟩)
    · exact ⟨p, hp, by rw [hnode p hp, if_pos rfl]⟩
    · have hqp : q ≠ p := by
        rintro rfl
        rw [hnone] at hqg
        cases hqg
      exact ⟨q, hq, by rw [hnode q hq, if_neg hqp, hqg]⟩

/-- What is reached after a node was removed. -/
theorem reaches_remove (h : Unshared child root P) (hp : P p)
    (hf : nodeAt child root p = some f)
    (hnode : ∀ q, P q → nodeAt child' root q =
      if q = p then none else nodeAt child root q) {g : ν} :
    Reaches child' root P g ↔ g ≠ f ∧ Reaches child root P g := by
  constructor
  · rintro ⟨q, hq, hqg⟩
    rw [hnode q hq] at hqg
    by_cases hqp : q = p
    · rw [if_pos hqp] at hqg
      cases hqg
    · rw [if_neg hqp] at hqg
      refine ⟨?_, q, hq, hqg⟩
      rintro rfl
      exact hqp (h q p g hq hp hqg hf)
  · rintro ⟨hgf, q, hq, hqg⟩
    have hqp : q ≠ p := by
      rintro rfl
      rw [hf, Option.some.injEq] at hqg
      exact hgf hqg.symm
    exact ⟨q, hq, by rw [hnode q hq, if_neg hqp, hqg]⟩

end Decidable

end Tree

end Foundations
