import Mathlib.Logic.Function.Basic
import Mathlib.Order.Defs.LinearOrder

/-!
# Rows under unique keys

Rows sit at places.  For every key there is a relation that says which rows are the
same under it, and a set of rows that are exempt from it.  A row clashes if a row at
another place is the same under some key it is not exempt from, and a table is distinct
if none of its rows clashes.

A table that lets in no row that clashes stays distinct.  When a row of a distinct
table is replaced, only the keys under which it changes need to be looked at.
-/

namespace Keyed

variable {κ ι α : Type} (same : κ → α → α → Prop) (exempt : κ → α → Prop)

/-- Some row, not counting the one at `but`, is the same as `a` under a key that `a` is
not exempt from. -/
def Clashes (rows : ι → Option α) (a : α) (but : Option ι) : Prop :=
  ∃ k, ¬ exempt k a ∧ ∃ i b, some i ≠ but ∧ rows i = some b ∧ same k b a

/-- No row clashes with another. -/
def Distinct (rows : ι → Option α) : Prop :=
  ∀ i a, rows i = some a → ¬ Clashes same exempt rows a (some i)

variable {same exempt} {rows rows' : ι → Option α} {a b : α} {i : ι}

/-- A clash with another row is a clash. -/
theorem Clashes.to_none (h : Clashes same exempt rows a (some i)) :
    Clashes same exempt rows a none := by
  obtain ⟨k, hk, j, b, -, hrow, hsame⟩ := h
  exact ⟨k, hk, j, b, by simp, hrow, hsame⟩

/-- A row can only clash with rows that are there. -/
theorem Clashes.mono {but : Option ι} (h : Clashes same exempt rows a but)
    (hrows : ∀ j b, rows j = some b → rows' j = some b) : Clashes same exempt rows' a but := by
  obtain ⟨k, hk, j, b, hne, hrow, hsame⟩ := h
  exact ⟨k, hk, j, b, hne, hrows j b hrow, hsame⟩

/-- Fewer rows are still distinct. -/
theorem Distinct.mono (h : Distinct same exempt rows)
    (hrows : ∀ j b, rows' j = some b → rows j = some b) : Distinct same exempt rows' := by
  intro j b hrow hclash
  exact h j b (hrows j b hrow) (hclash.mono hrows)

section

variable [DecidableEq ι] (hsymm : ∀ k a b, same k a b → same k b a)
  (hexempt : ∀ k a b, same k a b → exempt k a → exempt k b)

include hsymm hexempt in
/-- A row that clashes with no other may be put in place `i`. -/
theorem Distinct.update (h : Distinct same exempt rows)
    (hno : ¬ Clashes same exempt rows a (some i)) :
    Distinct same exempt (Function.update rows i (some a)) := by
  intro j b hrow hclash
  obtain ⟨k, hk, l, c, hne, hrow', hsame⟩ := hclash
  have hjl : l ≠ j := fun heq => hne (congrArg some heq)
  by_cases hj : j = i
  · -- the new row itself: the other one was there before
    subst hj
    rw [Function.update_self] at hrow
    cases hrow
    rw [Function.update_of_ne hjl] at hrow'
    exact hno ⟨k, hk, l, c, hne, hrow', hsame⟩
  · rw [Function.update_of_ne hj] at hrow
    by_cases hl : l = i
    · -- an old row against the new one
      subst hl
      rw [Function.update_self] at hrow'
      cases hrow'
      apply hno
      refine ⟨k, fun hex => hk (hexempt k _ _ hsame hex), j, b, ?_, hrow, hsymm k _ _ hsame⟩
      exact fun heq => hj (Option.some.inj heq)
    · rw [Function.update_of_ne hl] at hrow'
      exact h j b hrow ⟨k, hk, l, c, hne, hrow', hsame⟩

end

section

variable (hsymm : ∀ k a b, same k a b → same k b a)
  (htrans : ∀ k a b c, same k a b → same k b c → same k a c)
  (hexempt : ∀ k a b, same k a b → exempt k a → exempt k b)

include hsymm htrans hexempt in
/-- In a distinct table the row that replaces another clashes, if at all, under a key
under which the two differ. -/
theorem Distinct.clashes_changed (h : Distinct same exempt rows) (hrow : rows i = some a)
    (hclash : Clashes same exempt rows b (some i)) :
    ∃ k, ¬ same k a b ∧ ¬ exempt k b ∧ ∃ j c, some j ≠ some i ∧ rows j = some c ∧ same k c b := by
  obtain ⟨k, hk, j, c, hne, hrow', hsame⟩ := hclash
  refine ⟨k, fun hab => ?_, hk, j, c, hne, hrow', hsame⟩
  apply h i a hrow
  exact ⟨k, fun hex => hk (hexempt k _ _ hab hex), j, c, hne, hrow',
    htrans k _ _ _ hsame (hsymm k _ _ hab)⟩

end

end Keyed
