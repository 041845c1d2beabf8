import Mathlib.Data.Set.Basic
import Mathlib.Logic.Function.Basic
import Mathlib.Algebra.Order.Group.Nat
import Mathlib.Algebra.Ring.Nat

/-!
# Tables of versioned slots

A table has slots.  A slot is empty or holds a row, and it carries a generation: a
number that goes up by one whenever the slot loses its row, and wraps at `N`.  New
slots may appear at any time.

A reference is a slot together with the generation it had when the reference was
taken.  The two results are the two halves of what references are for: one that was
taken from a row is valid as long as the row is there, and once the row is gone it
stays invalid, whatever the slot is used for afterwards, until the generation has
gone all the way round.
-/

namespace Versioned

/-- A table: its slots, the row of each, and the generation of each. -/
structure Table (ι α : Type) where
  slots : Set ι
  row : ι → Option α
  gen : ι → Nat

/-- What may happen to a table. -/
inductive Event (ι α : Type)
  | keep
  | put (i : ι) (a : α)
  | replace (i : ι) (a : α)
  | remove (i : ι)
  | clear

variable {ι α : Type} [DecidableEq ι] {N : Nat} {T T' T'' : Table ι α} {i : ι}

/-- The table after an event. -/
def Table.after (N : Nat) (T : Table ι α) : Event ι α → Table ι α
  | .keep => T
  | .put i a => { T with row := Function.update T.row i (some a) }
  | .replace i a => { T with row := Function.update T.row i (some a) }
  | .remove i =>
      { T with
        row := Function.update T.row i none
        gen := Function.update T.gen i ((T.gen i + 1) % N) }
  | .clear => { T with row := fun _ => none, gen := fun i => (T.gen i + 1) % N }

omit [DecidableEq ι] in
/-- A row is put into an empty slot; one that is replaced or removed is there. -/
def Event.Enabled (T : Table ι α) : Event ι α → Prop
  | .put i _ => T.row i = none
  | .replace i _ | .remove i => T.row i ≠ none
  | .keep | .clear => True

omit [DecidableEq ι] in
/-- `T'` is `T` with more slots, all of them empty. -/
structure Grows (T T' : Table ι α) : Prop where
  slots : T.slots ⊆ T'.slots
  row : T'.row = T.row
  gen : ∀ i ∈ T.slots, T'.gen i = T.gen i

omit [DecidableEq ι] in
/-- A table that has grown by nothing. -/
theorem Grows.refl (T : Table ι α) : Grows T T := ⟨subset_rfl, rfl, fun _ _ => rfl⟩

/-- The slots that have appeared make no difference to an event. -/
theorem Grows.after (h : Grows T T') (e : Event ι α) : Grows (T.after N e) (T'.after N e) := by
  constructor
  case slots => cases e <;> exact h.slots
  case row => cases e <;> simp [Table.after, h.row]
  case gen =>
    cases e with
    | keep => exact h.gen
    | put j a => exact h.gen
    | replace j a => exact h.gen
    | remove j =>
        intro i hi
        by_cases hj : i = j
        · subst hj
          simp [Table.after, h.gen i hi]
        · simp [Table.after, hj, h.gen i hi]
    | clear =>
        intro i hi
        simp [Table.after, h.gen i hi]

/-- How often an event takes the row of slot `i` away. -/
def Event.bumps (i : ι) : Event ι α → Nat
  | .remove j => if j = i then 1 else 0
  | .clear => 1
  | .keep | .put .. | .replace .. => 0

/-- The number of bumps of slot `i` in a history. -/
def bumps (i : ι) (es : List (Event ι α)) : Nat := (es.map (Event.bumps i)).sum

/-- The tables that events lead to, the latest event first.  Slots may appear after
each of them. -/
inductive Run (N : Nat) (T : Table ι α) : List (Event ι α) → Table ι α → Prop
  | refl : Run N T [] T
  | step {es : List (Event ι α)} {T' T'' : Table ι α} {e : Event ι α} (before : Run N T es T')
      (enabled : e.Enabled T') (grows : Grows (T'.after N e) T'') : Run N T (e :: es) T''

/-- The reference of slot `i` at generation `g` is valid. -/
def Table.Valid (T : Table ι α) (i : ι) (g : Nat) : Prop := T.row i ≠ none ∧ T.gen i = g

/-- An event makes no slot. -/
@[simp] theorem after_slots (e : Event ι α) : (T.after N e).slots = T.slots := by
  cases e <;> rfl

/-- The generation counts the events that bump it. -/
theorem after_gen (e : Event ι α) (hlt : T.gen i < N) :
    (T.after N e).gen i = (T.gen i + e.bumps i) % N := by
  cases e with
  | remove j =>
      by_cases hj : j = i
      · subst hj
        simp [Table.after, Event.bumps]
      · have hi : i ≠ j := fun h => hj h.symm
        simp [Table.after, Event.bumps, hj, hi, Nat.mod_eq_of_lt hlt]
  | clear => rfl
  | keep => exact (Nat.mod_eq_of_lt hlt).symm
  | put j a => exact (Nat.mod_eq_of_lt hlt).symm
  | replace j a => exact (Nat.mod_eq_of_lt hlt).symm

/-- A slot keeps a row as long as nothing bumps it. -/
theorem after_row (e : Event ι α) (he : e.bumps i = 0) (hrow : T.row i ≠ none) :
    (T.after N e).row i ≠ none := by
  have hput : ∀ j a, Function.update T.row j (some a) i ≠ none := by
    intro j a
    by_cases hj : i = j
    · subst hj
      simp
    · simpa [hj] using hrow
  cases e with
  | keep => exact hrow
  | put j a => exact hput j a
  | replace j a => exact hput j a
  | remove j =>
      have hj : j ≠ i := by
        intro h
        simp [Event.bumps, h] at he
      simpa [Table.after, hj.symm] using hrow
  | clear => cases he

/-- Slots stay. -/
theorem Run.slots (h : Run N T es T') (hi : i ∈ T.slots) : i ∈ T'.slots := by
  induction h with
  | refl => exact hi
  | step _ _ grows ih =>
      apply grows.slots
      rw [after_slots]
      exact ih

/-- The generation of a slot counts how often it lost its row. -/
theorem Run.gen (h : Run N T es T') (hi : i ∈ T.slots) (hlt : T.gen i < N) :
    T'.gen i = (T.gen i + bumps i es) % N := by
  induction h with
  | refl => exact (Nat.mod_eq_of_lt hlt).symm
  | @step es T' T'' e before _ grows ih =>
      have hlt' : T'.gen i < N := by
        rw [ih]
        exact Nat.mod_lt _ (by omega)
      have hstep : T''.gen i = (T'.after N e).gen i := by
        apply grows.gen
        rw [after_slots]
        exact before.slots hi
      have hsum : bumps i (e :: es) = e.bumps i + bumps i es := rfl
      rw [hstep, after_gen e hlt', ih, hsum, Nat.mod_add_mod]
      congr 1
      omega

/-- A row stays while its generation does. -/
theorem Run.row (h : Run N T es T') (hes : bumps i es = 0) (hrow : T.row i ≠ none) :
    T'.row i ≠ none := by
  induction h with
  | refl => exact hrow
  | @step es T' T'' e _ _ grows ih =>
      have hsum : bumps i (e :: es) = e.bumps i + bumps i es := rfl
      rw [grows.row]
      exact after_row e (by omega) (ih (by omega))

/-- **References stay valid as long as their row is there.** -/
theorem Run.valid (h : Run N T es T') {g : Nat} (hi : i ∈ T.slots) (hg : g < N)
    (hvalid : T.Valid i g) (hes : bumps i es = 0) : T'.Valid i g := by
  obtain ⟨hrow, rfl⟩ := hvalid
  refine ⟨h.row hes hrow, ?_⟩
  rw [h.gen hi hg, hes]
  exact Nat.mod_eq_of_lt hg

/-- **References of rows that are gone stay invalid**, as long as the generation has
not gone all the way round. -/
theorem Run.stale (h : Run N T es T') {g : Nat} (hi : i ∈ T.slots) (hg : g < N)
    (hvalid : T.Valid i g) (hpos : 0 < bumps i es) (hlt : bumps i es < N) : ¬ T'.Valid i g := by
  obtain ⟨-, rfl⟩ := hvalid
  intro hvalid'
  have hgen := h.gen hi hg
  rw [hvalid'.2] at hgen
  have hmod : (T.gen i + bumps i es) % N = T.gen i := hgen.symm
  rcases Nat.lt_or_ge (T.gen i + bumps i es) N with hsmall | hbig
  · rw [Nat.mod_eq_of_lt hsmall] at hmod
    omega
  · rw [Nat.mod_eq_sub_mod hbig, Nat.mod_eq_of_lt (by omega)] at hmod
    omega

end Versioned
