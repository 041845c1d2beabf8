import Mathlib.Data.List.Nodup
import Mathlib.Logic.Function.Basic

/-!
# Chains of cells

A chain is a singly linked list in cells: a first cell, and for every cell the
one after it, with a special value `nil` where it ends.  `IsChain nil next h L`
says that the chain from `h` is finite and that `L` lists its cells.  The list is
determined by the cells, and it repeats nothing: a walk that came back to a cell
would never end.

The three stores a program makes to a chain are covered: putting a cell in front,
taking the first cell off, and taking a later cell off by redirecting the cell
before it.
-/

namespace Conc

variable {α : Type} [DecidableEq α]

/-- The chain from `h` along `next` is finite, and its cells are `L`. -/
def IsChain (nil : α) (next : α → α) (h : α) : List α → Prop
  | [] => h = nil
  | a :: L => h = a ∧ a ≠ nil ∧ IsChain nil next (next a) L

variable {nil h : α} {next : α → α} {L L' : List α}

/-- Whether a list is the chain can be tested. -/
instance IsChain.decidable (nil : α) (next : α → α) :
    (h : α) → (L : List α) → Decidable (IsChain nil next h L)
  | h, [] => inferInstanceAs (Decidable (h = nil))
  | h, a :: L =>
      have := IsChain.decidable nil next (next a) L
      inferInstanceAs (Decidable (h = a ∧ a ≠ nil ∧ IsChain nil next (next a) L))

omit [DecidableEq α] in
/-- An empty chain is its end. -/
@[simp] theorem isChain_nil : IsChain nil next h [] ↔ h = nil := Iff.rfl

omit [DecidableEq α] in
/-- A chain is a slot and the chain behind it. -/
@[simp] theorem isChain_cons {a : α} :
    IsChain nil next h (a :: L) ↔ h = a ∧ a ≠ nil ∧ IsChain nil next (next a) L := Iff.rfl

omit [DecidableEq α] in
/-- The cells of a chain are determined. -/
theorem IsChain.unique (hL : IsChain nil next h L) (hL' : IsChain nil next h L') : L = L' := by
  induction L generalizing h L' with
  | nil =>
      cases L' with
      | nil => rfl
      | cons a L' => exact absurd (hL'.1.symm.trans hL) hL'.2.1
  | cons a L ih =>
      cases L' with
      | nil => exact absurd (hL.1.symm.trans hL') hL.2.1
      | cons a' L' =>
          obtain ⟨rfl, -, hrest⟩ := hL
          obtain ⟨rfl, -, hrest'⟩ := hL'
          rw [ih hrest hrest']

omit [DecidableEq α] in
/-- No cell of a chain is `nil`. -/
theorem IsChain.ne_nil (hL : IsChain nil next h L) {a : α} (ha : a ∈ L) : a ≠ nil := by
  induction L generalizing h with
  | nil => cases ha
  | cons b L ih =>
      rcases List.mem_cons.mp ha with rfl | ha
      · exact hL.2.1
      · exact ih hL.2.2 ha

omit [DecidableEq α] in
/-- The rest of a chain is the chain from its first cell on. -/
theorem IsChain.suffix {pre : List α} {a : α} (hL : IsChain nil next h (pre ++ a :: L)) :
    IsChain nil next a (a :: L) := by
  induction pre generalizing h with
  | nil =>
      obtain ⟨rfl, hne, hrest⟩ := hL
      exact ⟨rfl, hne, hrest⟩
  | cons b pre ih => exact ih hL.2.2

omit [DecidableEq α] in
/-- A finite chain repeats no cell. -/
theorem IsChain.nodup (hL : IsChain nil next h L) : L.Nodup := by
  induction L generalizing h with
  | nil => exact List.nodup_nil
  | cons a L ih =>
      refine List.nodup_cons.mpr ⟨fun hmem => ?_, ih hL.2.2⟩
      -- the chain from `a` would be a proper part of itself
      obtain ⟨pre, post, rfl⟩ := List.append_of_mem hmem
      have hinner : IsChain nil next a (a :: post) := hL.2.2.suffix
      have houter : IsChain nil next a (a :: (pre ++ a :: post)) := ⟨rfl, hL.2⟩
      have hlen := congrArg List.length (houter.unique hinner)
      simp at hlen
      omega

omit [DecidableEq α] in
/-- Cells outside a chain do not matter to it. -/
theorem IsChain.congr {next' : α → α} (hL : IsChain nil next h L)
    (heq : ∀ a ∈ L, next' a = next a) : IsChain nil next' h L := by
  induction L generalizing h with
  | nil => exact hL
  | cons a L ih =>
      refine ⟨hL.1, hL.2.1, ?_⟩
      rw [heq a List.mem_cons_self]
      exact ih hL.2.2 fun b hb => heq b (List.mem_cons_of_mem _ hb)

/-- The link of a slot that is not in the chain does not matter. -/
theorem IsChain.update (hL : IsChain nil next h L) {i : α} (hi : i ∉ L) (v : α) :
    IsChain nil (Function.update next i v) h L := by
  refine hL.congr fun a ha => Function.update_of_ne ?_ _ _
  intro heq
  exact hi (heq ▸ ha)

/-- Putting a cell in front of a chain it is not in. -/
theorem IsChain.push (hL : IsChain nil next h L) {i : α} (hi : i ∉ L) (hne : i ≠ nil) :
    IsChain nil (Function.update next i h) i (i :: L) := by
  refine ⟨rfl, hne, ?_⟩
  rw [Function.update_self]
  exact hL.update hi h

/-- Redirecting a cell of a chain to another chain that it is not in. -/
theorem IsChain.redirect {pre post M : List α} {i x : α}
    (hL : IsChain nil next h (pre ++ i :: post)) (hM : IsChain nil next x M) (hi : i ∉ M) :
    IsChain nil (Function.update next i x) h (pre ++ i :: M) := by
  have hnd := hL.nodup
  induction pre generalizing h with
  | nil =>
      obtain ⟨rfl, hne, -⟩ := hL
      refine ⟨rfl, hne, ?_⟩
      rw [Function.update_self]
      exact hM.update hi x
  | cons b pre ih =>
      obtain ⟨rfl, hne, hrest⟩ := hL
      refine ⟨rfl, hne, ?_⟩
      have hb : h ≠ i := by
        rintro rfl
        exact (List.nodup_cons.mp hnd).1 (by simp)
      rw [Function.update_of_ne hb]
      exact ih hrest hrest.nodup

/-- Taking a cell off by redirecting the cell before it. -/
theorem IsChain.cut {pre post : List α} {p i : α}
    (hL : IsChain nil next h (pre ++ p :: i :: post)) :
    IsChain nil (Function.update next p (next i)) h (pre ++ p :: post) := by
  have hafter : IsChain nil next (next p) (i :: post) := hL.suffix.2.2
  have hp : p ∉ i :: post := (List.nodup_cons.mp hL.suffix.nodup).1
  exact hL.redirect hafter.2.2 fun hmem => hp (List.mem_cons_of_mem _ hmem)

omit [DecidableEq α] in
/-- A chain begins with its first cell. -/
theorem IsChain.head_eq (hL : IsChain nil next h L) : h = L.headD nil := by
  cases L with
  | nil => exact hL
  | cons a L => exact hL.1

omit [DecidableEq α] in
/-- The cell that a part of a chain points at. -/
theorem IsChain.after {pre post : List α} {p : α} (hL : IsChain nil next h (pre ++ p :: post)) :
    IsChain nil next (next p) post :=
  hL.suffix.2.2

end Conc
