import Mathlib.Data.Set.Finite.Lattice
import Mathlib.Order.Preorder.Finite

/-!
# Circular waits and lock orders

A set of waiters is circular when every member waits for a lock that another
member owns.  If every waiter waits for a lock that ranks above all locks it
owns, no finite set is circular: the waiter whose lock ranks highest would have
to be waited on by an owner that waits for something higher still.
-/

namespace Conc

variable {T K : Type} (owner : K → Option T) (waits : T → K → Prop)

/-- Every member of `D` waits for a lock that another member of `D` owns. -/
def CircularWait (D : Set T) : Prop :=
  D.Nonempty ∧ ∀ t ∈ D, ∃ l u, waits t l ∧ owner l = some u ∧ u ∈ D ∧ u ≠ t

/-- **Lock order.**  Owners that only wait for locks above all they own cannot
wait in a circle. -/
theorem not_circularWait_of_rank {ρ : Type} [LinearOrder ρ] (rank : K → ρ)
    (horder : ∀ t l l', waits t l → owner l' = some t → rank l' < rank l)
    {D : Set T} (hfin : D.Finite) : ¬ CircularWait owner waits D := by
  rintro ⟨hne, hwait⟩
  obtain ⟨t₀, ht₀⟩ := hne
  obtain ⟨l₀, -⟩ := hwait t₀ ht₀
  have : Nonempty K := ⟨l₀⟩
  have : Nonempty T := ⟨t₀⟩
  choose! l u hl using hwait
  obtain ⟨t, ht, hmax⟩ := hfin.exists_maximalFor (fun t => rank (l t)) D ⟨t₀, ht₀⟩
  obtain ⟨_, hown, hu, _⟩ := hl t ht
  have hlt : rank (l t) < rank (l (u t)) := horder (u t) _ _ (hl (u t) hu).1 hown
  exact absurd (hmax hu hlt.le) (not_le.mpr hlt)

end Conc
