import Mathlib.Data.Set.Card
import Mathlib.Data.Set.Finite.Lattice

/-!
# Counting references

A map `ref` says for every possible holder which object it holds a reference to, if any.
Taking a reference and dropping one change the number of holders of that object by one,
and of no other.
-/

namespace RefCount

variable {ι σ : Type} {ref : ι → Option σ} {i : ι} {x y : σ}

/-- The holders of a reference to `x`. -/
def holders (ref : ι → Option σ) (x : σ) : Set ι := {i | ref i = some x}

/-- Finitely many hold a reference at all. -/
def Finitely (ref : ι → Option σ) : Prop := {i | ref i ≠ none}.Finite

/-- How many hold a reference to `x`. -/
noncomputable def count (ref : ι → Option σ) (x : σ) : Nat := (holders ref x).ncard

/-- Finitely many hold a thing. -/
theorem Finitely.holders (h : Finitely ref) (x : σ) : (holders ref x).Finite := by
  refine h.subset fun i hi => ?_
  have hi : ref i = some x := hi
  show ref i ≠ none
  simp [hi]

/-- What is held has a count. -/
theorem count_pos (h : Finitely ref) (hi : ref i = some x) : 0 < count ref x :=
  (Set.ncard_pos (h.holders x)).mpr ⟨i, hi⟩

/-- What nobody holds has none. -/
theorem count_eq_zero (hnone : ∀ i, ref i ≠ some x) : count ref x = 0 := by
  have hempty : holders ref x = ∅ := Set.eq_empty_of_forall_notMem hnone
  rw [count, hempty, Set.ncard_empty]

/-- If every holder belongs to one client, and a client has one holder at most, the clients
hold what the holders hold. -/
theorem count_bind {τ : Type} {own : τ → Option ι} (hown : ∀ i, ref i ≠ none → ∃ t, own t = some i)
    (hone : ∀ t t' i, own t = some i → own t' = some i → t = t') (x : σ) :
    count (fun t => (own t).bind ref) x = count ref x := by
  have hsome : ∀ t, t ∈ holders (fun t => (own t).bind ref) x → ∃ i, own t = some i ∧
      ref i = some x := fun t ht =>
    Option.bind_eq_some_iff.mp ht
  refine Set.ncard_congr (fun t ht => (hsome t ht).choose)
    (fun t ht => (hsome t ht).choose_spec.2) ?_ ?_
  · intro t t' ht ht' heq
    have hi := (hsome t ht).choose_spec.1
    rw [heq] at hi
    exact hone t t' _ hi (hsome t' ht').choose_spec.1
  · intro i hi
    have hi : ref i = some x := hi
    obtain ⟨t, ht⟩ := hown i (by simp [hi])
    have hmem : t ∈ holders (fun t => (own t).bind ref) x := Option.bind_eq_some_iff.mpr ⟨i, ht, hi⟩
    refine ⟨t, hmem, ?_⟩
    exact Option.some.inj ((hsome t hmem).choose_spec.1.symm.trans ht)

/-- Then finitely many clients hold something. -/
theorem Finitely.bind {τ : Type} {own : τ → Option ι} (h : Finitely ref)
    (hone : ∀ t t' i, own t = some i → own t' = some i → t = t') :
    Finitely fun t => (own t).bind ref := by
  have hsub : {t | (own t).bind ref ≠ none} ⊆ ⋃ i ∈ {i | ref i ≠ none}, {t | own t = some i} := by
    intro t ht
    obtain ⟨x, hx⟩ := Option.ne_none_iff_exists'.mp ht
    obtain ⟨i, hi, hix⟩ := Option.bind_eq_some_iff.mp hx
    exact Set.mem_biUnion (show i ∈ {i | ref i ≠ none} from fun hnone => by simp [hnone] at hix) hi
  refine (Set.Finite.biUnion h fun i _ => ?_).subset hsub
  exact Set.Subsingleton.finite fun t ht t' ht' => hone t t' i ht ht'

variable [DecidableEq ι]

/-- One holder more or less. -/
theorem Finitely.update (h : Finitely ref) (i : ι) (o : Option σ) :
    Finitely (Function.update ref i o) := by
  refine (h.insert i).subset fun j hj => ?_
  by_cases hij : j = i
  · exact Or.inl hij
  · have hj : Function.update ref i o j ≠ none := hj
    rw [Function.update_of_ne hij] at hj
    exact Or.inr hj

/-- Whoever takes a reference adds one to its count. -/
theorem count_take_self (h : Finitely ref) (hi : ref i = none) :
    count (Function.update ref i (some x)) x = count ref x + 1 := by
  have hset : holders (Function.update ref i (some x)) x = insert i (holders ref x) := by
    ext j
    show Function.update ref i (some x) j = some x ↔ j = i ∨ ref j = some x
    by_cases hij : j = i
    · subst hij
      simp
    · simp [hij]
  have hnot : i ∉ holders ref x := by
    intro hmem
    have hmem : ref i = some x := hmem
    rw [hi] at hmem
    cases hmem
  rw [count, count, hset, Set.ncard_insert_of_notMem hnot (h.holders x)]

/-- Whoever drops a reference takes one off its count. -/
theorem count_drop_self (h : Finitely ref) (hi : ref i = some x) :
    count (Function.update ref i none) x + 1 = count ref x := by
  have hback : Function.update (Function.update ref i none) i (some x) = ref := by
    rw [Function.update_idem, ← hi, Function.update_eq_self]
  have htake := count_take_self (x := x) (h.update i none) (Function.update_self i none ref)
  rw [hback] at htake
  exact htake.symm

end RefCount
