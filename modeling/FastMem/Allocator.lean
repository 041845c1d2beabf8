import Mathlib.Data.List.Nodup
import Mathlib.Data.List.Perm.Basic
import Mathlib.Tactic.Common

/-!
# Programs over an allocator that may refuse

A program asks for blocks and gives blocks back.  A block is named by the number of the
request that it answers.  Which requests are granted is fixed beforehand, and a program
that follows an absent pointer faults.

`Owns g m bs` is the ledger: `m` requests were made so far, and `bs` are the blocks that
were allocated and not yet released.
-/

namespace Allocator

/-- The heap: the answers of the allocator, the requests made so far, the blocks it
allocated and the blocks that were given back. -/
structure Heap where
  grants : Nat → Bool
  requests : Nat
  allocated : List Nat
  released : List Nat

/-- No request has been made. -/
def Heap.fresh (grants : Nat → Bool) : Heap := ⟨grants, 0, [], []⟩

/-- A program over the heap; `none` is a fault. -/
abbrev Alloc := StateT Heap Option

/-- What request number `m` returns. -/
def granted (g : Nat → Bool) (m : Nat) : Option Nat := if g m then some m else none

/-- Ask for a block. -/
def alloc : Alloc (Option Nat) := fun h =>
  let r := granted h.grants h.requests
  some (r, { h with requests := h.requests + 1, allocated := r.toList ++ h.allocated })

/-- Give a block back. -/
def dealloc (b : Nat) : Alloc Unit := fun h => some ((), { h with released := b :: h.released })

/-- Give a block back unless the pointer is null. -/
def deallocIf : Option Nat → Alloc Unit
  | none => pure ()
  | some b => dealloc b

variable {α β σ : Type}

/-- Follow a pointer. -/
def deref (p : Option α) : Alloc α := fun h => p.map fun a => (a, h)

/-- The loop `for (k= 0; k < n; k++)` over `body`. -/
def rounds (body : Nat → σ → Alloc σ) : Nat → σ → Alloc σ
  | 0, s => pure s
  | n + 1, s => rounds body n s >>= body n

/-- From every heap that satisfies `P`, `x` runs without a fault and ends as `Q` says. -/
def Does (P : Heap → Prop) (x : Alloc α) (Q : α → Heap → Prop) : Prop :=
  ∀ h, P h → ∃ a h', x h = some (a, h') ∧ Q a h'

/-- From every heap `x` faults. -/
def Faults (x : Alloc α) : Prop := ∀ h, x h = none

/-- One program after another, on the heap the one before leaves. -/
theorem bind_run (x : Alloc α) (f : α → Alloc β) (h : Heap) :
    (x >>= f) h = (x h).bind fun r => f r.1 r.2 := rfl

/-- A pointer that is there is read. -/
@[simp] theorem deref_some (a : α) : deref (some a) = pure a := rfl

/-- A null pointer faults. -/
theorem deref_none : Faults (deref (none : Option α)) := fun _ => rfl

section Rules

variable {P : Heap → Prop} {Q : α → Heap → Prop} {R : β → Heap → Prop}

/-- A result leaves the heap alone. -/
theorem Does.pure {a : α} (h : ∀ h, P h → Q a h) : Does P (pure a) Q :=
  fun h₀ hP => ⟨a, h₀, rfl, h h₀ hP⟩

/-- What one program does after another. -/
theorem Does.bind {x : Alloc α} {f : α → Alloc β} (hx : Does P x Q) (hf : ∀ a, Does (Q a) (f a) R) :
    Does P (x >>= f) R := by
  intro h hP
  obtain ⟨a, h₁, hrun, hQ⟩ := hx h hP
  obtain ⟨b, h₂, hrun', hR⟩ := hf a h₁ hQ
  exact ⟨b, h₂, by rw [bind_run, hrun]; exact hrun', hR⟩

/-- What a program does may be said of less, and more weakly. -/
theorem Does.imp {P' : Heap → Prop} {Q' : α → Heap → Prop} {x : Alloc α} (hx : Does P x Q)
    (hP : ∀ h, P' h → P h) (hQ : ∀ a h, Q a h → Q' a h) : Does P' x Q' := by
  intro h hP'
  obtain ⟨a, h', hrun, h₁⟩ := hx h (hP h hP')
  exact ⟨a, h', hrun, hQ a h' h₁⟩

/-- What is known besides the heap goes to the context. -/
theorem Does.given {p : Prop} {x : Alloc α} (hx : p → Does P x Q) : Does (fun h => p ∧ P h) x Q :=
  fun h hP => hx hP.1 h hP.2

/-- What every round of a loop carries on holds after the loop. -/
theorem Does.rounds {body : Nat → σ → Alloc σ} {I : Nat → σ → Heap → Prop} {n : Nat} {s : σ}
    (hbody : ∀ k < n, ∀ s, Does (I k s) (body k s) (I (k + 1))) : Does (I 0 s)
    (rounds body n s) (I n) := by
  induction n with
  | zero => exact Does.pure fun _ h => h
  | succ n ih =>
    have hbefore : Does (I 0 s) (Allocator.rounds body n s) (I n) :=
      ih fun k hk => hbody k (by omega)
    exact hbefore.bind fun s' => hbody n (by omega) s'

/-- A loop whose first round faults faults. -/
theorem Faults.rounds {body : Nat → σ → Alloc σ} {n : Nat} (hn : 0 < n) {s : σ}
    (h : Faults (body 0 s)) : Faults (rounds body n s) := by
  induction n with
  | zero => omega
  | succ n ih =>
    intro h₀
    rw [Allocator.rounds, bind_run]
    by_cases hn : n = 0
    · subst hn
      exact h h₀
    · rw [ih (by omega) h₀]
      rfl

/-- What faults goes no further. -/
theorem Faults.bind {x : Alloc α} (h : Faults x) (f : α → Alloc β) : Faults (x >>= f) := by
  intro h₀
  rw [bind_run, h h₀]
  rfl

/-- What follows a program that runs through faults if it faults after it. -/
theorem Does.faults {x : Alloc α} {f : α → Alloc β} (hx : Does P x Q)
    (hf : ∀ a h, Q a h → f a h = none) {h : Heap} (hP : P h) : (x >>= f) h = none := by
  obtain ⟨a, h', hrun, hQ⟩ := hx h hP
  rw [bind_run, hrun]
  exact hf a h' hQ

end Rules

/-- From every heap `x` runs without a fault. -/
def Safe (x : Alloc α) : Prop := Does (fun _ => True) x fun _ _ => True

/-- A result does not fault. -/
theorem Safe.pure (a : α) : Safe (pure a : Alloc α) := Does.pure fun _ _ => trivial

theorem Safe.bind {x : Alloc α} {f : α → Alloc β} (hx : Safe x) (hf : ∀ a, Safe (f a)) :
    Safe (x >>= f) :=
  Does.bind hx hf

theorem Safe.rounds {body : Nat → σ → Alloc σ} {n : Nat} {s : σ}
    (hbody : ∀ k < n, ∀ s, Safe (body k s)) : Safe (rounds body n s) :=
  Does.rounds (I := fun _ _ _ => True) hbody

/-- An allocation does not fault, granted or not. -/
theorem safe_alloc : Safe alloc := fun _ _ => ⟨_, _, rfl, trivial⟩

theorem safe_dealloc (b : Nat) : Safe (dealloc b) := fun _ _ => ⟨(), _, rfl, trivial⟩

theorem safe_deallocIf (p : Option Nat) : Safe (deallocIf p) := by
  cases p with
  | none => exact Safe.pure ()
  | some b => exact safe_dealloc b

/-- The ledger of a heap. -/
structure Owns (g : Nat → Bool) (m : Nat) (bs : List Nat) (h : Heap) : Prop where
  grants : h.grants = g
  requests : h.requests = m
  ledger : h.allocated.Perm (bs ++ h.released)
  nodup : h.allocated.Nodup
  below : ∀ b ∈ h.allocated, b < m

variable {g : Nat → Bool} {m : Nat} {bs : List Nat}

/-- Nothing is owned on a fresh heap. -/
theorem Owns.fresh (g : Nat → Bool) : Owns g 0 [] (Heap.fresh g) :=
  ⟨rfl, rfl, List.Perm.refl _, List.nodup_nil, by simp [Heap.fresh]⟩

/-- The order of what is owned does not matter. -/
theorem Owns.perm {bs' : List Nat} {h : Heap} (ho : Owns g m bs h) (hp : bs.Perm bs') :
    Owns g m bs' h :=
  { ho with ledger := ho.ledger.trans (hp.append_right _) }

/-- When nothing is owned any more, every block was given back exactly once. -/
theorem Owns.released_once {h : Heap} (ho : Owns g m [] h) :
    (∀ b ∈ h.allocated, h.released.count b = 1) ∧ ∀ b ∈ h.released, b ∈ h.allocated := by
  have hperm : h.allocated.Perm h.released := ho.ledger
  refine ⟨fun b hb => ?_, fun b hb => hperm.mem_iff.mpr hb⟩
  have hone : h.allocated.count b = 1 := List.count_eq_one_of_mem ho.nodup hb
  rw [← hperm.count_eq]
  exact hone

/-- What is granted is owned. -/
theorem alloc_owns : Does (Owns g m bs) alloc
    (fun r h => r = granted g m ∧ Owns g (m + 1) ((granted g m).toList ++ bs) h) := by
  intro h ho
  refine ⟨granted g m, _, by rw [alloc, ho.grants, ho.requests], rfl, ?_⟩
  have hperm : ((granted g m).toList ++ h.allocated).Perm (((granted g m).toList ++ bs) ++
      h.released) := by
    rw [List.append_assoc]
    exact ho.ledger.append_left _
  have hlt : ∀ b ∈ (granted g m).toList, b = m := by
    intro b hb
    unfold granted at hb
    split at hb <;> simp_all
  refine ⟨rfl, rfl, hperm, ?_, ?_⟩
  · unfold granted
    split
    · have hnew : m ∉ h.allocated := fun hm => absurd (ho.below m hm) (by omega)
      exact List.nodup_cons.mpr ⟨hnew, ho.nodup⟩
    · exact ho.nodup
  · intro b hb
    obtain hb | hb := List.mem_append.mp hb
    · have := hlt b hb
      omega
    · have := ho.below b hb
      omega

/-- What is released is owned no more. -/
theorem dealloc_owns {b : Nat} : Does (Owns g m (b :: bs)) (dealloc b) (fun _ => Owns g m bs) := by
  intro h ho
  have hperm : h.allocated.Perm (bs ++ b :: h.released) := ho.ledger.trans List.perm_middle.symm
  exact ⟨(), _, rfl, ⟨ho.grants, ho.requests, hperm, ho.nodup, ho.below⟩⟩

theorem deallocIf_owns {p : Option Nat} :
    Does (Owns g m (p.toList ++ bs)) (deallocIf p) (fun _ => Owns g m bs) := by
  cases p with
  | none => exact Does.pure fun _ h => h
  | some b => exact dealloc_owns

/-- A loop each of whose rounds releases its own blocks releases the blocks of all rounds. -/
theorem rounds_releases {body : Nat → Unit → Alloc Unit} {blocks : Nat → List Nat} {n : Nat}
    (hbody : ∀ k < n, ∀ bs, Does (Owns g m (blocks k ++ bs)) (body k ()) (fun _ => Owns g m bs)) :
    Does (Owns g m ((List.range n).flatMap blocks ++ bs)) (rounds body n ())
      (fun _ => Owns g m bs) := by
  induction n generalizing bs with
  | zero => exact Does.pure fun _ h => h
  | succ n ih =>
    have hbefore : Does (Owns g m ((List.range n).flatMap blocks ++ (blocks n ++ bs)))
        (rounds body n ()) (fun _ => Owns g m (blocks n ++ bs)) := ih fun k hk => hbody k (by omega)
    have hall : Does _ (rounds body (n + 1) ()) (fun _ => Owns g m bs) :=
      hbefore.bind fun _ => hbody n (by omega) bs
    refine hall.imp (fun h ho => ?_) fun _ _ h => h
    rwa [List.range_succ, List.flatMap_append, List.flatMap_singleton, List.append_assoc] at ho

end Allocator
