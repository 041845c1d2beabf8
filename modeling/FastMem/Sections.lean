import FastMem.Threads

/-!
# Sections

Threads work on one part of the memory only while they hold one lock.  A thread that holds it
has the part to itself, so a section goes as if the thread were alone, and what every section
leaves true of the part is true of it whenever no thread is in a section.
-/

namespace Conc

/-- A part of the memory, `view`, and the lock it is worked on under: `holder` has it, `enter`
takes it and `leave` gives it back.  What `work` does to the part depends on the part alone,
and `quiet` actions leave it alone; neither touches the lock. -/
structure Sections {S : Sig} {σ : Type} (M : Machine S σ) where
  view : σ → σ
  holder : σ → Option Nat
  enter : S.Act
  leave : S.Act
  work : S.Act → Prop
  quiet : S.Act → Prop
  exec_enter : ∀ {t s r s'}, M.exec t enter s = some (r, s') →
    holder s = none ∧ holder s' = some t ∧ view s' = view s
  exec_leave : ∀ {t s r s'}, M.exec t leave s = some (r, s') →
    holder s' = none ∧ view s' = view s
  exec_work : ∀ {t a s r s'}, work a → M.exec t a s = some (r, s') →
    holder s' = holder s ∧ M.exec t a (view s) = some (r, view s')
  exec_quiet : ∀ {t a s r s'}, quiet a → M.exec t a s = some (r, s') →
    holder s' = holder s ∧ view s' = view s

namespace Sections

variable {S : Sig} {σ Op Loc Out : Type} {M : Machine S σ} (X : Sections M) (P : σ → Prop)
  (A : Call Op → S.Act → World S σ Op Out → Prop)

/-- A thread in a section knows the part, and while no thread is in one the part has `P`. -/
structure Kept (w : World S σ Op Out) (γ : Nat → Option σ) : Prop where
  inside : ∀ t v, γ t = some v → X.holder w.mem = some t ∧ X.view w.mem = v
  outside : (∀ t, γ t = none) → P (X.view w.mem)

/-- The logic of sections: the ghost value of a thread in a section is the part. -/
def logic : Logic S σ Op Loc Out (Option σ) where
  Inv := X.Kept P
  Idle := fun _ g => g = none
  Assume := A
  Next := fun _ _ _ _ => True

variable {X P A} {w : World S σ Op Out} {γ : Nat → Option σ} {c : Call Op} {α : Type} {n : Nat}

/-- An action that changes neither the part nor the lock. -/
theorem Kept.push {a : S.Act} {s : σ} (h : X.Kept P w γ) (hholder : X.holder s = X.holder w.mem)
    (hview : X.view s = X.view w.mem) : X.Kept P (w.push c a s) γ := by
  constructor
  · intro t v ht
    rw [World.push_mem, hholder, hview]
    exact h.inside t v ht
  · intro hnone
    rw [World.push_mem, hview]
    exact h.outside hnone

/-- The thread in a section is the one that holds the lock. -/
theorem Kept.alone (h : X.Kept P w γ) {t u : Nat} {v : σ} (ht : γ t = some v) (hu : u ≠ t) :
    γ u = none := by
  cases hγ : γ u with
  | none => rfl
  | some v' =>
      have hheld := (h.inside t v ht).1
      rw [(h.inside u v' hγ).1] at hheld
      exact absurd (Option.some.inj hheld) hu

/-- A program of quiet actions may run inside and outside sections. -/
theorem safe_quiet {Q : S.Proc → Prop} (hbody : ∀ q, Q q → Machine.Only X.quiet Q (M.body q))
    {p : Prog S α} (hp : Machine.Only X.quiet Q p) (g : Option σ) :
    (X.logic P A : Logic S σ Op Loc Out _).Safe M c n p (fun _ g' => g' = g) g := by
  induction n generalizing p with
  | zero => trivial
  | succ n ih =>
      cases p with
      | ret a => rfl
      | call q k => exact ih ((hbody q hp.1).bind hp.2)
      | act a k =>
          intro w γ hinv hg
          refine ⟨trivial, fun _ r s hexec => ⟨g, ?_, ih (hp.2 r)⟩⟩
          obtain ⟨hholder, hview⟩ := X.exec_quiet hp.1 hexec
          rw [← hg, Function.update_eq_self]
          exact Kept.push hinv hholder hview

/-- A thread enters a section. -/
theorem safe_enter {k : S.Res X.enter → Prog S α} {Q : α → Option σ → Prop}
    (h : ∀ v r, P v → (X.logic P A : Logic S σ Op Loc Out _).Safe M c n (k r) Q (some v)) :
    (X.logic P A : Logic S σ Op Loc Out _).Safe M c n (.act X.enter k) Q none := by
  cases n with
  | zero => trivial
  | succ n =>
      intro w γ hinv _
      refine ⟨trivial, fun _ r s hexec => ?_⟩
      obtain ⟨hfree, hheld, hview⟩ := X.exec_enter hexec
      have hnone : ∀ t, γ t = none := by
        intro t
        cases hγ : γ t with
        | none => rfl
        | some v =>
            have hholds := (hinv.inside t v hγ).1
            rw [hfree] at hholds
            cases hholds
      refine ⟨some (X.view w.mem), ⟨fun t v ht => ?_, fun hout => ?_⟩,
        (h _ r (hinv.outside hnone)).mono (Nat.le_succ n)⟩
      · by_cases htid : t = c.tid
        · subst htid
          rw [Function.update_self] at ht
          cases ht
          exact ⟨hheld, hview⟩
        · rw [Function.update_of_ne htid, hnone t] at ht
          cases ht
      · have hself := hout c.tid
        rw [Function.update_self] at hself
        cases hself

/-- The part changes, and its thread knows how. -/
theorem Kept.work {a : S.Act} {s v' : σ} {v : σ} (h : X.Kept P w γ) (ht : γ c.tid = some v)
    (hholder : X.holder s = X.holder w.mem) (hview : X.view s = v') :
    X.Kept P (w.push c a s) (Function.update γ c.tid (some v')) := by
  constructor
  · intro t u hu
    by_cases htid : t = c.tid
    · subst htid
      rw [Function.update_self] at hu
      cases hu
      exact ⟨hholder.trans (h.inside _ v ht).1, hview⟩
    · rw [Function.update_of_ne htid, h.alone ht htid] at hu
      cases hu
  · intro hout
    have hself := hout c.tid
    rw [Function.update_self] at hself
    cases hself

/-- One action in a section, with what the run assumes of it. -/
theorem safe_step {a : S.Act} (ha : X.work a) {k : S.Res a → Prog S α} {Q : α → Option σ → Prop}
    {v : σ} (h : ∀ w : World S σ Op Out, X.view w.mem = v → A c a w → ∀ r v',
      M.exec c.tid a v = some (r, v') →
      (X.logic P A : Logic S σ Op Loc Out _).Safe M c n (k r) Q (some v')) :
    (X.logic P A : Logic S σ Op Loc Out _).Safe M c (n + 1) (.act a k) Q (some v) := by
  intro w γ hinv hg
  refine ⟨trivial, fun hA r s hexec => ?_⟩
  obtain ⟨hholder, hview⟩ := X.exec_work ha hexec
  have hv := (hinv.inside _ v hg).2
  rw [hv] at hview
  exact ⟨some (X.view s), hinv.work hg hholder rfl, h w hv hA r _ hview⟩

/-- A section goes as if its thread were alone. -/
theorem safe_work {Q : S.Proc → Prop} (hbody : ∀ q, Q q → Machine.Only X.work Q (M.body q))
    {p : Prog S α} (hp : Machine.Only X.work Q p) {v v' : σ} {x : α}
    (h : M.Runs c.tid p v x v') :
    (X.logic P A : Logic S σ Op Loc Out _).Safe M c n p (fun y g => y = x ∧ g = some v')
      (some v) := by
  induction n generalizing p v with
  | zero => trivial
  | succ n ih =>
      cases p with
      | ret a =>
          cases h
          exact ⟨rfl, rfl⟩
      | call q k =>
          cases h with
          | call rest => exact ih ((hbody q hp.1).bind hp.2) rest
      | act a k =>
          cases h with
          | @act _ _ _ s₁ _ r _ hexec rest =>
              refine safe_step hp.1 fun w _ _ r' v₁ hexec' => ?_
              rw [hexec] at hexec'
              cases hexec'
              exact ih (hp.2 r) rest

/-- A thread leaves a section. -/
theorem safe_leave {k : S.Res X.leave → Prog S α} {Q : α → Option σ → Prop} {v : σ} (hv : P v)
    (h : ∀ r, (X.logic P A : Logic S σ Op Loc Out _).Safe M c n (k r) Q none) :
    (X.logic P A : Logic S σ Op Loc Out _).Safe M c n (.act X.leave k) Q (some v) := by
  cases n with
  | zero => trivial
  | succ n =>
      intro w γ hinv hg
      refine ⟨trivial, fun _ r s hexec => ⟨none, ⟨fun t u hu => ?_, fun _ => ?_⟩,
        (h r).mono (Nat.le_succ n)⟩⟩
      · by_cases htid : t = c.tid
        · subst htid
          rw [Function.update_self] at hu
          cases hu
        · rw [Function.update_of_ne htid, hinv.alone hg htid] at hu
          cases hu
      · rw [World.push_mem, (X.exec_leave hexec).2, (hinv.inside _ v hg).2]
        exact hv

end Sections

variable {S : Sig} {σ Op Loc Out : Type} {sys : System S σ Op Loc Out}
  {X : Sections sys.toMachine} {P : σ → Prop} {A : Call Op → S.Act → World S σ Op Out → Prop}
  {s : σ} {l₀ : Nat → Loc} {c : Config S σ Op Loc Out}

/-- **The rule for sections.**  If every call works on the part in sections that leave `P`, the
part has `P` whenever no call is in progress. -/
theorem System.Reach.at_rest (hcalls : ∀ (k : Call Op) (l : Loc) (n : Nat),
      sys.may k.op l = true → (X.logic P A : Logic S σ Op Loc Out _).Safe sys.toMachine k n
        (sys.code k.op l) (fun _ g => g = none) none)
    (hs : P (X.view s)) (h : sys.Reach A (System.start s l₀) c)
    (hrest : ∀ t, ∃ l, c.thr t = .idle l) : P (X.view c.world.mem) := by
  have hsafe : sys.CallsSafe (X.logic P A : Logic S σ Op Loc Out _) := by
    intro t o l w γ hinv hidle hmay
    have hnone : γ t = none := hidle
    refine ⟨none, ?_, fun n => (hcalls ⟨t, o, w.now⟩ l n hmay).imp fun x g hg => ?_⟩
    · rwa [← hnone, Function.update_eq_self]
    · intro w' γ' hinv' hγ'
      refine ⟨none, ?_, rfl⟩
      rw [hg] at hγ'
      rw [← hγ', Function.update_eq_self]
      exact ⟨hinv'.inside, hinv'.outside⟩
  have hinit : ∀ m, ∃ γ, sys.Holds (X.logic P A : Logic S σ Op Loc Out _) m
      (System.start s l₀) γ :=
    System.holds_start (fun _ => none) ⟨nofun, fun _ => hs⟩ fun _ => rfl
  obtain ⟨γ, hinv, hfits⟩ := System.Reach.sound hsafe hinit h 1
  refine hinv.outside fun t => ?_
  obtain ⟨l, hl⟩ := hrest t
  have hfit := hfits t
  rw [hl] at hfit
  exact hfit

end Conc
