import FastMem.Prog

/-!
# Monitors

A monitor reads the actions of a run one after the other, and may refuse one.  Whether a
run ends where it should can often be seen from the program alone: `Follows` is checked
along the program, whatever its actions answer and wherever it is run.
-/

namespace Conc

namespace Machine

variable {S : Sig} {σ τ : Type} {M : Machine S σ} {t : Nat} {α β : Type}

/-- A run, with the actions it has performed. -/
inductive Traces (M : Machine S σ) (t : Nat) : {α : Type} → Prog S α → σ → List S.Act → α → σ → Prop
  | ret {α : Type} (a : α) (s : σ) : Traces M t (.ret a) s [] a s
  | act {α : Type} {a : S.Act} {k : S.Res a → Prog S α} {s s' s'' : σ} {r : S.Res a}
    {es : List S.Act} {x : α}
      (hexec : M.exec t a s = some (r, s')) (rest : Traces M t (k r) s' es x s'') :
      Traces M t (.act a k) s (a :: es) x s''
  | call {α : Type} {p : S.Proc} {k : S.Ret p → Prog S α} {s s' : σ} {es : List S.Act} {x : α}
      (rest : Traces M t ((M.body p).bind k) s es x s') : Traces M t (.call p k) s es x s'

/-- A trace is a run. -/
theorem Traces.runs {p : Prog S α} {s s' : σ} {es : List S.Act} {x : α}
    (h : M.Traces t p s es x s') : M.Runs t p s x s' := by
  induction h with
  | ret a s => exact .ret a s
  | act hexec _ ih => exact .act hexec ih
  | call _ ih => exact .call ih

/-- Every run has a trace. -/
theorem Runs.traces {p : Prog S α} {s s' : σ} {x : α} (h : M.Runs t p s x s') :
    ∃ es, M.Traces t p s es x s' := by
  induction h with
  | ret a s => exact ⟨[], .ret a s⟩
  | act hexec _ ih =>
      obtain ⟨es, hes⟩ := ih
      exact ⟨_ :: es, .act hexec hes⟩
  | call _ ih =>
      obtain ⟨es, hes⟩ := ih
      exact ⟨es, .call hes⟩

variable {step : S.Act → τ → Option τ}

/-- The monitor takes every run of the program from `x` to `y`.  Procedures are not looked
into: their actions are not to be seen by the monitor. -/
def Follows (step : S.Act → τ → Option τ) (y : τ) {α : Type} : Prog S α → τ → Prop
  | .ret _, x => x = y
  | .act a k, x => ∃ x', step a x = some x' ∧ ∀ r, Follows step y (k r) x'
  | .call _ k, x => ∀ r, Follows step y (k r) x

/-- The monitor goes on from one program to the next. -/
theorem Follows.bind {x y z : τ} {p : Prog S α} {f : α → Prog S β} (hp : Follows step y p x)
    (hf : ∀ a, Follows step z (f a) y) : Follows step z (p.bind f) x := by
  induction p generalizing x with
  | ret a =>
      cases hp
      exact hf a
  | act a k ih =>
      obtain ⟨x', hstep, hrest⟩ := hp
      exact ⟨x', hstep, fun r => ih r (hrest r)⟩
  | call p k ih => exact fun r => ih r (hp r)

/-- It takes both branches of a test. -/
theorem Follows.ite {c : Prop} [Decidable c] {x y : τ} {p q : Prog S α} (hp : Follows step y p x)
    (hq : Follows step y q x) : Follows step y (if c then p else q) x := by
  split
  · exact hp
  · exact hq

/-- The monitor stays where it is during a program of whose actions it sees none. -/
theorem Follows.of_only {P : S.Act → Prop} {Q : S.Proc → Prop}
    (hP : ∀ a, P a → ∀ x, step a x = some x) {p : Prog S α} (hp : Only P Q p)
    (x : τ) : Follows step x p x := by
  induction p with
  | ret a => rfl
  | act a k ih => exact ⟨x, hP a hp.1 x, fun r => ih r (hp.2 r)⟩
  | call p k ih => exact fun r => ih r (hp.2 r)

/-- **Monitors are sound.**  Along every run of the program, the monitor gets where it
should. -/
theorem Traces.follows {P : S.Act → Prop} {Q : S.Proc → Prop}
    (hP : ∀ a, P a → ∀ x, step a x = some x) (hbody : ∀ p, Only P Q (M.body p)) {p : Prog S α}
    {s s' : σ} {es : List S.Act} {v : α} (h : M.Traces t p s es v s') {x y : τ}
    (hp : Follows step y p x) :
    es.foldlM (fun x a => step a x) x = some y := by
  induction h generalizing x with
  | ret a s =>
      cases hp
      rfl
  | act _ _ ih =>
      obtain ⟨x', hstep, hrest⟩ := hp
      rw [List.foldlM_cons, hstep]
      exact ih (hrest _)
  | call _ ih => exact ih ((Follows.of_only hP (hbody _) x).bind hp)

end Machine

end Conc
