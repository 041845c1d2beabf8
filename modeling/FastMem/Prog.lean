import Mathlib.Logic.Function.Basic

/-!
# Programs made of atomic actions

A program is a tree: it returns, or performs one atomic action and continues
with the answer, or enters a named loop and continues with the loop's result.
Bounded loops are ordinary recursion over programs; a loop whose number of
rounds the program does not know is a *procedure*, whose body may enter the
procedure again.  Nothing here knows which actions or procedures there are: a
`Sig` names them and a `Machine` says what they do.

`Machine.Runs` is a thread running alone.  It is a total judgement: a program
that waits for ever, or loops for ever, runs to no result at all.
-/

namespace Conc

/-- The actions a program may perform, with the type of each answer, and the
procedures it may enter, with the type of each result. -/
structure Sig where
  Act : Type
  Res : Act → Type
  Proc : Type
  Ret : Proc → Type

/-- A program over `S` that returns a value of type `α`. -/
inductive Prog (S : Sig) (α : Type) : Type
  | ret (a : α)
  | act (a : S.Act) (k : S.Res a → Prog S α)
  | call (p : S.Proc) (k : S.Ret p → Prog S α)

namespace Prog

variable {S : Sig} {α β γ : Type}

/-- Run `p`, then continue with its result. -/
def bind : Prog S α → (α → Prog S β) → Prog S β
  | ret a, f => f a
  | act a k, f => act a fun r => (k r).bind f
  | call p k, f => call p fun r => (k r).bind f

instance : Monad (Prog S) where
  pure := ret
  bind := bind

/-- Perform one action and return its answer. -/
def perform (a : S.Act) : Prog S (S.Res a) := act a ret

/-- Enter one procedure and return its result. -/
def enter (p : S.Proc) : Prog S (S.Ret p) := call p ret

/-- The unit of the monad is a result. -/
@[simp] theorem pure_eq (a : α) : (pure a : Prog S α) = ret a := rfl

/-- Its bind is one program after another. -/
@[simp] theorem bind_eq (p : Prog S α) (f : α → Prog S β) : p >>= f = p.bind f := rfl

/-- Nothing comes before a result. -/
@[simp] theorem ret_bind (a : α) (f : α → Prog S β) : (ret a).bind f = f a := rfl

/-- The access comes first. -/
@[simp] theorem act_bind (a : S.Act) (k : S.Res a → Prog S α) (f : α → Prog S β) :
    (act a k).bind f = act a fun r => (k r).bind f := rfl

@[simp] theorem call_bind (p : S.Proc) (k : S.Ret p → Prog S α) (f : α → Prog S β) :
    (call p k).bind f = call p fun r => (k r).bind f := rfl

/-- A single access, and what follows it. -/
@[simp] theorem perform_bind (a : S.Act) (f : S.Res a → Prog S β) :
    (perform a).bind f = act a f := rfl

/-- A single loop, and what follows it. -/
@[simp] theorem enter_bind (p : S.Proc) (f : S.Ret p → Prog S β) :
    (enter p).bind f = call p f := rfl

/-- Nothing comes after a program that returns its result. -/
@[simp] theorem bind_ret (p : Prog S α) : p.bind ret = p := by
  induction p with
  | ret a => rfl
  | act a k ih => simp [ih]
  | call p k ih => simp [ih]

/-- Three programs, one after another. -/
theorem bind_assoc (p : Prog S α) (f : α → Prog S β) (h : β → Prog S γ) :
    (p.bind f).bind h = p.bind fun a => (f a).bind h := by
  induction p with
  | ret a => rfl
  | act a k ih => simp [ih]
  | call p k ih => simp [ih]

/-- Whatever its actions and procedures answer, the program returns what `P` says. -/
def Returns (P : α → Prop) : Prog S α → Prop
  | ret a => P a
  | act _ k => ∀ r, Returns P (k r)
  | call _ k => ∀ r, Returns P (k r)

/-- Every program returns something. -/
theorem returns_true (p : Prog S α) : p.Returns fun _ => True := by
  induction p with
  | ret a => trivial
  | act a k ih => exact ih
  | call p k ih => exact ih

/-- What one program returns after another. -/
theorem Returns.bind {P : α → Prop} {Q : β → Prop} {p : Prog S α} {f : α → Prog S β}
    (hp : p.Returns P) (hf : ∀ a, P a → (f a).Returns Q) : (p.bind f).Returns Q := by
  induction p with
  | ret a => exact hf a hp
  | act a k ih => exact fun r => ih r (hp r)
  | call p k ih => exact fun r => ih r (hp r)

/-- What a program returns in the end does not depend on what came before. -/
theorem returns_after {Q : β → Prop} (p : Prog S α) {f : α → Prog S β} (hf : ∀ a, (f a).Returns Q) :
    (p.bind f).Returns Q :=
  (returns_true p).bind fun a _ => hf a

/-- What both branches of a test return. -/
theorem Returns.ite {P : α → Prop} {c : Prop} [Decidable c] {p q : Prog S α} (hp : c → p.Returns P)
    (hq : ¬ c → q.Returns P) : (if c then p else q).Returns P := by
  split
  case isTrue hc => exact hp hc
  case isFalse hc => exact hq hc

end Prog

/-- What the actions of `S` do to a memory of type `σ`, for the thread that
performs them, and the bodies of its procedures.  An action that answers
`none` is not enabled: the thread waits. -/
structure Machine (S : Sig) (σ : Type) where
  exec : Nat → (a : S.Act) → σ → Option (S.Res a × σ)
  body : (p : S.Proc) → Prog S (S.Ret p)

namespace Machine

variable {S : Sig} {σ : Type} (M : Machine S σ) {α β : Type}

/-- Thread `t`, alone, runs the program from one memory to a result and another
memory. -/
inductive Runs (t : Nat) : {α : Type} → Prog S α → σ → α → σ → Prop
  | ret {α : Type} (a : α) (s : σ) : Runs t (.ret a) s a s
  | act {α : Type} {a : S.Act} {k : S.Res a → Prog S α} {s s' s'' : σ} {r : S.Res a} {x : α}
      (hexec : M.exec t a s = some (r, s')) (rest : Runs t (k r) s' x s'') :
      Runs t (.act a k) s x s''
  | call {α : Type} {p : S.Proc} {k : S.Ret p → Prog S α} {s s' : σ} {x : α}
      (rest : Runs t ((M.body p).bind k) s x s') : Runs t (.call p k) s x s'

variable {M} {t : Nat}

/-- Running one program after another. -/
theorem Runs.bind {p : Prog S α} {f : α → Prog S β} {s s' s'' : σ} {a : α} {b : β}
    (first : M.Runs t p s a s') (rest : M.Runs t (f a) s' b s'') :
    M.Runs t (p.bind f) s b s'' := by
  induction first with
  | ret a s => exact rest
  | act hexec _ ih => exact .act hexec (ih rest)
  | call _ ih =>
      refine .call ?_
      rw [← Prog.bind_assoc]
      exact ih rest

/-- A procedure entered alone. -/
theorem Runs.enter {p : S.Proc} {s s' : σ} {x : S.Ret p}
    (h : M.Runs t (M.body p) s x s') : M.Runs t (Prog.enter p) s x s' :=
  .call (by rw [Prog.bind_ret]; exact h)

/-- What is left of a run once its first part has been run. -/
theorem Runs.after {p : Prog S α} {f : α → Prog S β} {s s' s'' : σ} {a : α} {b : β}
    (first : M.Runs t p s a s') (h : M.Runs t (p.bind f) s b s'') : M.Runs t (f a) s' b s'' := by
  induction first with
  | ret a s => exact h
  | act hexec _ ih =>
      cases h with
      | act hexec' rest =>
          cases hexec.symm.trans hexec'
          exact ih rest
  | call _ ih =>
      cases h with
      | call rest =>
          rw [← Prog.bind_assoc] at rest
          exact ih rest

/-- A thread alone has one way to go. -/
theorem Runs.det {p : Prog S α} {s s' s'' : σ} {a b : α} (h : M.Runs t p s a s')
    (h' : M.Runs t p s b s'') : b = a ∧ s'' = s' := by
  rw [← Prog.bind_ret p] at h'
  cases h.after h'
  exact ⟨rfl, rfl⟩

/-- The result of running a program alone for at most the given number of steps. -/
def eval (M : Machine S σ) (t : Nat) : Nat → Prog S α → σ → Option (α × σ)
  | 0, _, _ => none
  | _ + 1, .ret a, s => some (a, s)
  | fuel + 1, .act a k, s => (M.exec t a s).bind fun r => eval M t fuel (k r.1) r.2
  | fuel + 1, .call p k, s => eval M t fuel ((M.body p).bind k) s

/-- What is evaluated with enough fuel is a run. -/
theorem Runs.of_eval {fuel : Nat} {p : Prog S α} {s s' : σ} {x : α}
    (h : M.eval t fuel p s = some (x, s')) : M.Runs t p s x s' := by
  induction fuel generalizing p s with
  | zero => cases h
  | succ fuel ih =>
      cases p with
      | ret a =>
          cases h
          exact .ret _ _
      | act a k =>
          obtain ⟨r, hexec, hrest⟩ := Option.bind_eq_some_iff.mp h
          exact .act hexec (ih hrest)
      | call p k => exact .call (ih h)

/-- A run of one program after another has a moment in between. -/
theorem Runs.split {p : Prog S α} {f : α → Prog S β} {s s'' : σ} {b : β}
    (h : M.Runs t (p.bind f) s b s'') : ∃ a s', M.Runs t p s a s' ∧ M.Runs t (f a) s' b s'' := by
  -- induction on the run, for every way to cut its program in two
  have hcut : ∀ {γ : Type} {q : Prog S γ} {x : γ} {s s'' : σ}, M.Runs t q s x s'' →
      ∀ {α : Type} {p : Prog S α} {f : α → Prog S γ}, q = p.bind f →
        ∃ a s', M.Runs t p s a s' ∧ M.Runs t (f a) s' x s'' := by
    intro γ q x s s'' hq
    induction hq with
    | ret x s =>
        intro α p f heq
        cases p with
        | ret a =>
            have hrest : f a = .ret x := heq.symm
            exact ⟨a, s, .ret a s, by rw [hrest]; exact .ret x s⟩
        | act a k => cases heq
        | call p k => cases heq
    | @act a k s s₁ s₂ r x hexec hrest ih =>
        intro α p f heq
        cases p with
        | ret b =>
            have hf : f b = .act a k := heq.symm
            exact ⟨b, s, .ret b s, by rw [hf]; exact .act hexec hrest⟩
        | act a k =>
            cases heq
            obtain ⟨y, s', hfirst, hlast⟩ := ih rfl
            exact ⟨y, s', .act hexec hfirst, hlast⟩
        | call p k => cases heq
    | @call q k s s₁ x hrest ih =>
        intro α p f heq
        cases p with
        | ret b =>
            have hf : f b = .call q k := heq.symm
            exact ⟨b, s, .ret b s, by rw [hf]; exact .call hrest⟩
        | act a k => cases heq
        | call p k =>
            cases heq
            obtain ⟨y, s', hfirst, hlast⟩ := ih (Prog.bind_assoc _ _ _).symm
            exact ⟨y, s', .call hfirst, hlast⟩
  exact hcut h rfl

/-- Runs of one program after another. -/
theorem Runs.bind_iff {p : Prog S α} {f : α → Prog S β} {s s'' : σ} {b : β} :
    M.Runs t (p.bind f) s b s'' ↔ ∃ a s', M.Runs t p s a s' ∧ M.Runs t (f a) s' b s'' := by
  constructor
  · exact Runs.split
  · intro h
    obtain ⟨a, s', hfirst, hrest⟩ := h
    exact hfirst.bind hrest

/-- Runs of one program after another, the first of which has been run. -/
theorem Runs.after_iff {p : Prog S α} {f : α → Prog S β} {s s' s'' : σ} {a : α} {b : β}
    (first : M.Runs t p s a s') : M.Runs t (p.bind f) s b s'' ↔ M.Runs t (f a) s' b s'' :=
  ⟨first.after, first.bind⟩

/-- A run takes finitely many steps. -/
theorem Runs.to_eval {p : Prog S α} {s s' : σ} {x : α} (h : M.Runs t p s x s') :
    ∃ fuel, M.eval t fuel p s = some (x, s') := by
  induction h with
  | ret a s => exact ⟨1, rfl⟩
  | act hexec _ ih =>
      obtain ⟨fuel, hfuel⟩ := ih
      exact ⟨fuel + 1, by simp [eval, hexec, hfuel]⟩
  | call _ ih =>
      obtain ⟨fuel, hfuel⟩ := ih
      exact ⟨fuel + 1, hfuel⟩

/-- What is left of a run once its first part has been run takes no more steps. -/
theorem Runs.eval_after {p : Prog S α} {f : α → Prog S β} {s s' : σ} {a : α} {y : β × σ}
    (first : M.Runs t p s a s') {fuel : Nat} (h : M.eval t fuel (p.bind f) s = some y) :
    ∃ fuel' ≤ fuel, M.eval t fuel' (f a) s' = some y := by
  induction first generalizing fuel with
  | ret a s => exact ⟨fuel, Nat.le_refl _, h⟩
  | act hexec _ ih =>
      cases fuel with
      | zero => cases h
      | succ fuel =>
          have h : (M.exec t _ _).bind (fun r => M.eval t fuel (Prog.bind _ f) r.2) = some y := h
          rw [hexec] at h
          obtain ⟨fuel', hle, hrest⟩ := ih h
          exact ⟨fuel', Nat.le_succ_of_le hle, hrest⟩
  | call _ ih =>
      cases fuel with
      | zero => cases h
      | succ fuel =>
          have h : M.eval t fuel ((M.body _).bind fun r => Prog.bind _ f) _ = some y := h
          rw [← Prog.bind_assoc] at h
          obtain ⟨fuel', hle, hrest⟩ := ih h
          exact ⟨fuel', Nat.le_succ_of_le hle, hrest⟩

/-- The actions and procedures of a program are among those given. -/
def Only (P : S.Act → Prop) (Q : S.Proc → Prop) {α : Type} : Prog S α → Prop
  | .ret _ => True
  | .act a k => P a ∧ ∀ r, Only P Q (k r)
  | .call p k => Q p ∧ ∀ r, Only P Q (k r)

variable {P : S.Act → Prop} {Q : S.Proc → Prop}

/-- One program after another does only what both do. -/
theorem Only.bind {p : Prog S α} {f : α → Prog S β} (hp : Only P Q p) (hf : ∀ a, Only P Q (f a)) :
    Only P Q (p.bind f) := by
  induction p with
  | ret a => exact hf a
  | act a k ih => exact ⟨hp.1, fun r => ih r (hp.2 r)⟩
  | call p k ih => exact ⟨hp.1, fun r => ih r (hp.2 r)⟩

/-- A program that does less also does only this. -/
theorem Only.mono {P' : S.Act → Prop} {Q' : S.Proc → Prop} {p : Prog S α} (hP : ∀ a, P a → P' a)
    (hQ : ∀ q, Q q → Q' q) (hp : Only P Q p) : Only P' Q' p := by
  induction p with
  | ret a => trivial
  | act a k ih => exact ⟨hP a hp.1, fun r => ih r (hp.2 r)⟩
  | call q k ih => exact ⟨hQ q hp.1, fun r => ih r (hp.2 r)⟩

/-- Both branches of a test do only this. -/
theorem Only.ite {c : Prop} [Decidable c] {p q : Prog S α} (hp : Only P Q p) (hq : Only P Q q) :
    Only P Q (if c then p else q) := by
  split
  · exact hp
  · exact hq

/-- **The frame rule.**  What every single action leaves alone, the whole run of a
program leaves alone. -/
theorem Runs.keeps {R : σ → σ → Prop} (refl : ∀ s, R s s)
    (trans : ∀ s s' s'', R s s' → R s' s'' → R s s'')
    (hexec : ∀ a s r s', P a → M.exec t a s = some (r, s') → R s s')
    (hbody : ∀ p, Q p → Only P Q (M.body p)) {p : Prog S α} {s s' : σ} {x : α}
    (h : M.Runs t p s x s') (hp : Only P Q p) : R s s' := by
  induction h with
  | ret a s => exact refl s
  | act he _ ih => exact trans _ _ _ (hexec _ _ _ _ hp.1 he) (ih (hp.2 _))
  | call _ ih => exact ih ((hbody _ hp.1).bind hp.2)

/-- A client makes a call again and again, each time with the cursor the last one has
left, and keeps what the calls deliver; `more` of a result is what was delivered and
the next cursor, or `none` if the call reports the end. -/
inductive Collects (M : Machine S σ) (t : Nat) {κ ρ ι : Type} (call : κ → Prog S ρ)
    (more : ρ → Option (ι × κ)) : κ → σ → List ι → σ → Prop
  | stop {c : κ} {s s' : σ} {r : ρ} (runs : M.Runs t (call c) s r s') (done : more r = none) :
      Collects M t call more c s [] s'
  | next {c c' : κ} {s s' s'' : σ} {r : ρ} {x : ι} {L : List ι} (runs : M.Runs t (call c) s r s')
      (delivers : more r = some (x, c')) (rest : Collects M t call more c' s' L s'') :
      Collects M t call more c s (x :: L) s''

section

variable {κ ρ ι : Type} {call : κ → Prog S ρ} {more : ρ → Option (ι × κ)}

/-- What a client collects is determined. -/
theorem Collects.det {c : κ} {s s' s'' : σ} {L L' : List ι} (h : M.Collects t call more c s L s')
    (h' : M.Collects t call more c s L' s'') : L' = L ∧ s'' = s' := by
  induction h generalizing L' s'' with
  | stop runs done =>
      cases h' with
      | stop runs' _ => exact ⟨rfl, (runs.det runs').2⟩
      | next runs' delivers _ =>
          obtain ⟨rfl, rfl⟩ := runs.det runs'
          rw [done] at delivers
          cases delivers
  | next runs delivers _ ih =>
      cases h' with
      | stop runs' done =>
          obtain ⟨rfl, rfl⟩ := runs.det runs'
          rw [delivers] at done
          cases done
      | next runs' delivers' rest' =>
          obtain ⟨rfl, rfl⟩ := runs.det runs'
          rw [delivers] at delivers'
          cases delivers'
          obtain ⟨rfl, rfl⟩ := ih rest'
          exact ⟨rfl, rfl⟩

/-- A cursor that has the list `L` before it delivers `L`: `At` says what is before a
cursor, and each call takes the first item off. -/
theorem Collects.of_list (At : κ → σ → List ι → Prop) (Q : σ → Prop)
    (stop : ∀ c s, At c s [] → ∃ r s', M.Runs t (call c) s r s' ∧ more r = none ∧ Q s')
    (next : ∀ c s x L, At c s (x :: L) →
      ∃ r c' s', M.Runs t (call c) s r s' ∧ more r = some (x, c') ∧ At c' s' L)
    {c : κ} {s : σ} {L : List ι} (h : At c s L) : ∃ s', M.Collects t call more c s L s' ∧ Q s' := by
  induction L generalizing c s with
  | nil =>
      obtain ⟨r, s', hruns, hdone, hQ⟩ := stop c s h
      exact ⟨s', .stop hruns hdone, hQ⟩
  | cons x L ih =>
      obtain ⟨r, c', s', hruns, hmore, hat⟩ := next c s x L h
      obtain ⟨s'', hrest, hQ⟩ := ih hat
      exact ⟨s'', .next hruns hmore hrest, hQ⟩

end

end Machine

end Conc
