import FastMem.Threads

/-!
# Protocols and their traces

A protocol gives every thread a *role*, a ghost value that says what the thread is
in the middle of, and says which actions a thread may perform in which role and
what role it has afterwards.  The rules mention nothing but the thread's own role,
the action and the memory it finds.

A trace is a run of roles: any number of threads, each taking steps its protocol
allows, in any order.  Invariants are proved of traces, by induction, one on top of
the other, without looking at programs.  That a program follows the protocol is
proved once; `reach_trace` then turns every configuration the threads reach into a
trace that ends there.
-/

namespace Conc

/-- The rules of a protocol: the steps of a role, the role at the start of a call,
and what the role must be when a call returns. -/
structure Rules (S : Sig) (σ Op Out G : Type) where
  step : Call Op → World S σ Op Out → G → (a : S.Act) → S.Res a → G → Prop
  start : Nat → G → G
  stop : Call Op → Out → G → Prop

variable {S : Sig} {σ Op Loc Out G : Type}

/-- The worlds and roles that threads reach from `s₀` and `γ₀` by following the
rules, when every action meets `A`. -/
inductive Trace (M : Machine S σ) (R : Rules S σ Op Out G)
    (A : Call Op → S.Act → World S σ Op Out → Prop) (s₀ : σ) (γ₀ : Nat → G) :
    World S σ Op Out → (Nat → G) → Prop
  | init : Trace M R A s₀ γ₀ ⟨s₀, [], []⟩ γ₀
  | start {w : World S σ Op Out} {γ : Nat → G} (t : Nat) (before : Trace M R A s₀ γ₀ w γ) :
      Trace M R A s₀ γ₀ w (Function.update γ t (R.start w.now (γ t)))
  | act {w : World S σ Op Out} {γ : Nat → G} {c : Call Op} {a : S.Act} {r : S.Res a} {s : σ} {g : G}
      (before : Trace M R A s₀ γ₀ w γ) (meets : A c a w)
      (exec : M.exec c.tid a w.mem = some (r, s)) (step : R.step c w (γ c.tid) a r g) :
      Trace M R A s₀ γ₀ (w.push c a s) (Function.update γ c.tid g)
  | stop {w : World S σ Op Out} {γ : Nat → G} {c : Call Op} {out : Out}
      (before : Trace M R A s₀ γ₀ w γ) (returns : R.stop c out (γ c.tid)) :
      Trace M R A s₀ γ₀ (w.finish c out) γ

/-- A trace goes through every moment of its history. -/
theorem Trace.at {M : Machine S σ} {R : Rules S σ Op Out G}
    {A : Call Op → S.Act → World S σ Op Out → Prop} {s₀ : σ} {γ₀ : Nat → G} {w : World S σ Op Out}
    {γ : Nat → G} (h : Trace M R A s₀ γ₀ w γ) {m : Nat} (hm : m ≤ w.now) :
    ∃ w' γ', Trace M R A s₀ γ₀ w' γ' ∧ w'.mem = w.memAt m ∧ w'.past = w.past.drop (w.now - m) := by
  induction h with
  | init => exact ⟨_, _, .init, rfl, List.drop_nil.symm⟩
  | start t before ih => exact ih hm
  | @act w γ c a r s g before meets exec step ih =>
      rcases Nat.lt_or_eq_of_le hm with hlt | rfl
      · have hle : m ≤ w.now := Nat.lt_succ_iff.mp hlt
        obtain ⟨w', γ', htrace, hmem, hpast⟩ := ih hle
        refine ⟨w', γ', htrace, by rw [World.memAt_push hle]; exact hmem, ?_⟩
        rw [World.push_now, World.push_past, Nat.succ_sub hle, List.drop_succ_cons]
        exact hpast
      · refine ⟨_, _, .act before meets exec step, (World.memAt_now _).symm, ?_⟩
        rw [Nat.sub_self, List.drop_zero]
  | stop before returns ih => exact ih hm

/-- The logic whose invariant is to have a trace. -/
def traceLogic (M : Machine S σ) (R : Rules S σ Op Out G)
    (A : Call Op → S.Act → World S σ Op Out → Prop) (s₀ : σ) (γ₀ : Nat → G)
    (Idle : Loc → G → Prop) : Logic S σ Op Loc Out G where
  Inv := Trace M R A s₀ γ₀
  Idle := Idle
  Assume := A
  Next := fun _ _ _ _ => True

section

variable {M : Machine S σ} {R : Rules S σ Op Out G} {A : Call Op → S.Act → World S σ Op Out → Prop}
  {s₀ : σ} {γ₀ : Nat → G} {Idle : Loc → G → Prop} {c : Call Op} {α : Type} {m : Nat} {g : G}

/-- An action that the rules allow, whatever the world it is performed in. -/
theorem follow_act {a : S.Act} {k : S.Res a → Prog S α} {Q : α → G → Prop}
    (h : ∀ w γ r s, Trace M R A s₀ γ₀ w γ → γ c.tid = g → A c a w →
      M.exec c.tid a w.mem = some (r, s) →
      ∃ g', R.step c w g a r g' ∧ (traceLogic M R A s₀ γ₀ Idle).Safe M c m (k r) Q g') :
    (traceLogic M R A s₀ γ₀ Idle).Safe M c m (.act a k) Q g := by
  cases m with
  | zero => trivial
  | succ m =>
      intro w γ htrace hg
      refine ⟨trivial, fun hA r s hexec => ?_⟩
      obtain ⟨g', hstep, hsafe⟩ := h w γ r s htrace hg hA hexec
      subst hg
      exact ⟨g', .act htrace hA hexec hstep, hsafe.mono (Nat.le_succ m)⟩

/-- A call that returns as the rules want it. -/
theorem follow_done {x : Out × Loc} (hstop : R.stop c x.1 g) (hidle : Idle x.2 g) :
    (traceLogic M R A s₀ γ₀ Idle).Done c x g := by
  intro w γ htrace hg
  subst hg
  refine ⟨γ c.tid, ?_, hidle⟩
  rw [Function.update_eq_self]
  exact .stop htrace hstop

end

namespace System

variable {sys : System S σ Op Loc Out} {R : Rules S σ Op Out G}
  {A : Call Op → S.Act → World S σ Op Out → Prop} {s₀ : σ} {γ₀ : Nat → G}
  {Idle : Loc → G → Prop} {l₀ : Nat → Loc} {c : Config S σ Op Loc Out}

/-- **Every run has a trace.**  If the program of every call follows the rules,
every configuration that is reached is the end of a trace, with roles that fit what
the threads are doing. -/
theorem reach_trace (hidle : ∀ t, Idle (l₀ t) (γ₀ t))
    (hcalls : ∀ t o l w γ n, Trace sys.toMachine R A s₀ γ₀ w γ → Idle l (γ t) → sys.may o l = true →
      (traceLogic sys.toMachine R A s₀ γ₀ Idle).Safe sys.toMachine ⟨t, o, w.now⟩ n (sys.code o l)
        (fun x g => R.stop ⟨t, o, w.now⟩ x.1 g ∧ Idle x.2 g) (R.start w.now (γ t)))
    (h : sys.Reach A (start s₀ l₀) c) (n : Nat) :
    ∃ γ, Holds sys (traceLogic sys.toMachine R A s₀ γ₀ Idle) n c γ := by
  have hinit : (traceLogic sys.toMachine R A s₀ γ₀ Idle).Inv ⟨s₀, [], []⟩ γ₀ := Trace.init
  refine Reach.sound (L := traceLogic sys.toMachine R A s₀ γ₀ Idle) ?_
    (holds_start γ₀ hinit hidle) h n
  intro t o l w γ htrace hI hmay
  refine ⟨R.start w.now (γ t), Trace.start t htrace, fun m => ?_⟩
  exact (hcalls t o l w γ m htrace hI hmay).imp fun x g hx => follow_done hx.1 hx.2

end System

end Conc
