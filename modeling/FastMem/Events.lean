import FastMem.Monitor
import FastMem.Threads

/-!
# The events of a program

A path leads through a program and the procedures it enters, with any answers to its
actions: it is what a thread does when others act in between, whatever they do.  `Emits`
says of every path which of its actions, read as events, it performs in which order, and
what the program returns there.

A thread may also be in the middle of a program, and perhaps never come to its end.  `Way`
is the beginning of a path, and `Watched` is a monitor that has read every beginning, with
a postcondition for the end.
-/

namespace Conc

namespace Prog

variable {S : Sig} {α β : Type} {body : (p : S.Proc) → Prog S (S.Ret p)}

/-- A way through a program, with the actions on it and the result. -/
inductive Path (body : (p : S.Proc) → Prog S (S.Ret p)) :
    {α : Type} → Prog S α → List S.Act → α → Prop
  | ret {α : Type} (a : α) : Path body (.ret a) [] a
  | act {α : Type} {a : S.Act} {k : S.Res a → Prog S α} {r : S.Res a} {es : List S.Act} {x : α}
      (rest : Path body (k r) es x) : Path body (.act a k) (a :: es) x
  | call {α : Type} {p : S.Proc} {k : S.Ret p → Prog S α} {es : List S.Act} {x : α}
      (rest : Path body ((body p).bind k) es x) : Path body (.call p k) es x

/-- A path through one program after another is a path through each. -/
theorem Path.split {p : Prog S α} {f : α → Prog S β} {es : List S.Act} {y : β}
    (h : Path body (p.bind f) es y) :
    ∃ es₁ es₂ a, es = es₁ ++ es₂ ∧ Path body p es₁ a ∧ Path body (f a) es₂ y := by
  -- induction on the path, for every way to cut its program in two
  have hcut : ∀ {γ : Type} {q : Prog S γ} {y : γ} {es : List S.Act}, Path body q es y →
      ∀ {α : Type} {p : Prog S α} {f : α → Prog S γ}, q = p.bind f →
        ∃ es₁ es₂ a, es = es₁ ++ es₂ ∧ Path body p es₁ a ∧ Path body (f a) es₂ y := by
    intro γ q y es hq
    induction hq with
    | ret y =>
        intro α p f heq
        cases p with
        | ret a =>
            have hrest : f a = .ret y := heq.symm
            exact ⟨[], [], a, rfl, .ret a, by rw [hrest]; exact .ret y⟩
        | act a k => cases heq
        | call p k => cases heq
    | @act a k r es y hrest ih =>
        intro α p f heq
        cases p with
        | ret b =>
            have hf : f b = .act a k := heq.symm
            exact ⟨[], a :: es, b, rfl, .ret b, by rw [hf]; exact .act hrest⟩
        | act a k =>
            cases heq
            obtain ⟨es₁, es₂, b, hes, hfirst, hlast⟩ := ih rfl
            exact ⟨a :: es₁, es₂, b, by rw [hes, List.cons_append], .act hfirst, hlast⟩
        | call p k => cases heq
    | @call q k es y hrest ih =>
        intro α p f heq
        cases p with
        | ret b =>
            have hf : f b = .call q k := heq.symm
            exact ⟨[], es, b, rfl, .ret b, by rw [hf]; exact .call hrest⟩
        | act a k => cases heq
        | call p k =>
            cases heq
            obtain ⟨es₁, es₂, b, hes, hfirst, hlast⟩ := ih (bind_assoc _ _ _).symm
            exact ⟨es₁, es₂, b, hes, .call hfirst, hlast⟩
  exact hcut h rfl

variable {E : Type} {ev : S.Act → Option E} {Q : List E → α → Prop} {R : List E → β → Prop}

/-- On every path the events and the result are as `Q` says. -/
def Emits (body : (p : S.Proc) → Prog S (S.Ret p)) (ev : S.Act → Option E) (p : Prog S α)
    (Q : List E → α → Prop) : Prop :=
  ∀ es x, Path body p es x → Q (es.filterMap ev) x

/-- What a program emits may be said more weakly. -/
theorem Emits.imp {Q' : List E → α → Prop} {p : Prog S α} (hp : Emits body ev p Q)
    (h : ∀ xs a, Q xs a → Q' xs a) : Emits body ev p Q' :=
  fun es x hpath => h _ x (hp es x hpath)

/-- A result emits nothing. -/
theorem emits_ret {a : α} (h : Q [] a) : Emits body ev (.ret a) Q := by
  intro es x hpath
  cases hpath
  exact h

/-- An access emits its event, if it is one. -/
theorem emits_perform {a : S.Act} {Q : List E → S.Res a → Prop} (h : ∀ r, Q (ev a).toList r) :
    Emits body ev (perform a) Q := by
  intro es x hpath
  cases hpath with
  | act rest =>
    cases rest
    cases hev : ev a with
    | none => simpa [hev] using h _
    | some e => simpa [hev] using h _

/-- The events of one program after another. -/
theorem Emits.bind {p : Prog S α} {f : α → Prog S β} (hp : Emits body ev p Q)
    (hf : ∀ xs a, Q xs a → Emits body ev (f a) fun ys b => R (xs ++ ys) b) :
    Emits body ev (p.bind f) R := by
  intro es y hpath
  obtain ⟨es₁, es₂, a, rfl, hfirst, hlast⟩ := hpath.split
  rw [List.filterMap_append]
  exact hf _ a (hp es₁ a hfirst) es₂ y hlast

/-- The events of both branches of a test. -/
theorem Emits.ite {c : Prop} [Decidable c] {p q : Prog S α} (hp : c → Emits body ev p Q)
    (hq : ¬ c → Emits body ev q Q) : Emits body ev (if c then p else q) Q := by
  split
  case isTrue hc => exact hp hc
  case isFalse hc => exact hq hc

/-- A program of whose actions none is an event emits nothing. -/
theorem emits_none {P : S.Act → Prop} {C : S.Proc → Prop} (hP : ∀ a, P a → ev a = none)
    (hbody : ∀ p, Machine.Only P C (body p)) {p : Prog S α} (hp : Machine.Only P C p) :
    Emits body ev p fun xs _ => xs = [] := by
  intro es x hpath
  induction hpath with
  | ret a => rfl
  | act _ ih =>
    rw [List.filterMap_cons, hP _ hp.1]
    exact ih (hp.2 _)
  | call _ ih => exact ih (Machine.Only.bind (hbody _) hp.2)

/-- The beginning of a path: the actions so far, and the program that is left. -/
inductive Way (body : (p : S.Proc) → Prog S (S.Ret p)) :
    {α : Type} → Prog S α → List S.Act → Prog S α → Prop
  | here {α : Type} (p : Prog S α) : Way body p [] p
  | act {α : Type} {a : S.Act} {k : S.Res a → Prog S α} {r : S.Res a}
    {es : List S.Act} {q : Prog S α}
      (rest : Way body (k r) es q) : Way body (.act a k) (a :: es) q
  | call {α : Type} {p : S.Proc} {k : S.Ret p → Prog S α} {es : List S.Act} {q : Prog S α}
      (rest : Way body ((body p).bind k) es q) : Way body (.call p k) es q

/-- A path to the end is a way. -/
theorem Path.way {p : Prog S α} {es : List S.Act} {x : α} (h : Path body p es x) :
    Way body p es (.ret x) := by
  induction h with
  | ret a => exact .here (.ret a)
  | act _ ih => exact .act ih
  | call _ ih => exact .call ih

/-- One more action. -/
theorem Way.act_next {p : Prog S α} {es : List S.Act} {a : S.Act} {k : S.Res a → Prog S α}
    (h : Way body p es (.act a k)) (r : S.Res a) : Way body p (es ++ [a]) (k r) := by
  generalize hq : Prog.act a k = q at h
  induction h with
  | here p =>
    subst hq
    exact .act (.here _)
  | act _ ih => exact .act (ih hq)
  | call _ ih => exact .call (ih hq)

/-- The next procedure is entered. -/
theorem Way.call_next {p : Prog S α} {es : List S.Act} {f : S.Proc} {k : S.Ret f → Prog S α}
    (h : Way body p es (.call f k)) : Way body p es ((body f).bind k) := by
  generalize hq : Prog.call f k = q at h
  induction h with
  | here p =>
    subst hq
    exact .call (.here _)
  | act _ ih => exact .act (ih hq)
  | call _ ih => exact .call (ih hq)

/-- A beginning that has come to the end. -/
theorem Way.path {p : Prog S α} {es : List S.Act} {x : α} (h : Way body p es (.ret x)) :
    Path body p es x := by
  generalize hq : Prog.ret x = q at h
  induction h with
  | here p =>
    subst hq
    exact .ret x
  | act _ ih => exact .act (ih hq)
  | call _ ih => exact .call (ih hq)

variable {τ : Type} {step : S.Act → τ → Option τ} {x : τ} {Q : α → τ → Prop} {R : β → τ → Prop}

/-- The monitor takes every action of the program, whatever the actions answer, and at its
end the result and the state of the monitor are as `Q` says.  Procedures are not looked
into. -/
def Watched (step : S.Act → τ → Option τ) (Q : α → τ → Prop) : Prog S α → τ → Prop
  | .ret a, x => Q a x
  | .act a k, x => ∃ x', step a x = some x' ∧ ∀ r, Watched step Q (k r) x'
  | .call _ k, x => ∀ r, Watched step Q (k r) x

/-- What a watched program ends with may be said more weakly. -/
theorem Watched.imp {Q' : α → τ → Prop} {p : Prog S α} (hp : Watched step Q p x)
    (h : ∀ a y, Q a y → Q' a y) : Watched step Q' p x := by
  induction p generalizing x with
  | ret a => exact h a x hp
  | act a k ih =>
    obtain ⟨x', hstep, hrest⟩ := hp
    exact ⟨x', hstep, fun r => ih r (hrest r)⟩
  | call p k ih => exact fun r => ih r (hp r)

/-- The monitor goes on from one program to the next. -/
theorem Watched.bind {p : Prog S α} {f : α → Prog S β} (hp : Watched step Q p x)
    (hf : ∀ a y, Q a y → Watched step R (f a) y) : Watched step R (p.bind f) x := by
  induction p generalizing x with
  | ret a => exact hf a x hp
  | act a k ih =>
    obtain ⟨x', hstep, hrest⟩ := hp
    exact ⟨x', hstep, fun r => ih r (hrest r)⟩
  | call p k ih => exact fun r => ih r (hp r)

/-- It takes both branches of a test. -/
theorem Watched.ite {c : Prop} [Decidable c] {p q : Prog S α} (hp : c → Watched step Q p x)
    (hq : ¬ c → Watched step Q q x) : Watched step Q (if c then p else q) x := by
  split
  case isTrue hc => exact hp hc
  case isFalse hc => exact hq hc

/-- The monitor stays where it is during a program of whose actions it sees none. -/
theorem watched_only {P : S.Act → Prop} {C : S.Proc → Prop} (hP : ∀ a, P a → step a x = some x)
    {p : Prog S α} (hp : Machine.Only P C p) : Watched step (fun _ y => y = x) p x := by
  induction p with
  | ret a => rfl
  | act a k ih => exact ⟨x, hP a hp.1, fun r => ih r (hp.2 r)⟩
  | call p k ih => exact fun r => ih r (hp.2 r)

/-- The monitor takes every beginning of a path, and stays a monitor of what is left. -/
theorem Way.watched {P : S.Act → Prop} {C : S.Proc → Prop} (hP : ∀ a, P a → ∀ x, step a x = some x)
    (hbody : ∀ p, Machine.Only P C (body p)) {p q : Prog S α} {es : List S.Act}
    (h : Way body p es q)
    (hp : Watched step Q p x) : ∃ y, es.foldlM (fun x a => step a x) x = some y ∧
    Watched step Q q y := by
  induction h generalizing x with
  | here p => exact ⟨x, rfl, hp⟩
  | act _ ih =>
    obtain ⟨x', hstep, hrest⟩ := hp
    obtain ⟨y, hfold, hleft⟩ := ih (hrest _)
    exact ⟨y, by rw [List.foldlM_cons, hstep]; exact hfold, hleft⟩
  | call _ ih =>
    apply ih
    refine (watched_only (fun a ha => hP a ha x) (hbody _)).bind fun r y hy => ?_
    subst hy
    exact hp r

end Prog

/-- Any program does only what anything does. -/
theorem Machine.only_of_all {S : Sig} {P : S.Act → Prop} {C : S.Proc → Prop} {α : Type}
    (hP : ∀ a, P a) (hC : ∀ p, C p) (p : Prog S α) : Machine.Only P C p := by
  induction p with
  | ret a => trivial
  | act a k ih => exact ⟨hP a, ih⟩
  | call p k ih => exact ⟨hC p, ih⟩

/-- A run alone goes along a path. -/
theorem Machine.Traces.path {S : Sig} {σ α : Type} {M : Machine S σ} {t : Nat}
    {p : Prog S α} {s s' : σ} {es : List S.Act} {x : α}
    (h : M.Traces t p s es x s') : Prog.Path M.body p es x := by
  induction h with
  | ret a s => exact .ret a
  | act _ _ ih => exact .act ih
  | call _ ih => exact .call ih

namespace System

variable {S : Sig} {σ Op Loc Out : Type} {sys : System S σ Op Loc Out}

/-- What thread `t` has done. -/
def doneBy (t : Nat) (past : List (Entry S σ Op)) : List (Entry S σ Op) :=
  past.filter fun e => e.call.tid == t

/-- The last things thread `t` has done are those of call `c`, `acts`. -/
def LastDone (c : Call Op) (acts : List S.Act) (past : List (Entry S σ Op)) : Prop :=
  ∃ mine older, doneBy c.tid past = mine ++ older ∧ (∀ e ∈ mine, e.call = c) ∧
    (mine.map Entry.act).reverse = acts

/-- Nothing has been done at the start. -/
theorem LastDone.none (c : Call Op) (past : List (Entry S σ Op)) : LastDone c [] past :=
  ⟨[], doneBy c.tid past, rfl, nofun, rfl⟩

/-- One more access of the call. -/
theorem LastDone.own {c : Call Op} {acts : List S.Act} {past : List (Entry S σ Op)}
    (h : LastDone c acts past) (a : S.Act)
    (s : σ) : LastDone c (acts ++ [a]) (⟨c, a, s⟩ :: past) := by
  obtain ⟨mine, older, hdone, hcall, rfl⟩ := h
  refine ⟨⟨c, a, s⟩ :: mine, older, ?_, ?_, ?_⟩
  · unfold doneBy at hdone ⊢
    rw [List.filter_cons_of_pos (by simp), hdone, List.cons_append]
  · intro e he
    obtain rfl | he := List.mem_cons.mp he
    · rfl
    · exact hcall e he
  · rw [List.map_cons, List.reverse_cons]

/-- The accesses of other threads do not count. -/
theorem LastDone.other {c d : Call Op} {acts : List S.Act} {past : List (Entry S σ Op)}
    (h : LastDone c acts past) (hne : d.tid ≠ c.tid) (a : S.Act)
    (s : σ) : LastDone c acts (⟨d, a, s⟩ :: past) := by
  obtain ⟨mine, older, hdone, hrest⟩ := h
  refine ⟨mine, older, ?_, hrest⟩
  unfold doneBy at hdone ⊢
  rw [List.filter_cons_of_neg (by simpa using hne), hdone]

/-- What a thread is in the middle of: its call has come the way it has, and nothing else
has been done by the thread since it began. -/
def Underway (sys : System S σ Op Loc Out) (past : List (Entry S σ Op)) (t : Nat) :
    Thread S Op Loc Out → Prop
  | .idle _ => True
  | .busy o st p =>
      ∃ l acts, sys.may o l = true ∧ Prog.Way sys.body (sys.code o l) acts p ∧
        LastDone ⟨t, o, st⟩ acts past

/-- What another thread does leaves a thread in the middle of its call. -/
theorem Underway.other {past : List (Entry S σ Op)} {t : Nat} {th : Thread S Op Loc Out}
    (h : Underway sys past t th) {d : Call Op} (hne : d.tid ≠ t) (a : S.Act) (s : σ) :
    Underway sys (⟨d, a, s⟩ :: past) t th := by
  cases th with
  | idle l => trivial
  | busy o st p =>
    obtain ⟨l, acts, hmay, hway, hlast⟩ := h
    exact ⟨l, acts, hmay, hway, hlast.other hne a s⟩

/-- One thread has moved on, and every other is where it was. -/
theorem underway_update {past : List (Entry S σ Op)} {thr : Nat → Thread S Op Loc Out} {t : Nat}
    {th : Thread S Op Loc Out} (hown : Underway sys past t th)
    (hothers : ∀ u, u ≠ t → Underway sys past u (thr u)) (u : Nat) :
    Underway sys past u (Function.update thr t th u) := by
  by_cases hu : u = t
  · subst hu
    rw [Function.update_self]
    exact hown
  · rw [Function.update_of_ne hu]
    exact hothers u hu

/-- A call that has returned went along a path of its program, and what it did on it was
the last its thread had done then. -/
def Gone (sys : System S σ Op Loc Out) (w : World S σ Op Out) (ev : Event Op Out) : Prop :=
  ev.stop ≤ w.now ∧ ∃ l l' acts, sys.may ev.call.op l = true ∧
    Prog.Path sys.body (sys.code ev.call.op l) acts (ev.out, l') ∧
    LastDone ev.call acts (w.past.drop (w.now - ev.stop))

/-- What is done afterwards does not change what a call has done. -/
theorem Gone.push {w : World S σ Op Out} {ev : Event Op Out} (h : Gone sys w ev)
    (d : Call Op) (a : S.Act) (s : σ) : Gone sys (w.push d a s) ev := by
  obtain ⟨hstop, hrest⟩ := h
  refine ⟨hstop.trans (Nat.le_succ _), ?_⟩
  rw [World.push_now, World.push_past, Nat.succ_sub hstop, List.drop_succ_cons]
  exact hrest

/-- **Every call of a run goes along a path of its program.** -/
theorem Reach.paths {A : Call Op → S.Act → World S σ Op Out → Prop} {s : σ} {l₀ : Nat → Loc}
    {c : Config S σ Op Loc Out} (h : sys.Reach A (start s l₀) c) :
    (∀ t, Underway sys c.world.past t (c.thr t)) ∧ ∀ ev ∈ c.world.log, Gone sys c.world ev := by
  induction h with
  | refl => exact ⟨fun t => trivial, nofun⟩
  | @tail c d lab _ _ step ih =>
    obtain ⟨hway, hgone⟩ := ih
    cases lab with
    | invoke t o =>
      simp only [fire] at step
      split at step
      · rename_i l hidle
        split at step
        · rename_i hmay
          cases step
          exact ⟨underway_update ⟨l, [], hmay, .here _, LastDone.none _ _⟩ fun u _ => hway u, hgone⟩
        · cases step
      · cases step
    | run t =>
      have ht := hway t
      simp only [fire] at step
      split at step
      · cases step
      · rename_i o st out l hbusy
        cases step
        rw [hbusy] at ht
        obtain ⟨l₁, acts, hmay, hpath, hlast⟩ := ht
        refine ⟨underway_update trivial fun u _ => hway u, fun ev hev => ?_⟩
        obtain rfl | hev := List.mem_cons.mp hev
        · refine ⟨Nat.le_refl _, l₁, l, acts, hmay, hpath.path, ?_⟩
          rw [World.finish_now, World.finish_past]
          simpa [World.now] using hlast
        · exact hgone ev hev
      · rename_i o st q k hbusy
        cases step
        rw [hbusy] at ht
        obtain ⟨l₁, acts, hmay, hpath, hlast⟩ := ht
        exact ⟨underway_update ⟨l₁, acts, hmay, hpath.call_next, hlast⟩ fun u _ => hway u, hgone⟩
      · rename_i o st a k hbusy
        split at step
        · cases step
        · rename_i r s' hexec
          cases step
          rw [hbusy] at ht
          obtain ⟨l₁, acts, hmay, hpath, hlast⟩ := ht
          have hown : Underway sys (⟨⟨t, o, st⟩, a, c.world.mem⟩ :: c.world.past) t
              (.busy o st (k r)) :=
            ⟨l₁, acts ++ [a], hmay, hpath.act_next r, hlast.own a _⟩
          refine ⟨underway_update hown fun u hu => (hway u).other (Ne.symm hu) a _,
            fun ev hev => ?_⟩
          exact (hgone ev hev).push ⟨t, o, st⟩ a s'

/-- What is left of a call does only what the call may do. -/
def Within (P : Op → S.Act → Prop) (C : S.Proc → Prop) : Thread S Op Loc Out → Prop
  | .idle _ => True
  | .busy o _ p => Machine.Only (P o) C p

/-- **Every action of a run is one that its call may do.** -/
theorem Reach.within {P : Op → S.Act → Prop} {C : S.Proc → Prop}
    {A : Call Op → S.Act → World S σ Op Out → Prop} {s : σ} {l₀ : Nat → Loc}
    {c : Config S σ Op Loc Out} (hbody : ∀ o p, C p → Machine.Only (P o) C (sys.body p))
    (hcode : ∀ o l, sys.may o l = true → Machine.Only (P o) C (sys.code o l))
    (h : sys.Reach A (start s l₀) c) :
    (∀ t, Within P C (c.thr t)) ∧ ∀ e ∈ c.world.past, P e.call.op e.act := by
  induction h with
  | refl => exact ⟨fun _ => trivial, nofun⟩
  | @tail c d lab _ _ step ih =>
    obtain ⟨hthr, hpast⟩ := ih
    -- one thread moves on, and the others stay where they are
    have hmove : ∀ {t th}, Within P C th → ∀ u, Within P C (Function.update c.thr t th u) :=
      fun hth =>
      (Function.forall_update_iff c.thr fun _ th => Within P C th).mpr ⟨hth, fun u _ => hthr u⟩
    cases lab with
    | invoke t o =>
      simp only [fire] at step
      split at step
      · split at step
        · rename_i hmay
          cases step
          exact ⟨hmove (hcode o _ hmay), hpast⟩
        · cases step
      · cases step
    | run t =>
      have ht := hthr t
      simp only [fire] at step
      split at step
      · cases step
      · cases step
        exact ⟨hmove trivial, hpast⟩
      · rename_i o st p k hbusy
        cases step
        rw [hbusy] at ht
        exact ⟨hmove ((hbody o p ht.1).bind ht.2), hpast⟩
      · rename_i o st a k hbusy
        split at step
        · cases step
        · rename_i r s' _
          cases step
          rw [hbusy] at ht
          exact ⟨hmove (ht.2 r), List.forall_mem_cons.mpr ⟨ht.1, hpast⟩⟩

/-- What an action of the history belongs to: a call in progress, on whose way it lies, or a call
that has returned, on whose path it lies. -/
def Belongs (sys : System S σ Op Loc Out) (c : Config S σ Op Loc Out) (e : Entry S σ Op) : Prop :=
  (∃ l acts p, c.thr e.call.tid = .busy e.call.op e.call.start p ∧ sys.may e.call.op l = true ∧
    Prog.Way sys.body (sys.code e.call.op l) acts p ∧ e.act ∈ acts) ∨
  ∃ ev ∈ c.world.log, ev.call = e.call ∧ ∃ l l' acts, sys.may e.call.op l = true ∧
    Prog.Path sys.body (sys.code e.call.op l) acts (ev.out, l') ∧ e.act ∈ acts

/-- What another thread does changes nothing about whom an action belongs to. -/
theorem Belongs.other {c d : Config S σ Op Loc Out} {e : Entry S σ Op} (h : Belongs sys c e)
    (hthr : d.thr e.call.tid = c.thr e.call.tid) (hlog : ∀ ev ∈ c.world.log, ev ∈ d.world.log) :
    Belongs sys d e := by
  obtain ⟨l, acts, p, hbusy, hrest⟩ | ⟨ev, hev, hrest⟩ := h
  · exact Or.inl ⟨l, acts, p, hthr.trans hbusy, hrest⟩
  · exact Or.inr ⟨ev, hlog ev hev, hrest⟩

/-- **Every action of a run belongs to a call.** -/
theorem Reach.belongs {A : Call Op → S.Act → World S σ Op Out → Prop} {s : σ} {l₀ : Nat → Loc}
    {c : Config S σ Op Loc Out}
    (h : sys.Reach A (start s l₀) c) : ∀ e ∈ c.world.past, Belongs sys c e := by
  induction h with
  | refl => exact nofun
  | @tail c d lab before _ step ih =>
    cases lab with
    | invoke t o =>
      simp only [fire] at step
      split at step
      · rename_i l hidle
        split at step
        · cases step
          intro e he
          obtain ⟨l₁, acts, p, hbusy, hrest⟩ | hdone := ih e he
          · have ht : e.call.tid ≠ t := fun ht => by
              rw [ht, hidle] at hbusy
              cases hbusy
            exact Or.inl ⟨l₁, acts, p, (Function.update_of_ne ht _ _).trans hbusy, hrest⟩
          · exact Or.inr hdone
        · cases step
      · cases step
    | run t =>
      simp only [fire] at step
      split at step
      · cases step
      · rename_i o st out l hthr
        cases step
        intro e he
        by_cases ht : e.call.tid = t
        · obtain ⟨l₁, acts, p, hbusy, hmay, hway, hact⟩ | ⟨ev, hev, hrest⟩ := ih e he
          · rw [ht, hthr] at hbusy
            cases hbusy
            refine Or.inr ⟨_, List.mem_cons_self, ?_, l₁, l, acts, hmay, hway.path, hact⟩
            rw [← ht]
          · exact Or.inr ⟨ev, List.mem_cons_of_mem _ hev, hrest⟩
        · exact (ih e he).other (Function.update_of_ne ht _ _) fun ev hev =>
            List.mem_cons_of_mem _ hev
      · rename_i o st q k hthr
        cases step
        intro e he
        by_cases ht : e.call.tid = t
        · obtain ⟨l₁, acts, p, hbusy, hmay, hway, hact⟩ | hdone := ih e he
          · rw [ht, hthr] at hbusy
            cases hbusy
            refine Or.inl ⟨l₁, acts, _, ?_, hmay, hway.call_next, hact⟩
            rw [ht]
            exact Function.update_self ..
          · exact Or.inr hdone
        · exact (ih e he).other (Function.update_of_ne ht _ _) fun ev hev => hev
      · rename_i o st a k hthr
        split at step
        · cases step
        · rename_i r s' _
          cases step
          intro e he
          obtain rfl | he := List.mem_cons.mp he
          · -- the action that has just been done
            have hway := before.paths.1 t
            rw [hthr] at hway
            obtain ⟨l, acts, hmay, hway, -⟩ := hway
            exact Or.inl ⟨l, acts ++ [a], _, Function.update_self .., hmay,
              hway.act_next r, by simp⟩
          · by_cases ht : e.call.tid = t
            · obtain ⟨l₁, acts, p, hbusy, hmay, hway, hact⟩ | hdone := ih e he
              · rw [ht, hthr] at hbusy
                cases hbusy
                refine Or.inl ⟨l₁, acts ++ [a], _, ?_, hmay, hway.act_next r,
                  List.mem_append_left _ hact⟩
                rw [ht]
                exact Function.update_self ..
              · exact Or.inr hdone
            · exact (ih e he).other (Function.update_of_ne ht _ _) fun ev hev => hev

end System

end Conc
