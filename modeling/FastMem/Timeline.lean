import FastMem.Protocol

/-!
# A call on the time line of a run

A world keeps the memory of every moment and the thread that acted at it.  `Amid` says how a
thread went through a program amid what the others did: each of its actions found the memory
of its own moment and left that of the next, and from one action of the program to the next
the thread did nothing else.  Every call of a run went so (`Reach.amid`).

`Yields` is a rule of pre- and postconditions for such a program: what it returns, and when,
whatever the others did in between.  The rules follow the program; a loop is entered with the
postcondition known for all shorter ways through it.
-/

namespace Conc

/-- A time line up to the moment `stop`: the memory of every moment, and who acted at it. -/
structure Line (σ : Type) where
  mem : Nat → σ
  who : Nat → Option Nat
  stop : Nat

namespace World

variable {S : Sig} {σ Op Out : Type}

/-- The thread that acted at time `m`. -/
def actor (w : World S σ Op Out) (m : Nat) : Option Nat :=
  w.past.reverse[m]?.map fun e => e.call.tid

/-- The time line of a world up to a moment. -/
def line (w : World S σ Op Out) (stop : Nat) : Line σ := ⟨w.memAt, w.actor, stop⟩

/-- An access does not change who has done the earlier ones. -/
theorem actor_push {w : World S σ Op Out} {m : Nat} (hm : m < w.now) (c : Call Op)
    (a : S.Act) (s : σ) : (w.push c a s).actor m = w.actor m := by
  unfold actor
  rw [push_past, List.reverse_cons, List.getElem?_append_left (by simpa [now] using hm)]

/-- It is the thread's own. -/
@[simp] theorem actor_push_now (w : World S σ Op Out) (c : Call Op) (a : S.Act) (s : σ) :
    (w.push c a s).actor w.now = some c.tid := by
  unfold actor
  rw [push_past, List.reverse_cons, List.getElem?_append_right (by simp [now])]
  simp [now]

@[simp] theorem actor_finish (w : World S σ Op Out) (c : Call Op) (out : Out) (m : Nat) :
    (w.finish c out).actor m = w.actor m := rfl

end World

/-- Thread `t` does nothing from time `m` to time `m'`. -/
structure Pauses {σ : Type} (L : Line σ) (t m m' : Nat) : Prop where
  le : m ≤ m'
  others : ∀ i, m ≤ i → i < m' → L.who i ≠ some t

/-- No time is a pause. -/
theorem Pauses.refl {σ : Type} (L : Line σ) (t m : Nat) : Pauses L t m m :=
  ⟨Nat.le_refl m, fun _ hle hlt => by omega⟩

/-- A pause is a pause on any line with the same actors. -/
theorem Pauses.congr {σ : Type} {L L' : Line σ} {t m m' : Nat} (h : Pauses L t m m')
    (hwho : ∀ i, i < m' → L'.who i = L.who i) : Pauses L' t m m' := by
  refine ⟨h.le, fun i hle hlt => ?_⟩
  rw [hwho i hlt]
  exact h.others i hle hlt

/-- The thread goes on doing nothing while another acts. -/
theorem Pauses.succ {σ : Type} {L : Line σ} {t m m' : Nat} (h : Pauses L t m m')
    (hother : L.who m' ≠ some t) : Pauses L t m (m' + 1) := by
  refine ⟨h.le.trans (Nat.le_succ m'), fun i hle hlt => ?_⟩
  by_cases hi : i = m'
  · rw [hi]
    exact hother
  · exact h.others i hle (by omega)

/-- What every step of another thread keeps is kept while the thread does nothing. -/
theorem Pauses.keeps {σ : Type} {L : Line σ} {t m m' : Nat} {P : Nat → Prop}
    (h : Pauses L t m m') (hm : P m)
    (hkeep : ∀ i, m ≤ i → i < m' → L.who i ≠ some t → P i → P (i + 1)) : P m' := by
  obtain ⟨hle, hothers⟩ := h
  induction m', hle using Nat.le_induction with
  | base => exact hm
  | succ i hle ih =>
    have hi := ih (fun j hj hlt => hkeep j hj (by omega)) fun j hj hlt => hothers j hj (by omega)
    exact hkeep i hle (Nat.lt_succ_self i) (hothers i hle (Nat.lt_succ_self i)) hi

namespace Machine

variable {S : Sig} {σ : Type} {M : Machine S σ} {L : Line σ} {t m m' n : Nat} {α β : Type}

/-- In `n` steps from time `m` thread `t` has come through a program to what is left of it at
time `m'`, amid the actions of other threads. -/
inductive Amid (M : Machine S σ) (L : Line σ) (t : Nat) : {α : Type} → Prog S α → Nat → Nat →
    Prog S α → Nat → Prop
  | here {α : Type} (p : Prog S α) (m : Nat) : Amid M L t p m 0 p m
  | act {α : Type} {a : S.Act} {k : S.Res a → Prog S α} {q : Prog S α}
    {m j m' n : Nat} {r : S.Res a}
      (pause : Pauses L t m j) (own : L.who j = some t) (exec : M.exec t a (L.mem j) =
        some (r, L.mem (j + 1)))
      (rest : Amid M L t (k r) (j + 1) n q m') : Amid M L t (.act a k) m (n + 1) q m'
  | call {α : Type} {p : S.Proc} {k : S.Ret p → Prog S α} {q : Prog S α} {m m' n : Nat}
      (rest : Amid M L t ((M.body p).bind k) m n q m') : Amid M L t (.call p k) m (n + 1) q m'

/-- Time does not go back on the way through a program. -/
theorem Amid.le {p q : Prog S α} (h : Amid M L t p m n q m') : m ≤ m' := by
  induction h with
  | here => exact Nat.le_refl _
  | act pause _ _ _ ih =>
    have := pause.le
    omega
  | call _ ih => exact ih

/-- One more action. -/
theorem Amid.act_next {p : Prog S α} {a : S.Act} {k : S.Res a → Prog S α} {j : Nat} {r : S.Res a}
    (h : Amid M L t p m n (.act a k) m') (pause : Pauses L t m' j) (own : L.who j = some t)
    (exec : M.exec t a (L.mem j) = some (r, L.mem (j + 1))) : Amid M L t p m (n + 1)
    (k r) (j + 1) := by
  generalize hq : Prog.act a k = q at h
  induction h with
  | here p m =>
    subst hq
    exact .act pause own exec (.here _ _)
  | act pause' own' exec' _ ih => exact .act pause' own' exec' (ih pause hq)
  | call _ ih => exact .call (ih pause hq)

/-- The next procedure is entered. -/
theorem Amid.call_next {p : Prog S α} {f : S.Proc} {k : S.Ret f → Prog S α}
    (h : Amid M L t p m n (.call f k) m') : Amid M L t p m (n + 1) ((M.body f).bind k) m' := by
  generalize hq : Prog.call f k = q at h
  induction h with
  | here p m =>
    subst hq
    exact .call (.here _ _)
  | act pause own exec _ ih => exact .act pause own exec (ih hq)
  | call _ ih => exact .call (ih hq)

/-- On its way a program keeps what it returns whatever happens. -/
theorem Amid.returns {P : α → Prop} {p q : Prog S α} (h : Amid M L t p m n q m')
    (hp : p.Returns P) : q.Returns P := by
  induction h with
  | here => exact hp
  | act _ _ _ _ ih => exact ih (hp _)
  | call _ ih => exact ih (Prog.returns_after _ fun r => hp r)

/-- Only what has happened by then matters. -/
theorem Amid.congr {L' : Line σ} {p q : Prog S α} (h : Amid M L t p m n q m')
    (hmem : ∀ i, i ≤ m' → L'.mem i = L.mem i)
    (hwho : ∀ i, i < m' → L'.who i = L.who i) : Amid M L' t p m n q m' := by
  induction h with
  | here p m => exact .here p m
  | @act a k q m j m' n r pause own exec rest ih =>
    have hle := rest.le
    refine .act ⟨pause.le, fun i hi hlt => ?_⟩ ?_ ?_ (ih hmem hwho)
    · rw [hwho i (by omega)]
      exact pause.others i hi hlt
    · rw [hwho j (by omega)]
      exact own
    · rw [hmem j (by omega), hmem (j + 1) (by omega)]
      exact exec
  | call _ ih => exact .call (ih hmem hwho)

/-- A way through one program after another is a way through each. -/
theorem Amid.split {p : Prog S α} {f : α → Prog S β} {y : β}
    (h : Amid M L t (p.bind f) m n (.ret y) m') :
    ∃ n₁ n₂ a j, n = n₁ + n₂ ∧ Amid M L t p m n₁ (.ret a) j ∧ Amid M L t (f a) j n₂
      (.ret y) m' := by
  -- induction on the way, for every way to cut its program in two
  have hcut : ∀ {γ : Type} {q z : Prog S γ} {m n m' : Nat}, Amid M L t q m n z m' →
      ∀ {y : γ}, z = .ret y → ∀ {α : Type} {p : Prog S α} {f : α → Prog S γ}, q = p.bind f →
        ∃ n₁ n₂ a j, n = n₁ + n₂ ∧ Amid M L t p m n₁ (.ret a) j ∧
        Amid M L t (f a) j n₂ (.ret y) m' := by
    intro γ q z m n m' h
    induction h with
    | here q m =>
      intro y hz α p f hq
      cases p with
      | ret a =>
        have hf : f a = .ret y := hq.symm.trans hz
        exact ⟨0, 0, a, m, rfl, .here _ _, by rw [hf]; exact .here _ _⟩
      | act a k =>
        rw [hz] at hq
        cases hq
      | call p k =>
        rw [hz] at hq
        cases hq
    | @act a k z m j m' n r pause own exec rest ih =>
      intro y hz α p f hq
      cases p with
      | ret b =>
        have hf : f b = .act a k := hq.symm
        subst hz
        exact ⟨0, n + 1, b, m, (Nat.zero_add _).symm,
          .here _ _, by rw [hf]; exact .act pause own exec rest⟩
      | act a k =>
        cases hq
        obtain ⟨n₁, n₂, b, i, hn, hfirst, hlast⟩ := ih hz rfl
        exact ⟨n₁ + 1, n₂, b, i, by omega, .act pause own exec hfirst, hlast⟩
      | call p k => cases hq
    | @call q k z m m' n rest ih =>
      intro y hz α p f hq
      cases p with
      | ret b =>
        have hf : f b = .call q k := hq.symm
        subst hz
        exact ⟨0, n + 1, b, m, (Nat.zero_add _).symm, .here _ _, by rw [hf]; exact .call rest⟩
      | act a k => cases hq
      | call p k =>
        cases hq
        obtain ⟨n₁, n₂, b, i, hn, hfirst, hlast⟩ := ih hz (Prog.bind_assoc _ _ _).symm
        exact ⟨n₁ + 1, n₂, b, i, by omega, .call hfirst, hlast⟩
  exact hcut h rfl rfl

variable {Q : α → Nat → Prop} {R : β → Nat → Prop}

/-- Whenever thread `t` comes from time `m` through the program in at most `n` steps, before
the end of the time line, its result and the time are as `Q` says. -/
def Yields (M : Machine S σ) (L : Line σ) (t n : Nat) (p : Prog S α) (m : Nat)
    (Q : α → Nat → Prop) : Prop :=
  ∀ k x m', k ≤ n → m' ≤ L.stop → Amid M L t p m k (.ret x) m' → Q x m'

/-- What a program yields may be said more weakly. -/
theorem Yields.imp {Q' : α → Nat → Prop} {p : Prog S α} (h : Yields M L t n p m Q)
    (hQ : ∀ x m', m ≤ m' → m' ≤ L.stop → Q x m' → Q' x m') : Yields M L t n p m Q' :=
  fun k x m' hk hm' hway => hQ x m' hway.le hm' (h k x m' hk hm' hway)

/-- What is so whatever the program does. -/
theorem yields_any {p : Prog S α} (h : ∀ x j, Q x j) : Yields M L t n p m Q :=
  fun _ x m' _ _ _ => h x m'

/-- A result is yielded at once. -/
theorem yields_ret {a : α} (h : Q a m) : Yields M L t n (.ret a) m Q := by
  intro k x m' _ _ hway
  cases hway
  exact h

/-- An access is done at some moment, after a pause. -/
theorem yields_act {a : S.Act} {k : S.Res a → Prog S α}
    (h : ∀ j r, Pauses L t m j → j < L.stop → L.who j = some t →
      M.exec t a (L.mem j) = some (r, L.mem (j + 1)) →
      Yields M L t n (k r) (j + 1) Q) : Yields M L t n (.act a k) m Q := by
  intro i x m' hi hm' hway
  cases hway with
  | @act a k q m j m' i r pause own exec rest =>
    have hle := rest.le
    exact h j r pause (by omega) own exec i x m' (by omega) hm' rest

/-- What one program yields after another. -/
theorem Yields.bind {p : Prog S α} {f : α → Prog S β} (h : Yields M L t n p m Q)
    (hf : ∀ a j, m ≤ j → j ≤ L.stop → Q a j → Yields M L t n (f a) j R) : Yields M L t n
    (p.bind f) m R := by
  intro i y m' hi hm' hway
  obtain ⟨n₁, n₂, a, j, hn, hfirst, hlast⟩ := hway.split
  have hj : j ≤ L.stop := hlast.le.trans hm'
  exact hf a j hfirst.le hj (h n₁ a j (by omega) hj hfirst) n₂ y m' (by omega) hm' hlast

/-- What a program yields whatever came before it. -/
theorem yields_after {p : Prog S α} {f : α → Prog S β}
    (hf : ∀ a j, m ≤ j → Yields M L t n (f a) j R) : Yields M L t n (p.bind f) m R :=
  Yields.bind (yields_any (Q := fun _ _ => True) fun _ _ => trivial) fun a j hj _ _ => hf a j hj

/-- What a program returns whatever happens, it yields. -/
theorem yields_returns {P : α → Prop} {p : Prog S α} (hp : p.Returns P) :
    Yields M L t n p m fun x _ => P x :=
  fun _ _ _ _ _ hway => hway.returns hp

/-- A loop is entered with its postcondition known for all shorter ways. -/
theorem yields_enter {p : S.Proc} {Q : S.Ret p → Nat → Prop}
    (h : ∀ k, k < n → Yields M L t k (M.body p) m Q) : Yields M L t n (Prog.enter p) m Q := by
  intro i x m' hi hm' hway
  cases hway with
  | @call p k q m m' i rest =>
    rw [Prog.bind_ret] at rest
    exact h i (by omega) i x m' (Nat.le_refl i) hm' rest

/-- Two things that a program yields. -/
theorem Yields.and {Q' : α → Nat → Prop} {p : Prog S α} (h : Yields M L t n p m Q)
    (h' : Yields M L t n p m Q') : Yields M L t n p m fun x j => Q x j ∧ Q' x j :=
  fun k x m' hk hm' hway => ⟨h k x m' hk hm' hway, h' k x m' hk hm' hway⟩

/-- **The frame rule.**  What the others keep, and each action of the program keeps, the
program keeps. -/
theorem yields_keeps {P : Nat → Prop} {C : S.Act → Prop} {D : S.Proc → Prop} {p : Prog S α}
    (hpause : ∀ j j', Pauses L t j j' → j' ≤ L.stop → P j → P j')
    (hact : ∀ a j r, C a → j < L.stop → M.exec t a (L.mem j) = some (r, L.mem (j + 1)) → P j →
      P (j + 1))
    (hbody : ∀ q, D q → Only C D (M.body q)) (hp : Only C D p) (hm : P m) :
    Yields M L t n p m fun _ j => P j := by
  intro k x m' hk hm' hway
  clear hk
  generalize Prog.ret x = q at hway
  induction hway with
  | here p m => exact hm
  | @act a k q m j m' n r pause own exec rest ih =>
    have hle := rest.le
    exact ih (hp.2 r) (hact a j r hp.1 (by omega) exec (hpause m j pause (by omega) hm)) hm'
  | call _ ih => exact ih ((hbody _ hp.1).bind hp.2) hm hm'

/-- What both branches of a test yield. -/
theorem Yields.ite {c : Prop} [Decidable c] {p q : Prog S α} (hp : c → Yields M L t n p m Q)
    (hq : ¬ c → Yields M L t n q m Q) : Yields M L t n (if c then p else q) m Q := by
  split
  case isTrue hc => exact hp hc
  case isFalse hc => exact hq hc

end Machine

namespace System

variable {S : Sig} {σ Op Loc Out : Type} {sys : System S σ Op Loc Out}

/-- A thread on the time line: it has come to where it is, and done nothing since. -/
def OnLine (sys : System S σ Op Loc Out) (w : World S σ Op Out) (t : Nat) :
    Thread S Op Loc Out → Prop
  | .idle _ => True
  | .busy o st p => ∃ l n m, sys.may o l = true ∧
    Machine.Amid sys.toMachine (w.line w.now) t (sys.code o l) st n p m ∧
      Pauses (w.line w.now) t m w.now

/-- A returned call on the time line up to its end. -/
def WentThrough (sys : System S σ Op Loc Out) (w : World S σ Op Out) (ev : Event Op Out) : Prop :=
  ev.stop ≤ w.now ∧ ∃ l l' n m, sys.may ev.call.op l = true ∧
    Machine.Amid sys.toMachine (w.line ev.stop) ev.call.tid (sys.code ev.call.op l) ev.call.start n
    (.ret (ev.out, l')) m ∧ Pauses (w.line ev.stop) ev.call.tid m ev.stop

variable {w : World S σ Op Out} {t : Nat} {th : Thread S Op Loc Out} {d : Call Op}
  {a : S.Act} {s : σ}

/-- An access does not change the earlier memories. -/
theorem line_push_mem {i : Nat} (hi : i ≤ w.now) (m m' : Nat) :
    ((w.push d a s).line m).mem i = (w.line m').mem i :=
  World.memAt_push hi d a s

theorem line_push_who {i : Nat} (hi : i < w.now) (m m' : Nat) :
    ((w.push d a s).line m).who i = (w.line m').who i :=
  World.actor_push hi d a s

/-- What another thread does leaves a thread where it is. -/
theorem OnLine.other (h : OnLine sys w t th) (hne : d.tid ≠ t) :
    OnLine sys (w.push d a s) t th := by
  cases th with
  | idle l => trivial
  | busy o st p =>
    obtain ⟨l, n, m, hmay, hway, hpause⟩ := h
    have hle := hpause.le
    refine ⟨l, n, m, hmay, ?_, ?_⟩
    · exact hway.congr (fun i hi => line_push_mem (by omega) _ _) fun i hi =>
        line_push_who (by omega) _ _
    · apply (hpause.congr fun i hi => line_push_who hi _ _).succ
      show (w.push d a s).actor w.now ≠ some t
      rw [World.actor_push_now]
      exact fun heq => hne (Option.some.inj heq)

/-- What is done afterwards does not change how a call went. -/
theorem WentThrough.push {ev : Event Op Out} (h : WentThrough sys w ev) : WentThrough sys
    (w.push d a s) ev := by
  obtain ⟨hstop, l, l', n, m, hmay, hway, hpause⟩ := h
  have hle := hpause.le
  refine ⟨hstop.trans (Nat.le_succ _), l, l', n, m, hmay, ?_, ?_⟩
  · exact hway.congr (fun i hi => line_push_mem (by omega) _ _) fun i hi =>
      line_push_who (by omega) _ _
  · exact hpause.congr fun i hi => line_push_who (by omega) _ _

/-- One thread has moved on, and every other is where it was. -/
theorem onLine_update {thr : Nat → Thread S Op Loc Out} (hown : OnLine sys w t th)
    (hothers : ∀ u, u ≠ t → OnLine sys w u (thr u)) (u : Nat) : OnLine sys w u
    (Function.update thr t th u) := by
  by_cases hu : u = t
  · subst hu
    rw [Function.update_self]
    exact hown
  · rw [Function.update_of_ne hu]
    exact hothers u hu

/-- **Every call of a run went through its program on the time line.** -/
theorem Reach.amid {A : Call Op → S.Act → World S σ Op Out → Prop} {s : σ} {l₀ : Nat → Loc}
    {c : Config S σ Op Loc Out} (h : sys.Reach A (start s l₀) c) :
    (∀ t, OnLine sys c.world t (c.thr t)) ∧ ∀ ev ∈ c.world.log, WentThrough sys c.world ev := by
  induction h with
  | refl => exact ⟨fun t => trivial, nofun⟩
  | @tail c d lab _ _ step ih =>
    obtain ⟨hline, hwent⟩ := ih
    cases lab with
    | invoke t o =>
      simp only [fire] at step
      split at step
      · rename_i l hidle
        split at step
        · rename_i hmay
          cases step
          refine ⟨onLine_update ?_ fun u _ => hline u, hwent⟩
          exact ⟨l, 0, c.world.now, hmay, .here _ _, Pauses.refl _ _ _⟩
        · cases step
      · cases step
    | run t =>
      have ht := hline t
      simp only [fire] at step
      split at step
      · cases step
      · rename_i o st out l hbusy
        cases step
        rw [hbusy] at ht
        obtain ⟨l₁, n, m, hmay, hway, hpause⟩ := ht
        refine ⟨onLine_update trivial fun u _ => hline u, fun ev hev => ?_⟩
        obtain rfl | hev := List.mem_cons.mp hev
        · exact ⟨Nat.le_refl _, l₁, l, n, m, hmay, hway, hpause⟩
        · exact hwent ev hev
      · rename_i o st q k hbusy
        cases step
        rw [hbusy] at ht
        obtain ⟨l₁, n, m, hmay, hway, hpause⟩ := ht
        exact ⟨onLine_update ⟨l₁, n + 1, m, hmay, hway.call_next, hpause⟩ fun u _ => hline u, hwent⟩
      · rename_i o st a k hbusy
        split at step
        · cases step
        · rename_i r s' hexec
          cases step
          rw [hbusy] at ht
          obtain ⟨l₁, n, m, hmay, hway, hpause⟩ := ht
          have hle := hpause.le
          refine ⟨onLine_update ?_ fun u hu => (hline u).other (Ne.symm hu), fun ev hev =>
            (hwent ev hev).push⟩
          refine ⟨l₁, n + 1, c.world.now + 1, hmay, ?_, Pauses.refl _ _ _⟩
          have hway' : Machine.Amid sys.toMachine
              ((c.world.push ⟨t, o, st⟩ a s').line (c.world.now + 1)) t (sys.code o l₁)
              st n (.act a k) m :=
            hway.congr (fun i hi => line_push_mem (by omega) _ _) fun i hi =>
              line_push_who (by omega) _ _
          apply hway'.act_next (hpause.congr fun i hi => line_push_who hi _ _)
          · exact World.actor_push_now ..
          · show sys.exec t a ((c.world.push ⟨t, o, st⟩ a s').memAt c.world.now) =
              some (r, (c.world.push ⟨t, o, st⟩ a s').memAt (c.world.now + 1))
            rw [World.memAt_push (Nat.le_refl _), World.memAt_now, World.memAt_push_succ]
            exact hexec

/-- A returned call has its place on the time line. -/
theorem Reach.span {A : Call Op → S.Act → World S σ Op Out → Prop} {s : σ} {l₀ : Nat → Loc}
    {c : Config S σ Op Loc Out} (h : sys.Reach A (start s l₀) c) {ev : Event Op Out}
    (hev : ev ∈ c.world.log) : ev.call.start ≤ ev.stop ∧ ev.stop ≤ c.world.now := by
  obtain ⟨hstop, l, l', n, m, -, hway, hpause⟩ := h.amid.2 ev hev
  exact ⟨hway.le.trans hpause.le, hstop⟩

/-- What the program of a call yields, the call has returned. -/
theorem Reach.returned {A : Call Op → S.Act → World S σ Op Out → Prop} {s : σ} {l₀ : Nat → Loc}
    {c : Config S σ Op Loc Out} (h : sys.Reach A (start s l₀) c) {ev : Event Op Out}
    (hev : ev ∈ c.world.log)
    {Q : Out → Prop} (hQ : ∀ l n, sys.may ev.call.op l = true → ev.stop ≤ c.world.now →
      sys.toMachine.Yields (c.world.line ev.stop) ev.call.tid n (sys.code ev.call.op l)
        ev.call.start fun x _ => Q x.1) :
    Q ev.out := by
  obtain ⟨hstop, l, l', n, m, hmay, hway, hpause⟩ := h.amid.2 ev hev
  exact hQ l n hmay hstop n (ev.out, l') m (Nat.le_refl n) hpause.le hway

end System

section

variable {S : Sig} {σ Op Out G : Type} {M : Machine S σ} {R : Rules S σ Op Out G}
  {A : Call Op → S.Act → World S σ Op Out → Prop} {s₀ : σ} {γ₀ : Nat → G} {w : World S σ Op Out}
    {γ : Nat → G} {m : Nat}

/-- A trace goes through every moment of its time line. -/
theorem Trace.upto (h : Trace M R A s₀ γ₀ w γ) (hm : m ≤ w.now) :
    ∃ w' γ', Trace M R A s₀ γ₀ w' γ' ∧ w'.now = m ∧ ∀ i, i ≤ m → w'.memAt i = w.memAt i := by
  induction h with
  | init => exact ⟨_, _, .init, (Nat.le_zero.mp hm).symm, fun _ _ => rfl⟩
  | start t before ih => exact ih hm
  | @act w γ c a r s g before meets exec step ih =>
    by_cases hle : m ≤ w.now
    · obtain ⟨w', γ', htrace, hnow, hmem⟩ := ih hle
      refine ⟨w', γ', htrace, hnow, fun i hi => ?_⟩
      rw [World.memAt_push (hi.trans hle)]
      exact hmem i hi
    · have heq : (w.push c a s).now = m := by
        have : m ≤ w.now + 1 := hm
        rw [World.push_now]
        omega
      exact ⟨_, _, .act before meets exec step, heq, fun _ _ => rfl⟩
  | stop before returns ih => exact ih hm

/-- The step of a trace at a moment of its time line. -/
theorem Trace.act_at (h : Trace M R A s₀ γ₀ w γ) (hm : m < w.now) :
    ∃ w' γ' c a r g, Trace M R A s₀ γ₀ w' γ' ∧ w'.now = m ∧ (∀ i, i ≤ m → w'.memAt i = w.memAt i) ∧
      w.actor m = some c.tid ∧ A c a w' ∧ M.exec c.tid a w'.mem = some (r, w.memAt (m + 1)) ∧
      R.step c w' (γ' c.tid) a r g := by
  induction h with
  | init => cases hm
  | start t before ih => exact ih hm
  | @act w γ c a r s g before meets exec step ih =>
    by_cases hlt : m < w.now
    · obtain ⟨w', γ', c', a', r', g', htrace, hnow, hmem, hactor, hmeets, hexec, hstep⟩ := ih hlt
      refine ⟨w', γ', c', a', r', g', htrace, hnow, fun i hi => ?_, ?_, hmeets, ?_, hstep⟩
      · rw [World.memAt_push (by omega)]
        exact hmem i hi
      · rw [World.actor_push hlt]
        exact hactor
      · rw [World.memAt_push hlt]
        exact hexec
    · have heq : w.now = m := by
        have : m < w.now + 1 := hm
        omega
      subst heq
      refine ⟨w, γ, c, a, r, g, before, rfl, fun i hi => ?_,
        World.actor_push_now .., meets, ?_, step⟩
      · rw [World.memAt_push hi]
      · rw [World.memAt_push_succ]
        exact exec
  | stop before returns ih => exact ih hm

end

end Conc
