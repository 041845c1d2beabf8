import Mathlib.Data.Set.Finite.Basic
import FastMem.Prog

/-!
# Threads, runs and the invariant rule

Any number of threads share one memory.  A thread is idle, with a local state
it keeps between calls, or busy with one call.  A run is a sequence of
labels: a thread starts a call, or performs the next step of the call it is
in.  Every interleaving of the atomic actions of the threads is a run.

A configuration carries its history: the actions performed, each with the
memory it found, and the calls that have returned, each with the interval of
the history it took.  Statements about "some moment during the call" are
statements about this history.

`Logic` is an invariant of the memory and of one ghost value for each thread.
`Safe` says of one thread's program that each of its actions, from every
memory and every ghost state of the other threads the invariant allows, keeps
the invariant by changing its own ghost value only.  `Reach.sound` is the rule
the rest of the development uses: if every call is safe, the invariant holds
in every configuration that any number of threads reach in any interleaving.
-/

namespace Conc

/-- One call in progress: the thread, the operation and the time it started. -/
structure Call (Op : Type) where
  tid : Nat
  op : Op
  start : Nat

/-- One performed action: the call it belongs to and the memory it found. -/
structure Entry (S : Sig) (σ Op : Type) where
  call : Call Op
  act : S.Act
  mem : σ

/-- One returned call, its result and the time it returned. -/
structure Event (Op Out : Type) where
  call : Call Op
  out : Out
  stop : Nat

/-- The memory together with its history, the latest item first. -/
structure World (S : Sig) (σ Op Out : Type) where
  mem : σ
  past : List (Entry S σ Op)
  log : List (Event Op Out)

namespace World

variable {S : Sig} {σ Op Out : Type}

/-- The world after call `c` performed `a`, leaving memory `s`. -/
def push (w : World S σ Op Out) (c : Call Op) (a : S.Act) (s : σ) : World S σ Op Out where
  mem := s
  past := ⟨c, a, w.mem⟩ :: w.past
  log := w.log

/-- The world after call `c` returned `out`. -/
def finish (w : World S σ Op Out) (c : Call Op) (out : Out) : World S σ Op Out where
  mem := w.mem
  past := w.past
  log := ⟨c, out, w.past.length⟩ :: w.log

/-- The number of actions performed so far. -/
def now (w : World S σ Op Out) : Nat := w.past.length

/-- The memory at time `m`: the one the action performed at time `m` found, and
the current one when no action has been performed since. -/
def memAt (w : World S σ Op Out) (m : Nat) : σ :=
  match w.past.reverse[m]? with
  | some e => e.mem
  | none => w.mem

/-- An access leaves its memory. -/
@[simp] theorem push_mem (w : World S σ Op Out) (c : Call Op) (a : S.Act) (s : σ) :
    (w.push c a s).mem = s := rfl

/-- It is the last of the past. -/
@[simp] theorem push_past (w : World S σ Op Out) (c : Call Op) (a : S.Act) (s : σ) :
    (w.push c a s).past = ⟨c, a, w.mem⟩ :: w.past := rfl

/-- It returns nothing. -/
@[simp] theorem push_log (w : World S σ Op Out) (c : Call Op) (a : S.Act) (s : σ) :
    (w.push c a s).log = w.log := rfl

/-- A return leaves the memory alone. -/
@[simp] theorem finish_mem (w : World S σ Op Out) (c : Call Op) (out : Out) :
    (w.finish c out).mem = w.mem := rfl

@[simp] theorem finish_past (w : World S σ Op Out) (c : Call Op) (out : Out) :
    (w.finish c out).past = w.past := rfl

/-- It is the last of the log. -/
@[simp] theorem finish_log (w : World S σ Op Out) (c : Call Op) (out : Out) :
    (w.finish c out).log = ⟨c, out, w.now⟩ :: w.log := rfl

/-- An access takes one moment. -/
@[simp] theorem push_now (w : World S σ Op Out) (c : Call Op) (a : S.Act) (s : σ) :
    (w.push c a s).now = w.now + 1 := rfl

/-- A return takes no time. -/
@[simp] theorem finish_now (w : World S σ Op Out) (c : Call Op) (out : Out) :
    (w.finish c out).now = w.now := rfl

/-- The memory of a past moment stays what it was. -/
theorem memAt_push {w : World S σ Op Out} {m : Nat} (hm : m ≤ w.now)
    (c : Call Op) (a : S.Act) (s : σ) : (w.push c a s).memAt m = w.memAt m := by
  unfold memAt
  simp only [push_past, List.reverse_cons, push_mem]
  rcases Nat.lt_or_eq_of_le hm with hlt | rfl
  · rw [List.getElem?_append_left (by simpa [now] using hlt)]
    rw [List.getElem?_eq_getElem (by simpa [now] using hlt)]
  · rw [List.getElem?_append_right (by simp [now])]
    simp [now]

/-- The memory now is the memory at the moment now. -/
@[simp] theorem memAt_now (w : World S σ Op Out) : w.memAt w.now = w.mem := by
  simp [memAt, now]

/-- The memory after an access is what it left. -/
@[simp] theorem memAt_push_succ (w : World S σ Op Out) (c : Call Op) (a : S.Act) (s : σ) :
    (w.push c a s).memAt (w.now + 1) = s := by
  rw [← push_now w c a s, memAt_now, push_mem]

end World

/-- A thread: idle with its local state, or inside a call. -/
inductive Thread (S : Sig) (Op Loc Out : Type)
  | idle (l : Loc)
  | busy (o : Op) (start : Nat) (p : Prog S (Out × Loc))

/-- What the threads of a machine may do: which operations a thread may start
from a local state, and the program of each operation. -/
structure System (S : Sig) (σ Op Loc Out : Type) extends Machine S σ where
  may : Op → Loc → Bool
  code : Op → Loc → Prog S (Out × Loc)

/-- A configuration: the world and every thread. -/
structure Config (S : Sig) (σ Op Loc Out : Type) where
  world : World S σ Op Out
  thr : Nat → Thread S Op Loc Out

/-- A step of a run: thread `t` starts `o`, or continues its call. -/
inductive Label (Op : Type)
  | invoke (t : Nat) (o : Op)
  | run (t : Nat)

/-- Thread `t` starts `o` and continues its call `k` times. -/
def Label.call {Op : Type} (t : Nat) (o : Op) (k : Nat) : List (Label Op) :=
  .invoke t o :: List.replicate k (.run t)

/-- Thread `t` continues its call `k` times. -/
def Label.steps {Op : Type} (t k : Nat) : List (Label Op) := List.replicate k (.run t)

namespace System

variable {S : Sig} {σ Op Loc Out : Type} (sys : System S σ Op Loc Out)

/-- One step.  A thread that waits, or is asked for an operation it may not
start, takes no step. -/
def fire (c : Config S σ Op Loc Out) : Label Op → Option (Config S σ Op Loc Out)
  | .invoke t o =>
      match c.thr t with
      | .idle l =>
          if sys.may o l then
            some { c with thr := Function.update c.thr t (.busy o c.world.now (sys.code o l)) }
          else none
      | .busy .. => none
  | .run t =>
      match c.thr t with
      | .idle _ => none
      | .busy o st (.ret (out, l)) =>
          some ⟨c.world.finish ⟨t, o, st⟩ out, Function.update c.thr t (.idle l)⟩
      | .busy o st (.call p k) =>
          some { c with thr := Function.update c.thr t (.busy o st ((sys.body p).bind k)) }
      | .busy o st (.act a k) =>
          match sys.exec t a c.world.mem with
          | none => none
          | some (r, s) =>
              some ⟨c.world.push ⟨t, o, st⟩ a s, Function.update c.thr t (.busy o st (k r))⟩

/-- The same threads, each call of which names the local state it starts from and
returns the one it ends in, so that the history says which they were. -/
@[reducible] def recording [DecidableEq Loc] (sys : System S σ Op Loc Out) :
    System S σ (Op × Loc) Loc (Out × Loc) where
  toMachine := sys.toMachine
  may := fun o l => decide (o.2 = l) && sys.may o.1 l
  code := fun o l => (sys.code o.1 l).bind fun x => .ret (x, x.2)

/-- Threads that have not started anything yet. -/
def start (s : σ) (l : Nat → Loc) : Config S σ Op Loc Out :=
  ⟨⟨s, [], []⟩, fun t => .idle (l t)⟩

/-- What a run assumes of the actions performed in it: a condition on the call,
the action and the world before the action. -/
def Meets (A : Call Op → S.Act → World S σ Op Out → Prop)
    (c : Config S σ Op Loc Out) : Label Op → Prop
  | .invoke _ _ => True
  | .run t => ∀ o st a k, c.thr t = .busy o st (.act a k) → A ⟨t, o, st⟩ a c.world

/-- The configurations reached from `c₀` by runs all of whose actions meet `A`. -/
inductive Reach (A : Call Op → S.Act → World S σ Op Out → Prop)
    (c₀ : Config S σ Op Loc Out) : Config S σ Op Loc Out → Prop
  | refl : Reach A c₀ c₀
  | tail {c d : Config S σ Op Loc Out} (lab : Label Op) (before : Reach A c₀ c)
      (meets : Meets A c lab) (step : sys.fire c lab = some d) : Reach A c₀ d

variable {sys} {A : Call Op → S.Act → World S σ Op Out → Prop} {c₀ c d : Config S σ Op Loc Out}

/-- A run goes on from where another one ends. -/
theorem Reach.trans (h : sys.Reach A c₀ c) (h' : sys.Reach A c d) : sys.Reach A c₀ d := by
  induction h' with
  | refl => exact h
  | tail lab _ meets step ih => exact .tail lab ih meets step

/-- The configuration a list of steps leads to, if each of them can be taken. -/
def schedule (sys : System S σ Op Loc Out) (c : Config S σ Op Loc Out) :
    List (Label Op) → Option (Config S σ Op Loc Out)
  | [] => some c
  | lab :: ls => (sys.fire c lab).bind fun d => schedule sys d ls

/-- What a schedule fires is a run. -/
theorem Reach.of_schedule (sys : System S σ Op Loc Out) (c : Config S σ Op Loc Out)
    (ls : List (Label Op)) (h : sys.schedule c ls = some d) :
    sys.Reach (fun _ _ _ => True) c d := by
  induction ls generalizing c with
  | nil =>
      cases h
      exact .refl
  | cons lab ls ih =>
      obtain ⟨e, hstep, hrest⟩ := Option.bind_eq_some_iff.mp h
      refine Reach.trans (.tail lab .refl ?_ hstep) (ih e hrest)
      cases lab with
      | invoke t o => trivial
      | run t => intro _ _ _ _ _; trivial

/-- A thread in the middle of a call comes to its end if it runs on alone. -/
theorem Reach.finish_alone {t st fuel : Nat} {o : Op} {p : Prog S (Out × Loc)} {x : Out × Loc}
    {s' : σ} (h : sys.Reach (fun _ _ _ => True) c₀ c) (hbusy : c.thr t = .busy o st p)
    (heval : sys.toMachine.eval t fuel p c.world.mem = some (x, s')) :
    ∃ d, sys.Reach (fun _ _ _ => True) c₀ d ∧ d.thr = Function.update c.thr t (.idle x.2) ∧
      d.world.mem = s' ∧ d.world.log = ⟨⟨t, o, st⟩, x.1, d.world.now⟩ :: c.world.log := by
  induction fuel generalizing c p with
  | zero => cases heval
  | succ fuel ih =>
      have hmeets : Meets (fun _ _ _ => True) c (.run t) := fun _ _ _ _ _ => trivial
      cases p with
      | ret y =>
          cases heval
          have hlast := h.tail (.run t) hmeets (d := ⟨c.world.finish ⟨t, o, st⟩ x.1,
            Function.update c.thr t (.idle x.2)⟩) (by simp only [fire, hbusy])
          exact ⟨_, hlast, rfl, rfl, rfl⟩
      | act a k =>
          obtain ⟨⟨r, s⟩, hexec, hrest⟩ := Option.bind_eq_some_iff.mp heval
          have hnext := h.tail (.run t) hmeets (d := ⟨c.world.push ⟨t, o, st⟩ a s,
            Function.update c.thr t (.busy o st (k r))⟩) (by simp only [fire, hbusy, hexec])
          obtain ⟨d, hd, hthr, hmem, hlog⟩ := ih hnext (Function.update_self ..) hrest
          exact ⟨d, hd, by rw [hthr, Function.update_idem], hmem, hlog⟩
      | call q k =>
          have hnext := h.tail (.run t) hmeets (d := { c with
            thr := Function.update c.thr t (.busy o st ((sys.body q).bind k)) })
            (by simp only [fire, hbusy])
          obtain ⟨d, hd, hthr, hmem, hlog⟩ := ih hnext (Function.update_self ..) heval
          exact ⟨d, hd, by rw [hthr, Function.update_idem], hmem, hlog⟩

/-- A call that a thread could run alone can be made and returns, with the others waiting. -/
theorem Reach.call_alone {t : Nat} {o : Op} {l : Loc} {x : Out × Loc} {s' : σ}
    (h : sys.Reach (fun _ _ _ => True) c₀ c) (hidle : c.thr t = .idle l) (hmay : sys.may o l = true)
    (hruns : sys.toMachine.Runs t (sys.code o l) c.world.mem x s') :
    ∃ d, sys.Reach (fun _ _ _ => True) c₀ d ∧ d.thr = Function.update c.thr t (.idle x.2) ∧
      d.world.mem = s' ∧
      d.world.log = ⟨⟨t, o, c.world.now⟩, x.1, d.world.now⟩ :: c.world.log := by
  obtain ⟨fuel, heval⟩ := hruns.to_eval
  have hstart := h.tail (.invoke t o) trivial (d := { c with
    thr := Function.update c.thr t (.busy o c.world.now (sys.code o l)) })
    (by simp only [fire, hidle, hmay, if_true])
  obtain ⟨d, hd, hthr, hmem, hlog⟩ := hstart.finish_alone (Function.update_self ..) heval
  exact ⟨d, hd, by rw [hthr, Function.update_idem], hmem, hlog⟩

/-- The step of the recording threads that a step of the threads is. -/
def recorded [DecidableEq Loc] (c : Config S σ (Op × Loc) Loc (Out × Loc)) : Label Op → Option
    (Label (Op × Loc))
  | .invoke t o =>
      match c.thr t with
      | .idle l => some (.invoke t (o, l))
      | .busy .. => none
  | .run t => some (.run t)

/-- Whether the next action of a step passes a test. -/
def passes (B : Call Op → S.Act → World S σ Op Out → Bool) (c : Config S σ Op Loc Out) :
    Label Op → Bool
  | .invoke _ _ => true
  | .run t =>
      match c.thr t with
      | .busy o st (.act a _) => B ⟨t, o, st⟩ a c.world
      | _ => true

/-- The configuration of the recording threads a list of steps leads to, if each of
them can be taken and passes the test. -/
def replay [DecidableEq Loc] (sys : System S σ Op Loc Out)
    (B : Call (Op × Loc) → S.Act → World S σ (Op × Loc) (Out × Loc) → Bool)
    (c : Config S σ (Op × Loc) Loc (Out × Loc)) :
    List (Label Op) → Option (Config S σ (Op × Loc) Loc (Out × Loc))
  | [] => some c
  | lab :: ls => (recorded c lab).bind fun lab' =>
      if passes B c lab' then (sys.recording.fire c lab').bind fun d => replay sys B d ls else none

/-- The decidable test of an action is enough. -/
theorem meets_of_passes {B : Call Op → S.Act → World S σ Op Out → Bool}
    (hB : ∀ k a w, B k a w = true → A k a w) {lab : Label Op} (h : passes B c lab = true) :
    Meets A c lab := by
  cases lab with
  | invoke t o => trivial
  | run t =>
      intro o st a k hbusy
      simp only [passes, hbusy] at h
      exact hB _ _ _ h

/-- The configuration a list of steps leads to, if each of them can be taken and passes
the test. -/
def rehearse (sys : System S σ Op Loc Out) (B : Call Op → S.Act → World S σ Op Out → Bool)
    (c : Config S σ Op Loc Out) : List (Label Op) → Option (Config S σ Op Loc Out)
  | [] => some c
  | lab :: ls => if passes B c lab then (sys.fire c lab).bind fun d => rehearse sys B d ls else none

/-- A rehearsed schedule is a run whose actions pass the test. -/
theorem Reach.of_rehearse {B : Call Op → S.Act → World S σ Op Out → Bool}
    (hB : ∀ k a w, B k a w = true → A k a w) (c : Config S σ Op Loc Out) (ls : List (Label Op))
    (h : sys.rehearse B c ls = some d) :
    sys.Reach A c d := by
  induction ls generalizing c with
  | nil =>
      cases h
      exact .refl
  | cons lab ls ih =>
      unfold rehearse at h
      split at h
      · rename_i hpass
        obtain ⟨e, hstep, hrest⟩ := Option.bind_eq_some_iff.mp h
        exact Reach.trans (.tail lab .refl (meets_of_passes hB hpass) hstep) (ih e hrest)
      · cases h

/-- It is a schedule too. -/
theorem schedule_of_rehearse {B : Call Op → S.Act → World S σ Op Out → Bool}
    {c : Config S σ Op Loc Out} {ls : List (Label Op)}
    (h : sys.rehearse B c ls = some d) : sys.schedule c ls = some d := by
  induction ls generalizing c with
  | nil => exact h
  | cons lab ls ih =>
      unfold rehearse at h
      split at h
      · obtain ⟨e, hstep, hrest⟩ := Option.bind_eq_some_iff.mp h
        exact Option.bind_eq_some_iff.mpr ⟨e, hstep, ih hrest⟩
      · cases h

theorem Reach.of_replay [DecidableEq Loc] {sys : System S σ Op Loc Out}
    {A : Call (Op × Loc) → S.Act → World S σ (Op × Loc) (Out × Loc) → Prop}
    {B : Call (Op × Loc) → S.Act → World S σ (Op × Loc) (Out × Loc) → Bool}
    (hB : ∀ k a w, B k a w = true → A k a w) (c : Config S σ (Op × Loc) Loc (Out × Loc))
    (ls : List (Label Op)) {d : Config S σ (Op × Loc) Loc (Out × Loc)}
    (h : replay sys B c ls = some d) :
    sys.recording.Reach A c d := by
  induction ls generalizing c with
  | nil =>
      cases h
      exact .refl
  | cons lab ls ih =>
      obtain ⟨lab', -, hrest⟩ := Option.bind_eq_some_iff.mp h
      split at hrest
      · rename_i hpass
        obtain ⟨e, hstep, hrest⟩ := Option.bind_eq_some_iff.mp hrest
        exact Reach.trans (.tail lab' .refl (meets_of_passes hB hpass) hstep) (ih e hrest)
      · cases hrest

/-- Time does not go back. -/
theorem now_le_of_fire {lab : Label Op} (h : sys.fire c lab = some d) :
    c.world.now ≤ d.world.now := by
  cases lab with
  | invoke t o =>
      simp only [fire] at h
      split at h
      · split at h
        · cases h; exact Nat.le_refl _
        · cases h
      · cases h
  | run t =>
      simp only [fire] at h
      split at h
      · cases h
      · cases h; exact Nat.le_refl _
      · cases h; exact Nat.le_refl _
      · split at h
        · cases h
        · cases h; exact Nat.le_succ _

/-- A run meets every assumption that holds of all worlds with so short a history. -/
theorem Reach.of_short {B : Call Op → S.Act → World S σ Op Out → Prop} (h : sys.Reach A c₀ c)
    (hB : ∀ k a w, w.now ≤ c.world.now → B k a w) : sys.Reach B c₀ c := by
  induction h with
  | refl => exact .refl
  | @tail c d lab _ _ step ih =>
      have hle := now_le_of_fire step
      refine .tail lab (ih fun k a w hw => hB k a w (hw.trans hle)) ?_ step
      cases lab with
      | invoke t o => trivial
      | run t => exact fun o st a k _ => hB _ _ _ hle

/-- The thread a step belongs to. -/
def tidOf : Label Op → Nat
  | .invoke t _ => t
  | .run t => t

/-- A step changes the thread it belongs to and no other. -/
theorem fire_thr {lab : Label Op} (h : sys.fire c lab = some d) {u : Nat} (hu : u ≠ tidOf lab) :
    d.thr u = c.thr u := by
  cases lab with
  | invoke t o =>
      have hu : u ≠ t := hu
      simp only [fire] at h
      split at h
      · split at h
        · cases h; simp [hu]
        · cases h
      · cases h
  | run t =>
      have hu : u ≠ t := hu
      simp only [fire] at h
      split at h
      · cases h
      · cases h; simp [hu]
      · cases h; simp [hu]
      · split at h
        · cases h
        · cases h; simp [hu]

/-- A thread that takes no step stays as it is. -/
theorem schedule_thr {ls : List (Label Op)} (h : sys.schedule c ls = some d) {u : Nat}
    (hu : ∀ lab ∈ ls, u ≠ tidOf lab) : d.thr u = c.thr u := by
  induction ls generalizing c with
  | nil =>
      cases h
      rfl
  | cons lab ls ih =>
      obtain ⟨e, hstep, hrest⟩ := Option.bind_eq_some_iff.mp h
      rw [ih hrest fun l hl => hu l (List.mem_cons_of_mem _ hl),
        fire_thr hstep (hu lab List.mem_cons_self)]

/-- In a run that starts with every thread idle, only finitely many threads are
ever busy. -/
theorem Reach.busy_finite {s : σ} {l : Nat → Loc} (h : sys.Reach A (start s l) c) :
    {t | ∃ o st p, c.thr t = .busy o st p}.Finite := by
  induction h with
  | refl => simp [start]
  | @tail c d lab _ _ step ih =>
      refine (ih.insert (tidOf lab)).subset fun u hu => ?_
      by_cases hut : u = tidOf lab
      · exact Or.inl hut
      · right
        simpa [fire_thr step hut] using hu

/-- The log lists the calls that have returned, the latest first, and each call of a thread
has returned before the thread's next one began. -/
structure InOrder (c : Config S σ Op Loc Out) : Prop where
  past : ∀ ev ∈ c.world.log, ev.stop ≤ c.world.now
  log : c.world.log.Pairwise fun later earlier =>
    earlier.stop ≤ later.stop ∧
      (later.call.tid = earlier.call.tid → earlier.stop ≤ later.call.start)
  busy : ∀ t o st p, c.thr t = .busy o st p → ∀ ev ∈ c.world.log, ev.call.tid = t → ev.stop ≤ st

/-- A thread goes on in its call. -/
theorem InOrder.busy_update {th : Thread S Op Loc Out} {t : Nat} (h : InOrder c)
    (hth : ∀ o st p, th = .busy o st p → ∀ ev ∈ c.world.log, ev.call.tid = t → ev.stop ≤ st) :
    ∀ u o st p, Function.update c.thr t th u = .busy o st p → ∀ ev ∈ c.world.log, ev.call.tid = u →
    ev.stop ≤ st := by
  intro u o st p hu
  by_cases hut : u = t
  · subst hut
    rw [Function.update_self] at hu
    exact hth o st p hu
  · rw [Function.update_of_ne hut] at hu
    exact h.busy u o st p hu

/-- **The calls of a thread come one after the other.** -/
theorem Reach.inOrder {s : σ} {l : Nat → Loc} (h : sys.Reach A (start s l) c) : InOrder c := by
  induction h with
  | refl => exact ⟨nofun, List.Pairwise.nil, nofun⟩
  | @tail c d lab _ _ step ih =>
    cases lab with
    | invoke t o =>
      simp only [fire] at step
      split at step
      · split at step
        · cases step
          refine ⟨ih.past, ih.log, ih.busy_update fun o' st p hp ev hev _ => ?_⟩
          cases hp
          exact ih.past ev hev
        · cases step
      · cases step
    | run t =>
      simp only [fire] at step
      split at step
      · cases step
      · rename_i o st out l' hbusy
        cases step
        have hold := ih.busy t o st _ hbusy
        refine ⟨fun ev hev => ?_, List.pairwise_cons.mpr ⟨fun ev hev => ?_, ih.log⟩, ?_⟩
        · rcases List.mem_cons.mp hev with rfl | hev
          · exact Nat.le_refl _
          · exact ih.past ev hev
        · exact ⟨ih.past ev hev, fun heq => hold ev hev heq.symm⟩
        · intro u o' st' p hu ev hev htid
          simp only at hu
          have hne : u ≠ t := by
            rintro rfl
            rw [Function.update_self] at hu
            cases hu
          rw [Function.update_of_ne hne] at hu
          rcases List.mem_cons.mp hev with rfl | hev
          · exact absurd htid.symm hne
          · exact ih.busy u o' st' p hu ev hev htid
      · rename_i o st q k hbusy
        cases step
        refine ⟨ih.past, ih.log, ih.busy_update fun o' st' p hp ev hev htid => ?_⟩
        cases hp
        exact ih.busy t o st _ hbusy ev hev htid
      · rename_i o st a k hbusy
        split at step
        · cases step
        · cases step
          refine ⟨fun ev hev => (ih.past ev hev).trans (Nat.le_succ _), ih.log,
            ih.busy_update fun o' st' p hp ev hev htid => ?_⟩
          cases hp
          exact ih.busy t o st _ hbusy ev hev htid

end System

/-- An invariant of the world and of one ghost value for each thread; what an
idle thread's ghost value says of its local state; what a run assumes of the
actions it performs; and what is to hold of the next action of every thread. -/
structure Logic (S : Sig) (σ Op Loc Out G : Type) where
  Inv : World S σ Op Out → (Nat → G) → Prop
  Idle : Loc → G → Prop
  Assume : Call Op → S.Act → World S σ Op Out → Prop
  Next : Call Op → S.Act → World S σ Op Out → (Nat → G) → Prop

namespace Logic

variable {S : Sig} {σ Op Loc Out G : Type} (M : Machine S σ) (L : Logic S σ Op Loc Out G)
  (c : Call Op) {α β : Type}

/-- For `n` steps, call `c` with ghost value `g` keeps the invariant while it
runs `p`, and if it gets to the end of `p` its result and ghost value satisfy
`Q`. -/
def Safe : Nat → Prog S α → (α → G → Prop) → G → Prop
  | 0, _, _, _ => True
  | _ + 1, .ret a, Q, g => Q a g
  | n + 1, .call p k, Q, g => Safe n ((M.body p).bind k) Q g
  | n + 1, .act a k, Q, g => ∀ w γ, L.Inv w γ → γ c.tid = g →
      L.Next c a w γ ∧ (L.Assume c a w → ∀ r s, M.exec c.tid a w.mem = some (r, s) →
        ∃ g', L.Inv (w.push c a s) (Function.update γ c.tid g') ∧ Safe n (k r) Q g')

/-- The ghost value of a call at its return lets the thread become idle. -/
def Done : Out × Loc → G → Prop := fun x g =>
  ∀ w γ, L.Inv w γ → γ c.tid = g →
    ∃ g', L.Inv (w.finish c x.1) (Function.update γ c.tid g') ∧ L.Idle x.2 g'

variable {M L c} {n : Nat} {g : G}

/-- For no steps every program is safe. -/
@[simp] theorem safe_zero (p : Prog S α) (Q : α → G → Prop) : Safe M L c 0 p Q g := trivial

/-- A program that has returned. -/
theorem Safe.ret {a : α} {Q : α → G → Prop} (h : Q a g) : Safe M L c n (.ret a) Q g := by
  cases n with
  | zero => trivial
  | succ n => exact h

/-- One action. -/
theorem Safe.act {a : S.Act} {k : S.Res a → Prog S α} {Q : α → G → Prop}
    (h : ∀ w γ, L.Inv w γ → γ c.tid = g →
      L.Next c a w γ ∧ (L.Assume c a w → ∀ r s, M.exec c.tid a w.mem = some (r, s) →
        ∃ g', L.Inv (w.push c a s) (Function.update γ c.tid g') ∧ Safe M L c n (k r) Q g')) :
    Safe M L c (n + 1) (.act a k) Q g := h

/-- A program safe for more steps is safe for fewer. -/
theorem Safe.mono {p : Prog S α} {Q : α → G → Prop} {m : Nat} (hm : m ≤ n)
    (h : Safe M L c n p Q g) : Safe M L c m p Q g := by
  induction m generalizing n p g with
  | zero => trivial
  | succ m ih =>
      obtain ⟨n, rfl⟩ : ∃ n', n = n' + 1 := ⟨n - 1, by omega⟩
      cases p with
      | ret a => exact h
      | call p k => exact ih (by omega) h
      | act a k =>
          intro w γ hinv hg
          obtain ⟨hnext, hstep⟩ := h w γ hinv hg
          refine ⟨hnext, fun hA r s hexec => ?_⟩
          obtain ⟨g', hinv', hsafe⟩ := hstep hA r s hexec
          exact ⟨g', hinv', ih (by omega) hsafe⟩

/-- Weakening the postcondition. -/
theorem Safe.imp {p : Prog S α} {Q R : α → G → Prop} (h : Safe M L c n p Q g)
    (hQR : ∀ a g', Q a g' → R a g') : Safe M L c n p R g := by
  induction n generalizing p g with
  | zero => trivial
  | succ n ih =>
      cases p with
      | ret a => exact hQR a g h
      | call p k => exact ih h
      | act a k =>
          intro w γ hinv hg
          obtain ⟨hnext, hstep⟩ := h w γ hinv hg
          refine ⟨hnext, fun hA r s hexec => ?_⟩
          obtain ⟨g', hinv', hsafe⟩ := hstep hA r s hexec
          exact ⟨g', hinv', ih hsafe⟩

/-- One program after another. -/
theorem Safe.bind {p : Prog S α} {f : α → Prog S β} {Q : α → G → Prop} {R : β → G → Prop}
    (h : Safe M L c n p Q g) (hf : ∀ a g', Q a g' → Safe M L c n (f a) R g') :
    Safe M L c n (p.bind f) R g := by
  induction n generalizing p g with
  | zero => trivial
  | succ n ih =>
      have hf' : ∀ a g', Q a g' → Safe M L c n (f a) R g' :=
        fun a g' hQ => (hf a g' hQ).mono (Nat.le_succ n)
      cases p with
      | ret a => exact hf a g h
      | call p k =>
          show Safe M L c n ((M.body p).bind fun r => (k r).bind f) R g
          rw [← Prog.bind_assoc]
          exact ih h hf'
      | act a k =>
          intro w γ hinv hg
          obtain ⟨hnext, hstep⟩ := h w γ hinv hg
          refine ⟨hnext, fun hA r s hexec => ?_⟩
          obtain ⟨g', hinv', hsafe⟩ := hstep hA r s hexec
          exact ⟨g', hinv', ih hsafe hf'⟩

/-- Entering a procedure, when its body is safe for one step less. -/
theorem Safe.enter {p : S.Proc} {Q : S.Ret p → G → Prop}
    (h : ∀ m, m < n → Safe M L c m (M.body p) Q g) : Safe M L c n (Prog.enter p) Q g := by
  cases n with
  | zero => trivial
  | succ n =>
      show Safe M L c n ((M.body p).bind Prog.ret) Q g
      rw [Prog.bind_ret]
      exact h n (Nat.lt_succ_self n)

/-- What the program returns in any case, it also returns here. -/
theorem Safe.returns {p : Prog S α} {Q : α → G → Prop} {P : α → Prop} (h : Safe M L c n p Q g)
    (hp : p.Returns P) : Safe M L c n p (fun a g' => Q a g' ∧ P a) g := by
  induction n generalizing p g with
  | zero => trivial
  | succ n ih =>
      cases p with
      | ret a => exact ⟨h, hp⟩
      | call p k => exact ih h (Prog.returns_after _ hp)
      | act a k =>
          intro w γ hinv hg
          obtain ⟨hnext, hstep⟩ := h w γ hinv hg
          refine ⟨hnext, fun hA r s hexec => ?_⟩
          obtain ⟨g', hinv', hsafe⟩ := hstep hA r s hexec
          exact ⟨g', hinv', ih hsafe (hp r)⟩

end Logic

namespace System

variable {S : Sig} {σ Op Loc Out G : Type} {sys : System S σ Op Loc Out}
  {L : Logic S σ Op Loc Out G} {c₀ c : Config S σ Op Loc Out}

/-- The ghost value of a thread fits what the thread is doing, for `n` more
steps. -/
def Fits (sys : System S σ Op Loc Out) (L : Logic S σ Op Loc Out G) (n : Nat)
    (t : Nat) : Thread S Op Loc Out → G → Prop
  | .idle l, g => L.Idle l g
  | .busy o st p, g => L.Safe sys.toMachine ⟨t, o, st⟩ n p (L.Done ⟨t, o, st⟩) g

/-- Starting a call keeps the invariant, and the program of the call is safe. -/
def CallsSafe (sys : System S σ Op Loc Out) (L : Logic S σ Op Loc Out G) : Prop :=
  ∀ t o l w γ, L.Inv w γ → L.Idle l (γ t) → sys.may o l = true →
    ∃ g, L.Inv w (Function.update γ t g) ∧
      ∀ n, L.Safe sys.toMachine ⟨t, o, w.now⟩ n (sys.code o l) (L.Done ⟨t, o, w.now⟩) g

/-- The invariant holds of a configuration, with ghost values that fit for `n`
more steps. -/
def Holds (sys : System S σ Op Loc Out) (L : Logic S σ Op Loc Out G) (n : Nat)
    (c : Config S σ Op Loc Out) (γ : Nat → G) : Prop :=
  L.Inv c.world γ ∧ ∀ t, Fits sys L n t (c.thr t) (γ t)

/-- A thread that fits for more steps fits for fewer. -/
theorem Fits.mono {n m t : Nat} {th : Thread S Op Loc Out} {g : G} (hm : m ≤ n)
    (h : Fits sys L n t th g) : Fits sys L m t th g := by
  cases th with
  | idle l => exact h
  | busy o st p => exact Logic.Safe.mono hm h

/-- Ghost values of the other threads still fit when one thread's changes. -/
theorem fits_update {thr : Nat → Thread S Op Loc Out} {γ : Nat → G} {n t : Nat}
    {th : Thread S Op Loc Out} {g : G} (h : ∀ u, Fits sys L (n + 1) u (thr u) (γ u))
    (ht : Fits sys L n t th g) :
    ∀ u, Fits sys L n u (Function.update thr t th u) (Function.update γ t g u) := by
  intro u
  by_cases hu : u = t
  · subst hu; simpa using ht
  · simpa [hu] using (h u).mono (Nat.le_succ n)

/-- One step keeps the invariant. -/
theorem Holds.fire (hcalls : CallsSafe sys L) {n : Nat} {γ : Nat → G}
    {d : Config S σ Op Loc Out} {lab : Label Op} (h : Holds sys L (n + 1) c γ)
    (hmeets : Meets L.Assume c lab) (hstep : sys.fire c lab = some d) :
    ∃ γ', Holds sys L n d γ' := by
  obtain ⟨hinv, hfits⟩ := h
  cases lab with
  | invoke t o =>
      simp only [System.fire] at hstep
      split at hstep
      · rename_i l hidle
        split at hstep
        · rename_i hmay
          cases hstep
          have hI : L.Idle l (γ t) := by simpa [Fits, hidle] using hfits t
          obtain ⟨g, hinv', hsafe⟩ := hcalls t o l c.world γ hinv hI hmay
          exact ⟨Function.update γ t g, hinv', fits_update hfits (hsafe n)⟩
        · cases hstep
      · cases hstep
  | run t =>
      have hft := hfits t
      simp only [System.fire] at hstep
      split at hstep
      · cases hstep
      · rename_i o st out l hbusy
        cases hstep
        rw [hbusy] at hft
        obtain ⟨g, hinv', hI⟩ := hft c.world γ hinv rfl
        exact ⟨Function.update γ t g, hinv', fits_update hfits hI⟩
      · rename_i o st p k hbusy
        cases hstep
        rw [hbusy] at hft
        refine ⟨γ, hinv, ?_⟩
        rw [← Function.update_eq_self t γ]
        exact fits_update hfits hft
      · rename_i o st a k hbusy
        split at hstep
        · cases hstep
        · rename_i r s hexec
          cases hstep
          rw [hbusy] at hft
          obtain ⟨g, hinv', hsafe⟩ :=
            (hft c.world γ hinv rfl).2 (hmeets o st a k hbusy) r s hexec
          exact ⟨Function.update γ t g, hinv', fits_update hfits hsafe⟩

/-- **The invariant rule.**  If the invariant holds at the start and every call
is safe, it holds in every configuration of every run that meets the
assumption, whatever the threads do and however they interleave. -/
theorem Reach.sound (hcalls : CallsSafe sys L) (hinit : ∀ n, ∃ γ, Holds sys L n c₀ γ)
    (h : sys.Reach L.Assume c₀ c) : ∀ n, ∃ γ, Holds sys L n c γ := by
  induction h with
  | refl => exact hinit
  | tail lab _ meets step ih =>
      intro n
      obtain ⟨γ, hγ⟩ := ih (n + 1)
      exact hγ.fire hcalls meets step

/-- Threads that all start idle. -/
theorem holds_start {s : σ} {l : Nat → Loc} (γ : Nat → G)
    (hinv : L.Inv ⟨s, [], []⟩ γ) (hidle : ∀ t, L.Idle (l t) (γ t)) :
    ∀ n, ∃ γ, Holds sys L n (start s l) γ :=
  fun _ => ⟨γ, hinv, hidle⟩

/-- What the logic says of the next action of a thread. -/
theorem Holds.next {n : Nat} {γ : Nat → G} (h : Holds sys L (n + 1) c γ) {t : Nat} {o : Op}
    {st : Nat} {a : S.Act} {k : S.Res a → Prog S (Out × Loc)}
    (hbusy : c.thr t = .busy o st (.act a k)) : L.Next ⟨t, o, st⟩ a c.world γ := by
  have hft := h.2 t
  rw [hbusy] at hft
  exact (hft c.world γ h.1 rfl).1

end System

end Conc
