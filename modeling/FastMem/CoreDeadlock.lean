import Mathlib.Data.Prod.Lex
import Mathlib.Order.Fin.Basic
import FastMem.CoreSystem
import FastMem.LockDiscipline

/-!
# The core does not deadlock

The functions that take their own locks take them in one order: the struct
mutex, then bucket locks by key and bucket, then a slot's wlock.  A set of
threads that all wait for each other would have to contain one that waits for
the highest lock anybody in the set waits for, and its owner waits higher still.
-/

namespace FastMem

open Conc

variable {n : Nat} {W PK Op Loc Out : Type}

/-- Thread `t` spins on lock `l`: its next step is to take it. -/
def Waits (c : Config (coreSig n W PK) (Share n W) Op Loc Out) (t : Nat) (l : Lock) : Prop :=
  ∃ o st k, c.thr t = .busy o st (.act (.lock l) k)

/-- The lock a thread spins on. -/
def waitsOn : Thread (coreSig n W PK) Op Loc Out → Option Lock
  | .busy _ _ (.act (.lock l) _) => some l
  | _ => none

/-- A thread that stands before a lock waits for it. -/
theorem waits_of_waitsOn {c : Config (coreSig n W PK) (Share n W) Op Loc Out} {t : Nat} {l : Lock}
    (h : waitsOn (c.thr t) = some l) : Waits c t l := by
  unfold waitsOn at h
  split at h
  · rename_i o st l' k hbusy
    cases h
    exact ⟨o, st, k, hbusy⟩
  · cases h

/-- A thread spins on one lock at a time. -/
theorem Waits.unique {c : Config (coreSig n W PK) (Share n W) Op Loc Out} {t : Nat} {l l' : Lock}
    (h : Waits c t l) (h' : Waits c t l') : l = l' := by
  obtain ⟨o, st, k, hk⟩ := h
  obtain ⟨o', st', k', hk'⟩ := h'
  rw [hk] at hk'
  cases hk'
  rfl

/-- The order of the locks of a share. -/
def Lock.rank : Lock → Nat ×ₗ Nat ×ₗ Nat
  | .mutex => toLex (0, toLex (0, 0))
  | .bucket k b => toLex (1, toLex (k, b))
  | .row _ => toLex (2, toLex (0, 0))

/-- The struct mutex comes before the bucket locks. -/
theorem rank_mutex_lt_bucket (k b : Nat) : Lock.mutex.rank < (Lock.bucket k b).rank :=
  Prod.Lex.toLex_lt_toLex.mpr (Or.inl Nat.one_pos)

/-- It comes before the row locks. -/
theorem rank_mutex_lt_row (i : Int) : Lock.mutex.rank < (Lock.row i).rank :=
  Prod.Lex.toLex_lt_toLex.mpr (Or.inl (by decide))

/-- The bucket locks come before the row locks. -/
theorem rank_bucket_lt_row (k b : Nat) (i : Int) : (Lock.bucket k b).rank < (Lock.row i).rank :=
  Prod.Lex.toLex_lt_toLex.mpr (Or.inl Nat.one_lt_two)

/-- They come in the order of their pairs. -/
theorem rank_bucket_lt {u v : Nat × Nat} (h : pairLt u v) :
    (Lock.bucket u.1 u.2).rank < (Lock.bucket v.1 v.2).rank := by
  refine Prod.Lex.toLex_lt_toLex.mpr (Or.inr ⟨rfl, ?_⟩)
  exact Prod.Lex.toLex_lt_toLex.mpr h

/-- The policy of the core: only a lock above all locks held. -/
def Ascending (_ : CoreOp n W PK) (g : Held) (l : Lock) : Prop :=
  ∀ l' ∈ g.locks, l'.rank < l.rank

/-- With nothing held any lock may be taken. -/
theorem ascending_of_nil {o : CoreOp n W PK} {f : List Int} {l : Lock} : Ascending o ⟨[], f⟩ l := by
  intro l' hl'
  cases hl'

/-- The lock set of an update may be taken. -/
theorem ascending_bucketLocks {o : CoreOp n W PK} : AllowsAscending Ascending o [] := by
  intro done v hv f l' hl'
  rw [List.append_nil, bucketLocks, List.mem_reverse, List.mem_map] at hl'
  obtain ⟨u, hu, rfl⟩ := hl'
  exact rank_bucket_lt (hv u hu)

/-- With bucket locks held a row may be locked. -/
theorem ascending_row {o : CoreOp n W PK} {vs : List (Nat × Nat)} {f : List Int} {i : Int} :
    Ascending o ⟨bucketLocks vs ++ [], f⟩ (.row i) := by
  intro l' hl'
  rw [List.append_nil, bucketLocks, List.mem_reverse, List.mem_map] at hl'
  obtain ⟨u, -, rfl⟩ := hl'
  exact rank_bucket_lt_row _ _ _

/-- Inside the struct mutex any later lock may be taken. -/
theorem ascending_under_mutex {o : CoreOp n W PK} {f : List Int} {l : Lock}
    (h : Lock.mutex.rank < l.rank) : Ascending o ⟨[.mutex], f⟩ l := by
  intro l' hl'
  rw [List.mem_singleton] at hl'
  rw [hl']
  exact h

/-- An idle thread holds no lock. -/
def HoldsNothing (_ : Session n W) (g : Held) : Prop := g.locks = []

/-- The lock stacks of threads that follow the order. -/
@[reducible] def coreLocks (n : Nat) (W PK : Type) :
    Logic (coreSig n W PK) (Share n W) (CoreOp n W PK) (Session n W) (CoreOut n W) Held :=
  lockLogic n W PK (CoreOut n W) HoldsNothing Ascending

/-- Every call of the core starts and ends without locks and takes them in
order. -/
theorem core_calls_ascend (cfg : ShareCfg n W PK) :
    (coreSystem cfg fun o _ => o.selfLocking).CallsSafe (coreLocks n W PK) := by
  intro t o l w γ hinv hidle hmay
  refine ⟨γ t, by rwa [Function.update_eq_self], fun m => ?_⟩
  have hkeeps : ∀ {α : Type} {p : Core n W PK α} (ret : α → CoreOut n W × Session n W),
      Keeps cfg (HoldsNothing : Session n W → Held → Prop) Ascending ⟨t, o, w.now⟩ (CoreOut n W) m
        [] [] p →
      (coreLocks n W PK).Safe (machine cfg) ⟨t, o, w.now⟩ m (p.bind fun a => .ret (ret a))
        ((coreLocks n W PK).Done ⟨t, o, w.now⟩) (γ t) := by
    intro α p ret hp
    have hg : γ t = ⟨[], (γ t).flips⟩ := by
      rw [← show (γ t).locks = [] from hidle]
    rw [hg]
    refine (hp _).bind fun a g hlocks => Logic.Safe.ret fun w' γ' hinv' hg' => ⟨g, ?_, hlocks⟩
    rw [← hg', Function.update_eq_self]
    exact ⟨hinv'.owner, hinv'.nodup, hinv'.flips⟩
  cases o with
  | insertRow rec scratch =>
      exact hkeeps _ (keeps_insertRow (fun _ => ascending_of_nil) fun k b _ =>
        ascending_under_mutex (rank_mutex_lt_bucket k b))
  | updateRow idx g old new scratch =>
      exact hkeeps _ (keeps_updateRow ascending_bucketLocks fun _ _ => ascending_row)
  | deleteRow idx g scratch =>
      exact hkeeps _ (keeps_deleteRow (fun _ => ascending_of_nil) (fun _ => ascending_of_nil)
        fun _ _ _ => ascending_of_nil)
  | clear =>
      exact hkeeps _ (keeps_clear (fun _ => ascending_of_nil)
        (fun k b _ => ascending_under_mutex (rank_mutex_lt_bucket k b))
        fun _ i _ => ascending_under_mutex (rank_mutex_lt_row i))
  | find key pk buf => exact hkeeps _ (keeps_find fun _ _ => ascending_of_nil)
  | findNext key pk cur buf => exact hkeeps _ (keeps_findNext fun _ _ => ascending_of_nil)
  | _ => cases hmay

/-- **The core is free of deadlock.**  From any share whose locks are free, in
every configuration that any number of threads reach by calling the functions
that take their own locks: no set of threads waits in a circle, no thread waits
for a lock it owns, and a thread between calls owns no lock. -/
theorem core_deadlock_free (cfg : ShareCfg n W PK) {s : Share n W}
    (hfree : ∀ l, s.owner l = none)
    {c : Config (coreSig n W PK) (Share n W) (CoreOp n W PK) (Session n W) (CoreOut n W)}
    (hreach : (coreSystem cfg fun o _ => o.selfLocking).Reach (fun _ _ _ => True)
      (System.start s fun _ => Session.empty) c) :
    (∀ D, ¬ CircularWait c.world.mem.owner (Waits c) D) ∧
    (∀ t l, Waits c t l → c.world.mem.owner l ≠ some t) ∧
    (∀ t l, c.thr t = .idle l → ∀ k, c.world.mem.owner k ≠ some t) := by
  have hinit : ∀ m, ∃ γ, (coreSystem cfg fun o _ => o.selfLocking).Holds (coreLocks n W PK) m
      (System.start s fun _ => Session.empty) γ := by
    refine System.holds_start (fun _ => ⟨[], []⟩) ⟨?_, ?_, ?_⟩ fun _ => rfl
    · intro l t
      simp [hfree]
    · intro t
      exact List.nodup_nil
    · intro t
      rfl
  obtain ⟨γ, hholds⟩ := hreach.sound (core_calls_ascend cfg) hinit 1
  have horder : ∀ t l l', Waits c t l → c.world.mem.owner l' = some t → l'.rank < l.rank := by
    rintro t l l' ⟨o, st, k, hbusy⟩ hown
    rw [hholds.1.owner] at hown
    exact hholds.next hbusy l rfl l' hown
  refine ⟨fun D hD => ?_, fun t l hwait hown => ?_, fun t l hidle k hown => ?_⟩
  · have hbusy : D ⊆ {t | ∃ o st p, c.thr t = .busy o st p} := by
      intro t ht
      obtain ⟨l, u, ⟨o, st, k, hk⟩, -⟩ := hD.2 t ht
      exact ⟨o, st, _, hk⟩
    exact not_circularWait_of_rank _ _ Lock.rank horder (hreach.busy_finite.subset hbusy) hD
  · exact lt_irrefl _ (horder t l l hwait hown)
  · have hfits := hholds.2 t
    rw [hidle] at hfits
    rw [hholds.1.owner, show (γ t).locks = [] from hfits] at hown
    cases hown

/-- Two inserts into a fresh table: the second spins on the struct mutex that the
first has taken, and nothing is wrong with that. -/
theorem core_deadlock_free_two_inserts :
    ∃ c, (coreSystem (wordTable 1) fun o _ => o.selfLocking).Reach (fun _ _ _ => True)
        (System.start (Share.fresh fun _ _ => 0) fun _ => Session.empty) c ∧
      Waits c 1 .mutex ∧ c.world.mem.owner .mutex = some 0 ∧
      ∀ D, ¬ CircularWait c.world.mem.owner (Waits c) D := by
  have hreach := System.Reach.of_schedule (coreSystem (wordTable 1) fun o _ => o.selfLocking)
    (System.start (Share.fresh fun _ _ => 0) fun _ => Session.empty)
    [.invoke 0 (.insertRow (fun _ => 5) fun _ => 0),
      .invoke 1 (.insertRow (fun _ => 6) fun _ => 0), .run 0] rfl
  refine ⟨_, hreach, ⟨_, _, _, rfl⟩, rfl, ?_⟩
  exact (core_deadlock_free (wordTable 1) (s := Share.fresh fun _ _ => 0)
    (fun l => by cases l <;> rfl) hreach).1

end FastMem
