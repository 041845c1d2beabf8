import FastMem.Lockset
import FastMem.RowImages

/-!
# The functions of the core follow the protocol

Each function of the core, from every role it may be called in, takes steps the
protocol allows, and leaves the role described when it returns.  This is the only
place where the invariants of traces meet programs: with what is proved here, every
run of the core is a trace.
-/

namespace FastMem

open Conc

variable {n : Nat} {W PK Op Loc Out : Type} {α β : Type}

section

variable (T : Setting n W PK Op Out) (Idle : Loc → Role n W → Prop) (c : Call Op) (m : Nat)

/-- For `m` steps, `p` follows the protocol from role `g`, and if it ends, its
result and its role satisfy `Q`. -/
def Follows (p : Core n W PK α) (Q : α → Role n W → Prop) (g : Role n W) : Prop :=
  (traceLogic (machine T.cfg) T.rules T.meets T.share (fun _ => Role.init) Idle).Safe
    (machine T.cfg) c m p Q g

/-- For `m` steps, `p` follows the protocol from role `g`, and if it ends, its role
is `g'`. -/
def Turns (g g' : Role n W) (p : Core n W PK α) : Prop :=
  Follows T Idle c m p (fun _ h => h = g') g

end

variable {T : Setting n W PK Op Out} {Idle : Loc → Role n W → Prop} {c : Call Op} {m : Nat}
  {g g' g'' : Role n W} {Q : α → Role n W → Prop} {R : β → Role n W → Prop}

/-- A result follows the protocol if the role it is reached with will do. -/
theorem follows_pure {x : α} (h : Q x g) : Follows T Idle c m (pure x : Core n W PK α) Q g :=
  Logic.Safe.ret h

/-- One program after another, from the roles the one before may end in. -/
theorem Follows.then {p : Core n W PK α} {f : α → Core n W PK β} (hp : Follows T Idle c m p Q g)
    (hf : ∀ x g', Q x g' → Follows T Idle c m (f x) R g') : Follows T Idle c m (p >>= f) R g :=
  Logic.Safe.bind hp hf

/-- What a program ends in may be said more weakly. -/
theorem Follows.weaken {Q' : α → Role n W → Prop} {p : Core n W PK α} (h : Follows T Idle c m p Q g)
    (hQ : ∀ x g', Q x g' → Q' x g') : Follows T Idle c m p Q' g :=
  Logic.Safe.imp h hQ

/-- The role may be written in another way. -/
theorem Follows.at_role {p : Core n W PK α} (g' : Role n W) (h : g = g')
    (hp : Follows T Idle c m p Q g') : Follows T Idle c m p Q g :=
  h ▸ hp

/-- An access, whose step may depend on everything known when it is performed. -/
theorem follows_access {a : Act n W} {f : a.Res → Core n W PK α}
    (h : ∀ w γ r s, T.Trace w γ → γ c.tid = g → T.meets c a w →
      exec T.cfg c.tid a w.mem = some (r, s) →
      ∃ g', Step T.cfg T.kinds (T.commits c w) w.now w.mem g a r g' ∧
        Follows T Idle c m (f r) Q g') :
    Follows T Idle c m (access a >>= f) Q g :=
  follow_act h

/-- An access whose step depends on its answer only. -/
theorem follows_answer {a : Act n W} {f : a.Res → Core n W PK α} (next : a.Res → Role n W)
    (h : ∀ C now s r, Step T.cfg T.kinds C now s g a r (next r))
    (hf : ∀ r, Follows T Idle c m (f r) Q (next r)) : Follows T Idle c m (access a >>= f) Q g :=
  follows_access fun w _ r _ _ _ _ _ => ⟨next r, h _ _ w.mem r, hf r⟩

/-- One access that is a step of the protocol, and what follows it. -/
theorem follows_step {a : Act n W} {f : a.Res → Core n W PK α} {next : a.Res → Role n W}
    (h : ∀ C now s r, Step T.cfg T.kinds C now s g a r (next r))
    (hf : ∀ r, Follows T Idle c m (f r) Q (next r)) : Follows T Idle c m (access a >>= f) Q g :=
  follows_answer next h hf

/-- An access that teaches the thread nothing it cares about. -/
theorem follows_look {a : Act n W} {f : a.Res → Core n W PK α}
    (ha : (a.passive && !a.samples) = true)
    (hf : ∀ r, Follows T Idle c m (f r) Q g) : Follows T Idle c m (access a >>= f) Q g := by
  simp only [Bool.and_eq_true, Bool.not_eq_true'] at ha
  exact follows_step (fun _ _ _ _ => .view (.look ha.1 (Or.inl ha.2))) hf

/-- The same, for a thread that is not in the middle of a seqlock read. -/
theorem follows_peek {a : Act n W} {f : a.Res → Core n W PK α} (ha : a.passive = true)
    (hread : g.read = .none)
    (hf : ∀ r, Follows T Idle c m (f r) Q g) : Follows T Idle c m (access a >>= f) Q g :=
  follows_step (fun _ _ _ _ => .view (.look ha (Or.inr hread))) hf

/-- An access that takes the role from `g` to `g'`, whatever it reads. -/
theorem turns_access {a : Act n W} (h : ∀ C now s r, Step T.cfg T.kinds C now s g a r g') :
    Turns T Idle c m g g' (access a) := by
  have hret : access a = (access a >>= pure : Core n W PK a.Res) := rfl
  unfold Turns
  rw [hret]
  exact follows_step h fun _ => follows_pure rfl

/-- A result changes no role. -/
theorem turns_pure {x : α} : Turns T Idle c m g g (pure x : Core n W PK α) :=
  follows_pure rfl

/-- A program whose last role is known, and one that follows from it. -/
theorem Turns.then {p : Core n W PK α} {f : α → Core n W PK β} (hp : Turns T Idle c m g g' p)
    (hf : ∀ x, Follows T Idle c m (f x) R g') : Follows T Idle c m (p >>= f) R g :=
  Follows.then hp fun x _ h => h ▸ hf x

/-- One program after another, with the role in between. -/
theorem Turns.bind {p : Core n W PK α} {f : α → Core n W PK β} (hp : Turns T Idle c m g g' p)
    (hf : ∀ x, Turns T Idle c m g' g'' (f x)) : Turns T Idle c m g g'' (p >>= f) :=
  Turns.then hp hf

/-- A known last role will do for whatever holds of it. -/
theorem Turns.weaken_to {p : Core n W PK α} (hp : Turns T Idle c m g g' p) (h : ∀ x, Q x g') :
    Follows T Idle c m p Q g :=
  Follows.weaken hp fun x _ hg => hg ▸ h x

/-- Both branches of a test follow the protocol. -/
theorem follows_ite {P : Prop} [Decidable P] {p q : Core n W PK α}
    (hp : P → Follows T Idle c m p Q g) (hq : ¬ P → Follows T Idle c m q Q g) :
    Follows T Idle c m (if P then p else q) Q g := by
  split
  · rename_i h
    exact hp h
  · rename_i h
    exact hq h

/-- Both branches of a test end in the same role. -/
theorem turns_ite {P : Prop} [Decidable P] {p q : Core n W PK α}
    (hp : Turns T Idle c m g g' p) (hq : Turns T Idle c m g g' q) :
    Turns T Idle c m g g' (if P then p else q) :=
  follows_ite (fun _ => hp) fun _ => hq

/-- A load that takes no sample is no step of any role. -/
theorem turns_look {a : Act n W} (ha : (a.passive && !a.samples) = true) :
    Turns T Idle c m g g (access a) := by
  simp only [Bool.and_eq_true, Bool.not_eq_true'] at ha
  exact turns_access fun _ _ _ _ => .view (.look ha.1 (Or.inl ha.2))

/-- A load is no step of a role that is not reading. -/
theorem turns_peek {a : Act n W} (ha : a.passive = true) (hread : g.read = .none) :
    Turns T Idle c m g g (access a) :=
  turns_access fun _ _ _ _ => .view (.look ha (Or.inr hread))

/-- A lock is held once it is taken. -/
theorem turns_lock (l : Lock) :
    Turns T Idle c m g { g with locks := l :: g.locks } (access (.lock l)) :=
  turns_access fun _ _ _ _ => .lock (.lock l)

/-- Releasing the bucket lock taken last. -/
theorem turns_unlockBucket {k b : Nat} {H : List Lock} (hlocks : g.locks = .bucket k b :: H)
    (hwalk : g.walk = .none) :
    Turns T Idle c m g { g with locks := H, dup := .none, checked := [] }
      (access (.unlock (.bucket k b))) := by
  have hheld : Lock.bucket k b ∈ g.locks := by simp [hlocks]
  have herase : H = g.locks.erase (.bucket k b) := by simp [hlocks]
  subst herase
  exact turns_access fun _ _ _ _ => .lock (.unlockBucket hheld hwalk)

/-- Copying an image out of a slot is no step of a role that only looks. -/
theorem turns_copyOut_look (idx : Int) (js : List (Fin n)) (buf : Image n W) :
    Turns T Idle c m g g (copyOut idx js buf) := by
  induction js generalizing buf with
  | nil => exact turns_pure
  | cons j js ih => exact (turns_look rfl).bind fun _ => ih _

/-- A loop takes its role where its body does. -/
theorem turns_enter {p : Proc n W PK}
    (h : ∀ m', m' < m → Turns T Idle c m' g g' (procBody T.cfg p)) :
    Turns T Idle c m g g' (loop p) :=
  Logic.Safe.enter h

/-- `fm_core_read_row`, when what it reads does not matter. -/
theorem turns_readRow (hread : g.read = .none) (idx : Int) (cg : Bool) (v : Nat) (buf : Image n W) :
    Turns T Idle c m g g (readRow idx cg v buf) := by
  induction m using Nat.strong_induction_on generalizing buf with
  | _ m ih =>
      refine turns_enter fun m' hm' => ?_
      have hcopy : Turns T Idle c m' g g (readRowCopy idx cg v buf) := by
        refine (turns_peek rfl hread).bind fun s₁ => turns_ite (ih m' hm' buf) ?_
        refine (turns_copyOut_look idx _ buf).bind fun buf' =>
          (turns_peek rfl hread).bind fun s₂ => ?_
        exact turns_ite (ih m' hm' buf') turns_pure
      refine (turns_peek rfl hread).bind fun st => turns_ite turns_pure ?_
      exact turns_ite ((turns_look rfl).bind fun _ => turns_ite turns_pure hcopy) hcopy

/-- A walk along a chain changes no role. -/
theorem turns_findWalk (hread : g.read = .none) (key : Nat) (pk : PK) (buf : Image n W) (h : Int) :
    Turns T Idle c m g g (loop (.findWalk key pk buf h)) := by
  induction m using Nat.strong_induction_on generalizing buf h with
  | _ m ih =>
      refine turns_enter fun m' hm' => turns_ite turns_pure ?_
      refine (turns_readRow hread h false 0 buf).bind fun r => turns_ite turns_pure ?_
      exact (turns_look rfl).bind fun nx => ih m' hm' _ nx

theorem turns_findNextWalk (hread : g.read = .none) (key : Nat) (pk : PK) (cur : Int) (after : Bool)
    (buf : Image n W) (h : Int) :
    Turns T Idle c m g g (loop (.findNextWalk key pk cur after buf h)) := by
  induction m using Nat.strong_induction_on generalizing buf h after with
  | _ m ih =>
      refine turns_enter fun m' hm' => turns_ite turns_pure ?_
      refine turns_ite ((turns_look rfl).bind fun nx => ih m' hm' true buf nx) ?_
      refine turns_ite ?_ ((turns_look rfl).bind fun nx => ih m' hm' after buf nx)
      refine (turns_readRow hread h false 0 buf).bind fun r => turns_ite turns_pure ?_
      exact (turns_look rfl).bind fun nx => ih m' hm' after _ nx

/-- What a thread forgets when it releases a bucket lock. -/
def Role.unchecked (g : Role n W) : Role n W := { g with dup := .none, checked := [] }

/-- A lookup returns with the role it began with, and nothing checked. -/
theorem turns_find (key : Nat) (pk : PK) (buf : Image n W) (hwalk : g.walk = .none)
    (hread : g.read = .none) :
    Turns T Idle c m g g.unchecked (find T.cfg key pk buf) := by
  refine (turns_lock _).bind fun _ => (turns_look rfl).bind fun h => ?_
  refine Turns.bind (turns_findWalk (by exact hread) key pk buf h) fun r => ?_
  exact Turns.bind (turns_unlockBucket rfl hwalk) fun _ => turns_pure

theorem turns_findNext (key : Nat) (pk : PK) (cur : Int) (buf : Image n W) (hwalk : g.walk = .none)
    (hread : g.read = .none) :
    Turns T Idle c m g g.unchecked (findNext T.cfg key pk cur buf) := by
  refine (turns_lock _).bind fun _ => (turns_look rfl).bind fun h => ?_
  refine Turns.bind (turns_findNextWalk (by exact hread) key pk cur false buf h) fun r => ?_
  exact Turns.bind (turns_unlockBucket rfl hwalk) fun _ => turns_pure

/-- A table scan changes no role. -/
theorem turns_scanFrom (hread : g.read = .none) (pos fuel : Nat) (buf : Image n W) :
    Turns T Idle c m g g (scanFrom pos fuel buf) := by
  induction fuel generalizing pos buf with
  | zero => exact turns_pure
  | succ fuel ih =>
      exact (turns_readRow hread _ _ _ _).bind fun r => turns_ite turns_pure (ih _ _)

theorem turns_scanNext (hread : g.read = .none) (pos : Nat) (buf : Image n W) : Turns T Idle c m g g
    (scanNext pos buf) :=
  (turns_look rfl).bind fun _ => turns_scanFrom hread _ _ _

/-- Raising the auto-increment counter changes no role. -/
theorem turns_autoIncObserve (value : Nat) : Turns T Idle c m g g (autoIncObserve value) := by
  have hloop : ∀ m cur, Turns T Idle c m g g (loop (.observeLoop value cur)) := by
    intro m
    induction m using Nat.strong_induction_on with
    | _ m ih =>
        intro cur
        refine turns_enter fun m' hm' => turns_ite ?_ turns_pure
        exact (turns_look rfl).bind fun r => turns_ite turns_pure (ih m' hm' _)
  exact (turns_look rfl).bind fun cur => hloop m cur

theorem turns_autoIncReserve (offset inc nb : Nat) : Turns T Idle c m g g
    (autoIncReserve offset inc nb) := by
  have hloop : ∀ m offset inc nb, Turns T Idle c m g g (loop (.reserveLoop offset inc nb)) := by
    intro m
    induction m using Nat.strong_induction_on with
    | _ m ih =>
        intro offset inc nb
        refine turns_enter fun m' hm' => (turns_look rfl).bind fun cur => ?_
        split
        · exact turns_pure
        · refine turns_ite turns_pure ((turns_look rfl).bind fun r => ?_)
          exact turns_ite turns_pure (ih m' hm' _ _ _)
  exact hloop m _ _ _

/-- The role with other knowledge of the row. -/
def Role.withRow (g : Role n W) (p : Phase) (i : Int) (gen : Option Nat)
    (words : Fin n → Option W) : Role n W :=
  { g with phase := p, slot := i, gen := gen, words := words }

/-- The thread holds the wlock of slot `idx` and is in the middle of nothing. -/
structure AtRow (idx : Int) (g : Role n W) : Prop where
  held : Lock.row idx ∈ g.locks
  phase : g.phase = .idle ∨ g.phase = .row
  unread : g.read = .none

/-- What a look at a locked row leaves: if it went well, the row is ACTIVE. -/
def RowSeen (idx : Int) (g : Role n W) (ok : Prop) (known : Option Nat → (Fin n → Option W) → Prop)
    (g' : Role n W) : Prop :=
  ∃ p i gen words, g' = g.withRow p i gen words ∧ (p = .idle ∨ p = .row) ∧
    (ok → p = .row ∧ i = idx ∧ known gen words)

/-- A read that fails leaves the role at its row. -/
theorem RowSeen.same {idx : Int} {ok : Prop} {known : Option Nat → (Fin n → Option W) → Prop}
    (h : AtRow idx g) (hok : ¬ ok) : RowSeen idx g ok known g :=
  ⟨g.phase, g.slot, g.gen, g.words, rfl, h.phase, fun h => absurd h hok⟩

/-- `memcpy` out of a slot, by a thread that remembers the words it has read. -/
theorem follows_copyOut {idx : Int} (f : (Fin n → Option W) → Role n W) (js : List (Fin n))
    (buf : Image n W) (words : Fin n → Option W)
    (hstep : ∀ C now s words j x, Step T.cfg T.kinds C now s (f words) (.loadWord idx j) x
      (f (Function.update words j (some x)))) :
    Follows T Idle c m (copyOut idx js buf) (fun buf' g' => ∃ words', g' = f words' ∧
      (∀ j ∈ js, words' j = some (buf' j)) ∧ ∀ j, j ∉ js → words' j = words j ∧ buf' j = buf j)
      (f words) := by
  induction js generalizing words buf with
  | nil => exact follows_pure ⟨words, rfl, by simp, fun _ _ => ⟨rfl, rfl⟩⟩
  | cons j js ih =>
      refine follows_step (fun C now s x => hstep C now s words j x) fun x => ?_
      refine (ih _ _).weaken ?_
      rintro buf' g' ⟨words', rfl, hin, hout⟩
      refine ⟨words', rfl, fun j' hj' => ?_, fun j' hj' => ?_⟩
      · by_cases hmem : j' ∈ js
        · exact hin j' hmem
        · obtain rfl : j' = j := (List.mem_cons.mp hj').resolve_right hmem
          obtain ⟨h1, h2⟩ := hout j' hmem
          rw [h1, h2]
          simp
      · obtain ⟨hne, hmem⟩ := not_or.mp (fun h => hj' (List.mem_cons.mpr h))
        obtain ⟨h1, h2⟩ := hout j' hmem
        rw [h1, h2]
        simp [hne]

/-- A copy that notes each word has noted all of them at the end. -/
theorem follows_copyOut_all {idx : Int} (f : (Fin n → Option W) → Role n W) (buf : Image n W)
    (words : Fin n → Option W)
    (hstep : ∀ C now s words j x, Step T.cfg T.kinds C now s (f words) (.loadWord idx j) x
      (f (Function.update words j (some x)))) :
    Follows T Idle c m (copyOut idx (List.finRange n) buf) (fun buf' g' => g' = f (allWords buf'))
      (f words) := by
  refine (follows_copyOut f _ buf words hstep).weaken ?_
  rintro buf' g' ⟨words', rfl, hin, -⟩
  congr 1
  funext j
  exact hin j (List.mem_finRange j)

/-- A read of the locked row returns the words its thread knows from then on. -/
theorem follows_readRow_row {idx : Int} (cg : Bool) (v : Nat) (buf : Image n W) (h : AtRow idx g) :
    Follows T Idle c m (readRow idx cg v buf) (fun x => RowSeen idx g (x.1 = .ok) fun gen words =>
      (cg = true → gen = some v) ∧ words = allWords x.2) g := by
  induction m using Nat.strong_induction_on generalizing g buf with
  | _ m ih =>
      refine Logic.Safe.enter fun m' hm' => ?_
      -- another round starts from a role of the same kind
      have hretry : ∀ p gen words buf', p = .idle ∨ p = .row →
          Follows T Idle c m' (readRow idx cg v buf')
          (fun x => RowSeen idx g (x.1 = .ok) fun gen words =>
            (cg = true → gen = some v) ∧ words = allWords x.2) (g.withRow p idx gen words) := by
        intro p gen words buf' hp
        exact (ih m' hm' (g := g.withRow p idx gen words) buf' ⟨h.held, hp, h.unread⟩).weaken
          fun x g' hx => hx
      have hcopy : ∀ gen, (cg = true → gen = some v) →
          Follows T Idle c m' (readRowCopy idx cg v buf)
          (fun x => RowSeen idx g (x.1 = .ok) fun gen words =>
            (cg = true → gen = some v) ∧ words = allWords x.2)
            (g.withRow .row idx gen fun _ => none) := by
        intro gen hgen
        refine follows_peek rfl h.unread fun s₁ =>
          follows_ite (fun _ => hretry _ _ _ _ (Or.inr rfl)) fun _ => ?_
        refine Follows.then (follows_copyOut_all (fun words => g.withRow .row idx gen words) buf _
          fun _ _ _ words _ _ => .view (.word (g := g.withRow .row idx gen words) rfl)) ?_
        rintro buf' g' rfl
        refine follows_peek rfl h.unread fun s₂ =>
          follows_ite (fun _ => hretry _ _ _ _ (Or.inr rfl)) fun _ => ?_
        exact follows_pure ⟨.row, idx, gen, allWords buf', rfl,
          Or.inr rfl, fun _ => ⟨rfl, rfl, hgen, rfl⟩⟩
      show Follows T Idle c m' (readRowBody idx cg v buf) _ g
      refine follows_answer (fun st => if st = .active then g.withRow .row idx none
        (fun _ => none) else g)
        (fun _ _ _ st => ?_) fun st => follows_ite (fun hst => ?_) fun hst => ?_
      · by_cases hst : st = .active
        · subst hst
          exact .view (.active h.held h.phase h.unread)
        · rw [if_neg hst]
          exact .view (.look rfl (Or.inr h.unread))
      · rw [if_neg hst]
        exact follows_pure (.same h (by simp))
      · rw [if_pos (not_not.mp hst)]
        refine follows_ite (fun hcg => ?_) fun hcg => hcopy none fun h => absurd h hcg
        refine follows_step (fun _ _ _ _ => .view (.gen rfl)) fun r =>
          follows_ite (fun _ => ?_) fun hr => ?_
        · exact follows_pure ⟨.row, idx, some r, fun _ => none, rfl, Or.inr rfl, by simp⟩
        · exact hcopy (some r) fun _ => congrArg some (not_not.mp hr)

/-- The check of an update or a delete that has just taken the row's wlock. -/
theorem follows_verifySlot {idx : Int} (v : Nat) (h : AtRow idx g) :
    Follows T Idle c m (verifySlot idx v)
      (fun x => RowSeen idx g (x = true) fun gen _ => gen = some v) g := by
  refine follows_answer (fun st => if st = .active then g.withRow .row idx none
    (fun _ => none) else g) (fun _ _ _ st => ?_) fun st => follows_ite (fun hst => ?_) fun hst => ?_
  · by_cases hst : st = .active
    · subst hst
      exact .view (.active h.held h.phase h.unread)
    · rw [if_neg hst]
      exact .view (.look rfl (Or.inr h.unread))
  · rw [if_neg hst]
    exact follows_pure (.same h (by simp))
  · rw [if_pos (not_not.mp hst)]
    refine follows_step (fun _ _ _ _ => .view (.gen rfl)) fun r => ?_
    refine follows_pure ⟨.row, idx, some r, fun _ => none, rfl,
      Or.inr rfl, fun hr => ⟨rfl, rfl, ?_⟩⟩
    exact congrArg some (of_decide_eq_true hr)

/-- The check of an update or a delete of a row the thread already knows. -/
theorem turns_verifySlot (hread : g.read = .none) (idx : Int) (v : Nat) :
    Turns T Idle c m g g (verifySlot idx v) :=
  (turns_peek rfl hread).bind fun _ =>
    turns_ite turns_pure ((turns_look rfl).bind fun _ => turns_pure)

/-- A push of a slot of the thread's own, given what the last of its three accesses
does to the role. -/
theorem turns_freeSlot {idx : Int} (held : Lock.mutex ∈ g.locks)
    (mine : g.slot = idx ∧ (g.phase = .fill ∨ g.phase = .loose) ∨ idx ∈ g.extra)
    (push : FreeStep T.kinds { g with free := .cell idx } (.storeFreeHead idx) () g') :
    Turns T Idle c m g g' (freeSlot idx) := by
  refine follows_step (fun _ _ _ _ => .view (.freeHead held)) fun h => ?_
  refine Turns.bind (turns_access fun _ _ _ _ => .free (.cell held rfl mine)) fun _ => ?_
  exact turns_access fun _ _ _ _ => .free push

/-- Pushing the extra slots of a thread, in any order. -/
theorem turns_pushExtra {idx : Int} (held : Lock.mutex ∈ g.locks) (hfree : g.free = .none)
    (hmem : idx ∈ g.extra) :
    Turns T Idle c m g { g with extra := g.extra.erase idx } (freeSlot idx) := by
  have hpush := FreeStep.pushExtra (K := T.kinds) (g := { g with free := .cell idx }) held rfl hmem
  rw [← hfree] at hpush
  exact turns_freeSlot held (Or.inr hmem) hpush

/-- The slots of a new chunk are put on the free list, one after another. -/
theorem turns_pushSlots (lo k : Nat) (held : Lock.mutex ∈ g.locks) (hfree : g.free = .none)
    (hextra : g.extra.Perm (slotsFrom lo k)) :
    Turns T Idle c m g { g with extra := [] } (pushSlots lo k) := by
  induction k generalizing g with
  | zero =>
      have hnil : g.extra = [] := List.perm_nil.mp hextra
      rw [← hnil]
      exact turns_pure
  | succ k ih =>
      rw [slotsFrom_succ] at hextra
      have hmem : i32 (lo + k) ∈ g.extra := hextra.mem_iff.mpr (by simp)
      have hrest : (g.extra.erase (i32 (lo + k))).Perm (slotsFrom lo k) := by
        have h := (hextra.trans List.perm_append_comm).erase (i32 (lo + k))
        simpa using h
      refine Turns.bind (turns_pushExtra held hfree hmem) fun _ => ?_
      exact ih (g := { g with extra := g.extra.erase (i32 (lo + k)) }) held hfree hrest

/-- The slots a clear has flipped are put on the free list, one after another. -/
theorem turns_rebuildFree (is : List Nat) (held : Lock.mutex ∈ g.locks) (hfree : g.free = .none)
    (hextra : g.extra.Perm (is.map i32)) :
    Turns T Idle c m g { g with extra := [] } (rebuildFree is) := by
  induction is generalizing g with
  | nil =>
      have hnil : g.extra = [] := List.perm_nil.mp hextra
      rw [← hnil]
      exact turns_pure
  | cons i is ih =>
      have hmem : i32 i ∈ g.extra := hextra.mem_iff.mpr (by simp)
      have hrest : (g.extra.erase (i32 i)).Perm (is.map i32) := by
        have h := hextra.erase (i32 i)
        simpa using h
      refine Turns.bind (turns_pushExtra held hfree hmem) fun _ => ?_
      exact ih (g := { g with extra := g.extra.erase (i32 i) }) held hfree hrest

/-- The role of an insert that has just got slot `idx`. -/
def Role.filling (g : Role n W) (idx : Int) : Role n W :=
  { g with phase := .fill, slot := idx, words := fun _ => none, map := fun _ => none }

/-- A thread that is in the middle of nothing, but for what it knows of a row. -/
structure Resting (g : Role n W) : Prop where
  walk : g.walk = .none
  dup : g.dup = .none
  checked : g.checked = []
  free : g.free = .none
  chunk : g.chunk = none
  extra : g.extra = []
  flipped : g.flipped = []
  read : g.read = .none

/-- Traces of the setting have the slots in order. -/
def Setting.Sound (T : Setting n W PK Op Out) : Prop := T.Fresh ∧ T.ClearsApart

/-- Building the links of a new chunk changes no role. -/
theorem follows_allocKeyNext (hins : T.kinds .insert) {k : Nat} (ks : List Nat)
    (held : Lock.mutex ∈ g.locks)
    (hchunk : g.chunk = some k) : Turns T Idle c m g g (allocKeyNext k ks) := by
  induction ks with
  | nil => exact turns_pure
  | cons j ks ih =>
      refine (turns_look rfl).bind fun ok => turns_ite ?_ turns_pure
      exact Turns.bind (turns_access fun _ _ _ _ => .grow (.initNext hins held hchunk)) fun _ => ih

/-- `fm_core_grow_chunk` of a share without free slots. -/
theorem follows_growChunk (hT : T.Sound) (hins : T.kinds .insert) {k : Nat}
    (held : Lock.mutex ∈ g.locks) (hphase : g.phase = .idle) (hextra : g.extra = [])
    (hfree : g.free = .head nullSlot) (hchunk : g.chunk = some k)
    (hlimit : slotCount k < T.cfg.maxRecords) :
    Follows T Idle c m (growChunk T.cfg) (fun rc g' => if rc = .ok then
        k < T.cfg.chunkCap ∧ g' = { g.filling (i32 (slotCount k)) with
          extra := slotsFrom (slotCount k + 1) (chunkEnd T.cfg (slotCount k) - (slotCount k + 1))
          free := .none
          chunk := none }
      else g' = g) g := by
  refine follows_access fun w γ r s htrace hg _ hexec => ⟨{ g with chunk := some r }, ?_, ?_⟩
  · exact .view (.chunkCnt held hphase)
  -- the count has not changed since it was read first
  have hr : r = k := by
    have hmine := (trace_slots hT.1 hT.2 htrace).mine c.tid
    rw [hg] at hmine
    simp only [exec, Option.some.injEq, Prod.mk.injEq] at hexec
    rw [← hexec.1]
    exact hmine.chunk k hchunk
  subst hr
  rw [show ({ g with chunk := some r } : Role n W) = g by rw [← hchunk]]
  refine follows_ite (fun _ => follows_pure (by simp)) fun hcap => ?_
  refine follows_look rfl fun ok => follows_ite (fun _ => ?_) fun _ => follows_pure (by simp)
  refine Turns.then (turns_access fun _ _ _ _ => .grow (.initSlots hins held hchunk hfree))
    fun _ => ?_
  have hkeys : Turns T Idle c m g g (allocKeyArray T.cfg) := turns_ite turns_pure (turns_look rfl)
  refine Turns.then hkeys fun ok => follows_ite (fun _ => ?_) fun _ => follows_pure (by simp)
  refine Turns.then (follows_allocKeyNext hins _ held hchunk) fun rc => ?_
  refine follows_ite (fun _ => ?_) fun _ => follows_pure (by simp)
  refine Turns.then (turns_access fun _ _ _ _ =>
    .grow (.publish hins held hchunk hfree hphase hextra (Nat.lt_of_not_le hcap) hlimit))
      fun _ => ?_
  exact follows_pure (by simpa [Role.filling] using Nat.lt_of_not_le hcap)

/-- `fm_core_alloc_slot`: a slot to fill, or none. -/
theorem follows_allocSlot (hT : T.Sound) (hins : T.kinds .insert) (held : Lock.mutex ∈ g.locks)
    (hphase : g.phase = .idle) (hrest : Resting g) :
    Follows T Idle c m (allocSlot T.cfg) (fun idx g' => if idx = nullSlot then
      ∃ free chunk, g' = { g with free := free, chunk := chunk } else g' = g.filling idx) g := by
  refine follows_step (fun _ _ _ _ => .view (.freeHead held)) fun idx =>
    follows_ite (fun hidx => ?_) fun hidx => ?_
  · refine follows_step (fun _ _ _ _ => .view (.freeNext held rfl)) fun nx => ?_
    refine Turns.then
      (turns_access fun _ _ _ _ => .free (.pop hins held rfl hidx hphase hrest.extra)) fun _ => ?_
    refine follows_pure ?_
    rw [if_neg hidx]
    simp [Role.filling, hrest.free]
  · obtain rfl := not_not.mp hidx
    refine follows_step (fun _ _ _ _ => .view (.chunkCnt held hphase)) fun cnt => ?_
    refine follows_ite (fun _ => ?_) fun hlimit => ?_
    · refine follows_pure ?_
      rw [if_pos rfl]
      exact ⟨_, _, rfl⟩
    have hmul : slotCount cnt % chunkSize = 0 := by
      unfold slotCount chunkSize
      omega
    rw [if_pos hmul]
    refine Follows.then (follows_growChunk hT hins held hphase hrest.extra rfl rfl
      (Nat.lt_of_not_le hlimit)) ?_
    intro rc g' hg'
    by_cases hrc : rc = .ok
    · rw [if_pos hrc] at hg' ⊢
      obtain ⟨hcap, rfl⟩ := hg'
      refine Turns.then (turns_pushSlots _ _ held rfl (List.Perm.refl _)) fun _ => follows_pure ?_
      have hne : i32 (slotCount cnt) ≠ nullSlot := by
        obtain ⟨heq, hle⟩ := slotCount_of_le (Nat.le_of_lt hcap)
        exact i32_ne_null (by omega)
      rw [if_neg hne]
      simp [Role.filling, hrest.free, hrest.chunk, hrest.extra]
    · rw [if_neg hrc] at hg' ⊢
      subst hg'
      refine follows_pure ?_
      rw [if_pos rfl]
      exact ⟨_, _, rfl⟩

/-- `memcpy` into a slot the thread may write, word by word. -/
theorem turns_copyIn {idx : Int} (rec : Image n W) (js : List (Fin n))
    (hstep : ∀ C now s words j,
      Step T.cfg T.kinds C now s { g with words := words } (.storeWord idx j (rec j)) ()
      { g with words := Function.update words j (some (rec j)) }) :
    Turns T Idle c m g { g with words := fun j => if j ∈ js then some (rec j) else g.words j }
      (copyIn idx rec js) := by
  induction js generalizing g with
  | nil =>
      have hsame : ({ g with words := fun j => if j ∈ [] then some (rec j) else g.words j } :
        Role n W) = g := by
        simp
      rw [hsame]
      exact turns_pure
  | cons j js ih =>
      refine Turns.bind (turns_access fun C now s _ => hstep C now s g.words j) fun _ => ?_
      have h := ih (g := { g with words := Function.update g.words j (some (rec j)) })
        (fun C now s words j => hstep C now s words j)
      have hwords : (fun j' => if j' ∈ js then some (rec j') else Function.update g.words j
          (some (rec j)) j') = fun j' => if j' ∈ j :: js then some (rec j') else g.words j' := by
        funext j'
        by_cases hj : j' = j
        · subst hj; simp
        · simp [hj]
      rw [← hwords]
      exact h

/-- The words of a copy are those of the image. -/
theorem allWords_eq (rec : Image n W) (ws : Fin n → Option W) :
    (fun j => if j ∈ List.finRange n then some (rec j) else ws j) = allWords rec := by
  funext j
  simp [allWords]

/-- An insert fills its slot. -/
theorem turns_copyIn_fill {idx : Int} (rec : Image n W) (hphase : g.phase = .fill)
    (hslot : g.slot = idx) (hmap : ∀ k, g.map k = none) :
    Turns T Idle c m g { g with words := allWords rec } (copyIn idx rec (List.finRange n)) := by
  subst hslot
  rw [← allWords_eq rec g.words]
  exact turns_copyIn rec _ fun _ _ _ words _ =>
    .image (.fill (g := { g with words := words }) hphase hmap)

/-- `fm_core_write_image` of a row the thread has locked and seen ACTIVE. -/
theorem turns_writeImage {idx : Int} {old new : Image n W} {p : Phase} (hupd : T.kinds .update)
    (hphase : g.phase = .row) (hslot : g.slot = idx)
    (hcommit : ∀ w γ, T.Trace w γ → γ c.tid = g → T.meets c (.addSeq idx) w →
      T.commits c w (.write idx old new))
    (hpublish : ∀ w, T.commits c w (.publish idx new))
    (hchecked : T.kinds .index → ∀ k, k < T.cfg.keys → (T.cfg.keydef k).ops.cmpRecRec old new ≠ 0 →
      (T.cfg.keydef k).unique = true → (T.cfg.keydef k).ops.hasNullPart new = false →
      (k, new) ∈ g.checked)
    (hlocked : T.kinds .index → ∀ k, k < T.cfg.keys → (T.cfg.keydef k).ops.cmpRecRec old new ≠ 0 →
      Lock.bucket k (T.cfg.keyBucket k old) ∈ g.locks ∧ Lock.bucket k
        (T.cfg.keyBucket k new) ∈ g.locks)
    (hafter : p = .move ∨ p = .row ∧ (T.kinds .index → T.cfg.buckets old = T.cfg.buckets new)) :
    Turns T Idle c m g { g with
        phase := p, words := allWords new, target := some new, map := T.cfg.buckets old }
      (writeImage idx new) := by
  subst hslot
  refine follows_access fun w γ r s htrace hg hmeets _ => ⟨_, .image (.begin hupd hphase
    (hcommit w γ htrace hg hmeets) hchecked hlocked), ?_⟩
  refine Turns.then (turns_copyIn new _ fun _ _ _ words _ => .image (.word (g := { g with
    phase := .write, words := words, target := some new, map := T.cfg.buckets old }) rfl rfl))
      fun _ => ?_
  rw [allWords_eq]
  have hret : access (.addSeq g.slot) = (access (.addSeq g.slot) >>= pure : Core n W PK Unit) := rfl
  rw [hret]
  refine follows_access fun w _ _ _ _ _ _ _ => ⟨_, .image (.finish (g := { g with
    phase := .write, words := allWords new, target := some new, map := T.cfg.buckets old })
      rfl rfl rfl
    (hpublish w) hafter), follows_pure rfl⟩

/-- `fm_core_chain_link` of the slot the thread's role is about. -/
theorem turns_chainLink {k b : Nat} {idx : Int} {p : Phase} (held : Lock.bucket k b ∈ g.locks)
    (hslot : g.slot = idx) (hwalk : g.walk = .none) (hphase : g.phase = .fill ∨ g.phase = .move)
    (hkey : k < T.cfg.keys) (hmap : g.map k = none)
    (hafter : p = g.phase ∨ g.phase = .move ∧ p = .row ∧
      ∃ new, g.target = some new ∧ Function.update g.map k (some b) = T.cfg.buckets new)
    (hfresh : g.phase = .fill → ∃ img, g.words = allWords img ∧ b = T.cfg.keyBucket k img ∧
      ((T.cfg.keydef k).unique = true → (T.cfg.keydef k).ops.hasNullPart img = false →
        (k, img) ∈ g.checked)) :
    Turns T Idle c m g { g with map := Function.update g.map k (some b), phase := p }
      (chainLink k b idx) := by
  subst hslot
  refine follows_step (fun _ _ _ _ => .chain (.front held hwalk hphase hkey hmap)) fun h => ?_
  refine Turns.then
    (turns_access fun _ _ _ _ => .chain (.point (g := { g with walk := .front k b h }) rfl))
    fun _ => ?_
  have hjoin := ChainStep.join (K := T.kinds) (g := { g with walk := .cell k b }) rfl hafter hfresh
  rw [← hwalk] at hjoin
  exact turns_access fun _ _ _ _ => .chain hjoin

/-- The rest of a walk along a chain, to take the slot off it. -/
theorem turns_unlinkWalk {k b : Nat} {p : Int} (hwalk : g.walk = .at k b p) :
    Turns T Idle c m g { g with walk := .none, map := Function.update g.map k none }
      (loop (.unlinkWalk k (.next p) g.slot)) := by
  induction m using Nat.strong_induction_on generalizing g p with
  | _ m ih =>
      refine turns_enter fun m' hm' => ?_
      show Turns T Idle c m' g _ (unlinkBody k (.next p) g.slot)
      refine follows_step (fun _ _ _ _ => .chain (.next hwalk)) fun h => ?_
      unfold Role.walkTo
      refine follows_ite (fun hnull => ?_) fun hnull => ?_
      · rw [if_pos hnull]
        exact turns_pure
      · rw [if_neg hnull]
        refine follows_ite (fun hhit => ?_) fun hhit => ?_
        · rw [if_pos hhit]
          refine follows_step
            (fun _ _ _ _ => .chain (.after (g := { g with walk := .hit k b (.next p) }) rfl))
            fun nx => ?_
          refine Turns.bind (turns_access fun _ _ _ _ => .chain (.cutNext
            (g := { g with walk := .found k b (.next p) nx }) rfl)) fun _ => turns_pure
        · rw [if_neg hhit]
          exact ih m' hm' (g := { g with walk := .at k b h }) rfl

/-- `fm_core_chain_unlink` of the slot the thread's role is about. -/
theorem turns_chainUnlink {k b : Nat} {idx : Int} (held : Lock.bucket k b ∈ g.locks)
    (hslot : g.slot = idx) (hwalk : g.walk = .none)
    (hphase : g.phase = .fill ∨ g.phase = .del ∨ g.phase = .move) (hmap : g.map k = some b) :
    Turns T Idle c m g { g with map := Function.update g.map k none } (chainUnlink k b idx) := by
  subst hslot
  have hend : ({ g with walk := .none, map := Function.update g.map k none } : Role n W) =
      { g with map := Function.update g.map k none } := by rw [← hwalk]
  rw [← hend]
  refine turns_enter fun m' hm' => ?_
  show Turns T Idle c m' g _ (unlinkBody k (.head b) g.slot)
  refine follows_step (fun _ _ _ _ => .chain (.enter held hwalk hphase hmap)) fun h => ?_
  unfold Role.walkTo
  refine follows_ite (fun hnull => ?_) fun hnull => ?_
  · rw [if_pos hnull]
    exact turns_pure
  · rw [if_neg hnull]
    refine follows_ite (fun hhit => ?_) fun hhit => ?_
    · rw [if_pos hhit]
      refine follows_step
        (fun _ _ _ _ => .chain (.after (g := { g with walk := .hit k b (.head b) }) rfl))
        fun nx => ?_
      refine Turns.bind (turns_access fun _ _ _ _ => .chain (.cutHead
        (g := { g with walk := .found k b (.head b) nx }) rfl)) fun _ => turns_pure
    · rw [if_neg hhit]
      exact turns_unlinkWalk (g := { g with walk := .at k b h }) rfl

/-- The reads of a duplicate check of slot `h`. -/
theorem follows_readRow_dup {k : Nat} {rec : Image n W} {h : Int} (buf : Image n W)
    (hread : g.read = .none) (hdup : ∃ words gone, g.dup = .at k rec h words gone) :
    Follows T Idle c m (readRow h false 0 buf) (fun x g' => if x.1 = .ok then
        g' = { g with dup := .at k rec h (allWords x.2) false }
      else g' = { g with dup := .at k rec h (fun _ => none) true }) g := by
  induction m using Nat.strong_induction_on generalizing g buf with
  | _ m ih =>
      obtain ⟨words, gone, hdup⟩ := hdup
      refine Logic.Safe.enter fun m' hm' => ?_
      show Follows T Idle c m' (readRowBody h false 0 buf) _ g
      have hretry : ∀ words buf',
          Follows T Idle c m' (readRow h false 0 buf') (fun x g' => if x.1 = .ok then
          g' = { g with dup := .at k rec h (allWords x.2) false }
          else g' = { g with dup := .at k rec h (fun _ => none) true })
          { g with dup := .at k rec h words false } := by
        intro words buf'
        exact ih m' hm' (g := { g with dup := .at k rec h words false }) buf' hread ⟨_, _, rfl⟩
      refine follows_step (fun _ _ _ _ => .dup (.state hdup hread)) fun st =>
        follows_ite (fun hst => ?_) fun hst => ?_
      · refine follows_pure ?_
        simp [hst]
      · rw [show decide (st ≠ .active) = false by simpa using hst]
        refine follows_ite (fun h => absurd h (by simp)) fun _ => ?_
        refine follows_peek rfl hread fun s₁ => follows_ite (fun _ => hretry _ _) fun _ => ?_
        refine Follows.then
          (follows_copyOut_all (fun words => { g with dup := .at k rec h words false }) buf _
          fun _ _ _ words _ _ => .dup (.word (g := { g with dup := .at k rec h words false }) rfl))
          ?_
        rintro buf' g' rfl
        refine follows_peek rfl hread fun s₂ => follows_ite (fun _ => hretry _ _)
          fun _ => follows_pure ?_
        simp

/-- The rest of a duplicate check that stands at slot `h`. -/
theorem follows_dupWalk {k : Nat} {rec : Image n W} {h : Int} (scratch : Image n W)
    (hread : g.read = .none)
    (hdup : if h = nullSlot then (k, rec) ∈ g.checked else ∃ words gone,
      g.dup = .at k rec h words gone) :
    Follows T Idle c m (loop (.dupWalk k rec scratch h)) (fun rc g' =>
      ∃ dup checked, g' = { g with dup := dup, checked := checked } ∧ g.checked ⊆ checked ∧
        (rc = .ok → (k, rec) ∈ checked)) g := by
  induction m using Nat.strong_induction_on generalizing g h scratch with
  | _ m ih =>
      refine Logic.Safe.enter fun m' hm' => ?_
      show Follows T Idle c m' (dupBody T.cfg k rec scratch h) _ g
      refine follows_ite (fun hnull => ?_) fun hnull => ?_
      · rw [if_pos hnull] at hdup
        exact follows_pure ⟨g.dup, g.checked, rfl, List.Subset.refl _, fun _ => hdup⟩
      rw [if_neg hnull] at hdup
      refine (follows_readRow_dup scratch hread hdup).then ?_
      rintro ⟨rc, img⟩ g' hg'
      -- what the walk has seen of the slot lets it go on
      have hgo : ∀ words gone, (gone = true ∨
            ∃ img, words = allWords img ∧ (T.cfg.keydef k).ops.cmpRecRec img rec ≠ 0) →
          Follows T Idle c m' (access (.loadNext k h) >>= fun nx => loop (.dupWalk k rec img nx))
          (fun rc g' =>
            ∃ dup checked, g' = { g with dup := dup, checked := checked } ∧ g.checked ⊆ checked ∧
              (rc = .ok → (k, rec) ∈ checked)) { g with dup := .at k rec h words gone } := by
        intro words gone hpass
        refine follows_step
          (fun _ _ _ _ => .dup (.next (g := { g with dup := .at k rec h words gone }) rfl hpass))
          fun nx => ?_
        unfold Role.checkTo
        by_cases hnx : nx = nullSlot
        · rw [if_pos hnx]
          refine (ih m' hm' (g := { g with dup := .none, checked := (k, rec) :: g.checked }) img
            hread ?_).weaken ?_
          · rw [if_pos hnx]
            exact List.mem_cons_self
          · rintro rc' g' ⟨dup, checked, rfl, hsub, hok⟩
            exact ⟨dup, checked, rfl, fun x hx => hsub (List.mem_cons_of_mem _ hx), hok⟩
        · rw [if_neg hnx]
          refine (ih m' hm' (g := { g with dup := .at k rec nx (fun _ => none) false }) img
            hread ?_).weaken ?_
          · rw [if_neg hnx]
            exact ⟨_, _, rfl⟩
          · rintro rc' g' ⟨dup, checked, rfl, hsub, hok⟩
            exact ⟨dup, checked, rfl, hsub, hok⟩
      refine follows_ite (fun hdupl => ?_) fun hdupl => ?_
      · rw [if_pos hdupl.1] at hg'
        subst hg'
        exact follows_pure ⟨_, g.checked, rfl, List.Subset.refl _, by simp⟩
      · by_cases hrc : rc = .ok
        · rw [if_pos hrc] at hg'
          subst hg'
          exact hgo _ _ (Or.inr ⟨img, rfl, fun hcmp => hdupl ⟨hrc, hcmp⟩⟩)
        · rw [if_neg hrc] at hg'
          subst hg'
          exact hgo _ _ (Or.inl rfl)

/-- `fm_core_dup_check` under the bucket lock. -/
theorem follows_dupCheck {k b : Nat} {rec : Image n W} (scratch : Image n W)
    (hread : g.read = .none) (hb : b = T.cfg.keyBucket k rec) (held : Lock.bucket k b ∈ g.locks) :
    Follows T Idle c m (dupCheck T.cfg k b rec scratch) (fun rc g' =>
      ∃ dup checked, g' = { g with dup := dup, checked := checked } ∧ g.checked ⊆ checked ∧
        (rc = .ok → (T.cfg.keydef k).unique = true → (T.cfg.keydef k).ops.hasNullPart rec = false →
          (k, rec) ∈ checked)) g := by
  subst hb
  refine follows_ite (fun _ => ?_) fun hnot => ?_
  · refine follows_step (fun _ _ _ _ => .dup (.enter held)) fun h => ?_
    unfold Role.checkTo
    by_cases hnull : h = nullSlot
    · rw [if_pos hnull]
      refine (follows_dupWalk (g := { g with dup := .none, checked := (k, rec) :: g.checked })
        scratch hread ?_).weaken ?_
      · rw [if_pos hnull]
        exact List.mem_cons_self
      · rintro rc g' ⟨dup, checked, rfl, hsub, hok⟩
        exact ⟨dup, checked, rfl, fun x hx => hsub (List.mem_cons_of_mem _ hx),
          fun hrc _ _ => hok hrc⟩
    · rw [if_neg hnull]
      refine (follows_dupWalk (g := { g with dup := .at k rec h (fun _ => none) false }) scratch
        hread ?_).weaken ?_
      · rw [if_neg hnull]
        exact ⟨_, _, rfl⟩
      · rintro rc g' ⟨dup, checked, rfl, hsub, hok⟩
        exact ⟨dup, checked, rfl, hsub, fun hrc _ _ => hok hrc⟩
  · refine follows_pure ⟨g.dup, g.checked, rfl, List.Subset.refl _, fun _ hu hn => ?_⟩
    exact absurd (by simp [hu, hn]) hnot

end FastMem
