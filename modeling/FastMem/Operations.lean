import FastMem.Follow

/-!
# The operations of the core follow the protocol

An insert, an update, a delete, a clear and a read, each from a thread that is in the
middle of nothing: the steps they take are the protocol's, and they leave the thread
in the middle of nothing again, with the locks it had.  What a setting wants to know
when an image is rewritten or a row is marked is asked of the caller, as a fact about
the worlds in which that happens.
-/

namespace FastMem

open Conc

variable {n : Nat} {W PK Op Loc Out : Type} {T : Setting n W PK Op Out}
  {Idle : Loc → Role n W → Prop} {c : Call Op} {m : Nat} {g g' : Role n W}

/-- How an operation leaves a thread: with the locks it had, in the middle of nothing. -/
structure Left (g g' : Role n W) : Prop where
  locks : g'.locks = g.locks
  phase : g'.phase = .idle ∨ g'.phase = .row
  rest : Resting g'
  since : g'.since = g.since
  read : g'.read = g.read

/-- Releasing the struct mutex, when it was taken last. -/
theorem turns_unlockMutex {H : List Lock} (hlocks : g.locks = .mutex :: H) (hextra : g.extra = [])
    (hphase : g.phase.mutexed = false) :
    Turns T Idle c m g { g with locks := H, free := .none, chunk := none }
      (access (.unlock .mutex)) := by
  have hheld : Lock.mutex ∈ g.locks := by simp [hlocks]
  have herase : H = g.locks.erase .mutex := by simp [hlocks]
  subst herase
  exact turns_access fun _ _ _ _ => .lock (.unlockMutex hheld hextra hphase)

/-- Releasing the wlock taken last. -/
theorem turns_unlockRow {i : Int} {H : List Lock} (hlocks : g.locks = .row i :: H)
    (hphase : g.phase ≠ .write ∧ g.phase ≠ .move) :
    Turns T Idle c m g { g with locks := H, phase := if g.phase = .row then .idle else g.phase }
      (access (.unlock (.row i))) := by
  have hheld : Lock.row i ∈ g.locks := by simp [hlocks]
  have herase : H = g.locks.erase (.row i) := by simp [hlocks]
  subst herase
  exact turns_access fun _ _ _ _ => .lock (.unlockRow hheld hphase)

/-- Taking a lock, by a thread that no longer needs what it knows of its row. -/
theorem turns_lockAnew (l : Lock) (hphase : g.phase = .idle ∨ g.phase = .row) :
    Turns T Idle c m g { g with locks := l :: g.locks, phase := .idle } (access (.lock l)) := by
  rcases hphase with hidle | hrow
  · have hsame : ({ g with locks := l :: g.locks, phase := .idle } : Role n W) =
      { g with locks := l :: g.locks } := by
      rw [← hidle]
    rw [hsame]
    exact turns_lock l
  · exact turns_access fun _ _ _ _ => .lock (.lockAnew l hrow)

/-- The buckets of the keys in `ks`, and for the others what `map` says. -/
def linkedMap (cfg : ShareCfg n W PK) (rec : Image n W) (ks : List Nat) (map : Nat → Option Nat) :
    Nat → Option Nat :=
  fun k => if k ∈ ks then some (cfg.keyBucket k rec) else map k

/-- With no key done the links are as they were. -/
@[simp] theorem linkedMap_nil {cfg : ShareCfg n W PK} {rec : Image n W} {map : Nat → Option Nat} :
    linkedMap cfg rec [] map = map := by
  funext k
  simp [linkedMap]

/-- One more key is linked. -/
theorem linkedMap_cons {cfg : ShareCfg n W PK} {rec : Image n W} {k : Nat} {ks : List Nat}
    {map : Nat → Option Nat} :
    linkedMap cfg rec ks (Function.update map k (some (cfg.keyBucket k rec))) =
      linkedMap cfg rec (k :: ks) map := by
  funext j
  by_cases hj : j = k
  · subst hj
    simp [linkedMap]
  · simp [linkedMap, hj]

/-- The keys of an insert, up to the one at which it finds a duplicate. -/
theorem follows_linkKeys {rec : Image n W} {idx : Int} (scratch : Image n W) (ks : List Nat)
    (hread : g.read = .none) (hphase : g.phase = .fill) (hslot : g.slot = idx)
    (hwords : g.words = allWords rec) (hwalk : g.walk = .none) (hdup : g.dup = .none)
    (hchecked : g.checked = []) (hkeys : ∀ k ∈ ks, k < T.cfg.keys) (hnd : ks.Nodup)
    (hmap : ∀ k ∈ ks, g.map k = none) :
    Follows T Idle c m (linkKeys T.cfg rec scratch idx ks) (fun stop g' => match stop with
      | none => g' = { g with map := linkedMap T.cfg rec ks g.map }
      | some k => ∃ pre post, ks = pre ++ k :: post ∧
        g' = { g with map := linkedMap T.cfg rec pre g.map }) g := by
  induction ks generalizing g with
  | nil => exact follows_pure rfl
  | cons k ks ih =>
      obtain ⟨hk, hnd'⟩ := List.nodup_cons.mp hnd
      refine Turns.then (turns_lock _) fun _ => ?_
      refine Follows.then (follows_dupCheck scratch (by exact hread) rfl List.mem_cons_self) ?_
      rintro rc g₁ ⟨dup, checked, rfl, -, hok⟩
      refine follows_ite (fun hrc => ?_) fun hrc => ?_
      · refine Turns.then
          (turns_chainLink (p := .fill) List.mem_cons_self hslot hwalk (Or.inl hphase)
          (hkeys k List.mem_cons_self) (hmap k List.mem_cons_self) (Or.inl hphase.symm)
          fun _ => ⟨rec, hwords, rfl, hok hrc⟩) fun _ => ?_
        refine Turns.then (turns_unlockBucket rfl hwalk) fun _ => ?_
        have hsame : ({ g with
            dup := .none, checked := [], phase := .fill,
            map := Function.update g.map k (some (T.cfg.keyBucket k rec)) } : Role n W) =
            { g with map := Function.update g.map k (some (T.cfg.keyBucket k rec)) } := by
          rw [← hdup, ← hchecked, ← hphase]
        refine Follows.at_role _ hsame ?_
        refine (ih (g := { g with map := Function.update g.map k (some (T.cfg.keyBucket k rec)) })
          hread hphase hslot
          hwords hwalk hdup hchecked (fun j hj => hkeys j (List.mem_cons_of_mem _ hj)) hnd'
            fun j hj => ?_).weaken ?_
        · have hjk : j ≠ k := by
            rintro rfl
            exact hk hj
          simpa [hjk] using hmap j (List.mem_cons_of_mem _ hj)
        intro stop g' hg'
        cases stop with
        | none =>
            simp only at hg' ⊢
            rw [hg', linkedMap_cons]
        | some j =>
            obtain ⟨pre, post, hks, hg'⟩ := hg'
            refine ⟨k :: pre, post, by rw [hks]; rfl, ?_⟩
            rw [hg', linkedMap_cons]
      · refine Turns.then (turns_unlockBucket rfl hwalk) fun _ => ?_
        refine follows_pure ⟨[], ks, rfl, ?_⟩
        rw [linkedMap_nil, ← hdup, ← hchecked]

/-- The rollback loop of an insert. -/
theorem turns_rollback {rec : Image n W} {idx : Int} (k : Nat)
    (hphase : g.phase = .fill) (hslot : g.slot = idx) (hwalk : g.walk = .none)
    (hdup : g.dup = .none) (hchecked : g.checked = [])
    (hmap : g.map = linkedMap T.cfg rec (List.range k) fun _ => none) :
    Turns T Idle c m g { g with map := fun _ => none } (rollback T.cfg rec idx k) := by
  induction k generalizing g with
  | zero =>
      have hnone : (fun _ => none) = g.map := by
        rw [hmap]
        simp
      rw [hnone]
      exact turns_pure
  | succ k ih =>
      have hk : g.map k = some (T.cfg.keyBucket k rec) := by
        rw [hmap]
        simp [linkedMap]
      refine (turns_lock _).bind fun _ => ?_
      refine Turns.bind (turns_chainUnlink List.mem_cons_self hslot hwalk (Or.inl hphase) hk)
        fun _ => ?_
      refine Turns.bind (turns_unlockBucket rfl hwalk) fun _ => ?_
      have hmap' : Function.update g.map k none = linkedMap T.cfg rec (List.range k)
          fun _ => none := by
        rw [hmap]
        funext j
        by_cases hj : j = k
        · subst hj
          simp [linkedMap]
        · have : j < k + 1 ↔ j < k := by omega
          simp [linkedMap, hj, this]
      refine Follows.at_role { g with map := Function.update g.map k none } ?_ ?_
      · rw [← hdup, ← hchecked]
      · exact ih (g := { g with map := Function.update g.map k none }) hphase hslot hwalk
          hdup hchecked hmap'

/-- `fm_core_insert_row`, once it has a slot. -/
theorem follows_insertAt {rec : Image n W} {idx : Int} (scratch : Image n W) {H : List Lock}
    (hlocks : g.locks = .mutex :: H) (hrest : Resting g)
    (hcommit : ∀ w, T.commits c w (.publish idx rec)) :
    Follows T Idle c m (insertAt T.cfg rec scratch idx)
      (fun _ g' => g'.phase = .idle ∧ Left { g with locks := H } g') (g.filling idx) := by
  have hheld : Lock.mutex ∈ g.locks := by simp [hlocks]
  refine Turns.then (turns_copyIn_fill rec rfl rfl fun _ => rfl) fun _ => ?_
  refine Follows.then (follows_linkKeys scratch (List.range T.cfg.keys) hrest.read rfl rfl rfl
    hrest.walk hrest.dup
    hrest.checked (fun k => List.mem_range.mp) List.nodup_range fun _ _ => rfl) ?_
  intro stop g' hg'
  cases stop with
  | none =>
      simp only at hg'
      subst hg'
      have hmap : linkedMap T.cfg rec (List.range T.cfg.keys) (fun _ => none) =
          T.cfg.buckets rec := by
        funext k
        simp [linkedMap, ShareCfg.buckets]
      refine follows_access fun w _ _ _ _ _ _ _ => ⟨_, .slot (.publish (g := { g.filling idx with
        words := allWords rec, map := linkedMap T.cfg rec (List.range T.cfg.keys) fun _ => none })
          rfl hrest.extra
        hrest.free hrest.walk rfl hmap (hcommit w)), ?_⟩
      refine Turns.then (turns_access fun _ _ _ _ => .slot (.count rfl)) fun _ => ?_
      refine Turns.then (turns_unlockMutex hlocks hrest.extra rfl) fun _ => follows_pure ?_
      exact ⟨rfl, rfl, Or.inl rfl, ⟨hrest.walk, hrest.dup, hrest.checked, rfl, rfl, hrest.extra,
        hrest.flipped, hrest.read⟩, rfl, rfl⟩
  | some k =>
      obtain ⟨pre, post, hks, rfl⟩ := hg'
      obtain rfl := range_prefix hks
      refine Turns.then (turns_rollback (g := { g.filling idx with
        words := allWords rec, map := linkedMap T.cfg rec (List.range k) fun _ => none }) k
          rfl rfl hrest.walk
        hrest.dup hrest.checked rfl) fun _ => ?_
      have hpush : Turns T Idle c m
          { g.filling idx with words := allWords rec, map := fun _ => none } { g.filling idx
            with words := allWords rec, map := fun _ => none, phase := .idle, free := .none }
          (freeSlot idx) :=
        turns_freeSlot hheld (Or.inl ⟨rfl, Or.inl rfl⟩)
          (.push
            (g :=
              { g.filling idx with words := allWords rec, map := fun _ => none, free := .cell idx })
            hheld rfl hrest.walk (Or.inl ⟨rfl, fun _ => rfl, hrest.extra⟩))
      refine Turns.then hpush fun _ => ?_
      refine Turns.then (turns_unlockMutex hlocks hrest.extra rfl) fun _ => follows_pure ?_
      exact ⟨rfl, rfl, Or.inl rfl, ⟨hrest.walk, hrest.dup, hrest.checked, rfl, rfl, hrest.extra,
        hrest.flipped, hrest.read⟩, rfl, rfl⟩

/-- `fm_core_insert_row`. -/
theorem follows_insertRow (hT : T.Sound) (hins : T.kinds .insert) (rec scratch : Image n W)
    (hphase : g.phase = .idle ∨ g.phase = .row) (hrest : Resting g)
    (hcommit : ∀ w i, T.commits c w (.publish i rec)) :
    Follows T Idle c m (insertRow T.cfg rec scratch)
      (fun _ g' => g'.phase = .idle ∧ Left g g') g := by
  refine Turns.then (turns_lockAnew _ hphase) fun _ => ?_
  have hrest' : Resting { g with locks := .mutex :: g.locks, phase := .idle } :=
    ⟨hrest.walk, hrest.dup, hrest.checked, hrest.free, hrest.chunk, hrest.extra,
      hrest.flipped, hrest.read⟩
  refine Follows.then (follows_allocSlot hT hins List.mem_cons_self rfl hrest') ?_
  intro idx g' hg'
  refine follows_ite (fun hnull => ?_) fun hnull => ?_
  · rw [if_pos hnull] at hg'
    obtain ⟨free, chunk, rfl⟩ := hg'
    refine Turns.then (turns_unlockMutex rfl hrest.extra (by simp [Phase.mutexed])) fun _ => ?_
    refine follows_look rfl fun cnt => follows_pure ⟨rfl, rfl, Or.inl rfl, ?_, rfl, rfl⟩
    exact ⟨hrest.walk, hrest.dup, hrest.checked, rfl, rfl, hrest.extra, hrest.flipped, hrest.read⟩
  · rw [if_neg hnull] at hg'
    subst hg'
    refine (follows_insertAt scratch rfl hrest' fun w => hcommit w idx).weaken ?_
    rintro r g' ⟨hp, hleft⟩
    exact ⟨hp, hleft.locks, hleft.phase, hleft.rest, hleft.since, hleft.read⟩

/-- The words of a slot the thread knows all about are those it knows. -/
theorem follows_copyOut_known (hT : T.Sound) {idx : Int} {img : Image n W} (js : List (Fin n))
    (buf : Image n W) (hphase : g.phase.knowing = true) (hslot : g.slot = idx)
    (hwords : g.words = allWords img) :
    Follows T Idle c m (copyOut idx js buf)
      (fun buf' g' => g' = g ∧ ∀ j, buf' j = if j ∈ js then img j else buf j) g := by
  induction js generalizing buf with
  | nil => exact follows_pure ⟨rfl, by simp⟩
  | cons j js ih =>
      refine follows_access fun w γ x s htrace hg _ hexec => ⟨g, .view (.look rfl (Or.inl rfl)), ?_⟩
      have hx : x = img j := by
        have hseen := (trace_images hT.1 hT.2 htrace).seen c.tid
        rw [hg] at hseen
        have hword := hseen.words hphase j (img j) (by rw [hwords]; rfl)
        rw [hslot] at hword
        simp only [exec, Option.some.injEq, Prod.mk.injEq] at hexec
        exact hexec.1.symm.trans hword
      subst hx
      refine (ih _).weaken ?_
      rintro buf' g' ⟨rfl, hbuf⟩
      refine ⟨rfl, fun j' => ?_⟩
      rw [hbuf j']
      by_cases hj : j' = j
      · subst hj
        simp
      · simp [hj]

/-- Taking a slot off its chains, key by key. -/
theorem turns_unlinkKeys {img : Image n W} {idx : Int} (ks : List Nat)
    (hphase : g.phase = .del) (hslot : g.slot = idx) (hwalk : g.walk = .none) (hdup : g.dup = .none)
    (hchecked : g.checked = []) (hnd : ks.Nodup)
    (hmap : g.map = linkedMap T.cfg img ks fun _ => none) :
    Turns T Idle c m g { g with map := fun _ => none } (unlinkKeys T.cfg img idx ks) := by
  induction ks generalizing g with
  | nil =>
      rw [linkedMap_nil] at hmap
      rw [← hmap]
      exact turns_pure
  | cons k ks ih =>
      obtain ⟨hk, hnd'⟩ := List.nodup_cons.mp hnd
      have hmapk : g.map k = some (T.cfg.keyBucket k img) := by
        rw [hmap]
        simp [linkedMap]
      refine (turns_lock _).bind fun _ => ?_
      refine Turns.bind (turns_chainUnlink List.mem_cons_self hslot hwalk (Or.inr (Or.inl hphase))
        hmapk) fun _ => ?_
      refine Turns.bind (turns_unlockBucket rfl hwalk) fun _ => ?_
      have hmap' : Function.update g.map k none = linkedMap T.cfg img ks fun _ => none := by
        rw [hmap]
        funext j
        by_cases hj : j = k
        · subst hj
          simp [linkedMap, hk]
        · simp [linkedMap, hj]
      refine Follows.at_role { g with map := Function.update g.map k none } ?_ ?_
      · rw [← hdup, ← hchecked]
      · exact ih (g := { g with map := Function.update g.map k none }) hphase hslot hwalk hdup
          hchecked hnd' hmap'

/-- What a delete does once it has marked its row. -/
theorem follows_deleteTail (hT : T.Sound) {idx : Int} {img : Image n W} (scratch : Image n W)
    (hphase : g.phase = .del) (hslot : g.slot = idx) (hwords : g.words = allWords img)
    (hmap : g.map = T.cfg.buckets img) (hrest : Resting g) :
    Follows T Idle c m (deleteTail T.cfg idx scratch)
      (fun _ g' => g'.phase = .idle ∧ Left g g' ∧ g'.marked = g.marked) g := by
  subst hslot
  refine Follows.then (follows_copyOut_known hT _ _ (by rw [hphase]; rfl) rfl hwords) ?_
  rintro buf g' ⟨rfl, hbuf⟩
  obtain rfl : buf = img := by
    funext j
    simpa using hbuf j
  have hmap' : g'.map = linkedMap T.cfg buf (List.range T.cfg.keys) fun _ => none := by
    rw [hmap]
    funext k
    simp [linkedMap, ShareCfg.buckets]
  refine Turns.then (turns_unlinkKeys (g := g') _ hphase rfl hrest.walk hrest.dup hrest.checked
    List.nodup_range hmap') fun _ => ?_
  refine Turns.then
    (turns_access fun _ _ _ _ => .slot (.bury (g := { g' with map := fun _ => none })
    hphase hrest.walk fun _ => rfl)) fun _ => ?_
  refine Turns.then (turns_access fun _ _ _ _ => .slot (.age
    (g := { g' with map := fun _ => none, phase := .dead }) rfl)) fun _ => ?_
  refine Turns.then (turns_access fun _ _ _ _ => .slot (.uncount
    (g := { g' with map := fun _ => none, phase := .aged }) rfl)) fun _ => ?_
  refine Turns.then (turns_lock _) fun _ => ?_
  have hpush : Turns T Idle c m
      { g' with map := fun _ => none, phase := .loose, locks := .mutex :: g'.locks }
      { g' with map := fun _ => none, phase := .idle, locks := .mutex :: g'.locks, free := .none }
      (freeSlot g'.slot) :=
    turns_freeSlot List.mem_cons_self (Or.inl ⟨rfl, Or.inr rfl⟩)
      (.push (g :=
          { g' with
            map := fun _ => none, phase := .loose, locks := .mutex :: g'.locks
            free := .cell g'.slot })
        List.mem_cons_self rfl hrest.walk (Or.inr rfl))
  refine Turns.then hpush fun _ => ?_
  refine Turns.then (turns_unlockMutex rfl hrest.extra rfl) fun _ => follows_pure ?_
  exact ⟨rfl, ⟨rfl, Or.inl rfl,
    ⟨hrest.walk, hrest.dup, hrest.checked, rfl, rfl, hrest.extra, hrest.flipped, hrest.read⟩, rfl,
      rfl⟩, rfl⟩

/-- A thread with a row is in the middle of nothing else. -/
theorem Resting.withRow (h : Resting g) (p : Phase) (i : Int) (gen : Option Nat)
    (words : Fin n → Option W) : Resting (g.withRow p i gen words) :=
  ⟨h.walk, h.dup, h.checked, h.free, h.chunk, h.extra, h.flipped, h.read⟩

/-- What a thread knows of the generation of its row is so. -/
theorem gen_eq_of_trace (hT : T.Sound) {w : World (coreSig n W PK) (Share n W) Op Out}
    {γ : Nat → Role n W} (h : T.Trace w γ) {t v : Nat} (hphase : (γ t).phase = .row)
    (hgen : (γ t).gen = some v) :
    w.mem.gen (γ t).slot = v :=
  ((trace_images hT.1 hT.2 h).seen t).gen (by rw [hphase]; rfl) v hgen

/-- `fm_core_delete_row`. -/
theorem follows_deleteRow (hT : T.Sound) (hdel : T.kinds .delete) (idx : Int) (v : Nat)
    (scratch : Image n W) (hphase : g.phase = .idle) (hrest : Resting g)
    (hcommit : ∀ w γ, T.Trace w γ → (γ c.tid).phase = .row → (γ c.tid).slot = idx →
      (γ c.tid).gen = some v →
      T.meets c (.storeState idx .deleting) w → T.commits c w (.mark idx)) :
    Follows T Idle c m (deleteRow T.cfg idx v scratch)
      (fun rc g' => g'.phase = .idle ∧ Left g g' ∧ (rc = .ok → g'.marked = some (idx, v))) g := by
  refine Turns.then (turns_lock _) fun _ => ?_
  refine Follows.then (follows_verifySlot v ⟨List.mem_cons_self, Or.inl hphase, hrest.read⟩) ?_
  rintro ok g₁ ⟨p, i, gen, words, rfl, hp, hok⟩
  refine follows_ite (fun hvalid => ?_) fun _ => ?_
  · obtain ⟨rfl, rfl, rfl⟩ := hok hvalid
    refine follows_access fun w γ _ _ htrace hg hmeets _ => ⟨_, .slot (.mark (g := Role.withRow
      { g with locks := .row i :: g.locks } .row i (some v) words) hdel rfl
      (hcommit w γ htrace (by rw [hg]; rfl) (by rw [hg]; rfl) (by rw [hg]; rfl) hmeets)), ?_⟩
    refine Turns.then (turns_unlockRow rfl (by simp)) fun _ => ?_
    refine Follows.weaken (follows_deleteTail hT scratch rfl rfl rfl rfl ?_) ?_
    · exact ⟨hrest.walk, hrest.dup, hrest.checked, hrest.free, hrest.chunk, hrest.extra,
        hrest.flipped, hrest.read⟩
    · rintro rc g' ⟨hg', hleft, hmarked⟩
      refine ⟨hg', ⟨hleft.locks, hleft.phase, hleft.rest, hleft.since, hleft.read⟩, fun _ =>
        hmarked.trans ?_⟩
      have hgen :=
        gen_eq_of_trace hT htrace (t := c.tid) (v := v) (by rw [hg]; rfl) (by rw [hg]; rfl)
      rw [hg] at hgen
      exact congrArg (fun v => some (i, v)) hgen
  · refine Turns.then (turns_unlockRow rfl ?_) fun _ => follows_pure ?_
    · rcases hp with rfl | rfl <;> simp [Role.withRow]
    · have hidle : (if p = .row then .idle else p) = Phase.idle := by
        rcases hp with rfl | rfl <;> rfl
      exact ⟨hidle, ⟨rfl, Or.inl hidle,
        ⟨hrest.walk, hrest.dup, hrest.checked, hrest.free, hrest.chunk, hrest.extra,
          hrest.flipped, hrest.read⟩,
        rfl, rfl⟩, by simp⟩

/-- The end of `fm_core_delete_row_locked`, for a row the thread has seen ACTIVE. -/
theorem follows_deleteLocked (hT : T.Sound) (hdel : T.kinds .delete) {idx : Int} {v : Nat}
    (scratch : Image n W) (hphase : g.phase = .row) (hslot : g.slot = idx) (hgen : g.gen = some v)
    (hrest : Resting g)
    (hcommit : ∀ w γ, T.Trace w γ → γ c.tid = g → T.meets c (.storeState idx .deleting) w →
      T.commits c w (.mark idx)) :
    Follows T Idle c m
      (access (.storeState idx .deleting) >>= fun _ => deleteTail T.cfg idx scratch)
      (fun _ g' => Left g g' ∧ g'.marked = some (idx, v)) g := by
  subst hslot
  refine follows_access fun w γ _ _ htrace hg hmeets _ =>
    ⟨_, .slot (.mark hdel hphase (hcommit w γ htrace hg hmeets)), ?_⟩
  refine Follows.weaken (follows_deleteTail hT scratch rfl rfl rfl rfl ?_) ?_
  · exact ⟨hrest.walk, hrest.dup, hrest.checked, hrest.free, hrest.chunk, hrest.extra,
      hrest.flipped, hrest.read⟩
  · rintro rc g' ⟨-, hleft, hmarked⟩
    refine ⟨⟨hleft.locks, hleft.phase, hleft.rest, hleft.since, hleft.read⟩, hmarked.trans ?_⟩
    have hv :=
      gen_eq_of_trace hT htrace (t := c.tid) (v := v) (by rw [hg, hphase]) (by rw [hg, hgen])
    rw [hg] at hv
    exact congrArg (fun v => some (g.slot, v)) hv

/-- `fm_core_delete_row_locked`. -/
theorem follows_deleteRowLocked (hT : T.Sound) (hdel : T.kinds .delete) (idx : Int) (v : Nat)
    (scratch : Image n W) (hrow : AtRow idx g) (hrest : Resting g)
    (hcommit : ∀ w γ, T.Trace w γ → (γ c.tid).phase = .row → (γ c.tid).slot = idx →
      (γ c.tid).gen = some v →
      T.meets c (.storeState idx .deleting) w → T.commits c w (.mark idx)) :
    Follows T Idle c m (deleteRowLocked T.cfg idx v scratch)
      (fun rc g' => Left g g' ∧ (rc = .ok → g'.marked = some (idx, v))) g := by
  refine Follows.then (follows_verifySlot v hrow) ?_
  rintro ok g₁ ⟨p, i, gen, words, rfl, hp, hok⟩
  refine follows_ite (fun hvalid => ?_) fun _ => ?_
  · obtain ⟨rfl, rfl, rfl⟩ := hok hvalid
    refine (follows_deleteLocked hT hdel scratch rfl rfl rfl (hrest.withRow _ _ _ _)
      fun w γ htrace hg hmeets =>
      hcommit w γ htrace (by rw [hg]; rfl) (by rw [hg]; rfl) (by rw [hg]; rfl) hmeets).weaken ?_
    rintro rc g' ⟨hleft, hmarked⟩
    exact ⟨⟨hleft.locks, hleft.phase, hleft.rest, hleft.since, hleft.read⟩, fun _ => hmarked⟩
  · exact follows_pure ⟨⟨rfl, hp, hrest.withRow _ _ _ _, rfl, rfl⟩, by simp⟩

/-- `fm_core_delete_row_locked` of a row the thread has already read. -/
theorem follows_deleteRowLocked_known (hT : T.Sound) (hdel : T.kinds .delete) (idx : Int) (v : Nat)
    (scratch : Image n W) (hphase : g.phase = .row) (hslot : g.slot = idx) (hgen : g.gen = some v)
    (hrest : Resting g)
    (hcommit : ∀ w γ, T.Trace w γ → γ c.tid = g → T.meets c (.storeState idx .deleting) w →
      T.commits c w (.mark idx)) :
    Follows T Idle c m (deleteRowLocked T.cfg idx v scratch)
      (fun rc g' => Left g g' ∧ (rc = .ok → g'.marked = some (idx, v))) g := by
  refine Turns.then (turns_verifySlot hrest.read idx v) fun ok =>
    follows_ite (fun _ => ?_) fun _ => ?_
  · exact (follows_deleteLocked hT hdel scratch hphase hslot hgen hrest hcommit).weaken fun _ _ h =>
      ⟨h.1, fun _ => h.2⟩
  · exact follows_pure ⟨⟨rfl, Or.inr hphase, hrest, rfl, rfl⟩, by simp⟩

/-- The acquire loop takes the distinct pairs, in order. -/
theorem turns_lockAll {H : List Lock} (us vs : List (Nat × Nat)) (prev : Option (Nat × Nat))
    (hlocks : g.locks = bucketLocks us ++ H) :
    Turns T Idle c m g { g with locks := bucketLocks (us ++ distinct prev vs) ++ H }
      (lockAll prev vs) := by
  induction vs generalizing us prev g with
  | nil =>
      rw [distinct, List.append_nil, ← hlocks]
      exact turns_pure
  | cons v vs ih =>
      unfold lockAll unlessSame
      by_cases hp : prev = some v
      · have hd : distinct prev (v :: vs) = distinct (some v) vs := by simp [distinct, hp]
        rw [hd]
        simp only [hp, if_true]
        exact Turns.bind turns_pure fun _ => ih us (some v) hlocks
      · have hd : us ++ distinct prev (v :: vs) = (us ++ [v]) ++ distinct (some v) vs := by
          simp [distinct, hp]
        rw [hd]
        simp only [hp, if_false]
        refine Turns.bind (turns_lock _) fun _ => ?_
        exact ih (g := { g with locks := .bucket v.1 v.2 :: g.locks }) (us ++ [v]) (some v)
          (by simp [bucketLocks, hlocks])

/-- The release loop gives back the pairs it finds, and forgets what was checked
under them. -/
theorem turns_unlockAll {H : List Lock} (vs : List (Nat × Nat))
    (hlocks : g.locks = (released vs).map (fun v => .bucket v.1 v.2) ++ H) (hwalk : g.walk = .none)
    (hsome : released vs ≠ [] ∨ g.dup = .none ∧ g.checked = []) :
    Turns T Idle c m g { g with locks := H, dup := .none, checked := [] } (unlockAll vs) := by
  induction vs generalizing g with
  | nil =>
      obtain ⟨hdup, hchecked⟩ := hsome.resolve_left fun h => h rfl
      have hlocks' : H = g.locks := by simp [hlocks, released]
      refine Follows.weaken turns_pure ?_
      rintro _ g' rfl
      rw [hlocks', ← hdup, ← hchecked]
  | cons v vs ih =>
      unfold unlockAll unlessSame
      by_cases hv : vs.head? = some v
      · simp only [released, hv, if_true] at hlocks hsome ⊢
        exact Turns.bind turns_pure fun _ => ih hlocks hwalk hsome
      · simp only [released, hv, if_false] at hlocks ⊢
        refine Turns.bind (turns_unlockBucket hlocks hwalk) fun _ => ?_
        exact ih (g := { g with
          locks := (released vs).map (fun v => .bucket v.1 v.2) ++ H, dup := .none, checked := [] })
          rfl hwalk (Or.inr ⟨rfl, rfl⟩)

/-- The locks of a key-changing update. -/
def updateLocks (cfg : ShareCfg n W PK) (old new : Image n W) (H : List Lock) : List Lock :=
  bucketLocks (distinct none (lockset cfg old new)) ++ H

/-- The locks of an update are those of the buckets it changes. -/
theorem mem_updateLocks {cfg : ShareCfg n W PK} {old new : Image n W} {H : List Lock} {k : Nat}
    (hk : k ∈ changedKeys cfg old new) :
    Lock.bucket k (cfg.keyBucket k old) ∈ updateLocks cfg old new H ∧
      Lock.bucket k (cfg.keyBucket k new) ∈ updateLocks cfg old new H := by
  have hpair : ∀ b, b = cfg.keyBucket k new ∨ b = cfg.keyBucket k old →
      Lock.bucket k b ∈ updateLocks cfg old new H := by
    intro b hb
    have hmem : (k, b) ∈ distinct none (lockset cfg old new) := by
      refine (mem_distinct ((mem_lockset cfg old new).mpr ⟨k, hk, ?_⟩)).resolve_right (by simp)
      rcases hb with rfl | rfl
      · exact Or.inl rfl
      · exact Or.inr rfl
    unfold updateLocks bucketLocks
    simp only [List.mem_append, List.mem_reverse, List.mem_map]
    exact Or.inl ⟨(k, b), hmem, rfl⟩
  exact ⟨hpair _ (Or.inr rfl), hpair _ (Or.inl rfl)⟩

/-- The lock set of an update is held once it is taken. -/
theorem turns_lockset (old new : Image n W) :
    Turns T Idle c m g { g with locks := updateLocks T.cfg old new g.locks }
      (lockAll none (lockset T.cfg old new)) := by
  have hnil : updateLocks T.cfg old new g.locks =
      bucketLocks ([] ++ distinct none (lockset T.cfg old new)) ++ g.locks := rfl
  rw [hnil]
  exact turns_lockAll [] _ none (by simp [bucketLocks])

/-- It is given back, and with it what was checked under it. -/
theorem turns_unlockset {old new : Image n W} {H : List Lock}
    (hlocks : g.locks = updateLocks T.cfg old new H) (hchanged : changedKeys T.cfg old new ≠ [])
    (hwalk : g.walk = .none) :
    Turns T Idle c m g { g with locks := H, dup := .none, checked := [] }
      (unlockAll (lockset T.cfg old new).reverse) := by
  refine turns_unlockAll _ ?_ hwalk (Or.inl ?_)
  · rw [hlocks, updateLocks, released_reverse, List.map_reverse, bucketLocks]
  · obtain ⟨k, hk⟩ := List.exists_mem_of_ne_nil _ hchanged
    rw [released_reverse]
    intro hnil
    have hmem := (mem_updateLocks (H := []) hk).1
    rw [List.reverse_eq_nil_iff] at hnil
    rw [updateLocks, hnil] at hmem
    simp [bucketLocks] at hmem

/-- The duplicate checks of an update, under the locks of its new buckets. -/
theorem follows_dupChecks {new : Image n W} (scratch : Image n W) (ks : List Nat)
    (hread : g.read = .none) (held : ∀ k ∈ ks, Lock.bucket k (T.cfg.keyBucket k new) ∈ g.locks) :
    Follows T Idle c m (dupChecks T.cfg new scratch ks) (fun stop g' =>
      ∃ dup checked, g' = { g with dup := dup, checked := checked } ∧ g.checked ⊆ checked ∧
        (stop = none → ∀ k ∈ ks, (T.cfg.keydef k).unique = true →
          (T.cfg.keydef k).ops.hasNullPart new = false → (k, new) ∈ checked)) g := by
  induction ks generalizing g with
  | nil => exact follows_pure ⟨g.dup, g.checked, rfl, List.Subset.refl _, by simp⟩
  | cons k ks ih =>
      refine Follows.then (follows_dupCheck scratch hread rfl (held k List.mem_cons_self)) ?_
      rintro rc g₁ ⟨dup, checked, rfl, hsub, hok⟩
      refine follows_ite (fun hrc => ?_) fun hrc => ?_
      · refine (ih (g := { g with dup := dup, checked := checked }) hread
          fun j hj => held j (List.mem_cons_of_mem _ hj)).weaken ?_
        rintro stop g' ⟨dup', checked', rfl, hsub', hall⟩
        refine ⟨dup', checked', rfl, fun x hx => hsub' (hsub hx), fun hstop j hj hu hn => ?_⟩
        rcases List.mem_cons.mp hj with rfl | hj
        · exact hsub' (hok hrc hu hn)
        · exact hall hstop j hj hu hn
      · exact follows_pure ⟨dup, checked, rfl, hsub, by simp⟩

/-- The chain moves of an update, when the chains are kept track of. -/
theorem turns_moveKeys {idx : Int} {old new : Image n W} (ks : List Nat) (hphase : g.phase = .move)
    (hslot : g.slot = idx) (hwalk : g.walk = .none) (htarget : g.target = some new)
    (hsome : ks ≠ []) (hnd : ks.Nodup) (hkeys : ∀ k ∈ ks, k < T.cfg.keys)
    (held : ∀ k ∈ ks, Lock.bucket k (T.cfg.keyBucket k old) ∈ g.locks ∧
      Lock.bucket k (T.cfg.keyBucket k new) ∈ g.locks)
    (hmap : ∀ k ∈ ks, g.map k = some (T.cfg.keyBucket k old))
    (hend : linkedMap T.cfg new ks g.map = T.cfg.buckets new) :
    Turns T Idle c m g { g with phase := .row, map := T.cfg.buckets new }
      (moveKeys T.cfg idx old new ks) := by
  induction ks generalizing g with
  | nil => exact absurd rfl hsome
  | cons k ks ih =>
      obtain ⟨hk, hnd'⟩ := List.nodup_cons.mp hnd
      obtain ⟨hold, hnew⟩ := held k List.mem_cons_self
      refine Turns.bind (turns_chainUnlink hold hslot hwalk (Or.inr (Or.inr hphase))
        (hmap k List.mem_cons_self)) fun _ => ?_
      have hupd : Function.update (Function.update g.map k none) k (some (T.cfg.keyBucket k new)) =
          Function.update g.map k (some (T.cfg.keyBucket k new)) := Function.update_idem _ _ _
      have hnone : Function.update g.map k none k = none := Function.update_self ..
      rw [← linkedMap_cons] at hend
      by_cases hks : ks = []
      · subst hks
        rw [linkedMap_nil] at hend
        refine Turns.bind
          (turns_chainLink (g := { g with map := Function.update g.map k none }) (p := .row) hnew
          hslot hwalk (Or.inr hphase) (hkeys k List.mem_cons_self) hnone
          (Or.inr ⟨hphase, rfl, new, htarget, hupd.trans hend⟩) (by simp [hphase])) fun _ => ?_
        refine Follows.weaken turns_pure ?_
        rintro _ g' rfl
        simp only [hupd, hend]
      · refine Turns.bind (turns_chainLink (g := { g with map := Function.update g.map k none })
          (p := .move) hnew
          hslot hwalk (Or.inr hphase) (hkeys k List.mem_cons_self) hnone (Or.inl hphase.symm)
          (by simp [hphase])) fun _ => ?_
        simp only [hupd]
        refine ih (g := { g with
          map := Function.update g.map k (some (T.cfg.keyBucket k new)), phase := .move }) rfl
            hslot hwalk htarget
          hks hnd' (fun j hj => hkeys j (List.mem_cons_of_mem _ hj))
          (fun j hj => held j (List.mem_cons_of_mem _ hj)) (fun j hj => ?_) hend
        have hjk : j ≠ k := by
          rintro rfl
          exact hk hj
        simpa [hjk] using hmap j (List.mem_cons_of_mem _ hj)

/-- The chain moves of an update, when nobody looks at the chains. -/
theorem turns_moveKeys_loose (hindex : ¬ T.kinds .index) (idx : Int) (old new : Image n W)
    (ks : List Nat) : Turns T Idle c m g g (moveKeys T.cfg idx old new ks) := by
  have hload : ∀ m k link, Turns T Idle c m g g (loadLink k link) := by
    intro m k link
    cases link <;> exact turns_look rfl
  have hstore : ∀ m k j link, Turns T Idle c m g g (storeLink k j link) := by
    intro m k j link
    cases link
    · exact turns_access fun _ _ _ _ => .chain (.looseHead hindex)
    · exact turns_access fun _ _ _ _ => .chain (.looseNext hindex)
  have hunlink : ∀ m k link, Turns T Idle c m g g (loop (.unlinkWalk k link idx)) := by
    intro m
    induction m using Nat.strong_induction_on with
    | _ m ih =>
        intro k link
        refine turns_enter fun m' hm' => (hload m' k link).bind fun h => turns_ite turns_pure ?_
        refine turns_ite ((turns_look rfl).bind fun nx => (hstore m' k nx link).bind
          fun _ => turns_pure) ?_
        exact ih m' hm' k _
  induction ks with
  | nil => exact turns_pure
  | cons k ks ih =>
      refine (hunlink m k _).bind fun _ => ?_
      have hlink : Turns T Idle c m g g (chainLink k (T.cfg.keyBucket k new) idx) := by
        refine (turns_look rfl).bind fun h => ?_
        exact (turns_access fun _ _ _ _ => .chain (.looseNext hindex)).bind fun _ =>
          turns_access fun _ _ _ _ => .chain (.looseHead hindex)
      exact hlink.bind fun _ => ih

/-- What keeping track of the chains takes: every changed key is moved, and the
others keep their buckets. -/
def Setting.Indexed (T : Setting n W PK Op Out) : Prop :=
  T.kinds .index → T.cfg.keys ≤ 64 ∧ HashRespects T.cfg

/-- An image rewritten in place. -/
theorem turns_writeInPlace (hT : T.Indexed) (hupd : T.kinds .update) {idx : Int}
    {old new : Image n W} (hphase : g.phase = .row) (hslot : g.slot = idx)
    (hchanged : changedKeys T.cfg old new = [])
    (hcommit : ∀ w γ, T.Trace w γ → γ c.tid = g → T.meets c (.addSeq idx) w →
      T.commits c w (.write idx old new)) (hpublish : ∀ w, T.commits c w (.publish idx new)) :
    Turns T Idle c m g { g with
        phase := .row, words := allWords new, target := some new, map := T.cfg.buckets old }
      (writeImage idx new) := by
  have hsame : T.kinds .index → ∀ k, k < T.cfg.keys →
      (T.cfg.keydef k).ops.cmpRecRec old new = 0 := by
    intro hindex k hk
    by_contra hne
    have hmem := (mem_changedKeys (hT hindex).1).mpr ⟨hk, hne⟩
    rw [hchanged] at hmem
    cases hmem
  refine turns_writeImage hupd hphase hslot hcommit hpublish
    (fun hindex k hk hne => absurd (hsame hindex k hk) hne)
    (fun hindex k hk hne => absurd (hsame hindex k hk) hne) (Or.inr ⟨rfl, fun hindex => ?_⟩)
  funext k
  unfold ShareCfg.buckets
  split
  · rename_i hk
    have hnot : k ∉ changedKeys T.cfg old new := by simp [hchanged]
    rw [keyBucket_eq_of_not_mem (hT hindex).1 (hT hindex).2 hk hnot]
  · rfl

/-- An image rewritten, and its slot moved from chain to chain. -/
theorem follows_writeMove (hT : T.Indexed) (hupd : T.kinds .update) {idx : Int}
    {old new : Image n W} {α : Type} {f : Core n W PK α} {Q : α → Role n W → Prop}
    (hphase : g.phase = .row) (hslot : g.slot = idx) (hwalk : g.walk = .none)
    (hchanged : changedKeys T.cfg old new ≠ [])
    (held : ∀ k ∈ changedKeys T.cfg old new, Lock.bucket k (T.cfg.keyBucket k old) ∈ g.locks ∧
      Lock.bucket k (T.cfg.keyBucket k new) ∈ g.locks)
    (hchecked : ∀ k ∈ changedKeys T.cfg old new, (T.cfg.keydef k).unique = true →
      (T.cfg.keydef k).ops.hasNullPart new = false → (k, new) ∈ g.checked)
    (hcommit : ∀ w γ, T.Trace w γ → γ c.tid = g → T.meets c (.addSeq idx) w →
      T.commits c w (.write idx old new)) (hpublish : ∀ w, T.commits c w (.publish idx new))
    (hf : ∀ map, Follows T Idle c m f Q { g with
      phase := .row, words := allWords new, target := some new, map := map }) :
    Follows T Idle c m (writeImage idx new >>= fun _ =>
      moveKeys T.cfg idx old new (changedKeys T.cfg old new) >>= fun _ => f) Q g := by
  have hmem : T.kinds .index → ∀ k, k < T.cfg.keys → (T.cfg.keydef k).ops.cmpRecRec old new ≠ 0 →
      k ∈ changedKeys T.cfg old new :=
    fun hindex k hk hne => (mem_changedKeys (hT hindex).1).mpr ⟨hk, hne⟩
  have hch : T.kinds .index → ∀ k, k < T.cfg.keys → (T.cfg.keydef k).ops.cmpRecRec old new ≠ 0 →
      (T.cfg.keydef k).unique = true → (T.cfg.keydef k).ops.hasNullPart new = false →
      (k, new) ∈ g.checked :=
    fun hindex k hk hne => hchecked k (hmem hindex k hk hne)
  have hlk : T.kinds .index → ∀ k, k < T.cfg.keys → (T.cfg.keydef k).ops.cmpRecRec old new ≠ 0 →
      Lock.bucket k (T.cfg.keyBucket k old) ∈ g.locks ∧
      Lock.bucket k (T.cfg.keyBucket k new) ∈ g.locks :=
    fun hindex k hk hne => held k (hmem hindex k hk hne)
  by_cases hindex : T.kinds .index
  · obtain ⟨hkeys, hhash⟩ := hT hindex
    refine Turns.then (turns_writeImage (p := .move) hupd hphase hslot hcommit hpublish hch hlk
      (Or.inl rfl)) fun _ => ?_
    have hend : linkedMap T.cfg new (changedKeys T.cfg old new) (T.cfg.buckets old) =
        T.cfg.buckets new := by
      funext k
      unfold linkedMap ShareCfg.buckets
      by_cases hk : k < T.cfg.keys
      · by_cases hmem : k ∈ changedKeys T.cfg old new
        · rw [if_pos hmem, if_pos hk]
        · rw [if_neg hmem, if_pos hk, if_pos hk, keyBucket_eq_of_not_mem hkeys hhash hk hmem]
      · have hmem : k ∉ changedKeys T.cfg old new := fun h => hk ((mem_changedKeys hkeys).mp h).1
        rw [if_neg hmem, if_neg hk, if_neg hk]
    refine Turns.then (turns_moveKeys (g := { g with
      phase := .move, words := allWords new, target := some new, map := T.cfg.buckets old }) _
        rfl hslot hwalk rfl
      hchanged (changedKeys_nodup hkeys) (fun k hk => ((mem_changedKeys hkeys).mp hk).1) held
      (fun k hk => ?_) hend) fun _ => hf _
    exact if_pos ((mem_changedKeys hkeys).mp hk).1
  · refine Turns.then (turns_writeImage (p := .row) hupd hphase hslot hcommit hpublish hch hlk
      (Or.inr ⟨rfl, fun h => absurd h hindex⟩)) fun _ => ?_
    exact Turns.then (turns_moveKeys_loose hindex idx old new _) fun _ => hf _

/-- `fm_core_update_row`. -/
theorem follows_updateRow (hT : T.Indexed) (hupd : T.kinds .update) (idx : Int) (v : Nat)
    (old new scratch : Image n W) (hphase : g.phase = .idle) (hrest : Resting g)
    (hcommit : ∀ w γ, T.Trace w γ → (γ c.tid).phase = .row → (γ c.tid).slot = idx →
      (γ c.tid).gen = some v → T.meets c (.addSeq idx) w → T.commits c w (.write idx old new))
    (hpublish : ∀ w, T.commits c w (.publish idx new)) :
    Follows T Idle c m (updateRow T.cfg idx v old new scratch)
      (fun _ g' => g'.phase = .idle ∧ Left g g') g := by
  -- how the row's wlock is given back
  have hrow : ∀ p : Phase, p = .idle ∨ p = .row →
      (p ≠ .write ∧ p ≠ .move) ∧ (if p = .row then .idle else p) = Phase.idle := by
    rintro p (rfl | rfl) <;> simp
  refine follows_ite (fun hchanged => ?_) fun hchanged => ?_
  · refine Turns.then (turns_lock _) fun _ => ?_
    refine Follows.then (follows_verifySlot v ⟨List.mem_cons_self, Or.inl hphase, hrest.read⟩) ?_
    rintro ok g₁ ⟨p, i, gen, words, rfl, hp, hok⟩
    refine follows_ite (fun hvalid => ?_) fun _ => ?_
    · obtain ⟨rfl, rfl, rfl⟩ := hok hvalid
      refine Turns.then (turns_writeInPlace hT hupd rfl rfl hchanged (fun w γ htrace hg hmeets =>
        hcommit w γ htrace (by rw [hg]; rfl) (by rw [hg]; rfl) (by rw [hg]; rfl) hmeets) hpublish)
          fun _ => ?_
      refine Turns.then (turns_unlockRow rfl (by simp)) fun _ => follows_pure ?_
      exact ⟨rfl, rfl, Or.inl rfl,
        ⟨hrest.walk, hrest.dup, hrest.checked, hrest.free, hrest.chunk, hrest.extra, hrest.flipped,
          hrest.read⟩, rfl, rfl⟩
    · refine Turns.then (turns_unlockRow rfl (hrow p hp).1) fun _ => follows_pure ?_
      exact ⟨(hrow p hp).2, rfl, Or.inl (hrow p hp).2,
        ⟨hrest.walk, hrest.dup, hrest.checked, hrest.free, hrest.chunk, hrest.extra, hrest.flipped,
          hrest.read⟩, rfl, rfl⟩
  · refine Turns.then (turns_lockset old new) fun _ => ?_
    refine Follows.then (follows_dupChecks scratch _ (by exact hrest.read) fun k hk =>
      (mem_updateLocks hk).2) ?_
    rintro stop g₁ ⟨dup, checked, rfl, -, hall⟩
    cases stop with
    | some k =>
        refine Turns.then (turns_unlockset rfl hchanged hrest.walk) fun _ => follows_pure ?_
        exact ⟨hphase, rfl, Or.inl hphase,
          ⟨hrest.walk, rfl, rfl, hrest.free, hrest.chunk, hrest.extra, hrest.flipped, hrest.read⟩,
          rfl, rfl⟩
    | none =>
        refine Turns.then (turns_lock _) fun _ => ?_
        refine Follows.then
          (follows_verifySlot v ⟨List.mem_cons_self, Or.inl hphase, hrest.read⟩) ?_
        rintro ok g₂ ⟨p, i, gen, words, rfl, hp, hok⟩
        refine follows_ite (fun hvalid => ?_) fun _ => ?_
        · obtain ⟨rfl, rfl, rfl⟩ := hok hvalid
          refine follows_writeMove hT hupd rfl rfl hrest.walk hchanged (fun k hk =>
            ⟨List.mem_cons_of_mem _ (mem_updateLocks hk).1,
              List.mem_cons_of_mem _ (mem_updateLocks hk).2⟩)
            (hall rfl) (fun w γ htrace hg hmeets =>
              hcommit w γ htrace (by rw [hg]; rfl) (by rw [hg]; rfl) (by rw [hg]; rfl) hmeets)
                hpublish fun map => ?_
          refine Turns.then (turns_unlockRow rfl (by simp)) fun _ => ?_
          refine Turns.then (turns_unlockset rfl hchanged hrest.walk) fun _ => follows_pure ?_
          exact ⟨rfl, rfl, Or.inl rfl,
            ⟨hrest.walk, rfl, rfl, hrest.free, hrest.chunk, hrest.extra, hrest.flipped, hrest.read⟩,
            rfl, rfl⟩
        · refine Turns.then (turns_unlockRow rfl (hrow p hp).1) fun _ => ?_
          refine Turns.then (turns_unlockset rfl hchanged hrest.walk) fun _ => follows_pure ?_
          exact ⟨(hrow p hp).2, rfl, Or.inl (hrow p hp).2,
            ⟨hrest.walk, rfl, rfl, hrest.free, hrest.chunk, hrest.extra, hrest.flipped, hrest.read⟩,
            rfl, rfl⟩

/-- `fm_core_update_row_locked`, once the row has been seen ACTIVE. -/
theorem follows_updateLocked (hT : T.Indexed) (hupd : T.kinds .update) {idx : Int}
    (old new scratch : Image n W) (hphase : g.phase = .row) (hslot : g.slot = idx)
    (hrest : Resting g)
    (hcommit : ∀ w γ, T.Trace w γ → (γ c.tid).phase = .row → (γ c.tid).slot = idx →
      (γ c.tid).gen = g.gen →
      (γ c.tid).words = g.words → T.meets c (.addSeq idx) w → T.commits c w (.write idx old new))
    (hpublish : ∀ w, T.commits c w (.publish idx new)) :
    Follows T Idle c m (if changedKeys T.cfg old new = [] then do
        writeImage idx new
        pure ⟨.ok, none, none⟩
      else do
        lockAll none (lockset T.cfg old new)
        let dup ← dupChecks T.cfg new scratch (changedKeys T.cfg old new)
        match dup with
        | some k =>
            unlockAll (lockset T.cfg old new).reverse
            pure ⟨.dupKey, none, some (k + 1)⟩
        | none =>
            writeImage idx new
            moveKeys T.cfg idx old new (changedKeys T.cfg old new)
            unlockAll (lockset T.cfg old new).reverse
            pure ⟨.ok, none, none⟩)
      (fun (_ : WriteResult) g' => Left g g') g := by
  refine follows_ite (fun hchanged => ?_) fun hchanged => ?_
  · refine Turns.then (turns_writeInPlace hT hupd hphase hslot hchanged (fun w γ htrace hg hmeets =>
      hcommit w γ htrace (by rw [hg, hphase]) (by rw [hg, hslot]) (by rw [hg]) (by rw [hg]) hmeets)
        hpublish)
      fun _ => follows_pure ?_
    exact ⟨rfl, Or.inr rfl,
      ⟨hrest.walk, hrest.dup, hrest.checked, hrest.free, hrest.chunk, hrest.extra, hrest.flipped,
        hrest.read⟩, rfl, rfl⟩
  · refine Turns.then (turns_lockset old new) fun _ => ?_
    refine Follows.then (follows_dupChecks scratch _ (by exact hrest.read) fun k hk =>
      (mem_updateLocks hk).2) ?_
    rintro stop g₁ ⟨dup, checked, rfl, -, hall⟩
    cases stop with
    | some k =>
        refine Turns.then (turns_unlockset rfl hchanged hrest.walk) fun _ => follows_pure ?_
        exact ⟨rfl, Or.inr hphase,
          ⟨hrest.walk, rfl, rfl, hrest.free, hrest.chunk, hrest.extra, hrest.flipped, hrest.read⟩,
          rfl, rfl⟩
    | none =>
        refine follows_writeMove hT hupd hphase hslot hrest.walk hchanged
          (fun k hk => mem_updateLocks hk) (hall rfl) (fun w γ htrace hg hmeets =>
            hcommit w γ htrace (by rw [hg]; exact hphase) (by rw [hg]; exact hslot) (by rw [hg])
              (by rw [hg]) hmeets)
          hpublish fun map => ?_
        refine Turns.then (turns_unlockset rfl hchanged hrest.walk) fun _ => follows_pure ?_
        exact ⟨rfl, Or.inr rfl,
          ⟨hrest.walk, rfl, rfl, hrest.free, hrest.chunk, hrest.extra, hrest.flipped, hrest.read⟩,
          rfl, rfl⟩

/-- `fm_core_update_row_locked`. -/
theorem follows_updateRowLocked (hT : T.Indexed) (hupd : T.kinds .update) (idx : Int) (v : Nat)
    (old new scratch : Image n W) (hrow : AtRow idx g) (hrest : Resting g)
    (hcommit : ∀ w γ, T.Trace w γ → (γ c.tid).phase = .row → (γ c.tid).slot = idx →
      (γ c.tid).gen = some v → T.meets c (.addSeq idx) w → T.commits c w (.write idx old new))
    (hpublish : ∀ w, T.commits c w (.publish idx new)) :
    Follows T Idle c m (updateRowLocked T.cfg idx v old new scratch) (fun _ g' => Left g g') g := by
  refine Follows.then (follows_verifySlot v hrow) ?_
  rintro ok g₁ ⟨p, i, gen, words, rfl, hp, hok⟩
  refine follows_ite (fun hvalid => ?_) fun _ => ?_
  · obtain ⟨rfl, rfl, rfl⟩ := hok hvalid
    refine (follows_updateLocked hT hupd old new scratch rfl rfl (hrest.withRow _ _ _ _)
      (fun w γ htrace hp hs hg _ hmeets => hcommit w γ htrace hp hs hg hmeets) hpublish).weaken ?_
    exact fun _ g' hleft => ⟨hleft.locks, hleft.phase, hleft.rest, hleft.since, hleft.read⟩
  · exact follows_pure ⟨rfl, hp, hrest.withRow _ _ _ _, rfl, rfl⟩

/-- `fm_core_update_row_locked` of a row the thread has already read. -/
theorem follows_updateRowLocked_known (hT : T.Indexed) (hupd : T.kinds .update)
    (idx : Int) (v : Nat) (old new scratch : Image n W) (hphase : g.phase = .row)
    (hslot : g.slot = idx) (hrest : Resting g)
    (hcommit : ∀ w γ, T.Trace w γ → (γ c.tid).phase = .row → (γ c.tid).slot = idx →
      (γ c.tid).gen = g.gen →
      (γ c.tid).words = g.words → T.meets c (.addSeq idx) w → T.commits c w (.write idx old new))
    (hpublish : ∀ w, T.commits c w (.publish idx new)) :
    Follows T Idle c m (updateRowLocked T.cfg idx v old new scratch) (fun _ g' => Left g g') g := by
  refine Turns.then (turns_verifySlot hrest.read idx v) fun ok =>
    follows_ite (fun _ => ?_) fun _ => ?_
  · exact follows_updateLocked hT hupd old new scratch hphase hslot hrest hcommit hpublish
  · exact follows_pure ⟨rfl, Or.inr hphase, hrest, rfl, rfl⟩

/-- A clear empties the buckets of a key. -/
theorem turns_clearBuckets (hclear : T.kinds .clear) (k : Nat) (bs : List Nat)
    (held : Lock.mutex ∈ g.locks) (hphase : g.phase = .idle)
    (hrest : Resting g) : Turns T Idle c m g g (clearBuckets k bs) := by
  induction bs with
  | nil => exact turns_pure
  | cons b bs ih =>
      refine (turns_lock _).bind fun _ => ?_
      refine Turns.bind
        (turns_access fun _ _ _ _ => .chain (.reset hclear (List.mem_cons_of_mem _ held)
        List.mem_cons_self hphase)) fun _ => ?_
      refine Turns.bind (turns_unlockBucket rfl hrest.walk) fun _ => ?_
      refine Follows.at_role g ?_ ih
      simp only
      rw [← hrest.dup, ← hrest.checked]

/-- It empties those of every key. -/
theorem turns_clearHeads (hclear : T.kinds .clear) (ks : List Nat) (held : Lock.mutex ∈ g.locks)
    (hphase : g.phase = .idle) (hrest : Resting g) : Turns T Idle c m g g
    (clearHeads T.cfg ks) := by
  induction ks with
  | nil => exact turns_pure
  | cons k ks ih => exact (turns_clearBuckets hclear k _ held hphase hrest).bind fun _ => ih

/-- The loop of a clear that flips the slots. -/
theorem turns_clearSlots (hT : T.Sound) (hclear : T.kinds .clear) {cnt : Nat} (is : List Nat)
    (hphase : g.phase = .flip) (hchunk : g.chunk = some cnt) (hnd : is.Nodup)
    (hlt : ∀ u ∈ is, u < slotCount cnt) (hnew : ∀ u ∈ is, i32 u ∉ g.flipped)
    (hcommit : ∀ w i, T.meets c (.storeState i .free) w → T.commits c w (.flip i)) :
    Turns T Idle c m g { g with flipped := (is.map i32).reverse ++ g.flipped } (clearSlots is) := by
  induction is generalizing g with
  | nil => exact turns_pure
  | cons u is ih =>
      obtain ⟨hu, hnd'⟩ := List.nodup_cons.mp hnd
      refine Turns.bind (turns_lock _) fun _ => ?_
      refine follows_access fun w γ _ _ htrace hg hmeets _ => ⟨_, .slot (.flip (g := { g with
        locks := .row (i32 u) :: g.locks }) hclear hphase List.mem_cons_self (hcommit w _ hmeets)
        (hnew u List.mem_cons_self) ?_), ?_⟩
      · have hcnt :=
          ((trace_slots hT.1 hT.2 htrace).mine c.tid).chunk cnt (by rw [hg]; exact hchunk)
        exact ⟨u, by rw [hcnt]; exact hlt u List.mem_cons_self, rfl⟩
      · refine Turns.then (turns_access fun _ _ _ _ => .slot (.flipGen (g := { g with
          locks := .row (i32 u) :: g.locks, flipped := i32 u :: g.flipped }) hphase
            List.mem_cons_self
          List.mem_cons_self)) fun _ => ?_
        refine Turns.then (turns_unlockRow rfl (by simp [hphase])) fun _ => ?_
        refine Follows.at_role { g with flipped := i32 u :: g.flipped } (by simp [hphase]) ?_
        have hmod : ∀ v ∈ u :: is, v < 2 ^ 32 := fun v hv =>
          (hlt v hv).trans (Nat.mod_lt _ (by decide))
        refine (ih (g := { g with flipped := i32 u :: g.flipped }) hphase hchunk hnd'
          (fun v hv => hlt v (List.mem_cons_of_mem _ hv)) fun v hv hmem => ?_).weaken ?_
        · rcases List.mem_cons.mp hmem with heq | hmem
          · have hvu := i32_inj (hmod v (List.mem_cons_of_mem _ hv)) (hmod u List.mem_cons_self) heq
            rw [hvu] at hv
            exact hu hv
          · exact hnew v (List.mem_cons_of_mem _ hv) hmem
        · rintro _ g' rfl
          simp

/-- `fm_core_clear`. -/
theorem follows_clear (hT : T.Sound) (hclear : T.kinds .clear)
    (hphase : g.phase = .idle ∨ g.phase = .row) (hrest : Resting g)
    (hcommit : ∀ w i, T.meets c (.storeState i .free) w → T.commits c w (.flip i)) :
    Follows T Idle c m (clear T.cfg) (fun _ g' => g'.phase = .idle ∧ Left g g') g := by
  refine Turns.then (turns_lockAnew _ hphase) fun _ => ?_
  have hrest' : Resting { g with locks := .mutex :: g.locks, phase := .idle } :=
    ⟨hrest.walk, hrest.dup, hrest.checked, hrest.free, hrest.chunk, hrest.extra,
      hrest.flipped, hrest.read⟩
  refine Turns.then (turns_clearHeads hclear _ List.mem_cons_self rfl hrest') fun _ => ?_
  refine follows_step
    (fun _ _ _ _ =>
      .slot (.begin (g := { g with locks := .mutex :: g.locks, phase := .idle }) hclear
    List.mem_cons_self rfl hrest.extra)) fun cnt => ?_
  refine Turns.then (turns_clearSlots (g := { g with
    locks := .mutex :: g.locks, phase := .flip, chunk := some cnt, flipped := [] }) hT hclear
    (List.range (slotCount cnt)) rfl rfl List.nodup_range (fun u => List.mem_range.mp) (by simp)
      hcommit) fun _ => ?_
  have hall : ∀ u, u < slotCount cnt →
      i32 u ∈ ((List.range (slotCount cnt)).map i32).reverse ++ [] := by
    intro u hu
    simp only [List.append_nil, List.mem_reverse, List.mem_map, List.mem_range]
    exact ⟨u, hu, rfl⟩
  refine Turns.then (turns_access fun _ _ _ _ => .free (.reset (g := { g with
    locks := .mutex :: g.locks, phase := .flip, chunk := some cnt,
    flipped := ((List.range (slotCount cnt)).map i32).reverse ++ [] }) hclear
      List.mem_cons_self rfl hrest.extra
    rfl hall)) fun _ => ?_
  refine Turns.then (turns_rebuildFree (List.range (slotCount cnt)) List.mem_cons_self rfl ?_)
    fun _ => ?_
  · simp
  refine Turns.then (turns_access fun _ _ _ _ => .slot (.zero (g := { g with
    locks := .mutex :: g.locks, phase := .rebuild, chunk := some cnt, flipped := [],
      extra := [], free := .none })
    rfl rfl)) fun _ => ?_
  refine Turns.weaken_to (turns_unlockMutex rfl rfl rfl) ?_
  exact fun _ => ⟨rfl, rfl, Or.inl rfl, ⟨hrest.walk, hrest.dup, hrest.checked, rfl, rfl, rfl, rfl,
    hrest.read⟩, rfl, rfl⟩

/-- What a setting must provide for a call that reads slot `i`, and goes on from a load of its
generation only if this is the one it expects, if it expects one. -/
structure Setting.Reads (T : Setting n W PK Op Out) (c : Call Op) (expect : Option Nat)
    (i : Int) : Prop where
  read : ∀ w, T.commits c w (.read i)
  agree : ∀ w, T.meets c (.loadSeq i) w → T.commits c w (.agree i)
  check : ∀ w, T.meets c (.loadGen i) w → (∀ v, expect = some v → w.mem.gen i = v) →
    T.commits c w (.check i)

/-- What a read that returns a row has seen. -/
def Delivered (idx : Int) (cg : Bool) (v start : Nat) (buf : Image n W) (r : ReadView n W) : Prop :=
  ∃ m g₀ checked, r = .got idx m g₀ checked buf ∧ start ≤ m ∧ (cg = true → checked = some v)

/-- A step does not change when its call began. -/
theorem Step.since_eq {C : Commit n W → Prop} {K : Kind → Prop} {cfg : ShareCfg n W PK}
    {now : Nat} {s : Share n W} {a : Act n W} {r : a.Res}
    (h : Step cfg K C now s g a r g') : g'.since = g.since := by
  cases h with
  | chain h => cases h <;> simp only [Role.walkTo] <;> (try split) <;> (try split) <;> rfl
  | dup h => cases h <;> simp only [Role.checkTo] <;> (try split) <;> rfl
  | lock h | view h | free h | grow h | slot h | image h | read h | note h => cases h <;> rfl

/-- No call starts in the future. -/
theorem trace_since {w : World (coreSig n W PK) (Share n W) Op Out} {γ : Nat → Role n W}
    (h : T.Trace w γ) : ∀ t, (γ t).since ≤ w.now := by
  induction h with
  | init => exact fun t => Nat.zero_le _
  | @start w γ t _ ih =>
      rw [Function.forall_update_iff γ fun _ g => g.since ≤ w.now]
      exact ⟨Nat.le_refl _, fun u _ => ih u⟩
  | @act w γ c a r s g _ _ _ hstep ih =>
      rw [World.push_now, Function.forall_update_iff γ fun _ g => g.since ≤ w.now + 1]
      refine ⟨?_, fun u _ => (ih u).trans (Nat.le_succ _)⟩
      rw [hstep.since_eq]
      exact (ih c.tid).trans (Nat.le_succ _)
  | stop _ _ ih => exact ih

/-- `fm_core_read_row`, by a thread that notes that it has seen the slot ACTIVE. -/
theorem follows_readRow_seen (hread : g.read = .none) (idx : Int) (cg : Bool) (v : Nat)
    (buf : Image n W) : Follows T Idle c m (readRow idx cg v buf)
      (fun x g' => ∃ o, g' = { g with seen := o } ∧ (x.1 = .ok → o = some idx)) g := by
  induction m using Nat.strong_induction_on generalizing g buf with
  | _ m ih =>
      refine Logic.Safe.enter fun m' hm' => ?_
      -- the rest of a round that has seen the slot ACTIVE
      have hcopy : Follows T Idle c m' (readRowCopy idx cg v buf)
          (fun x g' => ∃ o, g' = { g with seen := o } ∧ (x.1 = .ok → o = some idx))
          { g with seen := some idx } := by
        refine follows_peek rfl hread fun s₁ => follows_ite (fun _ => ?_) fun _ => ?_
        · exact ih m' hm' (g := { g with seen := some idx }) hread buf
        refine Turns.then (turns_copyOut_look idx _ buf) fun buf' =>
          follows_peek rfl hread fun s₂ => ?_
        refine follows_ite (fun _ => ?_) fun _ => follows_pure ⟨_, rfl, fun _ => rfl⟩
        exact ih m' hm' (g := { g with seen := some idx }) hread buf'
      show Follows T Idle c m' (readRowBody idx cg v buf) _ g
      refine follows_access fun w γ st _ _ _ _ _ => ?_
      by_cases hst : st = .active
      · subst hst
        refine ⟨{ g with seen := some idx }, .note (.see hread),
          follows_ite (fun h => absurd rfl h) fun _ => ?_⟩
        refine follows_ite (fun _ => ?_) fun _ => hcopy
        exact follows_look rfl fun r => follows_ite (fun _ => follows_pure ⟨_, rfl, nofun⟩)
          fun _ => hcopy
      · refine ⟨g, .view (.look rfl (Or.inr hread)),
          follows_ite (fun _ => ?_) fun h => absurd (not_not.mp h) hst⟩
        exact follows_pure ⟨g.seen, rfl, nofun⟩

/-- `fm_core_read_row`, with the steps of its successful round. -/
theorem follows_readRow_read (idx : Int) (cg : Bool) (v : Nat) (buf : Image n W)
    {expect : Option Nat} (hreads : T.Reads c expect idx)
    (hexpect : cg = true → ∀ u, expect = some u → u = v) :
    Follows T Idle c m (readRow idx cg v buf) (fun x g' => ∃ r, g' = { g with read := r } ∧
      if x.1 = .ok then Delivered idx cg v g.since x.2 r else r = .none) g := by
  induction m using Nat.strong_induction_on generalizing g buf with
  | _ m ih =>
      refine Logic.Safe.enter fun m' hm' => ?_
      have hretry : ∀ r buf', Follows T Idle c m' (readRow idx cg v buf') (fun x g' =>
          ∃ r, g' = { g with read := r } ∧
            if x.1 = .ok then Delivered idx cg v g.since x.2 r else r = .none)
          { g with read := r } :=
        fun r buf' => ih m' hm' (g := { g with read := r }) buf'
      have hcopy : ∀ m₀ g₀ checked, g.since ≤ m₀ → (cg = true → checked = some v) →
          Follows T Idle c m' (readRowCopy idx cg v buf) (fun x g' =>
            ∃ r, g' = { g with read := r } ∧
              if x.1 = .ok then Delivered idx cg v g.since x.2 r else r = .none)
            { g with read := .stated idx m₀ g₀ checked } := by
        intro m₀ g₀ checked hm₀ hchecked
        refine follows_access fun w γ s₁ _ _ _ _ _ => ?_
        by_cases hodd : s₁ % 2 = 1
        · exact ⟨_, .read (.miss rfl), follows_ite (fun _ => hretry _ _) fun h => absurd hodd h⟩
        refine ⟨_, .read (.seq (g := { g with read := .stated idx m₀ g₀ checked }) rfl hodd),
          follows_ite (fun h => absurd h hodd) fun _ => ?_⟩
        refine Follows.then (follows_copyOut_all
          (fun words => { g with read := .sampled idx m₀ g₀ checked s₁ w.now words }) buf _
          fun _ _ _ words _ _ => .read (.word (g := { g with
            read := .sampled idx m₀ g₀ checked s₁ w.now words }) rfl)) ?_
        rintro buf' g' rfl
        refine follows_access fun w' γ' s₂ _ _ _ hmeets _ => ?_
        by_cases hs : s₂ = s₁
        · subst hs
          refine ⟨_, .read (.done (g := { g with
            read := .sampled idx m₀ g₀ checked s₂ w.now (allWords buf') }) rfl
              (hreads.agree w' hmeets)), ?_⟩
          refine follows_ite (fun h => absurd rfl h) fun _ => follows_pure ⟨_, rfl, ?_⟩
          rw [if_pos rfl]
          exact ⟨m₀, g₀, checked, rfl, hm₀, hchecked⟩
        · exact ⟨_, .read (.miss rfl), follows_ite (fun _ => hretry _ _) fun h => absurd hs h⟩
      show Follows T Idle c m' (readRowBody idx cg v buf) _ g
      refine follows_access fun w γ st _ htrace hg _ _ => ?_
      by_cases hst : st = .active
      · subst hst
        refine ⟨_, .read (.state (hreads.read w)), follows_ite (fun h => absurd rfl h) fun _ => ?_⟩
        have hnow : g.since ≤ w.now := hg ▸ trace_since htrace c.tid
        refine follows_ite (fun hcg => ?_) fun hcg => hcopy _ _ none hnow fun h => absurd h hcg
        refine follows_access fun w' _ r _ _ _ hmeets hexec => ?_
        by_cases hr : r = v
        · refine ⟨_,
            .read (.gen (g := { g with read := .stated idx w.now (w.mem.gen idx) none }) rfl
            (hreads.check w' hmeets fun u hu => ?_)), ?_⟩
          · simp only [exec, Option.some.injEq, Prod.mk.injEq] at hexec
            rw [hexec.1, hr, hexpect hcg u hu]
          exact follows_ite (fun h => absurd hr h) fun _ => hcopy _ _ (some r) hnow
            fun _ => congrArg some hr
        · refine ⟨_, .read (.miss rfl),
            follows_ite (fun _ => follows_pure ⟨_, rfl, ?_⟩) fun h => absurd hr h⟩
          rw [if_neg (by simp)]
      · exact ⟨_, .read (.miss rfl), follows_ite (fun _ => follows_pure ⟨_, rfl, by simp⟩) fun h =>
          absurd (not_not.mp h) hst⟩

end FastMem
