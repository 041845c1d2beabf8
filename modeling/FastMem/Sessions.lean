import FastMem.CoreSystem
import FastMem.Operations

/-!
# Threads that call the core follow the protocol

A thread that calls the functions of the core, in any order its sessions allow, is at
rest between calls: in the middle of nothing, with the wlock of the row it has locked
and no other lock, and with what it has re-read of that row still known.  So every
run of such threads has a trace, and the invariants of traces are invariants of runs.

What a setting has to provide is collected in `Serves`: which classes of calls it
allows, and what it knows when a row is made, rewritten or marked.
-/

namespace FastMem

open Conc

variable {n : Nat} {W PK : Type}

/-- A setting whose calls are those of the core. -/
abbrev CoreSetting (n : Nat) (W PK : Type) := Setting n W PK (CoreOp n W PK) (CoreOut n W)

/-- The role of a thread between calls. -/
structure AtRest (l : Session n W) (g : Role n W) : Prop where
  rest : Resting { g with read := .none }
  locks : g.locks = (l.held.map Lock.row).toList
  phase : g.phase = .idle ∨ g.phase = .row ∧ l.held ≠ none
  seen : ∀ v img, l.seen = some (v, img) →
    g.phase = .row ∧ l.held = some g.slot ∧ g.gen = some v ∧ g.words = allWords img

/-- What the role of a thread says when one of its calls returns. -/
structure Ended (c : Call (CoreOp n W PK)) (out : CoreOut n W) (g : Role n W) : Prop where
  since : g.since = c.start
  read : g.read.slot = none
  row : ∀ idx cg v b buf, c.op = .readRow idx cg v b → out = .row .ok buf →
    Delivered idx cg v c.start buf g.read
  deleted : ∀ idx v b, c.op = .deleteRow idx v b ∨ c.op = .deleteRowLocked idx v b →
    out = .code .ok → g.marked = some (idx, v)

/-- What a setting must provide for the calls that `may` allows. -/
structure Serves (T : CoreSetting n W PK) (may : CoreOp n W PK → Session n W → Bool) : Prop where
  indexed : T.Indexed
  insertRow : ∀ rec b l, may (.insertRow rec b) l = true → l.held = none ∧ T.Sound ∧
    T.kinds .insert ∧ ∀ t st w i, T.commits ⟨t, .insertRow rec b, st⟩ w (.publish i rec)
  updateRow : ∀ idx v old new b l, may (.updateRow idx v old new b) l = true → l.held = none ∧
    T.kinds .update ∧
    (∀ t st w, T.commits ⟨t, .updateRow idx v old new b, st⟩ w (.publish idx new)) ∧
    ∀ t st w γ, T.Trace w γ → (γ t).phase = .row → (γ t).slot = idx → (γ t).gen = some v →
      T.meets ⟨t, .updateRow idx v old new b, st⟩ (.addSeq idx) w →
      T.commits ⟨t, .updateRow idx v old new b, st⟩ w (.write idx old new)
  deleteRow : ∀ idx v b l, may (.deleteRow idx v b) l = true → l.held = none ∧ T.Sound ∧
    T.kinds .delete ∧
    ∀ t st w γ, T.Trace w γ → (γ t).phase = .row → (γ t).slot = idx → (γ t).gen = some v →
      T.meets ⟨t, .deleteRow idx v b, st⟩ (.storeState idx .deleting) w →
      T.commits ⟨t, .deleteRow idx v b, st⟩ w (.mark idx)
  clear : ∀ l, may .clear l = true → l.held = none ∧ T.Sound ∧ T.kinds .clear ∧
    ∀ t st w i, T.meets ⟨t, .clear, st⟩ (.storeState i .free) w →
    T.commits ⟨t, .clear, st⟩ w (.flip i)
  readRow : ∀ idx cg v b l, may (.readRow idx cg v b) l = true →
    ∀ t st, T.Reads ⟨t, .readRow idx cg v b, st⟩ (some v) idx
  lockRow : ∀ idx l, may (.lockRow idx) l = true → l.held = none
  reread : ∀ idx b l, may (.reread idx b) l = true → l.held = some idx
  updateRowLocked : ∀ idx v old new b l, may (.updateRowLocked idx v old new b) l = true →
    l.held = some idx ∧ T.kinds .update ∧
    (∀ t st w, T.commits ⟨t, .updateRowLocked idx v old new b, st⟩ w (.publish idx new)) ∧
    ∀ t st w γ, T.Trace w γ → (γ t).phase = .row → (γ t).slot = idx →
      (∀ v' img, l.seen = some (v', img) → (γ t).gen = some v' ∧ (γ t).words = allWords img) →
      T.meets ⟨t, .updateRowLocked idx v old new b, st⟩ (.addSeq idx) w →
      T.commits ⟨t, .updateRowLocked idx v old new b, st⟩ w (.write idx old new)
  deleteRowLocked : ∀ idx v b l, may (.deleteRowLocked idx v b) l = true →
    l.held = some idx ∧ T.Sound ∧ T.kinds .delete ∧ (∀ v' img, l.seen = some (v', img) → v' = v) ∧
    ∀ t st w γ, T.Trace w γ → (γ t).phase = .row → (γ t).slot = idx → (γ t).gen = some v →
      (∀ v' img, l.seen = some (v', img) → (γ t).words = allWords img) →
      T.meets ⟨t, .deleteRowLocked idx v b, st⟩ (.storeState idx .deleting) w →
      T.commits ⟨t, .deleteRowLocked idx v b, st⟩ w (.mark idx)
  unlockRow : ∀ idx l, may (.unlockRow idx) l = true → l.held = some idx
  returns : ∀ c out g, Ended c out g → T.returns c out g

variable {T : CoreSetting n W PK} {may : CoreOp n W PK → Session n W → Bool} {l : Session n W}
  {g g' : Role n W} {t st m : Nat}

/-- A thread between its calls is in the middle of nothing. -/
theorem AtRest.resting (h : AtRest l g) (hread : g.read = .none) : Resting g :=
  ⟨h.rest.walk, h.rest.dup, h.rest.checked, h.rest.free, h.rest.chunk, h.rest.extra,
    h.rest.flipped, hread⟩

/-- It is idle, or has its row locked. -/
theorem AtRest.phase_eq (h : AtRest l g) : g.phase = .idle ∨ g.phase = .row :=
  h.phase.imp_right And.left

theorem Resting.atRest (h : Resting g) : Resting { g with read := .none } :=
  ⟨h.walk, h.dup, h.checked, h.free, h.chunk, h.extra, h.flipped, rfl⟩

/-- It is idle if its client holds no row. -/
theorem AtRest.idle (h : AtRest l g) (hl : l.held = none) : g.phase = .idle :=
  h.phase.resolve_right fun hp => hp.2 hl

/-- It is at its row if the client holds one. -/
theorem AtRest.atRow {idx : Int} (h : AtRest l g) (hl : l.held = some idx)
    (hread : g.read = .none) : AtRow idx g := by
  refine ⟨?_, h.phase.imp_right And.left, hread⟩
  rw [h.locks, hl]
  simp

/-- An operation that has left a thread in the middle of nothing leaves it at rest. -/
theorem Left.atRest {held : Option Int} (h : Left g g') (hrest : AtRest l g) (hl : l.held = held)
    (hphase : held = none → g'.phase = .idle) : AtRest ⟨held, none⟩ g' := by
  refine ⟨h.rest.atRest, by rw [h.locks, hrest.locks, hl], ?_, by simp⟩
  cases held with
  | none => exact Or.inl (hphase rfl)
  | some i => exact h.phase.imp_right fun hp => ⟨hp, by simp⟩

/-- A call that neither reads for its caller nor deletes. -/
theorem Ended.plain {o : CoreOp n W PK} {out : CoreOut n W} (hsince : g.since = st)
    (hread : g.read = .none) (hrow : ∀ idx cg v b, o ≠ .readRow idx cg v b)
    (hdel : ∀ idx v b, o ≠ .deleteRow idx v b ∧ o ≠ .deleteRowLocked idx v b) :
    Ended ⟨t, o, st⟩ out g := by
  refine ⟨hsince, by rw [hread]; rfl, fun idx cg v b _ ho => absurd ho (hrow idx cg v b),
    fun idx v b ho => ?_⟩
  rcases ho with ho | ho
  · exact absurd ho (hdel idx v b).1
  · exact absurd ho (hdel idx v b).2

/-- A call that leaves the role as it was, but for what was checked under a lock. -/
theorem AtRest.unchecked (h : AtRest l g) : AtRest l g.unchecked :=
  ⟨⟨h.rest.walk, rfl, rfl, h.rest.free, h.rest.chunk, h.rest.extra, h.rest.flipped, rfl⟩,
    h.locks, h.phase, h.seen⟩

/-- Locks and phase do not matter for that. -/
theorem AtRest.rest_of (h : AtRest l g) (locks : List Lock) (phase : Phase) :
    Resting { g with locks := locks, phase := phase, read := .none } :=
  ⟨h.rest.walk, h.rest.dup, h.rest.checked, h.rest.free, h.rest.chunk, h.rest.extra,
    h.rest.flipped, rfl⟩

/-- A session that holds no row has seen none. -/
theorem AtRest.session (h : AtRest l g) (hl : l.held = none) : l = ⟨none, none⟩ := by
  obtain ⟨held, seen⟩ := l
  simp only at hl
  subst hl
  cases seen with
  | none => rfl
  | some x => exact absurd (h.seen x.1 x.2 rfl).2.1 (by simp)

/-- An insert follows the protocol. -/
theorem follows_code_insertRow (hT : Serves T may) {rec b : Image n W}
    (hmay : may (.insertRow rec b) l = true) (hrest : AtRest l g) (hsince : g.since = st)
    (hread : g.read = .none) :
    Follows T AtRest ⟨t, .insertRow rec b, st⟩ m ((CoreOp.insertRow rec b).code T.cfg l)
      (fun x g' => T.returns ⟨t, .insertRow rec b, st⟩ x.1 g' ∧ AtRest x.2 g') g := by
  obtain ⟨hl, hsound, hkind, hcommit⟩ := hT.insertRow rec b l hmay
  refine Follows.then (follows_insertRow hsound hkind rec b (Or.inl (hrest.idle hl))
    (hrest.resting hread) (hcommit t st)) ?_
  rintro r g' ⟨hphase, hleft⟩
  refine follows_pure ⟨hT.returns _ _ _ (.plain (hleft.since.trans hsince) (hleft.read.trans hread)
    (by simp) (by simp)), ?_⟩
  rw [hrest.session hl]
  exact hleft.atRest hrest hl fun _ => hphase

theorem follows_code_updateRow (hT : Serves T may) {idx : Int} {v : Nat} {old new b : Image n W}
    (hmay : may (.updateRow idx v old new b) l = true)
    (hrest : AtRest l g) (hsince : g.since = st) (hread : g.read = .none) :
    Follows T AtRest ⟨t, .updateRow idx v old new b, st⟩ m
      ((CoreOp.updateRow idx v old new b).code T.cfg l)
      (fun x g' => T.returns ⟨t, .updateRow idx v old new b, st⟩ x.1 g' ∧ AtRest x.2 g') g := by
  obtain ⟨hl, hkind, hpublish, hcommit⟩ := hT.updateRow idx v old new b l hmay
  refine Follows.then (follows_updateRow hT.indexed hkind idx v old new b (hrest.idle hl)
    (hrest.resting hread) (hcommit t st) (hpublish t st)) ?_
  rintro r g' ⟨hphase, hleft⟩
  refine follows_pure ⟨hT.returns _ _ _ (.plain (hleft.since.trans hsince) (hleft.read.trans hread)
    (by simp) (by simp)), ?_⟩
  rw [hrest.session hl]
  exact hleft.atRest hrest hl fun _ => hphase

theorem follows_code_deleteRow (hT : Serves T may) {idx : Int} {v : Nat} {b : Image n W}
    (hmay : may (.deleteRow idx v b) l = true)
    (hrest : AtRest l g) (hsince : g.since = st) (hread : g.read = .none) :
    Follows T AtRest ⟨t, .deleteRow idx v b, st⟩ m ((CoreOp.deleteRow idx v b).code T.cfg l)
      (fun x g' => T.returns ⟨t, .deleteRow idx v b, st⟩ x.1 g' ∧ AtRest x.2 g') g := by
  obtain ⟨hl, hsound, hkind, hcommit⟩ := hT.deleteRow idx v b l hmay
  refine Follows.then (follows_deleteRow hsound hkind idx v b (hrest.idle hl) (hrest.resting hread)
    (hcommit t st)) ?_
  rintro rc g' ⟨hphase, hleft, hmarked⟩
  refine follows_pure
    ⟨hT.returns _ _ _ ⟨hleft.since.trans hsince, by rw [hleft.read, hread]; rfl, by simp, ?_⟩, ?_⟩
  · rintro idx' v' b' ho hout
    simp only [CoreOp.deleteRow.injEq, reduceCtorEq, or_false] at ho
    obtain ⟨rfl, rfl, -⟩ := ho
    cases hout
    exact hmarked rfl
  · rw [hrest.session hl]
    exact hleft.atRest hrest hl fun _ => hphase

theorem follows_code_clear (hT : Serves T may) (hmay : may .clear l = true)
    (hrest : AtRest l g) (hsince : g.since = st) (hread : g.read = .none) :
    Follows T AtRest ⟨t, .clear, st⟩ m (CoreOp.clear.code T.cfg l)
      (fun x g' => T.returns ⟨t, .clear, st⟩ x.1 g' ∧ AtRest x.2 g') g := by
  obtain ⟨hl, hsound, hkind, hcommit⟩ := hT.clear l hmay
  refine Follows.then (follows_clear hsound hkind (Or.inl (hrest.idle hl)) (hrest.resting hread)
    (hcommit t st)) ?_
  rintro r g' ⟨hphase, hleft⟩
  refine follows_pure ⟨hT.returns _ _ _ (.plain (hleft.since.trans hsince) (hleft.read.trans hread)
    (by simp) (by simp)), ?_⟩
  rw [hrest.session hl]
  exact hleft.atRest hrest hl fun _ => hphase

theorem follows_code_readRow (hT : Serves T may) {idx : Int} {cg : Bool} {v : Nat} {b : Image n W}
    (hmay : may (.readRow idx cg v b) l = true)
    (hrest : AtRest l g) (hsince : g.since = st) :
    Follows T AtRest ⟨t, .readRow idx cg v b, st⟩ m ((CoreOp.readRow idx cg v b).code T.cfg l)
      (fun x g' => T.returns ⟨t, .readRow idx cg v b, st⟩ x.1 g' ∧ AtRest x.2 g') g := by
  refine Follows.then (follows_readRow_read idx cg v b (hT.readRow idx cg v b l hmay t st)
    fun _ _ => by simp [eq_comm]) ?_
  rintro ⟨rc, buf⟩ g' ⟨r, rfl, hr⟩
  refine follows_pure ⟨hT.returns _ _ _ ⟨hsince, ?_, ?_, by simp⟩, hrest.rest, hrest.locks,
    hrest.phase, hrest.seen⟩
  · by_cases hrc : rc = .ok
    · rw [if_pos hrc] at hr
      obtain ⟨_, _, _, rfl, -⟩ := hr
      rfl
    · rw [if_neg hrc] at hr
      rw [hr]
      rfl
  · rintro idx' cg' v' b' buf' ho hout
    cases ho
    cases hout
    rw [if_pos rfl, hsince] at hr
    exact hr

theorem follows_code_reread (hT : Serves T may) {idx : Int} {b : Image n W}
    (hmay : may (.reread idx b) l = true)
    (hrest : AtRest l g) (hsince : g.since = st) (hread : g.read = .none) :
    Follows T AtRest ⟨t, .reread idx b, st⟩ m ((CoreOp.reread idx b).code T.cfg l)
      (fun x g' => T.returns ⟨t, .reread idx b, st⟩ x.1 g' ∧ AtRest x.2 g') g := by
  have hl := hT.reread idx b l hmay
  refine follows_look rfl fun v => ?_
  refine Follows.then (follows_readRow_row true v b (hrest.atRow hl hread)) ?_
  rintro ⟨rc, img⟩ g' ⟨p, i, gen, words, rfl, hp, hok⟩
  refine follows_pure ⟨hT.returns _ _ _ (.plain hsince hread (by simp) (by simp)), ?_⟩
  refine ⟨hrest.rest.withRow p i gen words, hrest.locks,
    hp.imp_right fun hp => ⟨hp, by simp [hl]⟩, ?_⟩
  intro v' img' hseen
  by_cases hrc : rc = .ok
  · obtain ⟨hp, hi, hgen, hwords⟩ := hok hrc
    simp only [hrc, if_true, Option.some.injEq, Prod.mk.injEq] at hseen
    obtain ⟨rfl, rfl⟩ := hseen
    exact ⟨hp, by rw [show (g.withRow p i gen words).slot = i from rfl, hi, hl], hgen rfl, hwords⟩
  · simp [hrc] at hseen

theorem follows_code_updateRowLocked (hT : Serves T may) {idx : Int} {v : Nat}
    {old new b : Image n W} (hmay : may (.updateRowLocked idx v old new b) l = true)
    (hrest : AtRest l g) (hsince : g.since = st) (hread : g.read = .none) :
    Follows T AtRest ⟨t, .updateRowLocked idx v old new b, st⟩ m
      ((CoreOp.updateRowLocked idx v old new b).code T.cfg l)
      (fun x g' => T.returns ⟨t, .updateRowLocked idx v old new b, st⟩ x.1 g' ∧
        AtRest x.2 g') g := by
  obtain ⟨hl, hkind, hpublish, hcommit⟩ := hT.updateRowLocked idx v old new b l hmay
  have hupd : Follows T AtRest ⟨t, .updateRowLocked idx v old new b, st⟩ m
      (FastMem.updateRowLocked T.cfg idx v old new b) (fun _ g' => Left g g') g := by
    cases hseen : l.seen with
    | none =>
        refine follows_updateRowLocked hT.indexed hkind idx v old new b (hrest.atRow hl hread)
          (hrest.resting hread) (fun w γ htrace hp hs _ hmeets =>
            hcommit t st w γ htrace hp hs ?_ hmeets)
          (hpublish t st)
        rw [hseen]
        simp
    | some x =>
        obtain ⟨hphase, hslot, hgen, hwords⟩ := hrest.seen x.1 x.2 hseen
        have hi : g.slot = idx := Option.some.inj (hslot.symm.trans hl)
        refine follows_updateRowLocked_known hT.indexed hkind idx v old new b hphase hi
          (hrest.resting hread)
          (fun w γ htrace hp hs hg hw hmeets => hcommit t st w γ htrace hp hs ?_ hmeets)
          (hpublish t st)
        intro v' img hx
        rw [hseen] at hx
        cases hx
        exact ⟨hg.trans hgen, hw.trans hwords⟩
  refine Follows.then hupd ?_
  intro r g' hleft
  refine follows_pure ⟨hT.returns _ _ _ (.plain (hleft.since.trans hsince) (hleft.read.trans hread)
    (by simp) (by simp)), ?_⟩
  exact hleft.atRest hrest rfl (by simp [hl])

theorem follows_code_deleteRowLocked (hT : Serves T may) {idx : Int} {v : Nat} {b : Image n W}
    (hmay : may (.deleteRowLocked idx v b) l = true)
    (hrest : AtRest l g) (hsince : g.since = st) (hread : g.read = .none) :
    Follows T AtRest ⟨t, .deleteRowLocked idx v b, st⟩ m
      ((CoreOp.deleteRowLocked idx v b).code T.cfg l)
      (fun x g' => T.returns ⟨t, .deleteRowLocked idx v b, st⟩ x.1 g' ∧ AtRest x.2 g') g := by
  obtain ⟨hl, hsound, hkind, hgenv, hcommit⟩ := hT.deleteRowLocked idx v b l hmay
  have hdel : Follows T AtRest ⟨t, .deleteRowLocked idx v b, st⟩ m
      (FastMem.deleteRowLocked T.cfg idx v b)
      (fun rc g' => Left g g' ∧ (rc = .ok → g'.marked = some (idx, v))) g := by
    cases hseen : l.seen with
    | none =>
        refine follows_deleteRowLocked hsound hkind idx v b (hrest.atRow hl hread)
          (hrest.resting hread) fun w γ htrace hp hs hg hmeets =>
            hcommit t st w γ htrace hp hs hg ?_ hmeets
        rw [hseen]
        simp
    | some x =>
        obtain ⟨hphase, hslot, hgen, hwords⟩ := hrest.seen x.1 x.2 hseen
        have hi : g.slot = idx := Option.some.inj (hslot.symm.trans hl)
        have hv : x.1 = v := hgenv x.1 x.2 hseen
        rw [hv] at hgen
        refine follows_deleteRowLocked_known hsound hkind idx v b hphase hi hgen
          (hrest.resting hread)
          fun w γ htrace hg hmeets => hcommit t st w γ htrace (by rw [hg, hphase]) (by rw [hg, hi])
            (by rw [hg, hgen]) ?_ hmeets
        intro v' img hx
        rw [hseen] at hx
        cases hx
        rw [hg]
        exact hwords
  refine Follows.then hdel ?_
  rintro rc g' ⟨hleft, hmarked⟩
  refine follows_pure
    ⟨hT.returns _ _ _ ⟨hleft.since.trans hsince, by rw [hleft.read, hread]; rfl, by simp, ?_⟩, ?_⟩
  · rintro idx' v' b' ho hout
    simp only [CoreOp.deleteRowLocked.injEq, reduceCtorEq, false_or] at ho
    obtain ⟨rfl, rfl, -⟩ := ho
    cases hout
    exact hmarked rfl
  · exact hleft.atRest hrest rfl (by simp [hl])

/-- **Every call follows the protocol** and leaves its thread at rest. -/
theorem follows_code (hT : Serves T may) (o : CoreOp n W PK) (hmay : may o l = true)
    (hrest : AtRest l g) (hsince : g.since = st) (hread : g.read = .none) :
    Follows T AtRest ⟨t, o, st⟩ m (o.code T.cfg l)
      (fun x g' => T.returns ⟨t, o, st⟩ x.1 g' ∧ AtRest x.2 g') g := by
  cases o with
  | insertRow rec b => exact follows_code_insertRow hT hmay hrest hsince hread
  | updateRow idx v old new b => exact follows_code_updateRow hT hmay hrest hsince hread
  | deleteRow idx v b => exact follows_code_deleteRow hT hmay hrest hsince hread
  | clear => exact follows_code_clear hT hmay hrest hsince hread
  | find key pk b =>
      refine Turns.then (turns_find key pk b hrest.rest.walk hread) fun r =>
        follows_pure ⟨?_, hrest.unchecked⟩
      exact hT.returns _ _ _ (.plain hsince hread (by simp) (by simp))
  | findNext key pk cur b =>
      refine Turns.then (turns_findNext key pk cur b hrest.rest.walk hread) fun r =>
        follows_pure ⟨?_, hrest.unchecked⟩
      exact hT.returns _ _ _ (.plain hsince hread (by simp) (by simp))
  | readRow idx cg v b => exact follows_code_readRow hT hmay hrest hsince
  | scanNext pos b =>
      refine Turns.then (turns_scanNext hread pos b) fun r => follows_pure ⟨?_, hrest⟩
      exact hT.returns _ _ _ (.plain hsince hread (by simp) (by simp))
  | lockRow idx =>
      have hl := hT.lockRow idx l hmay
      have hlocks : g.locks = [] := by
        rw [hrest.locks, hl]
        rfl
      refine Turns.then (turns_lock _) fun _ => follows_pure ⟨?_, ?_⟩
      · exact hT.returns _ _ _ (.plain hsince hread (by simp) (by simp))
      · refine ⟨hrest.rest_of _ _, ?_, Or.inl (hrest.idle hl), by simp⟩
        simp [hlocks]
  | reread idx b => exact follows_code_reread hT hmay hrest hsince hread
  | updateRowLocked idx v old new b => exact follows_code_updateRowLocked hT hmay hrest hsince hread
  | deleteRowLocked idx v b => exact follows_code_deleteRowLocked hT hmay hrest hsince hread
  | unlockRow idx =>
      have hl := hT.unlockRow idx l hmay
      have hlocks : g.locks = [.row idx] := by
        rw [hrest.locks, hl]
        rfl
      have hphase : (g.phase ≠ .write ∧ g.phase ≠ .move) ∧
          (if g.phase = .row then .idle else g.phase) = Phase.idle := by
        rcases hrest.phase with hp | ⟨hp, -⟩ <;> simp [hp]
      refine Turns.then (turns_unlockRow hlocks hphase.1) fun _ => follows_pure ⟨?_, ?_⟩
      · exact hT.returns _ _ _ (.plain hsince hread (by simp) (by simp))
      · exact ⟨hrest.rest_of _ _, rfl, Or.inl hphase.2, by simp [Session.empty]⟩

/-- **Every run of threads that call the core has a trace.** -/
theorem Serves.trace (hT : Serves T may)
    {c : Config (coreSig n W PK) (Share n W) (CoreOp n W PK) (Session n W) (CoreOut n W)}
    (h : (coreSystem T.cfg may).Reach T.meets (System.start T.share fun _ => Session.empty) c) :
    ∃ γ, T.Trace c.world γ ∧ ∀ t l, c.thr t = .idle l → AtRest l (γ t) := by
  have hinit : AtRest Session.empty (Role.init : Role n W) :=
    ⟨⟨rfl, rfl, rfl, rfl, rfl, rfl, rfl, rfl⟩, rfl, Or.inl rfl, by simp [Session.empty]⟩
  have hcalls : ∀ t o l w γ m, T.Trace w γ → AtRest l (γ t) → may o l = true →
      Follows T AtRest ⟨t, o, w.now⟩ m (o.code T.cfg l)
        (fun x g => T.returns ⟨t, o, w.now⟩ x.1 g ∧ AtRest x.2 g)
        { γ t
          with since := w.now, read := .none, marked := none, seen := none, pinned := none } := by
    intro t o l w γ m _ hrest hmay
    refine follows_code hT o hmay ⟨?_, hrest.locks, hrest.phase, hrest.seen⟩ rfl rfl
    exact ⟨hrest.rest.walk, hrest.rest.dup, hrest.rest.checked, hrest.rest.free, hrest.rest.chunk,
      hrest.rest.extra, hrest.rest.flipped, rfl⟩
  obtain ⟨γ, htrace, hfits⟩ := System.reach_trace (fun _ => hinit) hcalls h 0
  refine ⟨γ, htrace, fun t l hthr => ?_⟩
  have := hfits t
  rw [hthr] at this
  exact this

end FastMem
