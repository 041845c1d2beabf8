import FastMem.Reads
import FastMem.Sessions

/-!
# In-place updates are linearizable

Threads that only update rows and read them, on a share that starts with every lock
free and every sequence number even, whatever else it holds.  Nobody changes the
state of a slot then, so a slot that is ACTIVE stays ACTIVE.

The sequence number of a slot is odd exactly while one thread, which owns the slot's
wlock, is inside `fm_core_write_image`; so a read whose two samples agree has copied
an image that was the slot's complete image at the moment of its second sample.
-/

namespace FastMem

open Conc

variable {n : Nat} {W PK Op Out : Type} {cfg : ShareCfg n W PK} {K : Kind → Prop}
  {G : Commit n W → Prop} {now t : Nat} {s : Share n W} {g g' : Role n W}
  {a : Act n W} {r : a.Res} {γ : Nat → Role n W} {w : CoreWorld n W PK Op Out} {c : Call Op}

/-- The phases of an update. -/
@[grind =] def Phase.updating (p : Phase) : Bool := p = .idle || p = .row || p = .write || p = .move

/-- A thread that updates goes on updating. -/
theorem Step.updating (hK : ∀ k, K k → k = .update) (h : Step cfg K G now s g a r g')
    (hg : g.phase.updating = true) : g'.phase.updating = true := by
  cases h with
  | lock h => cases h <;> grind
  | view h => cases h <;> grind
  | free h => cases h <;> grind
  | grow h => cases h <;> grind
  | slot h => cases h <;> grind
  | image h => cases h <;> grind
  | chain h => cases h <;> grind
  | dup h => cases h <;> grind
  | read h => cases h <;> grind
  | note h => cases h <;> grind

/-- A share at rest: every lock is free, every sequence number even. -/
structure Settled (s : Share n W) : Prop where
  owner : ∀ l, s.owner l = none
  even : ∀ i, s.seq i % 2 = 0
  bound : ∀ i, s.seq i < 2 ^ 32

/-- A setting in which threads update rows of a settled share and do nothing else. -/
structure Setting.Updates (T : Setting n W PK Op Out) : Prop where
  kinds : ∀ k, T.kinds k → k = .update
  settled : Settled T.share

variable {T : Setting n W PK Op Out}

/-- All threads of such a run update or read. -/
theorem trace_updating (hT : T.Updates) (h : T.Trace w γ) : ∀ t, (γ t).phase.updating = true := by
  induction h with
  | init => exact fun _ => rfl
  | @start w γ t _ ih =>
      rw [Function.forall_update_iff γ fun _ g => g.phase.updating = true]
      exact ⟨ih t, fun u _ => ih u⟩
  | @act w γ c a r s g _ _ _ hstep ih =>
      rw [Function.forall_update_iff γ fun _ g => g.phase.updating = true]
      exact ⟨hstep.updating hT.kinds (ih c.tid), fun u _ => ih u⟩
  | stop _ _ ih => exact ih

/-- Sequence numbers are odd exactly while an image is being written. -/
theorem trace_updates (hT : T.Updates) (h : T.Trace w γ) : Images w.mem γ := by
  induction h with
  | init =>
      refine ⟨fun t => ⟨by simp [Role.init], by simp [Role.init]⟩, fun i => ?_, hT.settled.bound⟩
      simp [hT.settled.even i, Role.init]
  | @start w γ t _ ih =>
      exact ih.dull ⟨⟨(ih.seen t).words, (ih.seen t).gen⟩, Iff.rfl, fun _ => rfl⟩ rfl rfl rfl
  | @act w γ c a r s g before _ hexec hstep ih =>
      have hl := trace_locked hT.settled.owner before
      have hphase := trace_updating hT before
      have hp := hphase c.tid
      refine ih.step_of hl ?_ ?_ ?_ hexec hstep
      · intro hk u hu hk' heq
        have hlock := (hl.ok u).rowed (by have := hphase u; grind)
        rw [heq] at hlock
        exact hu (hl.eq hlock ((hl.ok c.tid).rowed (by grind)))
      · intro hgrow
        cases hgrow with
        | initSlots kind => exact absurd (hT.kinds _ kind) (by simp)
        | initNext kind => exact absurd (hT.kinds _ kind) (by simp)
        | publish kind => exact absurd (hT.kinds _ kind) (by simp)
      · intro hslot
        have hdelete : ¬ T.kinds .delete := fun hk => absurd (hT.kinds _ hk) (by simp)
        have hclear : ¬ T.kinds .clear := fun hk => absurd (hT.kinds _ hk) (by simp)
        exfalso
        cases hslot <;> grind
  | stop _ _ ih => exact ih

/-- Updates leave the slots of a read where they are. -/
theorem Setting.Updates.leavesReads (hT : T.Updates) : T.LeavesReads where
  bound := fun _ _ h => (trace_updates hT h).bound
  store := by
    intro w γ c r g i j x t h _ hstep _
    rw [(trace_updates hT h).odd i]
    refine ⟨c.tid, ?_⟩
    have hp := trace_updating hT h c.tid
    obtain ⟨hslot, hphase⟩ := hstep.storeWord
    exact ⟨by grind, hslot⟩
  init := by
    intro w γ c r g k i t _ hstep _
    exact absurd (hT.kinds _ hstep.initSlots.1) (by simp)

/-- How often thread `t` has bumped the sequence number of slot `i`. -/
def bumps (t : Nat) (i : Int) : List (CoreEntry n W PK Op) → Nat
  | [] => 0
  | e :: es =>
      match e.act with
      | .addSeq j => (if e.call.tid = t ∧ j = i then 1 else 0) + bumps t i es
      | _ => bumps t i es

/-- Thread `t` is inside `fm_core_write_image` of slot `i`: it has bumped the sequence
number and not yet bumped it back to even. -/
def InsideWriteImage (w : CoreWorld n W PK Op Out) (t : Nat) (i : Int) : Prop :=
  bumps t i w.past % 2 = 1

/-- Only a bump of the sequence number begins or ends an image write. -/
theorem inside_push_of_ne {a : Act n W} {u : Nat} {i : Int} (hne : a ≠ .addSeq i ∨ u ≠ c.tid)
    (s : Share n W) : InsideWriteImage (w.push c a s) u i ↔ InsideWriteImage w u i := by
  unfold InsideWriteImage
  cases a with
  | addSeq j =>
      have hnot : ¬ (c.tid = u ∧ j = i) := by
        rintro ⟨rfl, rfl⟩
        rcases hne with hne | hne <;> exact hne rfl
      simp only [World.push_past, bumps]
      rw [if_neg hnot, Nat.zero_add]
  | _ => rfl

/-- A step that neither begins nor ends an image write. -/
structure BesideWrites (g : Role n W) (a : Act n W) (g' : Role n W) : Prop where
  act : ∀ i, a ≠ .addSeq i
  phase : g'.phase = .write ↔ g.phase = .write
  slot : g.phase = .write → g'.slot = g.slot

/-- A load is beside the image writes. -/
theorem besideWrites_passive (ha : a.passive = true) : BesideWrites g a g := by
  refine ⟨fun i h => ?_, Iff.rfl, fun _ => rfl⟩
  rw [h] at ha
  cases ha

theorem LockStep.besideWrites (h : LockStep g a r g') : BesideWrites g a g' := by
  cases h with
  | lockAnew l phase => exact ⟨nofun, by simp [phase], fun _ => rfl⟩
  | unlockRow held quiet =>
      refine ⟨nofun, ?_, fun _ => rfl⟩
      by_cases hrow : g.phase = .row
      · simp [hrow]
      · simp [hrow]
  | _ => exact ⟨nofun, Iff.rfl, fun _ => rfl⟩

theorem ViewStep.besideWrites (h : ViewStep g a r g') : BesideWrites g a g' := by
  cases h with
  | look passive => exact besideWrites_passive passive
  | active held phase =>
      refine ⟨nofun, ?_, fun h => ?_⟩
      · rcases phase with phase | phase <;> simp [phase]
      · rcases phase with phase | phase <;> rw [phase] at h <;> cases h
  | _ => exact ⟨nofun, Iff.rfl, fun _ => rfl⟩

theorem FreeStep.besideWrites (h : FreeStep K g a r g') : BesideWrites g a g' := by
  cases h with
  | pop kind held free some_slot phase extra =>
      exact ⟨nofun, by simp [phase], fun h => by rw [phase] at h; cases h⟩
  | push held free walk phase =>
      refine ⟨nofun, ?_, fun _ => rfl⟩
      rcases phase with ⟨phase, -⟩ | phase <;> simp [phase]
  | reset kind held phase => exact ⟨nofun, by simp [phase], fun _ => rfl⟩
  | _ => exact ⟨nofun, Iff.rfl, fun _ => rfl⟩

theorem GrowStep.besideWrites (h : GrowStep cfg K g a r g') : BesideWrites g a g' := by
  cases h with
  | publish kind held chunk free phase =>
      exact ⟨nofun, by simp [phase], fun h => by rw [phase] at h; cases h⟩
  | _ => exact ⟨nofun, Iff.rfl, fun _ => rfl⟩

theorem SlotStep.besideWrites (h : SlotStep cfg K G s g a r g') : BesideWrites g a g' := by
  cases h with
  | publish phase | count phase | mark kind phase | bury phase | age phase | uncount phase
  | begin kind held phase | zero phase => exact ⟨nofun, by simp [phase], fun _ => rfl⟩
  | _ => exact ⟨nofun, Iff.rfl, fun _ => rfl⟩

theorem ChainStep.besideWrites (h : ChainStep cfg K g a r g') : BesideWrites g a g' := by
  cases h with
  | enter | next => refine ⟨nofun, ?_, ?_⟩ <;> grind
  | join walk after =>
      refine ⟨nofun, ?_, fun _ => rfl⟩
      rcases after with rfl | ⟨phase, rfl, -⟩
      · exact Iff.rfl
      · simp [phase]
  | _ => exact ⟨nofun, Iff.rfl, fun _ => rfl⟩

theorem DupStep.besideWrites (h : DupStep cfg g a r g') : BesideWrites g a g' := by
  cases h with
  | enter | next => refine ⟨nofun, ?_, ?_⟩ <;> grind
  | _ => exact ⟨nofun, Iff.rfl, fun _ => rfl⟩

/-- What a step does to the image write a thread may be in. -/
theorem Step.writing (h : Step cfg K G now s g a r g') :
    a = .addSeq g.slot ∧ g'.slot = g.slot ∧ (g'.phase = .write ↔ g.phase ≠ .write) ∨
    BesideWrites g a g' := by
  cases h with
  | image h =>
      cases h with
      | begin kind phase => exact Or.inl ⟨rfl, rfl, by simp [phase]⟩
      | finish phase target words commit after =>
          refine Or.inl ⟨rfl, rfl, ?_⟩
          rcases after with rfl | ⟨rfl, -⟩ <;> simp [phase]
      | _ => exact Or.inr ⟨nofun, Iff.rfl, fun _ => rfl⟩
  | lock h => exact Or.inr h.besideWrites
  | view h => exact Or.inr h.besideWrites
  | free h => exact Or.inr h.besideWrites
  | grow h => exact Or.inr h.besideWrites
  | slot h => exact Or.inr h.besideWrites
  | chain h => exact Or.inr h.besideWrites
  | dup h => exact Or.inr h.besideWrites
  | read h =>
      right
      cases h with
      | miss passive => exact { besideWrites_passive passive with }
      | _ => exact ⟨nofun, Iff.rfl, fun _ => rfl⟩
  | note h =>
      right
      cases h with
      | see => exact ⟨nofun, Iff.rfl, fun _ => rfl⟩
      | pin held phase =>
          refine ⟨nofun, ?_, fun h => ?_⟩
          · rcases phase with phase | phase <;> simp [phase]
          · rcases phase with phase | phase <;> rw [phase] at h <;> cases h

/-- A thread is inside an image write exactly when its role says so. -/
theorem trace_inside (h : T.Trace w γ) :
    ∀ t i, InsideWriteImage w t i ↔ (γ t).phase = .write ∧ (γ t).slot = i := by
  induction h with
  | init => simp [InsideWriteImage, bumps, Role.init]
  | @start w γ t _ ih =>
      rw [Function.forall_update_iff γ fun u g => ∀ i, InsideWriteImage w u i ↔
        g.phase = .write ∧ g.slot = i]
      exact ⟨ih t, fun u _ => ih u⟩
  | @act w γ c a r s g _ _ _ hstep ih =>
      rw [Function.forall_update_iff γ fun u g =>
        ∀ i, InsideWriteImage (w.push c a s) u i ↔ g.phase = .write ∧ g.slot = i]
      refine ⟨fun i => ?_, fun u hu i => (inside_push_of_ne (Or.inr hu) s).trans (ih u i)⟩
      rcases hstep.writing with ⟨rfl, hslot, hphase⟩ | ⟨hne, hphase, hslot⟩
      · by_cases hi : (γ c.tid).slot = i
        · subst hi
          have hbump : InsideWriteImage (w.push c (.addSeq (γ c.tid).slot) s) c.tid (γ c.tid).slot ↔
              ¬ InsideWriteImage w c.tid (γ c.tid).slot := by
            unfold InsideWriteImage
            simp only [World.push_past, bumps, and_self, if_true]
            omega
          rw [hbump, ih, hphase, hslot]
          simp
        · rw [inside_push_of_ne (Or.inl (by simpa using hi)), ih, hslot]
          simp [hi]
      · rw [inside_push_of_ne (Or.inl (hne i)), ih, hphase]
        constructor
        · rintro ⟨hp, hs⟩
          exact ⟨hp, (hslot hp).trans hs⟩
        · rintro ⟨hp, hs⟩
          exact ⟨hp, (hslot hp).symm.trans hs⟩
  | stop _ _ ih => exact ih

/-- **A sequence number is odd exactly while one thread that owns the slot's wlock is
inside an image write.** -/
theorem Setting.Updates.odd_iff (hT : T.Updates) (h : T.Trace w γ) (i : Int) :
    w.mem.seq i % 2 = 1 ↔ ∃! t, w.mem.wlock i = some t ∧ InsideWriteImage w t i := by
  have hl := trace_locked hT.settled.owner h
  rw [(trace_updates hT h).odd i]
  constructor
  · rintro ⟨t, hp, hs⟩
    have hheld := (hl.ok t).rowed (by grind)
    have howner : w.mem.wlock i = some t := by
      rw [hs] at hheld
      exact (hl.owner (.row i) t).mpr hheld
    refine ⟨t, ⟨howner, (trace_inside h t i).mpr ⟨hp, hs⟩⟩, ?_⟩
    rintro u ⟨hu, -⟩
    exact Option.some.inj (hu.symm.trans howner)
  · rintro ⟨t, ⟨-, hinside⟩, -⟩
    exact ⟨t, (trace_inside h t i).mp hinside⟩

/-- What a returned read delivered was so at some moment of the call. -/
theorem trace_delivered {T : CoreSetting n W PK}
    {w : CoreWorld n W PK (CoreOp n W PK) (CoreOut n W)}
    {R : Int → Nat → Option Nat → Image n W → Share n W → Prop}
    (hreturns : ∀ c out g, T.returns c out g → Ended c out g)
    (hdone : ∀ w γ c i m g₀ checked m₁ buf, T.Trace w γ → T.meets c (.loadSeq i) w →
      T.commits c w (.agree i) →
      (γ c.tid).read = .sampled i m g₀ checked (w.mem.seq i) m₁ (allWords buf) →
      During w m w.now (R i g₀ checked buf))
    (hafter : ∀ w γ c i m g₀ checked buf, T.Trace w γ → T.meets c (.loadGen i) w →
      T.commits c w (.check i) →
      (γ c.tid).read = .got i m g₀ checked buf → During w m w.now (R i g₀ checked buf) →
      During w m w.now (R i g₀ (some (w.mem.gen i)) buf)) (h : T.Trace w γ) :
    ∀ ev ∈ w.log, ev.stop ≤ w.now ∧ ∀ idx cg v b buf, ev.call.op = .readRow idx cg v b →
    ev.out = .row .ok buf →
      ∃ m g₀ checked, ev.call.start ≤ m ∧ (cg = true → checked = some v) ∧
        During w m ev.stop (R idx g₀ checked buf) := by
  induction h with
  | init => simp
  | start _ _ ih => exact ih
  | @act w γ c a r s g _ _ _ _ ih =>
      intro ev hev
      obtain ⟨hstop, hrow⟩ := ih ev hev
      refine ⟨hstop.trans (Nat.le_succ _), fun idx cg v b buf ho hout => ?_⟩
      obtain ⟨m, g₀, checked, hm, hcg, hR⟩ := hrow idx cg v b buf ho hout
      exact ⟨m, g₀, checked, hm, hcg, hR.push hstop c a s⟩
  | @stop w γ c out before returns ih =>
      intro ev hev
      rcases List.mem_cons.mp hev with rfl | hev
      · refine ⟨Nat.le_refl _, fun idx cg v b buf ho hout => ?_⟩
        obtain ⟨m, g₀, checked, hgot, hm, hcg⟩ :=
          (hreturns c out _ returns).row idx cg v b buf ho hout
        exact ⟨m, g₀, checked, hm, hcg,
          trace_got hdone hafter before c.tid idx m g₀ checked buf hgot⟩
      · exact ih ev hev

/-- Updates of rows and reads, and the row locks around `fm_core_update_row_locked`. -/
def CoreOp.seqlock : CoreOp n W PK → Session n W → Bool
  | .readRow .., _ => true
  | .updateRow .., l | .lockRow _, l => l.held.isNone
  | .updateRowLocked idx .., l | .unlockRow idx, l => l.held = some idx
  | _, _ => false

/-- Fewer than `2 ^ 31` image writes are completed during one attempt to read. -/
def AttemptsBounded (c : Call (CoreOp n W PK)) (a : Act n W)
    (w : CoreWorld n W PK (CoreOp n W PK) (CoreOut n W)) : Prop :=
  ∀ i, a = .loadSeq i → writesInAttempt c.tid i w.past < 2 ^ 31

/-- The setting of threads that update and read rows of the share `s₀`. -/
def seqlockSetting (cfg : ShareCfg n W PK) (s₀ : Share n W) : CoreSetting n W PK where
  cfg := cfg
  kinds := fun k => k = .update
  commits := fun _ _ _ => True
  returns := Ended
  meets := AttemptsBounded
  share := s₀

/-- The updates and reads follow the protocol. -/
theorem serves_seqlock (cfg : ShareCfg n W PK) (s₀ : Share n W) :
    Serves (seqlockSetting cfg s₀) CoreOp.seqlock where
  indexed := fun h => absurd h (by simp [seqlockSetting])
  insertRow := by simp [CoreOp.seqlock]
  updateRow := fun idx v old new b l h =>
    ⟨by simpa [CoreOp.seqlock] using h, rfl, fun _ _ _ => trivial, fun _ _ _ _ _ _ _ _ _ => trivial⟩
  deleteRow := by simp [CoreOp.seqlock]
  clear := by simp [CoreOp.seqlock]
  readRow := fun _ _ _ _ _ _ _ _ => ⟨fun _ => trivial, fun _ _ => trivial, fun _ _ _ => trivial⟩
  lockRow := fun idx l h => by simpa [CoreOp.seqlock] using h
  reread := by simp [CoreOp.seqlock]
  updateRowLocked := fun idx v old new b l h =>
    ⟨by simpa [CoreOp.seqlock] using h, rfl, fun _ _ _ => trivial, fun _ _ _ _ _ _ _ _ _ => trivial⟩
  deleteRowLocked := by simp [CoreOp.seqlock]
  unlockRow := fun idx l h => by simpa [CoreOp.seqlock] using h
  returns := fun _ _ _ h => h

/-- **Reads of updated rows are linearizable.**  Any number of threads update rows in
place and read them, in any interleaving of their accesses.  Every read that returns
a row delivers an image that was the slot's complete image at some moment of the
call, and a sequence number is odd exactly while one thread, owning the slot's wlock,
is inside `fm_core_write_image`. -/
theorem seqlock_reads_linearizable (cfg : ShareCfg n W PK) {s₀ : Share n W} (hs₀ : Settled s₀)
    {c : Config (coreSig n W PK) (Share n W) (CoreOp n W PK) (Session n W) (CoreOut n W)}
    (h : (coreSystem cfg CoreOp.seqlock).Reach AttemptsBounded
      (System.start s₀ fun _ => Session.empty) c) :
    (∀ ev ∈ c.world.log, ∀ idx cg v b buf, ev.call.op = .readRow idx cg v b →
      ev.out = .row .ok buf →
      During c.world ev.call.start ev.stop fun s => s.data idx = buf ∧ s.seq idx % 2 = 0) ∧
    ∀ i, c.world.mem.seq i % 2 = 1 ↔
      ∃! t, c.world.mem.wlock i = some t ∧ InsideWriteImage c.world t i := by
  have hT : (seqlockSetting cfg s₀).Updates := ⟨fun k hk => hk, hs₀⟩
  obtain ⟨γ, htrace, -⟩ := (serves_seqlock cfg s₀).trace h
  -- the moment of the second sample will do
  have hdone : ∀ w γ c i m g₀ checked m₁ buf, (seqlockSetting cfg s₀).Trace w γ →
      AttemptsBounded c (.loadSeq i) w →
      True → (γ c.tid).read = .sampled i m g₀ checked (w.mem.seq i) m₁ (allWords buf) →
      During w m w.now fun s => s.data i = buf ∧ s.seq i % 2 = 0 := by
    intro w γ c i m g₀ checked m₁ buf htrace hmeets _ hread
    have htime := trace_read_time htrace c.tid
    have hunmoved := trace_unmoved hT.leavesReads htrace c.tid
    rw [hread] at htime hunmoved
    refine ⟨w.now, htime, Nat.le_refl _, ?_⟩
    rw [World.memAt_now]
    exact hunmoved.done (hmeets i rfl)
  refine ⟨fun ev hev idx cg v b buf ho hout => ?_, hT.odd_iff htrace⟩
  obtain ⟨-, hrow⟩ :=
    trace_delivered (fun _ _ _ h => h) hdone (fun _ _ _ _ _ _ _ _ _ _ _ _ h => h) htrace ev hev
  obtain ⟨m, g₀, checked, hm, -, m', hmm, hmk, hR⟩ := hrow idx cg v b buf ho hout
  exact ⟨m', hm.trans hmm, hmk, hR⟩

/-- The share that the insert of the row `(5, 5)` leaves. -/
def onePair : Share 2 Nat :=
  ((machine pairTable).eval 0 200 (insertRow pairTable (fun _ => 5) fun _ => 0)
    (Share.fresh fun _ _ => 0)).elim (Share.fresh fun _ _ => 0) Prod.snd

/-- No write is under way in the share with one row. -/
theorem onePair_seq (i : Int) : onePair.seq i = 0 := by
  show (if _ then _ else _) = 0
  exact ite_self 0

theorem onePair_settled : Settled onePair where
  owner := fun l => by cases l <;> rfl
  even := fun i => by rw [onePair_seq]
  bound := fun i => by
    rw [onePair_seq]
    exact Nat.two_pow_pos 32

/-- Thread 1 has copied the first word of the row `(5, 5)` when thread 0 makes it `(6, 6)`; it
copies the row again and returns `(6, 6)`.  Thread 0 then rewrites the row once more and is in
the middle of that. -/
theorem seqlock_reads_linearizable_one_read :
    ∃ c, (coreSystem pairTable CoreOp.seqlock).Reach AttemptsBounded
      (System.start onePair fun _ => Session.empty) c ∧
      (∃ ev ∈ c.world.log, ev.call.op = .readRow 0 false 0 (fun _ => 0) ∧
        ev.out = .row .ok (fun _ => 6) ∧
        (∃ upd ∈ c.world.log, upd.call.tid = 0 ∧ ev.call.start < upd.call.start ∧
          upd.stop < ev.stop) ∧
        During c.world ev.call.start ev.stop fun s => s.data 0 = (fun _ => 6) ∧ s.seq 0 % 2 = 0) ∧
      c.world.mem.seq 0 % 2 = 1 ∧ ∃! t, c.world.mem.wlock 0 = some t ∧
      InsideWriteImage c.world t 0 := by
  let steps : List (Label (CoreOp 2 Nat Nat)) :=
    [Label.call 1 (.readRow 0 false 0 fun _ => 0) 4,
      Label.call 0 (.updateRow 0 0 (fun _ => 5) (fun _ => 6) fun _ => 0) 9, Label.steps 1 9,
      Label.call 0 (.updateRow 0 0 (fun _ => 6) (fun _ => 7) fun _ => 0) 5].flatten
  have hrun : ((coreSystem pairTable CoreOp.seqlock).schedule (System.start onePair fun _ =>
      Session.empty) steps).any
      (fun c => decide (c.world.past.length < 100 ∧ c.world.mem.seq 0 % 2 = 1) &&
        c.world.log.any fun ev =>
        decide (ev.call.op = .readRow 0 false 0 (fun _ => 0) ∧ ev.out.image = some fun _ => 6) &&
        c.world.log.any fun upd => decide (upd.call.tid = 0 ∧ ev.call.start < upd.call.start ∧
          upd.stop < ev.stop)) =
      true := by
    decide +kernel
  obtain ⟨c, hc, hend⟩ := (Option.any_eq_true _ _).mp hrun
  obtain ⟨hworld, hlog⟩ := (Bool.and_eq_true _ _).mp hend
  obtain ⟨hlen, hodd⟩ := of_decide_eq_true hworld
  obtain ⟨ev, hev, hread⟩ := List.any_eq_true.mp hlog
  obtain ⟨hcall, hupdates⟩ := (Bool.and_eq_true _ _).mp hread
  obtain ⟨hop, himage⟩ := of_decide_eq_true hcall
  have hout := CoreOut.eq_row himage
  obtain ⟨upd, hupd, hbetween⟩ := List.any_eq_true.mp hupdates
  have hreach : (coreSystem pairTable CoreOp.seqlock).Reach AttemptsBounded
      (System.start onePair fun _ => Session.empty) c := by
    refine (System.Reach.of_schedule _ _ steps hc).of_short fun k a w hw i _ => ?_
    have hle := writesInAttempt_le k.tid i w.past
    have hpast : w.past.length ≤ c.world.past.length := hw
    omega
  obtain ⟨hreads, hinside⟩ := seqlock_reads_linearizable pairTable onePair_settled hreach
  exact ⟨c, hreach, ⟨ev, hev, hop, hout, ⟨upd, hupd, of_decide_eq_true hbetween⟩,
    hreads ev hev 0 false 0 _ _ hop hout⟩, hodd, (hinside 0).mp hodd⟩

end FastMem
