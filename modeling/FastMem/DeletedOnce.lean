import FastMem.Recycled
import FastMem.Sessions

/-!
# A row is deleted once

A delete marks its row DELETING before it does anything else, and from then on the slot is
out of use until the delete has bumped its generation.  So between two deletes that have
marked the same slot with the same generation the generation has gone all the way round:
the slot has been recycled `2 ^ 32` times.
-/

namespace FastMem

open Conc

variable {n : Nat} {W PK Op Out : Type} {cfg : ShareCfg n W PK} {K : Kind → Prop}
  {G : Commit n W → Prop} {now t : Nat} {s s' : Share n W} {g g' : Role n W} {a : Act n W}
  {r : a.Res} {γ : Nat → Role n W} {w : CoreWorld n W PK Op Out} {c : Call Op} {i : Int} {v : Nat}
  {T : Setting n W PK Op Out}

/-- The phases of a delete that has marked its row and not yet bumped its generation. -/
@[grind =] def Phase.doomed (p : Phase) : Bool := p = .del || p = .dead

/-- The history of a trace up to one of its accesses is the history of a trace. -/
theorem Setting.trace_before (h : T.Trace w γ) {newer older : List (CoreEntry n W PK Op)}
    {e : CoreEntry n W PK Op}
    (hpast : w.past = newer ++ e :: older) : ∃ w' γ', T.Trace w' γ' ∧ w'.mem = e.mem ∧
    w'.past = older := by
  have hnow : w.now = newer.length + (older.length + 1) := by simp [World.now, hpast]
  obtain ⟨w', γ', htrace, hmem, hpast'⟩ := Trace.at h (m := older.length) (by omega)
  refine ⟨w', γ', htrace, ?_, ?_⟩
  · rw [hmem]
    unfold World.memAt
    rw [hpast, List.reverse_append, List.reverse_cons, List.append_assoc,
      List.getElem?_append_right (by simp), List.length_reverse, Nat.sub_self]
    rfl
  · rw [hpast', hnow, show newer.length + (older.length + 1) - older.length = newer.length +
      1 by omega, hpast, ← List.drop_drop, List.drop_left, List.drop_one, List.tail_cons]

/-- A longer history has as many recycles. -/
theorem recycles_older_le {past newer older : List (CoreEntry n W PK Op)} {e : CoreEntry n W PK Op}
    (hpast : past = newer ++ e :: older) : recycles i older ≤ recycles i past := by
  have hdrop : older = past.drop (newer.length + 1) := by
    rw [hpast, ← List.drop_drop, List.drop_left, List.drop_one, List.tail_cons]
  rw [hdrop]
  exact recycles_drop_le _ _

/-- A step that marks a row. -/
theorem Step.marks {r : Unit} (h : Step cfg K G now s g (.storeState i .deleting) r g') :
    g'.phase = .del ∧ g'.slot = i ∧ g'.marked = some (i, s.gen i) ∧ g.phase = .row := by
  cases h with
  | slot hs => cases hs with | mark kind phase => exact ⟨rfl, rfl, rfl, phase⟩
  | view hs => cases hs with | look passive => cases passive
  | read hs => cases hs with | miss passive => cases passive
  | lock hs | free hs | grow hs | image hs | chain hs | dup hs | note hs => cases hs

/-- Going on with a walk marks nothing. -/
theorem walkTo_marked (g : Role n W) (k b : Nat) (link : Link) (x : Int) :
    (g.walkTo k b link x).marked = g.marked := by
  unfold Role.walkTo
  split
  · rfl
  · split <;> rfl

theorem checkTo_marked (g : Role n W) (k : Nat) (rec : Image n W) (x : Int) :
    (g.checkTo k rec x).marked = g.marked := by
  unfold Role.checkTo
  split <;> rfl

/-- Every other step leaves the note of the marked row alone. -/
theorem Step.marked (h : Step cfg K G now s g a r g') (ha : a ≠ .storeState g.slot .deleting) :
    g'.marked = g.marked := by
  cases h with
  | slot hs =>
    cases hs with
    | mark => exact absurd rfl ha
    | _ => rfl
  | chain hs =>
    cases hs with
    | enter => exact walkTo_marked ..
    | next => exact walkTo_marked ..
    | _ => rfl
  | dup hs =>
    cases hs with
    | enter => exact checkTo_marked ..
    | next => exact checkTo_marked ..
    | _ => rfl
  | lock hs | free hs | grow hs | image hs | view hs | read hs | note hs => cases hs <;> rfl

/-- A delete keeps its slot until it bumps the generation. -/
theorem Step.doomed (h : Step cfg K G now s g a r g') (hdoom : g.phase.doomed = true) :
    a = .addGen g.slot ∨ g'.phase.doomed = true ∧ g'.slot = g.slot := by
  cases h with
  | slot hs => cases hs <;> grind
  | lock hs | free hs | grow hs | image hs | view hs | read hs | note hs | chain hs | dup hs =>
      cases hs <;> grind

/-- Thread `t` has marked slot `i` when its generation was `v`: the access, and the history
before it. -/
structure MarkedAt (t : Nat) (i : Int) (v : Nat) (past : List (CoreEntry n W PK Op))
    (e : CoreEntry n W PK Op) (older : List (CoreEntry n W PK Op)) : Prop where
  tid : e.call.tid = t
  act : e.act = .storeState i .deleting
  active : e.mem.state i = .active
  gen : e.mem.gen i = v
  past : ∃ newer, past = newer ++ e :: older

/-- A mark stays in the past. -/
theorem MarkedAt.push {past older : List (CoreEntry n W PK Op)} {e d : CoreEntry n W PK Op}
    (h : MarkedAt t i v past e older) : MarkedAt t i v (d :: past) e older := by
  obtain ⟨newer, hpast⟩ := h.past
  exact ⟨h.tid, h.act, h.active, h.gen, d :: newer, by rw [hpast, List.cons_append]⟩

/-- What a thread notes of the row it has marked is so. -/
theorem trace_marked (hT : T.Sound) (h : T.Trace w γ) : ∀ t i v, (γ t).marked = some (i, v) →
    ∃ e older, MarkedAt t i v w.past e older ∧ (γ t).since ≤ older.length := by
  induction h with
  | init => exact nofun
  | @start w γ t before ih =>
    rw [Function.forall_update_iff γ fun u g => ∀ i v, g.marked = some (i, v) →
      ∃ e older, MarkedAt u i v w.past e older ∧ g.since ≤ older.length]
    exact ⟨nofun, fun u _ => ih u⟩
  | @act w γ c a r s g before _ hexec hstep ih =>
    rw [Function.forall_update_iff γ fun u g => ∀ i v, g.marked = some (i, v) →
      ∃ e older, MarkedAt u i v (w.push c a s).past e older ∧ g.since ≤ older.length]
    have hold : ∀ u i v, (γ u).marked = some (i, v) →
        ∃ e older, MarkedAt u i v (w.push c a s).past e older ∧ (γ u).since ≤ older.length := by
      intro u i v hmarked
      obtain ⟨e, older, hmark, hsince⟩ := ih u i v hmarked
      exact ⟨e, older, hmark.push, hsince⟩
    refine ⟨fun i v hmarked => ?_, fun u _ => hold u⟩
    rw [hstep.since_eq]
    by_cases ha : a = .storeState (γ c.tid).slot .deleting
    · subst ha
      obtain ⟨-, -, hnote, hrow⟩ := hstep.marks
      obtain ⟨rfl, rfl⟩ : (γ c.tid).slot = i ∧ w.mem.gen (γ c.tid).slot = v := by
        simpa using hnote.symm.trans hmarked
      have hactive := ((trace_slots hT.1 hT.2 before).mine c.tid).active (by rw [hrow]; rfl)
      exact ⟨_, w.past, ⟨rfl, rfl, hactive, rfl, [], rfl⟩, trace_since before c.tid⟩
    · rw [hstep.marked ha] at hmarked
      exact hold c.tid i v hmarked
  | stop _ _ ih => exact ih

/-- Since a slot was marked it has been recycled, or the delete that marked it, or a later
one, has still to do so. -/
theorem trace_doomed (h : T.Trace w γ) : ∀ newer e older, w.past = newer ++ e :: older →
    e.act = .storeState i .deleting →
    recycles i older < recycles i w.past ∨ ∃ t, (γ t).phase.doomed = true ∧ (γ t).slot = i := by
  induction h with
  | init => exact fun newer e older hpast => by cases newer <;> cases hpast
  | @start w γ t before ih =>
    intro newer e older hpast hact
    refine (ih newer e older hpast hact).imp id ?_
    rintro ⟨u, hdoom, hslot⟩
    refine ⟨u, ?_⟩
    by_cases hu : u = t
    · subst hu
      rw [Function.update_self]
      exact ⟨hdoom, hslot⟩
    · rw [Function.update_of_ne hu]
      exact ⟨hdoom, hslot⟩
  | @act w γ c a r s g before _ hexec hstep ih =>
    intro newer e older hpast hact
    cases newer with
    | nil =>
      obtain ⟨rfl, rfl⟩ : (⟨c, a, w.mem⟩ : CoreEntry n W PK _) = e ∧ w.past = older := by
        simpa using hpast
      obtain rfl : a = .storeState i .deleting := hact
      obtain ⟨hphase, hslot, -, -⟩ := hstep.marks
      refine Or.inr ⟨c.tid, ?_⟩
      rw [Function.update_self]
      exact ⟨by rw [hphase]; rfl, hslot⟩
    | cons d newer =>
      have hrest : w.past = newer ++ e :: older := (List.cons.inj hpast).2
      have hlast : (w.push c a s).past = [] ++ ⟨c, a, w.mem⟩ :: w.past := rfl
      have hmore : recycles i w.past ≤ recycles i (w.push c a s).past := recycles_older_le hlast
      obtain hmany | ⟨u, hdoom, hslot⟩ := ih newer e older hrest hact
      · exact Or.inl (hmany.trans_le hmore)
      by_cases hu : u = c.tid
      · subst hu
        obtain rfl | ⟨hdoom', hslot'⟩ := hstep.doomed hdoom
        · have hle := recycles_older_le (i := i) hrest
          refine Or.inl ?_
          simp only [World.push_past, recycles, hslot, if_true]
          omega
        · refine Or.inr ⟨c.tid, ?_⟩
          rw [Function.update_self]
          exact ⟨hdoom', hslot'.trans hslot⟩
      · refine Or.inr ⟨u, ?_⟩
        rw [Function.update_of_ne hu]
        exact ⟨hdoom, hslot⟩
  | stop _ _ ih => exact ih

/-- **Between two marks of a slot with the same generation** it has been recycled `2 ^ 32`
times. -/
theorem marks_apart (hT : T.Sound) (h : T.Trace w γ) {t t' : Nat} {e e' : CoreEntry n W PK Op}
    {older older' : List (CoreEntry n W PK Op)} (he : MarkedAt t i v older' e older)
    (he' : MarkedAt t' i v w.past e' older') : recycles i older + 2 ^ 32 ≤ recycles i older' := by
  obtain ⟨newer, hpast⟩ := he'.past
  obtain ⟨between, hbetween⟩ := he.past
  obtain ⟨w₁, γ₁, htrace₁, hmem₁, hpast₁⟩ := Setting.trace_before h hpast
  obtain ⟨w₂, γ₂, htrace₂, hmem₂, hpast₂⟩ := Setting.trace_before htrace₁ (hpast₁.trans hbetween)
  -- the slot was ACTIVE again at the second mark
  have hactive : w₁.mem.state i = .active := hmem₁ ▸ he'.active
  have hmore : recycles i older < recycles i older' := by
    obtain hmore | ⟨u, hdoom, rfl⟩ :=
      trace_doomed htrace₁ between e older (hpast₁.trans hbetween) he.act
    · rw [hpast₁] at hmore
      exact hmore
    · have hm := (trace_slots hT.1 hT.2 htrace₁).mine u
      exact absurd hactive (hm.not_active (Or.inl ⟨by grind, rfl⟩))
  have hgen : recycles i older % 2 ^ 32 = recycles i older' % 2 ^ 32 := by
    rw [← hpast₁, ← hpast₂, ← (trace_counted hT htrace₁ i).gen, ← (trace_counted hT htrace₂ i).gen,
      hmem₁, hmem₂, he.gen, he'.gen]
  omega

/-- A delete of the row in slot `idx` with generation `v` that has returned `FM_ERR_OK`. -/
def DeletesRow (idx : Int) (v : Nat) (ev : Event (CoreOp n W PK) (CoreOut n W)) : Prop :=
  (∃ b, ev.call.op = .deleteRow idx v b ∨ ev.call.op = .deleteRowLocked idx v b) ∧
    ev.out = .code .ok

/-- A delete that has succeeded has marked its slot during the call. -/
theorem trace_deleted {T : CoreSetting n W PK} {w : CoreWorld n W PK (CoreOp n W PK) (CoreOut n W)}
    (hT : T.Sound) (hreturns : ∀ c out g, T.returns c out g → Ended c out g) (h : T.Trace w γ) :
    ∀ ev ∈ w.log, ∀ idx v, DeletesRow idx v ev → ∃ e older,
    MarkedAt ev.call.tid idx v w.past e older ∧
      ev.call.start ≤ older.length ∧ older.length < ev.stop := by
  induction h with
  | init =>
    intro ev hev
    cases hev
  | start _ _ ih => exact ih
  | act before _ hexec hstep ih =>
    intro ev hev idx v hdel
    obtain ⟨e, older, hmark, htime⟩ := ih ev hev idx v hdel
    exact ⟨e, older, hmark.push, htime⟩
  | @stop w γ c out before returns ih =>
    intro ev hev idx v hdel
    obtain rfl | hev := List.mem_cons.mp hev
    · have hended := hreturns c out _ returns
      obtain ⟨⟨b, hop⟩, hout⟩ := hdel
      obtain ⟨e, older, hmark, hsince⟩ :=
        trace_marked hT before c.tid idx v (hended.deleted idx v b hop hout)
      obtain ⟨newer, hpast⟩ := hmark.past
      refine ⟨e, older, hmark, hended.since ▸ hsince, ?_⟩
      show older.length < w.past.length
      rw [hpast, List.length_append, List.length_cons]
      omega
    · exact ih ev hev idx v hdel

/-- Recycles do not get fewer. -/
theorem recyclesAt_mono {m m' : Nat} (hm : m ≤ m') (hnow : m' ≤ w.now) :
    recyclesAt w i m ≤ recyclesAt w i m' := by
  unfold recyclesAt
  rw [show w.now - m = (w.now - m') + (m' - m) by omega, ← List.drop_drop]
  exact recycles_drop_le _ _

/-- The recycles before a mark. -/
theorem MarkedAt.recyclesAt {e : CoreEntry n W PK Op} {older : List (CoreEntry n W PK Op)}
    (h : MarkedAt t i v w.past e older) :
    FastMem.recyclesAt w i older.length = recycles i older := by
  obtain ⟨newer, hpast⟩ := h.past
  have hnow : w.now - older.length = newer.length + 1 := by
    rw [World.now, hpast, List.length_append, List.length_cons]
    omega
  unfold FastMem.recyclesAt
  rw [hnow, hpast, ← List.drop_drop, List.drop_left, List.drop_one, List.tail_cons]

/-- The later of two moments of a history has the other before it. -/
theorem MarkedAt.before {t' : Nat} {past older older' : List (CoreEntry n W PK Op)}
    {e e' : CoreEntry n W PK Op} (h : MarkedAt t i v past e older)
    (h' : MarkedAt t' i v past e' older') (hlt : older.length < older'.length) :
    MarkedAt t i v older' e older := by
  obtain ⟨newer, hpast⟩ := h.past
  obtain ⟨newer', hpast'⟩ := h'.past
  have hsuffix : e :: older <:+ older' := by
    have hnew : e :: older <:+ past := ⟨newer, hpast.symm⟩
    have hold : older' <:+ past := ⟨newer' ++ [e'], by rw [hpast', List.append_assoc]; rfl⟩
    exact List.suffix_of_suffix_length_le hnew hold hlt
  obtain ⟨between, hbetween⟩ := hsuffix
  exact ⟨h.tid, h.act, h.active, h.gen, between, hbetween.symm⟩

/-- The accesses of a history at one moment are one. -/
theorem MarkedAt.tid_eq {t' : Nat} {past older older' : List (CoreEntry n W PK Op)}
    {e e' : CoreEntry n W PK Op} (h : MarkedAt t i v past e older)
    (h' : MarkedAt t' i v past e' older') (heq : older.length = older'.length) : t = t' := by
  obtain ⟨newer, hpast⟩ := h.past
  obtain ⟨newer', hpast'⟩ := h'.past
  have hsame := (List.append_inj' (hpast.symm.trans hpast') (by simp [heq])).2
  have he : e = e' := (List.cons.inj hsame).1
  rw [← h.tid, ← h'.tid, he]

/-- **A row is deleted once.**  Of two deletes of the same slot and generation that have
succeeded, the slot has been recycled `2 ^ 32` times between the beginning of the first and
the return of the second. -/
theorem deletes_apart {T : CoreSetting n W PK} {may : CoreOp n W PK → Session n W → Bool}
    (hT : Serves T may) (hsound : T.Sound) (hreturns : ∀ c out g, T.returns c out g → Ended c out g)
    {c : Config (coreSig n W PK) (Share n W) (CoreOp n W PK) (Session n W) (CoreOut n W)}
    (h : (coreSystem T.cfg may).Reach T.meets (System.start T.share fun _ => Session.empty) c) :
    c.world.log.Pairwise fun later earlier => ∀ idx v, DeletesRow idx v later →
    DeletesRow idx v earlier →
      recyclesAt c.world idx (min earlier.call.start later.call.start) + 2 ^ 32 ≤
      recyclesAt c.world idx later.stop := by
  obtain ⟨γ, htrace, -⟩ := hT.trace h
  have horder := h.inOrder
  refine horder.log.imp_of_mem fun {later earlier} hlater hearlier hafter idx v hdel hdel' => ?_
  obtain ⟨e, older, hmark, hstart, hstop⟩ :=
    trace_deleted hsound hreturns htrace later hlater idx v hdel
  obtain ⟨e', older', hmark', hstart', hstop'⟩ :=
    trace_deleted hsound hreturns htrace earlier hearlier idx v hdel'
  have hnow := horder.past later hlater
  -- the two marks, whichever comes first, lie between the beginning and the return
  have hround : ∀ {t₁ t₂ : Nat} {e₁ e₂ : CoreEntry n W PK (CoreOp n W PK)}
      {older₁ older₂ : List (CoreEntry n W PK (CoreOp n W PK))},
      MarkedAt t₁ idx v c.world.past e₁ older₁ → MarkedAt t₂ idx v c.world.past e₂ older₂ →
      older₁.length < older₂.length → min earlier.call.start later.call.start ≤ older₁.length →
      older₂.length ≤ later.stop →
      recyclesAt c.world idx (min earlier.call.start later.call.start) + 2 ^ 32 ≤
      recyclesAt c.world idx later.stop := by
    intro t₁ t₂ e₁ e₂ older₁ older₂ h₁ h₂ hlt hfrom hto
    have hapart := marks_apart hsound htrace (h₁.before h₂ hlt) h₂
    rw [← h₁.recyclesAt, ← h₂.recyclesAt] at hapart
    have hfirst := recyclesAt_mono (w := c.world) (i := idx) hfrom (by omega)
    have hlast := recyclesAt_mono (w := c.world) (i := idx) hto hnow
    omega
  obtain hlt | heq | hlt := Nat.lt_trichotomy older'.length older.length
  · exact hround hmark' hmark hlt (by omega) (by omega)
  · have htid := hmark.tid_eq hmark' heq.symm
    have := hafter.2 htid
    omega
  · exact hround hmark hmark' hlt (by omega) (by omega)

end FastMem
