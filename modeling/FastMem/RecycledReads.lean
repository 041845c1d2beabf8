import FastMem.Recycled
import FastMem.Sessions

/-!
# Reads among inserts, updates, deletes and clears

`fm_core_read_row` checks the state and the generation of a slot before it copies the image
and the sequence number around the copy.  An insert into a recycled slot does not touch the
sequence number, so a delete and an insert in the middle of the copy go unnoticed.  In every
run in which no insert uses a slot between a read's look at its state and the end of the copy,
a read returns one image that an insert or an update has published, and the image is that of
the row it was asked for.
-/

namespace FastMem

open Conc

variable {n : Nat} {W PK Op Out : Type}

section

variable {cfg : ShareCfg n W PK} {K : Kind → Prop} {G : Commit n W → Prop} {now : Nat}
  {s s' : Share n W} {g g' : Role n W} {a : Act n W} {r : a.Res} {γ : Nat → Role n W}
  {w : CoreWorld n W PK Op Out}
    {c : Call Op} {i : Int}
  {T : Setting n W PK Op Out}

/-- A call of which `P` is true has published the image in slot `i`: an insert by making the
slot ACTIVE, an update by making the sequence number even again. -/
def Published (P : Call Op → Image n W → Prop) (i : Int) (img : Image n W)
    (past : List (CoreEntry n W PK Op)) : Prop :=
  ∃ e ∈ past, P e.call img ∧
    (e.act = .storeState i .active ∨ e.act = .addSeq i ∧ e.mem.seq i % 2 = 1)

/-- A row is published by the thread that has filled its slot. -/
theorem Step.publishes {r : Unit} (h : Step cfg K G now s g (.storeState i .active) r g') :
    g.slot = i ∧ g.phase = .fill ∧ ∃ img, g.words = allWords img ∧ G (.publish i img) := by
  cases h with
  | slot hs =>
      cases hs with
      | publish phase extra free walk words map commit => exact ⟨rfl, phase, _, words, commit⟩
  | view hs => cases hs with | look passive => cases passive
  | read hs => cases hs with | miss passive => cases passive
  | lock hs | free hs | grow hs | image hs | chain hs | dup hs | note hs => cases hs

/-- A sequence number is bumped where an image write begins or ends. -/
theorem Step.addSeq {r : Unit} (h : Step cfg K G now s g (.addSeq i) r g') :
    g.slot = i ∧ (g.phase = .row ∨ g.phase = .write ∧ ∃ img, g.words = allWords img ∧
      G (.publish i img)) := by
  cases h with
  | image hs =>
      cases hs with
      | begin kind phase => exact ⟨rfl, Or.inl phase⟩
      | finish phase target words commit => exact ⟨rfl, Or.inr ⟨phase, _, words, commit⟩⟩
  | view hs => cases hs with | look passive => cases passive
  | read hs => cases hs with | miss passive => cases passive
  | lock hs | free hs | grow hs | slot hs | chain hs | dup hs | note hs => cases hs

/-- **The image of a row is one that was published**, while nobody rewrites it. -/
theorem trace_published {P : Call Op → Image n W → Prop} (hT : T.Sound)
    (hpublish : ∀ c w i img, T.commits c w (.publish i img) → P c img) (h : T.Trace w γ) :
    ∀ i, w.mem.state i = .active → w.mem.seq i % 2 = 0 → Published P i (w.mem.data i) w.past := by
  induction h with
  | init =>
      intro i hactive
      obtain ⟨data, hdata⟩ := hT.1
      have hfree : T.share.state i = .free := by
        rw [hdata]
        rfl
      exact absurd (hfree.symm.trans hactive) (by decide)
  | start _ _ ih => exact ih
  | @act w γ c a r s g before _ hexec hstep ih =>
      have hslots := trace_slots hT.1 hT.2 before
      have himages := trace_images hT.1 hT.2 before
      have hlocked := trace_locked hT.1.owner before
      intro i hactive heven
      -- a row that is left alone
      have hkeep : s.state i = w.mem.state i → s.seq i = w.mem.seq i → s.data i = w.mem.data i →
          Published P i (s.data i) (w.push c a s).past := by
        intro hstate hseq hdata
        rw [World.push_mem, hstate] at hactive
        rw [World.push_mem, hseq] at heven
        obtain ⟨e, he, hcall, hact⟩ := ih i hactive heven
        rw [hdata]
        exact ⟨e, List.mem_cons_of_mem _ he, hcall, hact⟩
      have hactive' : s.state i = .active := hactive
      rcases exec_image i hexec with ⟨rfl, hseq, hdata⟩ | ⟨⟨j, x, rfl⟩, hseq⟩ | ⟨k, rfl, hk⟩ |
        ⟨-, hword, hseq, hdata⟩
      · obtain ⟨rfl, hrow | ⟨hwrite, img, hwords, hcommit⟩⟩ := hstep.addSeq
        · -- the number was even and is odd now
          have hheld := (hlocked.ok c.tid).rowed (by grind)
          have hold := even_of_held hlocked himages hheld (by simp [hrow])
          rw [World.push_mem, hseq] at heven
          omega
        · have hodd := (himages.odd (γ c.tid).slot).mpr ⟨c.tid, hwrite, rfl⟩
          have himg := (himages.seen c.tid).image (by grind) hwords
          rw [World.push_mem, hdata, himg]
          exact ⟨_, List.mem_cons_self, hpublish c w _ img hcommit, Or.inr ⟨rfl, hodd⟩⟩
      · have hstate : s.state i = w.mem.state i := by
          cases hexec
          rfl
        have hodd := odd_of_storeWord hslots himages hstep rfl (hstate.symm.trans hactive')
        rw [World.push_mem, hseq, hodd] at heven
        cases heven
      · cases hexec
        simp [hk] at hactive'
      · rcases exec_slot i hexec with ⟨x, rfl, hstate, -, -⟩ | ⟨-, hstate, -, -⟩ |
          ⟨⟨j, x, rfl⟩, -⟩ | ⟨k, rfl, hk, -⟩ | ⟨-, hstate, -, -⟩
        · obtain rfl : x = .active := hstate.symm.trans hactive'
          obtain ⟨rfl, hfill, img, hwords, hcommit⟩ := hstep.publishes
          have himg := (himages.seen c.tid).image (by grind) hwords
          rw [World.push_mem, hdata, himg]
          exact ⟨_, List.mem_cons_self, hpublish c w _ img hcommit, Or.inl rfl⟩
        · exact hkeep hstate hseq hdata
        · exact absurd rfl (hword j x)
        · cases hexec
          simp [hk] at hactive'
        · exact hkeep hstate hseq hdata
  | stop _ _ ih => exact ih

end

/-- The image a call writes. -/
def CoreOp.image : CoreOp n W PK → Option (Image n W)
  | .insertRow rec _ => some rec
  | .updateRow _ _ _ new _ | .updateRowLocked _ _ _ new _ => some new
  | _ => none

/-- A read of a row. -/
def CoreOp.isRead : CoreOp n W PK → Bool
  | .readRow .. => true
  | _ => false

/-- The generation a read expects of its row. -/
def CoreOp.expected : CoreOp n W PK → Option Nat
  | .readRow _ _ v _ => some v
  | _ => none

/-- Every call but the re-read under a row lock: the calls that lock rows themselves by threads
that hold none, the locked ones by threads that hold the lock of the row. -/
def CoreOp.mixed : CoreOp n W PK → Session n W → Bool
  | .insertRow .., l | .updateRow .., l | .deleteRow .., l | .clear, l | .lockRow _, l =>
      l.held.isNone
  | .updateRowLocked idx .., l | .unlockRow idx, l => l.held = some idx
  | .deleteRowLocked idx .., l => l.held = some idx && l.seen.isNone
  | .reread .., _ => false
  | .find .., _ | .findNext .., _ | .readRow .., _ | .scanNext .., _ => true

/-- What a run must meet: no clear flips a slot that is in the middle of its deletion; and a
read samples the sequence number of a slot only when no insert has used the slot since the
read looked at its state, with fewer than `2 ^ 31` image writes since then, and when it loads
the generation of the slot and finds the one it expects, this is the one of that look. -/
structure SlotStays (c : Call (CoreOp n W PK)) (a : Act n W)
    (w : CoreWorld n W PK (CoreOp n W PK) (CoreOut n W)) : Prop where
  flip : ∀ i, a = .storeState i .free → Flippable w.mem i
  sample : c.op.isRead = true → ∀ i, a = .loadSeq i →
    refilled c.tid i w.past = false ∧ writesInAttempt c.tid i w.past < 2 ^ 31
  gen : ∀ {idx cg v b}, c.op = .readRow idx cg v b → a = .loadGen idx → w.mem.gen idx = v →
    ∀ m e, lastLook c.tid idx w.past = some (m, e) → w.mem.gen idx = e.mem.gen idx

/-- The setting of threads that make these calls on the share `s₀`. -/
def mixedSetting (cfg : ShareCfg n W PK) (s₀ : Share n W) : CoreSetting n W PK where
  cfg := cfg
  kinds := fun k => k ≠ .index
  commits := fun c w k =>
    match k with
    | .flip i => Flippable w.mem i
    | .publish _ img => c.op.image = some img
    | .agree i => refilled c.tid i w.past = false ∧ writesInAttempt c.tid i w.past < 2 ^ 31
    | .check i => ∀ m e, lastLook c.tid i w.past = some (m, e) → w.mem.gen i = e.mem.gen i
    | _ => True
  returns := Ended
  meets := SlotStays
  share := s₀

/-- The runs of inserts, updates, deletes and reads keep to the protocol. -/
theorem mixedSetting_sound (cfg : ShareCfg n W PK) (data : Int → Image n W) :
    (mixedSetting cfg (Share.fresh data)).Sound :=
  ⟨⟨data, rfl⟩, fun _ _ _ h => h⟩

/-- Their calls follow it. -/
theorem serves_mixed (cfg : ShareCfg n W PK) (data : Int → Image n W) :
    Serves (mixedSetting cfg (Share.fresh data)) CoreOp.mixed where
  indexed := fun h => absurd rfl h
  insertRow := fun rec b l h =>
    ⟨by simpa [CoreOp.mixed] using h, mixedSetting_sound cfg data, nofun, fun _ _ _ _ => rfl⟩
  updateRow := fun idx v old new b l h =>
    ⟨by simpa [CoreOp.mixed] using h, nofun, fun _ _ _ => rfl, fun _ _ _ _ _ _ _ _ _ => trivial⟩
  deleteRow := fun idx v b l h =>
    ⟨by simpa [CoreOp.mixed] using h, mixedSetting_sound cfg data,
      nofun, fun _ _ _ _ _ _ _ _ _ => trivial⟩
  clear :=
    fun l h => ⟨by simpa [CoreOp.mixed] using h, mixedSetting_sound cfg data,
      nofun, fun _ _ _ i hmeets => hmeets.flip i rfl⟩
  readRow := fun idx cg v b l h t st =>
    ⟨fun _ => trivial, fun _ hmeets => hmeets.sample rfl idx rfl, fun _ hmeets hgen =>
      hmeets.gen rfl rfl (hgen v rfl)⟩
  lockRow := fun idx l h => by simpa [CoreOp.mixed] using h
  reread := by simp [CoreOp.mixed]
  updateRowLocked := fun idx v old new b l h =>
    ⟨by simpa [CoreOp.mixed] using h, nofun, fun _ _ _ => rfl, fun _ _ _ _ _ _ _ _ _ => trivial⟩
  deleteRowLocked := by
    intro idx v b l h
    simp only [CoreOp.mixed, Bool.and_eq_true, decide_eq_true_eq, Option.isNone_iff_eq_none] at h
    refine ⟨h.1, mixedSetting_sound cfg data,
      nofun, fun v' img hseen => ?_, fun _ _ _ _ _ _ _ _ _ _ => trivial⟩
    rw [h.2] at hseen
    cases hseen
  unlockRow := fun idx l h => by simpa [CoreOp.mixed] using h
  returns := fun _ _ _ h => h

/-- A slot that stays is not recycled in the middle of a read. -/
theorem unrecycled_mixed (cfg : ShareCfg n W PK) (data : Int → Image n W) :
    (mixedSetting cfg (Share.fresh data)).Unrecycled where
  sound := mixedSetting_sound cfg data
  agree := fun _ _ _ h => h
  check := fun _ _ _ h => h

/-- Every read of a trace that has returned a row has returned the image of the row it was
asked for. -/
theorem trace_read_rows {T : CoreSetting n W PK}
    {w : CoreWorld n W PK (CoreOp n W PK) (CoreOut n W)} {γ : Nat → Role n W} (hT : T.Unrecycled)
    (hreturns : ∀ c out g, T.returns c out g → Ended c out g) (h : T.Trace w γ) :
    ∀ ev ∈ w.log, ev.stop ≤ w.now ∧ ∀ idx cg v b buf, ev.call.op = .readRow idx cg v b →
    ev.out = .row .ok buf →
      During w ev.call.start ev.stop fun s =>
        s.state idx = .active ∧ (cg = true → s.gen idx = v) ∧ s.seq idx % 2 = 0 ∧
        s.data idx = buf := by
  induction h with
  | init => simp
  | start _ _ ih => exact ih
  | @act w γ c a r s g _ _ _ _ ih =>
      intro ev hev
      obtain ⟨hstop, hrow⟩ := ih ev hev
      exact ⟨hstop.trans (Nat.le_succ _), fun idx cg v b buf ho hout =>
        (hrow idx cg v b buf ho hout).push hstop c a s⟩
  | @stop w γ c out before returns ih =>
      intro ev hev
      rcases List.mem_cons.mp hev with rfl | hev
      · refine ⟨Nat.le_refl _, fun idx cg v b buf ho hout => ?_⟩
        obtain ⟨m, g₀, checked, hgot, hm, hcg⟩ :=
          (hreturns _ _ _ returns).row idx cg v b buf ho hout
        obtain ⟨hchecked, m', hmm, hmk, hactive, hgen, heven, hdata⟩ := trace_copied hT before hgot
        exact ⟨m', hm.trans hmm, hmk, hactive, fun h => hgen.trans (hchecked v (hcg h)).symm,
          heven, hdata⟩
      · exact ih ev hev

/-- **A read returns one published image, of the row it was asked for.**  In every run of
inserts, updates, deletes, clears and reads that meets the condition: a read that returns a
row delivers an image that an insert or an update has published in the slot, and that the
slot held, ACTIVE and with the generation asked for, at some moment of the call. -/
theorem read_returns_published_image (cfg : ShareCfg n W PK) (data : Int → Image n W)
    {c : Config (coreSig n W PK) (Share n W) (CoreOp n W PK) (Session n W) (CoreOut n W)}
    (h : (coreSystem cfg CoreOp.mixed).Reach SlotStays (System.start (Share.fresh data) fun _ =>
      Session.empty) c) :
    ∀ ev ∈ c.world.log, ∀ idx cg v b buf, ev.call.op = .readRow idx cg v b → ev.out = .row .ok buf →
      Published (fun call img => call.op.image = some img) idx buf c.world.past ∧
      During c.world ev.call.start ev.stop fun s =>
        s.state idx = .active ∧ s.data idx = buf ∧ (cg = true → s.gen idx = v) := by
  obtain ⟨γ, htrace, -⟩ := (serves_mixed cfg data).trace h
  intro ev hev idx cg v b buf ho hout
  obtain ⟨hstop, hrow⟩ :=
    trace_read_rows (unrecycled_mixed cfg data) (fun _ _ _ hended => hended) htrace ev hev
  obtain ⟨m, hstart, hm, hactive, hgen, heven, hdata⟩ := hrow idx cg v b buf ho hout
  refine ⟨?_, m, hstart, hm, hactive, hdata, hgen⟩
  -- the image was published before the moment it was copied
  obtain ⟨w', γ', htrace', hmem, hpast⟩ := htrace.at (hm.trans hstop)
  rw [← hmem] at hactive heven hdata
  obtain ⟨e, he, hcall, hact⟩ :=
    trace_published (mixedSetting_sound cfg data) (fun _ _ _ _ hcommit => hcommit) htrace'
      idx hactive heven
  rw [hdata] at hcall
  rw [hpast] at he
  exact ⟨e, List.mem_of_mem_drop he, hcall, hact⟩

/-- The accesses of runs in which nothing is cleared, and reads find their slots as they
left them. -/
def staysPut (c : Call (CoreOp n W PK)) (a : Act n W)
    (w : CoreWorld n W PK (CoreOp n W PK) (CoreOut n W)) : Bool :=
  match a with
  | .storeState _ .free => false
  | .loadSeq i => decide (refilled c.tid i w.past = false ∧ writesInAttempt c.tid i w.past < 2 ^ 31)
  | .loadGen i => decide (c.op.expected = some (w.mem.gen i) →
      ∀ look ∈ lastLook c.tid i w.past, w.mem.gen i = look.2.mem.gen i)
  | _ => true

/-- The decidable test of an access is enough. -/
theorem slotStays_of_staysPut {c : Call (CoreOp n W PK)} {a : Act n W}
    {w : CoreWorld n W PK (CoreOp n W PK) (CoreOut n W)} (h : staysPut c a w = true) :
    SlotStays c a w := by
  constructor
  case flip =>
    rintro i rfl
    cases h
  case sample =>
    rintro - i rfl
    exact of_decide_eq_true h
  case gen =>
    rintro idx cg v b hop rfl hv m e hlook
    have hall := of_decide_eq_true h
    exact hall (by simp [hop, CoreOp.expected, hv]) (m, e) hlook

/-- Thread 1 has copied the first word of the row `(5, 5)` when thread 0 makes it `(6, 6)`,
deletes the other row and inserts a third one in its place.  Thread 1 copies the row again
and returns `(6, 6)`. -/
theorem read_returns_published_image_one_row :
    ∃ c, (coreSystem pairTable CoreOp.mixed).Reach SlotStays
        (System.start (Share.fresh fun _ _ => 0) fun _ => Session.empty) c ∧
      ∃ ev ∈ c.world.log, ev.call.op = .readRow 0 true 0
        (fun _ => 0) ∧ ev.out = .row .ok (fun _ => 6) ∧
        (c.world.log.filter fun ev' => ev'.call.tid = 0 ∧ ev.call.start < ev'.call.start ∧
          ev'.stop < ev.stop).length = 3 ∧
        Published (fun call img => call.op.image = some img) 0 (fun _ => 6) c.world.past ∧
        During c.world ev.call.start ev.stop fun s =>
          s.state 0 = .active ∧ s.data 0 = (fun _ => 6) ∧ (true = true → s.gen 0 = 0) := by
  let steps : List (Label (CoreOp 2 Nat Nat)) :=
    [Label.call 0 (.insertRow (fun _ => 5) fun _ => 0) 16,
      Label.call 0 (.insertRow (fun _ => 8) fun _ => 0) 10,
      Label.call 1 (.readRow 0 true 0 fun _ => 0) 5,
      Label.call 0 (.updateRow 0 0 (fun _ => 5) (fun _ => 6) fun _ => 0) 9,
      Label.call 0 (.deleteRow 1 0 fun _ => 0) 16,
      Label.call 0 (.insertRow (fun _ => 9) fun _ => 0) 10, Label.steps 1 10].flatten
  have hrun : (System.rehearse (coreSystem pairTable CoreOp.mixed) staysPut
      (System.start (Share.fresh fun _ _ => 0) fun _ => Session.empty) steps).any
      (fun c => c.world.log.any fun ev =>
        decide (ev.call.op = .readRow 0 true 0 (fun _ => 0) ∧ ev.out.image = some (fun _ => 6) ∧
          (c.world.log.filter fun ev' => ev'.call.tid = 0 ∧ ev.call.start < ev'.call.start ∧
            ev'.stop < ev.stop).length = 3)) = true := by
    decide +kernel
  obtain ⟨c, hc, hlog⟩ := (Option.any_eq_true _ _).mp hrun
  obtain ⟨ev, hev, hread⟩ := List.any_eq_true.mp hlog
  obtain ⟨hop, himage, hthree⟩ := of_decide_eq_true hread
  have hout := CoreOut.eq_row himage
  have hreach := System.Reach.of_rehearse (fun _ _ _ h => slotStays_of_staysPut h) _ steps hc
  exact ⟨c, hreach, ev, hev, hop, hout, hthree,
    read_returns_published_image pairTable (fun _ _ => 0) hreach ev hev 0 true 0 _ _ hop hout⟩

/-- A delete and an insert in the middle of a copy.  Thread 1 reads the row `(1, 1)` and has
copied its first word; thread 0 deletes the row and inserts `(2, 2)`, which gets the same
slot; thread 1 copies the second word, finds the sequence number as it was and returns the
image `(1, 2)`, which nobody has published. -/
theorem read_returns_torn_image :
    ∃ c, (coreSystem pairTable CoreOp.mixed).Reach (fun _ _ _ => True)
        (System.start (Share.fresh fun _ _ => 0) fun _ => Session.empty) c ∧
      ∃ ev ∈ c.world.log, ∃ b buf, ev.call.op = .readRow 0 true 0 b ∧ ev.out = .row .ok buf ∧
        ¬ Published (fun call img => call.op.image = some img) 0 buf c.world.past := by
  let steps : List (Label (CoreOp 2 Nat Nat)) :=
    [Label.call 0 (.insertRow (fun _ => 1) fun _ => 0) 16,
      Label.call 1 (.readRow 0 true 0 fun _ => 0) 5, Label.call 0 (.deleteRow 0 0 fun _ => 0) 16,
      Label.call 0 (.insertRow (fun _ => 2) fun _ => 0) 10, Label.steps 1 3].flatten
  have hrun : ((coreSystem pairTable CoreOp.mixed).schedule
      (System.start (Share.fresh fun _ _ => 0) fun _ => Session.empty) steps).any
      (fun c => c.world.log.any fun ev =>
        decide (ev.call.op = .readRow 0 true 0 (fun _ => 0) ∧
          ev.out.image = some (fun j => if j = 0 then 1 else 2) ∧
          ∀ e ∈ c.world.past, e.call.op.image ≠ some fun j => if j = 0 then 1 else 2)) = true := by
    decide +kernel
  obtain ⟨c, hc, hlog⟩ := (Option.any_eq_true _ _).mp hrun
  obtain ⟨ev, hev, hread⟩ := List.any_eq_true.mp hlog
  obtain ⟨hop, himage, hnone⟩ := of_decide_eq_true hread
  refine ⟨c, System.Reach.of_schedule _ _ steps hc, ev, hev, _, _, hop, CoreOut.eq_row himage, ?_⟩
  rintro ⟨e, he, hpublished, -⟩
  exact hnone e he hpublished

end FastMem
