import FastMem.Handles
import FastMem.Recycled

/-!
# What the position of a handle denotes

Outside a write statement a row read copies the image of a row and loads the generation of
its slot in a separate step, when no lock is held any more.  The slot and this generation
are the position `fm_set_position` packs into a reference.

The position denotes the row the image was copied from in every run in which no insert
uses a slot between a read's look at its state and the end of the copy, and in which the
generation of the slot is still that of the look when the read loads it.  Of a read by
reference that finds another generation than it was asked for nothing is required, for it
returns `HA_ERR_RECORD_DELETED`.
-/

namespace FastMem

open Conc

variable {n : Nat} {W PK : Type}

/-- What a run must meet: no clear flips a slot that is in the middle of its deletion; and
a row read of a reading handle samples the sequence number of a slot only when no insert has
used the slot since the read looked at its state, with fewer than `2 ^ 31` image writes
since then, and loads the generation of a slot, unless it is another than it was asked for,
only when it is still the one of that look. -/
structure RowStays (c : Call (HandleOp n W PK)) (a : Act n W) (w : HandleWorld n W PK) : Prop where
  flip : ∀ i, a = .storeState i .free → Flippable w.mem i
  sample : c.op.1.reads = true → c.op.2.writeStmt = false → ∀ i, a = .loadSeq i →
    refilled c.tid i w.past = false ∧ writesInAttempt c.tid i w.past < 2 ^ 31
  gen : c.op.1.reads = true → c.op.2.writeStmt = false → ∀ i, a = .loadGen i →
    (∀ v, c.op.1.asked.map Prod.snd = some v → w.mem.gen i = v) → ∀ m e,
    lastLook c.tid i w.past = some (m, e) → w.mem.gen i = e.mem.gen i

/-- The setting of handlers on the share `s₀` whose runs meet the condition. -/
def positionSetting (tab : TableCfg n W PK) (s₀ : Share n W) : HandleSetting n W PK where
  cfg := tab.toShareCfg
  kinds := fun k => k ≠ .index
  commits := fun c w k =>
    match k with
    | .flip i => Flippable w.mem i
    | .agree i => refilled c.tid i w.past = false ∧ writesInAttempt c.tid i w.past < 2 ^ 31
    | .check i => ∀ m e, lastLook c.tid i w.past = some (m, e) → w.mem.gen i = e.mem.gen i
    | _ => True
  returns := Finished (fun _ _ _ => True) fun _ _ => True
  meets := RowStays
  share := s₀

/-- The handlers of these runs are followed. -/
theorem hosts_position (tab : TableCfg n W PK) (data : Int → Image n W) :
    Hosts (positionSetting tab (Share.fresh data)) tab (fun _ _ _ => True) fun _ _ => True where
  cfg := rfl
  sound := ⟨⟨data, rfl⟩, fun _ _ _ h => h⟩
  kinds := fun _ => Iff.rfl
  publish := fun _ _ _ _ => trivial
  write := fun _ _ _ _ _ => trivial
  mark := fun _ _ _ => trivial
  looks := fun _ hreads hwrite i =>
    ⟨fun _ => trivial, fun _ h => h.sample hreads hwrite i rfl, fun _ h hasked =>
      h.gen hreads hwrite i rfl hasked⟩
  flip := fun _ _ i hmeets => hmeets.flip i rfl
  pins := fun _ _ _ _ _ _ _ _ _ _ _ _ => ⟨trivial, trivial⟩
  slots := fun _ _ _ _ => trivial
  returns := fun _ _ _ h => h

/-- A slot that stays is not recycled in the middle of a read. -/
theorem unrecycled_position (tab : TableCfg n W PK) (data : Int → Image n W) :
    (positionSetting tab (Share.fresh data)).Unrecycled where
  sound := (hosts_position tab data).sound
  agree := fun _ _ _ h => h
  check := fun _ _ _ h => h

/-- The image a row read has returned was, at some moment of the call, the image of the row
that its position denotes, and the slot had been recycled `k` times then. -/
def CopiedFrom (w : HandleWorld n W PK) (ev : Event (HandleOp n W PK) (HandleOut n W PK)) (k : Nat)
    (img : Image n W) : Prop :=
  ∃ m, ev.call.start ≤ m ∧ m ≤ ev.stop ∧
    (w.memAt m).state (fmSetPosition ev.out.2.file).1 = .active ∧
    (w.memAt m).gen (fmSetPosition ev.out.2.file).1 = (fmSetPosition ev.out.2.file).2 ∧
    (w.memAt m).data (fmSetPosition ev.out.2.file).1 = img ∧
    recyclesAt w (fmSetPosition ev.out.2.file).1 m = k

/-- What is known of a row read of a reading handle that has returned. -/
structure Answered (w : HandleWorld n W PK) (ev : Event (HandleOp n W PK) (HandleOut n W PK)) :
    Prop where
  stop : ev.stop ≤ w.now
  copied : ev.out.1.err = none → ∃ img k, ev.out.1.buf = some img ∧ CopiedFrom w ev k img
  asked : ev.out.1.err = none → ∀ pos, ev.call.op.1.asked = some pos →
    fmSetPosition ev.out.2.file = pos
  refused : ∀ pos, ev.call.op.1.asked = some pos → pos.1 ≠ -1 →
    ev.out.1.err = none ∨ ev.out.1.err = some .recordDeleted

/-- What has been copied has been copied later on. -/
theorem CopiedFrom.push {w : HandleWorld n W PK} {ev : Event (HandleOp n W PK) (HandleOut n W PK)}
    {k : Nat} {img : Image n W} (h : CopiedFrom w ev k img) (hstop : ev.stop ≤ w.now)
    (c : Call (HandleOp n W PK)) (a : Act n W)
    (s : Share n W) : CopiedFrom (w.push c a s) ev k img := by
  obtain ⟨m, hstart, hm, hrow⟩ := h
  refine ⟨m, hstart, hm, ?_⟩
  rw [World.memAt_push (hm.trans hstop), recyclesAt_push (hm.trans hstop)]
  exact hrow

/-- Every read by position returns what it has copied. -/
theorem trace_answered {tab : TableCfg n W PK} {data : Int → Image n W} {w : HandleWorld n W PK}
    {γ : Nat → Role n W} (h : (positionSetting tab (Share.fresh data)).Trace w γ) :
    ∀ ev ∈ w.log, ev.call.op.1.reads = true → ev.call.op.2.writeStmt = false → Answered w ev := by
  induction h with
  | init => simp
  | start _ _ ih => exact ih
  | @act w γ c a r s g _ _ _ _ ih =>
      intro ev hev hreads hwrite
      obtain ⟨hstop, hcopied, hasked, hrefused⟩ := ih ev hev hreads hwrite
      refine ⟨hstop.trans (Nat.le_succ _), fun herr => ?_, hasked, hrefused⟩
      obtain ⟨img, k, hbuf, hfrom⟩ := hcopied herr
      exact ⟨img, k, hbuf, hfrom.push hstop c a s⟩
  | @stop w γ c out before returns ih =>
      intro ev hev hreads hwrite
      rcases List.mem_cons.mp hev with rfl | hev
      · refine ⟨Nat.le_refl _, fun herr => ?_, fun herr => ?_, fun pos hpos =>
          returns.refused pos hpos hwrite⟩
        · obtain ⟨img, m, g₀, hbuf, hgot, hm, -⟩ := returns.looked hreads hwrite herr
          obtain ⟨hchecked, m', hmm, hmk, hactive, hgen, -, hdata⟩ :=
            trace_copied (unrecycled_position tab data) before hgot
          exact ⟨img, _, hbuf, m', hm.trans hmm, hmk, hactive,
            hgen.trans (hchecked _ rfl).symm, hdata, rfl⟩
        · obtain ⟨-, -, -, -, -, -, hpos⟩ := returns.looked hreads hwrite herr
          exact hpos
      · obtain ⟨hstop, hcopied, hasked, hrefused⟩ := ih ev hev hreads hwrite
        exact ⟨hstop, hcopied, hasked, hrefused⟩

/-- **The position of a reading handle denotes the row that was read.**  In every run of
handlers that meets the condition: the image a row read returns is that of the row at its
position, at some moment of the call, and a read by that reference returns an image of the
same row, which has not been recycled in between, or `HA_ERR_RECORD_DELETED`. -/
theorem position_denotes_row_read [DecidableEq (Image n W)] [DecidableEq (Handler n W PK)]
    (tab : TableCfg n W PK) (data : Int → Image n W) {h₀ : Nat → Handler n W PK}
    (hopened : Opened h₀)
    {c : Config (coreSig n W PK) (Share n W) (HandleOp n W PK) (Handler n W PK) (HandleOut n W PK)}
    (h : (handles tab).Reach RowStays (System.start (Share.fresh data) h₀) c)
    (hfew : ∀ i, recycles i c.world.past < 2 ^ 32) :
    ∀ ev ∈ c.world.log, ev.call.op.1.reads = true → ev.call.op.2.writeStmt = false →
    ev.out.1.err = none →
      ∃ img k, ev.out.1.buf = some img ∧ CopiedFrom c.world ev k img ∧
        ∀ ev' ∈ c.world.log, ev'.call.op.1.asked = some (fmSetPosition ev.out.2.file) →
          ev'.call.op.2.writeStmt = false → ev'.out.1.err = some .recordDeleted ∨
            ∃ img', ev'.out.1.err = none ∧ ev'.out.1.buf = some img' ∧
            CopiedFrom c.world ev' k img' := by
  obtain ⟨γ, htrace⟩ := (hosts_position tab data).trace hopened h
  have hsound := (hosts_position tab data).sound
  intro ev hev hreads hwrite herr
  have hanswered := trace_answered htrace ev hev hreads hwrite
  obtain ⟨img, k, hbuf, hfrom⟩ := hanswered.copied herr
  refine ⟨img, k, hbuf, hfrom, fun ev' hev' hasked hwrite' => ?_⟩
  have hanswered' := trace_answered htrace ev' hev' (reads_of_asked hasked) hwrite'
  obtain ⟨m, -, hm, hactive, hgen, -, rfl⟩ := hfrom
  have hnow := hm.trans hanswered.stop
  have hslot : (fmSetPosition ev.out.2.file).1 ≠ -1 :=
    ne_null_of_active_at hsound htrace hnow hactive
  rcases hanswered'.refused _ hasked hslot with herr' | hdeleted
  · right
    obtain ⟨img', k', hbuf', m', hstart', hm', hactive', hgen', hdata', -⟩ :=
      hanswered'.copied herr'
    have hpos := hanswered'.asked herr' _ hasked
    have hnow' := hm'.trans hanswered'.stop
    refine ⟨img', herr', hbuf', m', hstart', hm', hactive', hgen', hdata', ?_⟩
    -- both moments have the generation of the reference
    rw [← gen_eq_recyclesAt hsound htrace (hfew _) hnow',
      ← gen_eq_recyclesAt hsound htrace (hfew _) hnow, hgen', hgen, hpos]
  · exact Or.inl hdeleted

/-- A test of the condition, for runs without clears. -/
def rowStays (c : Call (HandleOp n W PK)) (a : Act n W) (w : HandleWorld n W PK) : Bool :=
  match a with
  | .storeState _ .free => false
  | .loadSeq i => decide (c.op.1.reads = true → c.op.2.writeStmt = false →
      refilled c.tid i w.past = false ∧ writesInAttempt c.tid i w.past < 2 ^ 31)
  | .loadGen i => decide (c.op.1.reads = true → c.op.2.writeStmt = false →
      (∀ pos ∈ c.op.1.asked, w.mem.gen i = pos.2) → ∀ look ∈ lastLook c.tid i w.past,
      w.mem.gen i = look.2.mem.gen i)
  | _ => true

/-- The decidable test of an access is enough. -/
theorem rowStays_of_rowStays {c : Call (HandleOp n W PK)} {a : Act n W} {w : HandleWorld n W PK}
    (h : rowStays c a w = true) : RowStays c a w := by
  constructor
  case flip =>
    rintro i rfl
    cases h
  case sample =>
    rintro hreads hwrite i rfl
    exact of_decide_eq_true h hreads hwrite
  case gen =>
    rintro hreads hwrite i rfl hasked m e hlook
    refine of_decide_eq_true h hreads hwrite (fun pos hpos => ?_) (m, e) hlook
    exact hasked pos.2 (by rw [Option.mem_def.mp hpos]; rfl)

/-- Handler 1 looks the row 5 up while handler 0 inserts the row 9, and reads it by its
reference while handler 0 deletes it.  Handler 0 then inserts the row 6, which gets the same
slot, and a second read by the reference finds the row deleted. -/
theorem position_denotes_row_read_one_row :
    ∃ c, (handles (wordHandlers 1)).Reach RowStays
        (System.start (Share.fresh fun _ _ => 0) fun _ => Handler.opened 0 fun _ => 0) c ∧
      (∀ i, recycles i c.world.past < 2 ^ 32) ∧
      ∃ ev ∈ c.world.log, ev.call.op.1.reads = true ∧ ev.call.op.2.writeStmt = false ∧
      ev.out.1.err = none ∧
        (∃ img k, ev.out.1.buf = some img ∧ CopiedFrom c.world ev k img ∧
          ∃ ev' ∈ c.world.log, ev'.call.op.1.asked = some (fmSetPosition ev.out.2.file) ∧
            (∃ del ∈ c.world.log, del.call.op.1.writes = true ∧ ev'.call.start < del.call.start ∧
              del.stop < ev'.stop) ∧
            ∃ img', ev'.out.1.buf = some img' ∧ CopiedFrom c.world ev' k img') ∧
        ∃ ev' ∈ c.world.log, ev'.call.op.1.asked = some (fmSetPosition ev.out.2.file) ∧
          ev'.out.1.err = some .recordDeleted := by
  let steps : List (Label (HandlerOp 1 Nat Nat)) :=
    [Label.call 0 .externalLockWrite 1, Label.call 0 (.writeRow none fun _ => 5) 44,
      Label.call 1 (.indexReadMap 0 5 fun _ => 0) 5, Label.call 0 (.writeRow none fun _ => 9) 5,
      Label.steps 1 4, Label.steps 0 12, Label.steps 1 2, Label.steps 0 7,
      Label.call 0 (.indexReadMap 0 5 fun _ => 0) 26, Label.call 1 (.rndPos (0, 0) fun _ => 0) 3,
      Label.call 0 (.deleteRow fun _ => 5) 28, Label.steps 1 4,
      Label.call 0 (.writeRow none fun _ => 6) 17,
      Label.call 1 (.rndPos (0, 0) fun _ => 0) 4].flatten
  have hrun : (System.replay (handlerSystem (wordHandlers 1) fun _ _ => true) rowStays
      (System.start (Share.fresh fun _ _ => 0) fun _ => Handler.opened 0 fun _ => 0) steps).any
        (fun c => decide (c.world.past.length < 200) && c.world.log.any fun ev =>
          decide (ev.call.op.1.reads = true ∧ ev.call.op.2.writeStmt = false ∧
            ev.out.1.err = none) &&
          (c.world.log.any fun ev' =>
            decide (ev'.call.op.1.asked = some (fmSetPosition ev.out.2.file) ∧
            ev'.call.op.2.writeStmt = false ∧ ev'.out.1.err ≠ some .recordDeleted) &&
            c.world.log.any fun del =>
              decide (del.call.op.1.writes = true ∧ ev'.call.start < del.call.start ∧
                del.stop < ev'.stop)) &&
          c.world.log.any fun ev' =>
            decide (ev'.call.op.1.asked = some (fmSetPosition ev.out.2.file) ∧
            ev'.out.1.err = some .recordDeleted)) = true := by
    decide +kernel
  obtain ⟨c, hc, hc'⟩ := (Option.any_eq_true _ _).mp hrun
  obtain ⟨hlen, hlog⟩ := (Bool.and_eq_true _ _).mp hc'
  obtain ⟨ev, hev, hboth⟩ := List.any_eq_true.mp hlog
  obtain ⟨hfirst, hgone⟩ := (Bool.and_eq_true _ _).mp hboth
  obtain ⟨hcall, hlog'⟩ := (Bool.and_eq_true _ _).mp hfirst
  obtain ⟨hreads, hwrite, herr⟩ := of_decide_eq_true hcall
  obtain ⟨ev', hev', hthere⟩ := List.any_eq_true.mp hlog'
  obtain ⟨hcall', hdeletes⟩ := (Bool.and_eq_true _ _).mp hthere
  obtain ⟨hasked, hwrite', hstays⟩ := of_decide_eq_true hcall'
  obtain ⟨del, hdel, hbetween⟩ := List.any_eq_true.mp hdeletes
  obtain ⟨gone, hgone, hdeleted⟩ := List.any_eq_true.mp hgone
  have hreach := System.Reach.of_replay (fun _ _ _ h => rowStays_of_rowStays h) _ steps hc
  have hfew : ∀ i, recycles i c.world.past < 2 ^ 32 := by
    intro i
    have hle := recycles_le i c.world.past
    have hlt := of_decide_eq_true hlen
    omega
  obtain ⟨img, k, hbuf, hfrom, hlater⟩ := position_denotes_row_read (wordHandlers 1) (fun _ _ => 0)
    (fun _ => ⟨_, _, rfl⟩) hreach hfew ev hev hreads hwrite herr
  obtain ⟨img', -, hbuf', hfrom'⟩ := (hlater ev' hev' hasked hwrite').resolve_left hstays
  exact ⟨c, hreach, hfew, ev, hev, hreads, hwrite, herr,
    ⟨img, k, hbuf, hfrom, ev', hev', hasked, ⟨del, hdel, of_decide_eq_true hbetween⟩,
      img', hbuf', hfrom'⟩,
    gone, hgone, of_decide_eq_true hdeleted⟩

/-- A slot recycled between the copy and the load of the generation.  Handler 1, outside a
write statement, looks the row 5 up and has copied its image; handler 0 deletes the row and
inserts the row 6, which gets the same slot; handler 1 loads the generation of the slot and
returns the row 5 with the position of the row 6, and the row 6 is what a read by this
reference returns. -/
theorem position_of_recycled_slot :
    ∃ c, (handles (wordHandlers 1)).Reach (fun _ _ _ => True)
        (System.start (Share.fresh fun _ _ => 0) fun _ => Handler.opened 0 fun _ => 0) c ∧
      (∀ i, recycles i c.world.past < 2 ^ 32) ∧
      ∃ ev ∈ c.world.log, ev.call.op.1.reads = true ∧ ev.call.op.2.writeStmt = false ∧
      ev.out.1.err = none ∧
        ∃ img, ev.out.1.buf = some img ∧ (∀ k, ¬ CopiedFrom c.world ev k img) ∧
          ∃ ev' ∈ c.world.log, ev.stop ≤ ev'.call.start ∧ ev'.call.op.1.asked = some
            (fmSetPosition ev.out.2.file) ∧ ev'.out.1.err = none ∧ ev'.out.1.buf ≠ some img := by
  let steps : List (Label (HandlerOp 1 Nat Nat)) :=
    [Label.call 0 .externalLockWrite 1, Label.call 0 (.writeRow none fun _ => 5) 44,
      Label.call 1 (.indexReadMap 0 5 fun _ => 0) 9,
      Label.call 0 (.indexReadMap 0 5 fun _ => 0) 19, Label.call 0 (.deleteRow fun _ => 5) 26,
      Label.call 0 (.writeRow none fun _ => 6) 17, Label.steps 1 2,
      Label.call 1 (.rndPos (0, 1) fun _ => 0) 7].flatten
  have hrun : (System.replay (handlerSystem (wordHandlers 1) fun _ _ => true) (fun _ _ _ => true)
      (System.start (Share.fresh fun _ _ => 0) fun _ => Handler.opened 0 fun _ => 0) steps).any
        (fun c => decide (c.world.past.length < 200) && c.world.log.any fun ev =>
          decide (ev.call.op.1.reads = true ∧ ev.call.op.2.writeStmt = false ∧
            ev.out.1.err = none) &&
          ev.out.1.buf.any fun img => decide (∀ m < ev.stop + 1, ev.call.start ≤ m →
            ¬ ((c.world.memAt m).state (fmSetPosition ev.out.2.file).1 = .active ∧
              (c.world.memAt m).gen (fmSetPosition ev.out.2.file).1 =
              (fmSetPosition ev.out.2.file).2 ∧
              (c.world.memAt m).data (fmSetPosition ev.out.2.file).1 = img)) &&
            c.world.log.any fun ev' => decide (ev.stop ≤ ev'.call.start ∧
              ev'.call.op.1.asked = some (fmSetPosition ev.out.2.file) ∧ ev'.out.1.err = none ∧
              ev'.out.1.buf ≠ some img)) = true := by
    decide +kernel
  obtain ⟨c, hc, hc'⟩ := (Option.any_eq_true _ _).mp hrun
  obtain ⟨hlen, hlog⟩ := (Bool.and_eq_true _ _).mp hc'
  obtain ⟨ev, hev, htest⟩ := List.any_eq_true.mp hlog
  obtain ⟨hcall, hbuf⟩ := (Bool.and_eq_true _ _).mp htest
  obtain ⟨hreads, hwrite, herr⟩ := of_decide_eq_true hcall
  obtain ⟨img, himg, hrest⟩ := (Option.any_eq_true _ _).mp hbuf
  obtain ⟨hnever, hlater⟩ := (Bool.and_eq_true _ _).mp hrest
  obtain ⟨ev', hev', htest'⟩ := List.any_eq_true.mp hlater
  refine ⟨c, System.Reach.of_replay (fun _ _ _ _ => trivial) _ steps hc, ?_, ev, hev, hreads,
    hwrite, herr, img, himg, ?_, ev', hev', of_decide_eq_true htest'⟩
  · intro i
    have hle := recycles_le i c.world.past
    have hlt := of_decide_eq_true hlen
    omega
  · rintro k ⟨m, hstart, hstop, hactive, hgen, hdata, -⟩
    exact of_decide_eq_true hnever m (Nat.lt_succ_of_le hstop) hstart ⟨hactive, hgen, hdata⟩

end FastMem
