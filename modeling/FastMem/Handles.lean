import FastMem.HandlerReads
import FastMem.Reads

/-!
# Runs of handlers

Threads that drive one handler each, through any calls in any order, with a history
that keeps the handler before and after each call.  Every such run has a trace, and
what a row read leaves in the role of its thread is known when the call returns: in a
write statement all about the row it has locked, outside one the read that delivered
the image.
-/

namespace FastMem

open Conc

variable {n : Nat} {W PK : Type}

/-- A call and the handler it is made on. -/
abbrev HandleOp (n : Nat) (W PK : Type) := HandlerOp n W PK × Handler n W PK

/-- What a call returns and the handler it leaves. -/
abbrev HandleOut (n : Nat) (W PK : Type) := HandlerOut n W × Handler n W PK

/-- A setting whose calls are those of handlers. -/
abbrev HandleSetting (n : Nat) (W PK : Type) := Setting n W PK (HandleOp n W PK) (HandleOut n W PK)

/-- A share with the history of the handlers on it. -/
abbrev HandleWorld (n : Nat) (W PK : Type) := CoreWorld n W PK (HandleOp n W PK) (HandleOut n W PK)

/-- Handlers that make any calls, with their history. -/
@[reducible] def handles [DecidableEq (Image n W)] [DecidableEq (Handler n W PK)]
    (tab : TableCfg n W PK) :
    System (coreSig n W PK) (Share n W) (HandleOp n W PK) (Handler n W PK) (HandleOut n W PK) :=
  (handlerSystem tab fun _ _ => true).recording

/-- The row reads that position a handle. -/
def HandlerOp.reads : HandlerOp n W PK → Bool
  | .indexReadMap .. | .indexReadLastMap .. | .indexReadIdxMap .. | .indexNext _ |
    .rndNext _ | .rndPos ..
  | .findUniqueRow .. => true
  | _ => false

/-- The row writes. -/
def HandlerOp.writes : HandlerOp n W PK → Bool
  | .writeRow .. | .updateRow .. | .deleteRow .. => true
  | _ => false

/-- The position a row read is asked for, if it is asked for one. -/
def HandlerOp.asked : HandlerOp n W PK → Option (Int × Nat)
  | .rndPos pos _ => some pos
  | _ => none

/-- A call that is asked for a position is a read. -/
theorem reads_of_asked {o : HandlerOp n W PK} {pos : Int × Nat} (h : o.asked = some pos) :
    o.reads = true := by
  cases o with
  | rndPos => rfl
  | _ => cases h

/-- What the role of a thread says when one of its calls returns: `asks` is what the
call wants of the row in a write statement, `N` what is known of slots whose generation
was loaded. -/
structure Finished (asks : HandleOp n W PK → Nat → Image n W → Prop)
    (N : HandleOp n W PK → Int → Prop) (c : Call (HandleOp n W PK)) (out : HandleOut n W PK)
    (g : Role n W) : Prop where
  since : g.since = c.start
  pinned : c.op.1.reads = true → c.op.2.writeStmt = true → out.1.err = none →
    ∃ img, out.1.buf = some img ∧ ReadBack (asks c.op) (N c.op) out.2 img g ∧
      ∀ pos, c.op.1.asked = some pos → out.2.file.currentSlot = pos.1
  looked : c.op.1.reads = true → c.op.2.writeStmt = false → out.1.err = none →
    ∃ img m g₀, out.1.buf = some img ∧
      g.read = .got out.2.file.currentSlot m g₀ (some out.2.file.currentGen) img ∧ c.start ≤ m ∧
      ∀ pos, c.op.1.asked = some pos → fmSetPosition out.2.file = pos
  refused : ∀ pos, c.op.1.asked = some pos → c.op.2.writeStmt = false → pos.1 ≠ -1 →
    out.1.err = none ∨ out.1.err = some .recordDeleted

/-- What a setting must provide for the calls of handlers. -/
structure Hosts (T : HandleSetting n W PK) (tab : TableCfg n W PK)
    (asks : HandleOp n W PK → Nat → Image n W → Prop) (N : HandleOp n W PK → Int → Prop) :
    Prop where
  cfg : T.cfg = tab.toShareCfg
  sound : T.Sound
  kinds : ∀ k, T.kinds k ↔ k ≠ .index
  publish : ∀ c w i img, T.commits c w (.publish i img)
  write : ∀ c w i old new, T.commits c w (.write i old new)
  mark : ∀ c w i, T.commits c w (.mark i)
  looks : ∀ c, c.op.1.reads = true → c.op.2.writeStmt = false → ∀ i,
    T.Reads c (c.op.1.asked.map Prod.snd) i
  flip : ∀ c w i, T.meets c (.storeState i .free) w → T.commits c w (.flip i)
  pins : ∀ c, c.op.1.reads = true → c.op.2.writeStmt = true → T.Pins c (asks c.op)
  slots : ∀ c w i, T.meets c (.loadGen i) w → N c.op i
  returns : ∀ c out g, Finished asks N c out g → T.returns c out g

variable {T : HandleSetting n W PK} {tab : TableCfg n W PK}
  {asks : HandleOp n W PK → Nat → Image n W → Prop} {N : HandleOp n W PK → Int → Prop}
  {h : Handler n W PK} {g g' : Role n W}
    {t st m : Nat} {Loc : Type}
  {Idle : Loc → Role n W → Prop}

/-- A call that is not a row read. -/
theorem finished_plain {o : HandlerOp n W PK} {x : HandleOut n W PK} (hback : Back g x.2 g')
    (hsince : g.since = st) (ho : o.reads = false) :
    Finished asks N ⟨t, (o, h), st⟩ x g' ∧ AtHome x.2 g' := by
  refine ⟨⟨hback.since.trans hsince, ?_, ?_, ?_⟩, hback.home⟩
  · intro hreads
    rw [ho] at hreads
    cases hreads
  · intro hreads
    rw [ho] at hreads
    cases hreads
  · intro pos hpos
    have hreads := reads_of_asked hpos
    simp only at hreads
    rw [ho] at hreads
    cases hreads

/-- A row read in a write statement. -/
theorem finished_write {o : HandlerOp n W PK} {x : HandleOut n W PK} {S : Int → Prop}
    (hends : ReadEnds (asks (o, h)) (N (o, h)) S h.writeStmt g x g') (hwrite : h.writeStmt = true)
    (hS : ∀ i, S i → ∀ pos, o.asked = some pos → i = pos.1) (hsince : g.since = st) :
    Finished asks N ⟨t, (o, h), st⟩ x g' ∧ AtHome x.2 g' := by
  obtain ⟨hback, hok⟩ := hends
  refine ⟨⟨hback.since.trans hsince, ?_, ?_, ?_⟩, hback.home⟩
  · intro _ _ herr
    obtain ⟨img, hbuf, hrow, hslot⟩ := hok hwrite herr
    exact ⟨img, hbuf, hrow, hS _ hslot⟩
  · intro _ hnot
    simp only at hnot
    rw [hwrite] at hnot
    cases hnot
  · intro _ _ hnot
    simp only at hnot
    rw [hwrite] at hnot
    cases hnot

/-- A row read outside a write statement. -/
theorem finished_look {o : HandlerOp n W PK} {x : HandleOut n W PK}
    {S : Option HaErr → Int × Nat → Prop} (hends : LookEnds S g x g') (hwrite : h.writeStmt = false)
    (hS : ∀ err ref, S err ref → ∀ pos, o.asked = some pos → AnswersRef pos err ref)
    (hsince : g.since = st) : Finished asks N ⟨t, (o, h), st⟩ x g' ∧ AtHome x.2 g' := by
  obtain ⟨hhome, hsame, hpos, hok⟩ := hends
  refine ⟨⟨hsame.trans hsince, ?_, ?_, ?_⟩, hhome⟩
  · intro _ hnot
    simp only at hnot
    rw [hwrite] at hnot
    cases hnot
  · intro _ _ herr
    obtain ⟨img, m₀, g₀, hbuf, hgot, hm⟩ := hok herr
    exact ⟨img, m₀, g₀, hbuf, hgot, hsince ▸ hm, fun pos hasked => (hS _ _ hpos pos hasked).1 herr⟩
  · exact fun pos hasked _ => (hS _ _ hpos pos hasked).2

section

variable (hT : Hosts T tab asks N) (hhome : AtHome h g) (hsince : g.since = st)
  (hread : g.read = .none)

include hT hhome hsince hread in
/-- A row read, in and outside write statements, `S` being what is known of the position its
lookup has left. -/
theorem follows_rowRead {o : HandlerOp n W PK} {p : Core n W PK (HandlerOut n W × Handler n W PK)}
    {S : Option HaErr → Int × Nat → Prop} (ho : o.reads = true)
    (hp : RowRead T Idle ⟨t, (o, h), st⟩ (o.asked.map Prod.snd) h S g p)
    (hS : ∀ err ref, S err ref → ∀ pos, o.asked = some pos → AnswersRef pos err ref) :
    Follows T Idle ⟨t, (o, h), st⟩ m p
      (fun x g' => Finished asks N ⟨t, (o, h), st⟩ x g' ∧ AtHome x.2 g') g := by
  cases hwrite : h.writeStmt with
  | true =>
      have hslot : ∀ ref, S none ref → ∀ pos, o.asked = some pos → ref.1 = pos.1 := by
        intro ref href pos hasked
        rw [(hS none ref href pos hasked).1 rfl]
      refine (hp.ends (R := fun i => ∀ pos, o.asked = some pos → i = pos.1) hT.sound
        (hT.pins ⟨t, (o, h), st⟩ ho) (hT.slots _) hhome hread hsince hslot).weaken ?_
      exact fun x g' hends => finished_write hends hwrite (fun _ hi => hi) hsince
  | false =>
      refine (hp.looked (hT.looks _ ho hwrite) hwrite hhome hsince).weaken ?_
      exact fun x g' hends => finished_look hends hwrite hS hsince

include hT hhome hsince hread in
/-- The reads by key. -/
theorem follows_code_indexRead {o : HandlerOp n W PK} (ho : o.reads = true)
    (hasked : o.asked = none) (index : Nat) (key : PK) (buf : Image n W) :
    Follows T Idle ⟨t, (o, h), st⟩ m (indexRead tab index key buf h)
      (fun x g' => Finished asks N ⟨t, (o, h), st⟩ x g' ∧ AtHome x.2 g') g := by
  refine follows_rowRead hT hhome hsince hread ho (S := fun _ _ => True) ?_ ?_
  · rw [hasked]
    exact rowRead_indexRead hhome hsince index key buf
  · intro err ref _ pos hpos
    rw [hasked] at hpos
    cases hpos

include hT hhome hsince hread in
/-- **Every call follows the protocol** and leaves its handler at home. -/
theorem follows_handler_code [DecidableEq (Image n W)] (o : HandlerOp n W PK) :
    Follows T Idle ⟨t, (o, h), st⟩ m (o.code tab h)
      (fun x g' => Finished asks N ⟨t, (o, h), st⟩ x g' ∧ AtHome x.2 g') g := by
  have hkinds : ∀ {k}, k ≠ Kind.index → T.kinds k := fun hk => (hT.kinds _).mpr hk
  have hindexed : T.Indexed := fun hk => absurd rfl ((hT.kinds _).mp hk)
  -- a handler that only changes its own fields
  have hown : ∀ h' : Handler n W PK, h'.rowStack = h.rowStack → Back g h' g := fun h' hstack =>
    ⟨⟨hhome.rest, hhome.locks.trans hstack.symm, hhome.phase⟩, rfl, rfl⟩
  cases o with
  | externalLockWrite => exact follows_pure (finished_plain (hown _ rfl) hsince rfl)
  | externalLockUnlock =>
      exact (follows_externalUnlock hhome).weaken fun x g' hback => finished_plain hback hsince rfl
  | indexReadMap index key buf =>
      exact follows_code_indexRead hT hhome hsince hread rfl rfl index key buf
  | indexReadLastMap index key buf =>
      exact follows_code_indexRead hT hhome hsince hread rfl rfl index key buf
  | indexReadIdxMap index key buf =>
      exact follows_code_indexRead hT hhome hsince hread rfl rfl index key buf
  | indexNext buf =>
      exact follows_rowRead hT hhome hsince hread rfl (rowRead_indexNext hhome hsince buf) nofun
  | rndInit scan => exact (follows_rndInit hhome scan).weaken fun x g' hback =>
      finished_plain hback hsince rfl
  | rndNext buf =>
      exact follows_rowRead hT hhome hsince hread rfl (rowRead_rndNext hsince buf) nofun
  | rndPos pos buf =>
      refine follows_rowRead hT hhome hsince hread rfl (rowRead_rndPos hsince pos buf) ?_
      intro err ref hanswer pos' hpos
      cases hpos
      exact hanswer
  | findUniqueRow index record =>
      exact follows_rowRead hT hhome hsince hread rfl
        (rowRead_findUniqueRow hhome hsince index record) nofun
  | writeRow auto rec =>
      refine (follows_writeRow hT.cfg hT.sound hhome hread (hkinds nofun) (hT.publish _)
        auto rec).weaken ?_
      exact fun x g' hback => finished_plain hback hsince rfl
  | updateRow old new =>
      refine (follows_handlerUpdateRow hT.cfg hhome hread old new
        fun g₁ hrow hrest _ => ?_).weaken ?_
      · exact follows_updateRowLocked hindexed (hkinds nofun) _ _ old new _ hrow hrest
          (fun _ _ _ _ _ _ _ => hT.write _ _ _ _ _) fun _ => hT.publish _ _ _ _
      · exact fun x g' hback => finished_plain hback hsince rfl
  | deleteRow old =>
      refine (follows_handlerDeleteRow hT.cfg hhome hread old fun g₁ hrow hrest _ => ?_).weaken ?_
      · refine (follows_deleteRowLocked hT.sound (hkinds nofun) _ _ _ hrow hrest
          fun _ _ _ _ _ _ _ => hT.mark _ _ _).weaken ?_
        exact fun _ _ hleft => hleft.1
      · exact fun x g' hback => finished_plain hback hsince rfl
  | deleteAllRows =>
      refine (follows_deleteAllRows hT.cfg hT.sound hhome hread (hkinds nofun)
        (hT.flip _)).weaken ?_
      exact fun x g' hback => finished_plain hback hsince rfl
  | reset => exact (follows_handlerReset hhome).weaken fun x g' hback =>
      finished_plain hback hsince rfl
  | setReadCheck on => exact follows_pure (finished_plain (hown _ rfl) hsince rfl)
  | resetState => exact follows_pure (finished_plain (hown _ rfl) hsince rfl)

end

/-- A handle that has just been opened is at home. -/
theorem opened_atHome (lastkey : PK) (scratch : Image n W) :
    AtHome (Handler.opened lastkey scratch) (Role.init : Role n W) :=
  ⟨⟨rfl, rfl, rfl, rfl, rfl, rfl, rfl, rfl⟩, rfl, Or.inl rfl⟩

/-- Handles that have just been opened. -/
def Opened (h₀ : Nat → Handler n W PK) : Prop :=
  ∀ t, ∃ lastkey scratch, h₀ t = Handler.opened lastkey scratch

/-- **Every run of handlers has a trace.** -/
theorem Hosts.trace [DecidableEq (Image n W)] [DecidableEq (Handler n W PK)]
    (hT : Hosts T tab asks N) {h₀ : Nat → Handler n W PK} (hopened : Opened h₀)
    {c : Config (coreSig n W PK) (Share n W) (HandleOp n W PK) (Handler n W PK) (HandleOut n W PK)}
    (h : (handles tab).Reach T.meets (System.start T.share h₀) c) : ∃ γ, T.Trace c.world γ := by
  obtain ⟨cfg, kinds, commits, returns, meets, share⟩ := T
  obtain rfl : cfg = tab.toShareCfg := hT.cfg
  let T : HandleSetting n W PK := ⟨tab.toShareCfg, kinds, commits, returns, meets, share⟩
  have hhome : ∀ t, AtHome (h₀ t) (Role.init : Role n W) := by
    intro t
    obtain ⟨lastkey, scratch, heq⟩ := hopened t
    rw [heq]
    exact opened_atHome lastkey scratch
  have hcalls : ∀ t o h w γ m, T.Trace w γ → AtHome h (γ t) → (handles tab).may o h = true →
      Follows T (@AtHome n W PK) ⟨t, o, w.now⟩ m ((handles tab).code o h)
        (fun x g => T.returns ⟨t, o, w.now⟩ x.1 g ∧ AtHome x.2 g) (T.rules.start w.now (γ t)) := by
    intro t o h w γ m _ hγ hmay
    obtain ⟨o, h'⟩ := o
    have heq : h' = h := by
      simp only [Bool.and_true, decide_eq_true_eq] at hmay
      exact hmay
    subst heq
    have hstart : AtHome h' (T.rules.start w.now (γ t)) :=
      ⟨⟨hγ.rest.walk, hγ.rest.dup, hγ.rest.checked, hγ.rest.free,
      hγ.rest.chunk, hγ.rest.extra, hγ.rest.flipped, rfl⟩, hγ.locks, hγ.phase⟩
    refine Follows.then (follows_handler_code hT hstart rfl rfl o) ?_
    rintro x g ⟨hfinished, hx⟩
    exact follows_pure ⟨hT.returns _ _ _ hfinished, hx⟩
  obtain ⟨γ, htrace, -⟩ := System.reach_trace hhome hcalls h 0
  exact ⟨γ, htrace⟩

end FastMem
