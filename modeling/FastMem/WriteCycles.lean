import FastMem.AnyCalls
import FastMem.StoreIntegrity

/-!
# Write cycles and generations

Handlers change rows in cycles: lock, read again, update or delete, unlock.  Whatever else they
insert and look up meanwhile, the store is whole when they are done, and of two deletes of one
row at most one succeeds.  A row is known by its slot and its generation here, which is a counter
of 32 bits: when a slot has been recycled `2 ^ 32` times its generation comes round again, and
then a delete of the same slot and generation succeeds once more.
-/

namespace FastMem

open Conc

section

variable {n : Nat} {W PK : Type} [DecidableEq (Image n W)] {cfg : ShareCfg n W PK}
  {data : Int → Image n W}
  {c : Config (coreSig n W PK) (Share n W) (CoreOp n W PK) (Session n W) (CoreOut n W)}

/-- **Write cycles keep the store.**  With inserts, lookups and write cycles in any interleaving,
the store is whole whenever no call is in progress, and two deletes of one slot and generation
succeed only if the slot has been recycled `2 ^ 32` times in between. -/
theorem cycles_keep_store (hhash : HashRespects cfg) (hkeys : cfg.keys ≤ 64)
    (h : (coreSystem cfg CoreOp.cycling).Reach (fun _ _ _ => True)
      (System.start (Share.fresh data) fun _ => Session.empty) c) :
    ((∀ t, ∃ l, c.thr t = .idle l) → Whole cfg c.world.mem) ∧
      c.world.log.Pairwise fun later earlier => ∀ idx v, DeletesRow idx v later →
        DeletesRow idx v earlier →
        recyclesAt c.world idx (min earlier.call.start later.call.start) + 2 ^ 32 ≤
          recyclesAt c.world idx later.stop := by
  have hserves := serves_cycling data hhash hkeys
  refine ⟨fun hrest => ?_, ?_⟩
  · obtain ⟨γ, htrace, hidle⟩ := hserves.trace h
    refine cycling_whole htrace fun t => ?_
    obtain ⟨l, hl⟩ := hrest t
    exact (hidle t l hl).phase_eq
  · exact deletes_apart hserves (cyclingSetting_sound cfg data) (fun _ _ _ hended => hended) h

end

/-- A row is inserted in slot 0, locked, read again and deleted while another one is inserted, and
so is a second one in its place. -/
theorem cycles_keep_store_recycled_slot :
    ∃ c, (coreSystem (wordTable 1) CoreOp.cycling).Reach (fun _ _ _ => True)
        (System.start (Share.fresh fun _ _ => 0) fun _ => Session.empty) c ∧
      (∃ ev ∈ c.world.log, DeletesRow 0 0 ev) ∧ (∃ ev ∈ c.world.log, DeletesRow 0 1 ev) ∧
      c.world.mem.records = 1 ∧ Whole (wordTable 1) c.world.mem ∧
      c.world.log.Pairwise fun later earlier => ∀ idx v, DeletesRow idx v later →
        DeletesRow idx v earlier →
        recyclesAt c.world idx (min earlier.call.start later.call.start) + 2 ^ 32 ≤
          recyclesAt c.world idx later.stop := by
  let steps : List (Label (CoreOp 1 Nat Nat)) :=
    [Label.call 0 (.insertRow (fun _ => 7) fun _ => 0) 43, Label.call 0 (.lockRow 0) 2,
      Label.call 0 (.reread 0 fun _ => 0) 8,
      Label.call 1 (.insertRow (fun _ => 3) fun _ => 0) 15,
      Label.call 0 (.deleteRowLocked 0 0 fun _ => 0) 4, Label.steps 1 8, Label.steps 0 17,
      Label.call 0 (.unlockRow 0) 2,
      Label.call 0 (.insertRow (fun _ => 9) fun _ => 0) 16, Label.call 0 (.lockRow 0) 2,
      Label.call 0 (.reread 0 fun _ => 0) 8,
      Label.call 0 (.deleteRowLocked 0 1 fun _ => 0) 19, Label.call 0 (.unlockRow 0) 2].flatten
  have hrun : (System.schedule (coreSystem (wordTable 1) CoreOp.cycling)
      (System.start (Share.fresh fun _ _ => 0) fun _ => Session.empty) steps).any
        (fun c => c.world.log.any (deletesRow 0 0) && c.world.log.any (deletesRow 0 1) &&
          (decide (c.world.mem.records = 1) && (isIdle c 0 && isIdle c 1))) = true := by
    decide +kernel
  obtain ⟨c, hc, hlog⟩ := (Option.any_eq_true _ _).mp hrun
  obtain ⟨hdeletes, hrest⟩ := Bool.and_eq_true_iff.mp hlog
  obtain ⟨hfirst, hsecond⟩ := Bool.and_eq_true_iff.mp hdeletes
  obtain ⟨hrecords, hidle⟩ := Bool.and_eq_true_iff.mp hrest
  obtain ⟨ev, hev, hdel⟩ := List.any_eq_true.mp hfirst
  obtain ⟨ev', hev', hdel'⟩ := List.any_eq_true.mp hsecond
  have hreach := System.Reach.of_schedule _ _ steps hc
  have hidles := idle_of_schedule hc (by decide +kernel) (Bool.and_eq_true_iff.mp hidle)
  obtain ⟨hwhole, hapart⟩ := cycles_keep_store (hashRespects_wordTable 1) (by decide) hreach
  exact ⟨c, hreach, ⟨ev, hev, deletesRow_of_deletesRow hdel⟩,
    ⟨ev', hev', deletesRow_of_deletesRow hdel'⟩, of_decide_eq_true hrecords, hwhole hidles, hapart⟩

/-- Slot 0 is empty and the next to be used, its generation is `v`, and no lock is held on it. -/
structure NextUp (v : Nat) (s : Share 1 Nat) : Prop where
  head : s.freeHead = 0
  gen : s.gen 0 = v
  even : s.seq 0 % 2 = 0
  mutex : s.owner .mutex = none
  row : s.owner (.row 0) = none

/-- The row in slot 0, of generation `v`, and no lock held on it. -/
structure RowThere (v : Nat) (s : Share 1 Nat) : Prop where
  active : s.state 0 = .active
  gen : s.gen 0 = v
  even : s.seq 0 % 2 = 0
  mutex : s.owner .mutex = none
  row : s.owner (.row 0) = none

/-- An insert fills it. -/
theorem NextUp.insert {v : Nat} {s : Share 1 Nat} (h : NextUp v s) (rec b : Image 1 Nat) :
    ∃ s', (machine (wordTable 0)).Runs 0 (insertRow (wordTable 0) rec b) s ⟨.ok, some 0, none⟩ s' ∧
      RowThere v s' := by
  let s₁ : Share 1 Nat := { s with
    mutex := some 0, freeNext := s.freeNext, freeHead := s.freeNext 0
    data := Function.update s.data 0 rec }
  let s₂ : Share 1 Nat := { s₁ with
    state := Function.update s.state 0 .active, records := s.records + 1, mutex := none }
  refine ⟨s₂, ?_, rfl, h.gen, h.even, rfl, h.row⟩
  refine runs_access (exec_lock h.mutex) ?_
  refine runs_then (runs_allocSlot_pop (s := s.setOwner (some 0) .mutex) h.head (by decide) 0) ?_
  rw [if_neg (by decide)]
  have hcommit : (machine (wordTable 0)).Runs 0
      (do
        access (.storeState 0 .active)
        access (.addRecords 1)
        access (.unlock .mutex)
        pure ⟨.ok, some 0, none⟩ : Core 1 Nat Nat WriteResult) s₁ ⟨.ok, some 0, none⟩ s₂ :=
    runs_access rfl (runs_access rfl (runs_access rfl runs_pure))
  exact runs_then (runs_copyIn_all 0 rec) (runs_then runs_pure hcommit)

/-- A delete that holds the row lock empties it, and the generation goes up by one. -/
theorem RowThere.delete {v : Nat} {s : Share 1 Nat} (h : RowThere v s) (b : Image 1 Nat) :
    ∃ s', (machine (wordTable 0)).Runs 0 (deleteRowLocked (wordTable 0) 0 v b)
        (s.setOwner (some 0) (.row 0)) .ok s' ∧
      NextUp ((v + 1) % 2 ^ 32) (s'.setOwner none (.row 0)) := by
  let s₁ : Share 1 Nat := { s.setOwner (some 0) (.row 0) with
    state := Function.update (Function.update s.state 0 .deleting) 0 .deleted
    gen := Function.update s.gen 0 ((s.gen 0 + 1) % 2 ^ 32), records := s.records - 1 }
  let s₂ : Share 1 Nat := { s₁ with
    mutex := none, freeNext := Function.update s.freeNext 0 s.freeHead, freeHead := 0 }
  refine ⟨s₂, ?_, ?_⟩
  · refine runs_then (runs_verifySlot 0 v) ?_
    rw [if_pos (decide_eq_true ⟨h.active, h.gen⟩)]
    refine runs_access rfl (runs_then (runs_copyOut_all 0 b) (runs_then runs_pure ?_))
    have hfree : (machine (wordTable 0)).Runs 0
        (do
          access (.lock .mutex)
          freeSlot 0
          access (.unlock .mutex)
          pure .ok : Core 1 Nat Nat Rc) s₁ .ok s₂ :=
      runs_access (exec_lock h.mutex) (runs_then (runs_freeSlot 0) (runs_access rfl runs_pure))
    exact runs_access rfl (runs_access rfl (runs_access rfl hfree))
  · constructor
    case head => rfl
    case gen =>
      rw [← h.gen]
      rfl
    case even => exact h.even
    case mutex => rfl
    case row => rfl

/-- The threads of which the first has session `l` and the others have done nothing. -/
def firstAt (l : Session 1 Nat) (t : Nat) :
    Thread (coreSig 1 Nat Nat) (CoreOp 1 Nat Nat) (Session 1 Nat) (CoreOut 1 Nat) :=
  .idle (if t = 0 then l else Session.empty)

/-- Write cycles on a table without keys have led to `c`, where the first thread has session
`l`, the others have done nothing, and no call is in progress. -/
structure Cycled (c : Config (coreSig 1 Nat Nat) (Share 1 Nat) (CoreOp 1 Nat Nat) (Session 1 Nat)
    (CoreOut 1 Nat)) (l : Session 1 Nat) (s : Share 1 Nat) : Prop where
  reach : (coreSystem (wordTable 0) CoreOp.cycling).Reach (fun _ _ _ => True)
    (System.start (Share.fresh fun _ _ => 0) fun _ => Session.empty) c
  thr : c.thr = firstAt l
  mem : c.world.mem = s

section

variable {c : Config (coreSig 1 Nat Nat) (Share 1 Nat) (CoreOp 1 Nat Nat) (Session 1 Nat)
  (CoreOut 1 Nat)} {v : Nat} {l l' : Session 1 Nat} {s s' : Share 1 Nat}

/-- The first thread makes one more call. -/
theorem Cycled.call (h : Cycled c l s) (op : CoreOp 1 Nat Nat) {x : CoreOut 1 Nat}
    (hmay : op.cycling l = true)
    (hruns : (machine (wordTable 0)).Runs 0 (op.code (wordTable 0) l) s (x, l') s') :
    ∃ d ev, Cycled d l' s' ∧ d.world.log = ev :: c.world.log ∧ ev.call.op = op ∧ ev.out = x := by
  obtain ⟨hreach, hthr, rfl⟩ := h
  obtain ⟨d, hd, hthr', hmem, hlog⟩ := hreach.call_alone (by rw [hthr]; rfl) hmay hruns
  refine ⟨d, _, ⟨hd, ?_, hmem⟩, hlog, rfl, rfl⟩
  rw [hthr', hthr]
  funext t
  by_cases ht : t = 0
  · subst ht
    rfl
  · simp [firstAt, ht]

/-- It inserts a row into slot 0, locks it, reads it again, deletes it and unlocks it. -/
theorem Cycled.cycle (h : Cycled c Session.empty s)
    (hinsert : (machine (wordTable 0)).Runs 0
      (insertRow (wordTable 0) (fun _ => 7) fun _ => 0) s ⟨.ok, some 0, none⟩ s')
    (hrow : RowThere v s') :
    ∃ d s₁ newer, Cycled d Session.empty s₁ ∧ NextUp ((v + 1) % 2 ^ 32) s₁ ∧
      d.world.log = newer ++ c.world.log ∧ ∃ ev ∈ newer, DeletesRow 0 v ev := by
  obtain ⟨s₁, hdelete, hnext⟩ := hrow.delete fun _ => 0
  obtain ⟨c₁, ev₁, h₁, hlog₁, -⟩ := h.call (.insertRow (fun _ => 7) fun _ => 0) rfl
    (runs_then hinsert runs_pure)
  obtain ⟨c₂, ev₂, h₂, hlog₂, -⟩ := h₁.call (.lockRow 0) rfl
    (runs_access (exec_lock hrow.row) runs_pure)
  have hread : (machine (wordTable 0)).Runs 0 (readRow 0 true v fun _ => 0)
      (s'.setOwner (some 0) (.row 0)) (.ok, s'.data 0) (s'.setOwner (some 0) (.row 0)) :=
    runs_readRow (s := s'.setOwner (some 0) (.row 0)) hrow.even hrow.active (fun _ => hrow.gen) _
  have hreread : (machine (wordTable 0)).Runs 0 (reread 0 fun _ => 0)
      (s'.setOwner (some 0) (.row 0)) (.ok, s'.data 0, v) (s'.setOwner (some 0) (.row 0)) := by
    refine runs_access rfl ?_
    rw [show (s'.setOwner (some 0) (.row 0)).gen 0 = v from hrow.gen]
    exact runs_then hread runs_pure
  obtain ⟨c₃, ev₃, h₃, hlog₃, -⟩ := h₂.call (.reread 0 fun _ => 0) rfl
    (runs_then hreread runs_pure)
  obtain ⟨c₄, ev₄, h₄, hlog₄, hop, hout⟩ := h₃.call (.deleteRowLocked 0 v fun _ => 0)
    (by simp [CoreOp.cycling]) (runs_then hdelete runs_pure)
  obtain ⟨c₅, ev₅, h₅, hlog₅, -⟩ := h₄.call (.unlockRow 0) rfl
    (runs_access rfl runs_pure)
  refine ⟨c₅, _, [ev₅, ev₄, ev₃, ev₂, ev₁], h₅, hnext, ?_, ev₄, by simp, ⟨_, Or.inr hop⟩, hout⟩
  rw [hlog₅, hlog₄, hlog₃, hlog₂, hlog₁]
  rfl

/-- After `n` cycles the generation of the slot is `n` more. -/
theorem Cycled.cycles (n : Nat) (h : Cycled c Session.empty s) (hnext : NextUp v s)
    (hv : v < 2 ^ 32) :
    ∃ d s' newer, Cycled d Session.empty s' ∧ NextUp ((v + n) % 2 ^ 32) s' ∧
      d.world.log = newer ++ c.world.log := by
  induction n with
  | zero => exact ⟨c, s, [], h, by rwa [Nat.add_zero, Nat.mod_eq_of_lt hv], rfl⟩
  | succ n ih =>
      obtain ⟨d, s', newer, hd, hnext', hlog⟩ := ih
      obtain ⟨s'', hinsert, hrow⟩ := hnext'.insert (fun _ => 7) fun _ => 0
      obtain ⟨e, s₁, newer', he, hnext₁, hlog', -⟩ := hd.cycle hinsert hrow
      refine ⟨e, s₁, newer' ++ newer, he, ?_, by rw [hlog', hlog, List.append_assoc]⟩
      rwa [Nat.mod_add_mod, Nat.add_assoc] at hnext₁

/-- The first insert takes slot 0 of the first chunk. -/
theorem first_insert : ∃ s, (machine (wordTable 0)).Runs 0
    (insertRow (wordTable 0) (fun _ => 7) fun _ => 0) (Share.fresh fun _ _ => 0)
      ⟨.ok, some 0, none⟩ s ∧ RowThere 0 s := by
  have hrun : ((machine (wordTable 0)).eval 0 60
      (insertRow (wordTable 0) (fun _ => 7) fun _ => 0) (Share.fresh fun _ _ => 0)).any
        (fun x => decide (x.1 = ⟨.ok, some 0, none⟩ ∧ x.2.state 0 = .active ∧ x.2.gen 0 = 0 ∧
          x.2.seq 0 % 2 = 0 ∧ x.2.owner .mutex = none ∧ x.2.owner (.row 0) = none)) = true := by
    decide +kernel
  obtain ⟨⟨x, s⟩, heval, hs⟩ := (Option.any_eq_true _ _).mp hrun
  obtain ⟨rfl, hactive, hgen, heven, hmutex, hrow⟩ := of_decide_eq_true hs
  exact ⟨s, .of_eval heval, hactive, hgen, heven, hmutex, hrow⟩

end

/-- After `2 ^ 32` cycles the generation of the slot is 0 again: two deletes of slot 0 and
generation 0 have succeeded. -/
theorem row_deleted_again_after_wrap :
    ∃ c, (coreSystem (wordTable 0) CoreOp.cycling).Reach (fun _ _ _ => True)
        (System.start (Share.fresh fun _ _ => 0) fun _ => Session.empty) c ∧
      (∀ t, ∃ l, c.thr t = .idle l) ∧
      ¬ c.world.log.Pairwise fun later earlier =>
        ¬ (DeletesRow 0 0 later ∧ DeletesRow 0 0 earlier) := by
  have h₀ : Cycled (System.start (Share.fresh fun _ _ => 0) fun _ => Session.empty)
      Session.empty (Share.fresh fun _ _ => 0) :=
    ⟨.refl, by funext t; simp [System.start, firstAt], rfl⟩
  obtain ⟨s, hinsert, hrow⟩ := first_insert
  obtain ⟨c₁, s₁, newer₁, h₁, hnext₁, hlog₁, ev, hev, hdel⟩ := h₀.cycle hinsert hrow
  obtain ⟨c₂, s₂, newer₂, h₂, hnext₂, hlog₂⟩ := h₁.cycles (2 ^ 32 - 1) hnext₁ (by decide)
  obtain ⟨s', hinsert', hrow'⟩ := hnext₂.insert (fun _ => 7) fun _ => 0
  obtain ⟨c₃, s₃, newer₃, h₃, -, hlog₃, ev', hev', hdel'⟩ := h₂.cycle hinsert' hrow'
  refine ⟨c₃, h₃.reach, fun t => ⟨_, by rw [h₃.thr]; rfl⟩, fun hlog => ?_⟩
  rw [hlog₃, List.pairwise_append] at hlog
  refine hlog.2.2 ev' hev' ev ?_ ⟨hdel', hdel⟩
  rw [hlog₂, hlog₁]
  exact List.mem_append_right _ (List.mem_append_left _ hev)

end FastMem
