import FastMem.ChainSteps
import FastMem.DeletedOnce
import FastMem.RowCount
import FastMem.SeqInvariant

/-!
# The store under handlers

Handlers change rows in cycles: they take the wlock of a slot, read the row again under it,
and update or delete it with the image and the generation they have read.  With inserts and
lookups of other threads going on at the same time, in any order of single accesses, the
store is whole whenever no call is in progress, and no row is deleted twice.
-/

namespace FastMem

open Conc

variable {n : Nat} {W PK : Type}

/-- Inserts and lookups, and the write cycles of handlers: the locked calls are made by the
thread that holds the wlock of the slot, with the image and the generation it has re-read. -/
def CoreOp.cycling [DecidableEq (Image n W)] : CoreOp n W PK → Session n W → Bool
  | .insertRow .., l | .lockRow _, l => l.held.isNone
  | .find .., _ | .findNext .., _ => true
  | .reread idx _, l | .unlockRow idx, l => l.held = some idx
  | .updateRowLocked idx v old _ _, l =>
      decide (l.held = some idx) && decide (l.seen = some (v, old))
  | .deleteRowLocked idx v _, l =>
      decide (l.held = some idx) && decide (l.seen.map Prod.fst = some v)
  | .updateRow .., _ | .deleteRow .., _ | .clear, _ | .readRow .., _ | .scanNext .., _ => false

/-- The setting of these calls: an image is rewritten by a thread that knows it. -/
def cyclingSetting (cfg : ShareCfg n W PK) (s₀ : Share n W) : CoreSetting n W PK where
  cfg := cfg
  kinds := fun k => k ≠ .clear
  commits := fun _ w k =>
    match k with
    | .write i old _ => w.mem.data i = old
    | .flip _ => False
    | _ => True
  returns := Ended
  meets := fun _ _ _ => True
  share := s₀

/-- The runs of write cycles keep to the protocol. -/
theorem cyclingSetting_sound (cfg : ShareCfg n W PK) (data : Int → Image n W) :
    (cyclingSetting cfg (Share.fresh data)).Sound :=
  ⟨⟨data, rfl⟩, fun _ _ _ h => h.elim⟩

/-- Their chains are tracked. -/
theorem tracks_cycling (cfg : ShareCfg n W PK) (s₀ : Share n W) :
    (cyclingSetting cfg s₀).Tracks where
  index := nofun
  write := by
    intro c w i old new hold
    have hdata : w.mem.data i = old := hold
    rw [hdata]
  apart := fun _ _ _ h => h.elim
  flip := fun _ _ _ h => h.elim

/-- Their calls follow the protocol. -/
theorem serves_cycling [DecidableEq (Image n W)] {cfg : ShareCfg n W PK} (data : Int → Image n W)
    (hhash : HashRespects cfg) (hkeys : cfg.keys ≤ 64) :
    Serves (cyclingSetting cfg (Share.fresh data)) CoreOp.cycling where
  indexed := fun _ => ⟨hkeys, hhash⟩
  insertRow := fun rec b l h =>
    ⟨by simpa [CoreOp.cycling] using h, cyclingSetting_sound cfg data,
      nofun, fun _ _ _ _ => trivial⟩
  updateRow := nofun
  deleteRow := nofun
  clear := nofun
  readRow := nofun
  lockRow := fun idx l h => by simpa [CoreOp.cycling] using h
  reread := fun idx b l h => by simpa [CoreOp.cycling] using h
  updateRowLocked := by
    intro idx v old new b l h
    simp only [CoreOp.cycling, Bool.and_eq_true, decide_eq_true_eq] at h
    refine ⟨h.1, nofun, fun _ _ _ => trivial, fun t st w γ htrace hphase hslot hseen _ => ?_⟩
    have hsound := cyclingSetting_sound cfg data
    obtain ⟨-, hwords⟩ := hseen v old h.2
    rw [← hslot]
    exact ((trace_images hsound.1 hsound.2 htrace).seen t).image (by rw [hphase]; rfl) hwords
  deleteRowLocked := by
    intro idx v b l h
    simp only [CoreOp.cycling, Bool.and_eq_true, decide_eq_true_eq] at h
    refine ⟨h.1, cyclingSetting_sound cfg data,
      nofun, fun v' img hseen => ?_, fun _ _ _ _ _ _ _ _ _ _ => trivial⟩
    rw [hseen] at h
    exact Option.some.inj h.2
  unlockRow := fun idx l h => by simpa [CoreOp.cycling] using h
  returns := fun _ _ _ h => h

/-- The store is whole: the chains of every key are finite, repeat no slot and hold exactly
the ACTIVE slots, by the bucket of their image; the free list is finite, repeats no slot and
holds no ACTIVE slot; and `records` is the number of ACTIVE slots. -/
structure Whole (cfg : ShareCfg n W PK) (s : Share n W) : Prop where
  index : ∃ C, s.Indexed C ∧ ∀ k, k < cfg.keys → ∀ b, (C k b).Nodup ∧
    ∀ i, i ∈ C k b ↔ s.state i = .active ∧ cfg.keyBucket k (s.data i) = b
  free : ∃ F, s.FreeList F ∧ F.Nodup ∧ ∀ i ∈ F, s.state i ≠ .active
  records : s.records = {i | s.state i = .active}.ncard

section

variable {cfg : ShareCfg n W PK} {K : Kind → Prop} {s : Share n W} {γ : Nat → Role n W} {C : Index}
  {l : Session n W}

/-- A slot that nobody has to himself is in the chains of its image if it is ACTIVE, and in
no other. -/
theorem InPlace.mem_iff (h : InPlace cfg K s γ C) (hkind : ¬ K .clear) {i : Int}
    (hnone : ∀ t, ¬ (γ t).Maps i) {k : Nat} (hk : k < cfg.keys)
    (b : Nat) : i ∈ C k b ↔ s.state i = .active ∧ cfg.keyBucket k
    (s.data i) = b := by
  have hplaced : Placed cfg s γ k b i ↔ s.state i = .active ∧ cfg.keyBucket k (s.data i) = b := by
    unfold Placed ShareCfg.buckets
    rw [if_pos hk, Option.some.injEq]
    constructor
    · rintro (⟨t, ht, -⟩ | ⟨-, hrow⟩)
      · exact absurd ht (hnone t)
      · exact hrow
    · exact fun hrow => Or.inr ⟨hnone, hrow⟩
  rw [← hplaced]
  exact ⟨h.placed k b i, h.all hkind k b i⟩

/-- **At rest the store is whole.** -/
theorem whole_of_rest (hC : InPlace cfg K s γ C) (hkind : ¬ K .clear) (hsl : Slots cfg s γ)
    (hcount : RowsCounted s γ)
    (hrest : ∀ t, (γ t).phase = .idle ∨ (γ t).phase = .row) : Whole cfg s := by
  have hnone : ∀ t i, ¬ (γ t).Maps i := by
    rintro t i ⟨hp, -⟩
    obtain hidle | hrow := hrest t
    · rw [hidle] at hp
      cases hp
    · rw [hrow] at hp
      cases hp
  constructor
  case index =>
    exact ⟨C,
      hC.index, fun k hk b => ⟨(hC.index k b).nodup, fun i => hC.mem_iff hkind (hnone · i) hk b⟩⟩
  case free =>
    obtain ⟨F, hF, -⟩ := hsl.free
    exact ⟨F, hF, IsChain.nodup hF, fun i hi => hsl.free_not_active hF hi⟩
  case records => exact hcount.at_rest hrest

/-- The chains while calls are in progress: every chain is finite, repeats no slot and shares
none with another chain of its key, no slot of it is on the free list, and a slot whose wlock
nobody holds is, if it is ACTIVE, in the chain of the bucket of its image under every key and
in no other. -/
structure ChainsSound (cfg : ShareCfg n W PK) (s : Share n W) (C : Index) : Prop where
  index : s.Indexed C
  nodup : ∀ k b, (C k b).Nodup
  apart : ∀ k b b' i, i ∈ C k b → i ∈ C k b' → b = b'
  used : ∀ k b i, i ∈ C k b → ∀ F, s.FreeList F → i ∉ F
  row : ∀ i, s.owner (.row i) = none → s.state i = .active →
    ∀ k, k < cfg.keys → ∀ b, i ∈ C k b ↔ cfg.keyBucket k (s.data i) = b

/-- Nobody has an ACTIVE slot to himself whose wlock is free. -/
theorem not_maps_of_unlocked (hsl : Slots cfg s γ) (hl : Locked cfg s γ) {i : Int}
    (hfree : s.owner (.row i) = none) (hactive : s.state i = .active)
    (t : Nat) : ¬ (γ t).Maps i := by
  rintro ⟨hp, rfl⟩
  have hcases : (γ t).phase.owning = true ∨ (γ t).phase.rowed = true := by grind
  obtain hown | hrow := hcases
  · exact (hsl.mine t).not_active (Or.inl ⟨hown, rfl⟩) hactive
  · have hheld := (hl.owner _ _).mpr ((hl.ok t).rowed hrow)
    rw [hfree] at hheld
    cases hheld

/-- Chains in place are sound. -/
theorem InPlace.sound (h : InPlace cfg K s γ C) (hkind : ¬ K .clear) (hsl : Slots cfg s γ)
    (hl : Locked cfg s γ) : ChainsSound cfg s C := by
  constructor
  case index => exact h.index
  case nodup => exact fun k b => (h.index k b).nodup
  case apart => exact h.disjoint (hsl.mapsAlone hl)
  case used =>
    intro k b i hi F hF hmem
    obtain ⟨t, ⟨hp, rfl⟩, -⟩ | ⟨-, hactive, -⟩ := h.placed k b i hi
    · have hcases : (γ t).phase.owning = true ∨ (γ t).phase.rowed = true := by grind
      obtain hown | hrow := hcases
      · exact hsl.free_not_owned hF hmem t (Or.inl ⟨hown, rfl⟩)
      · exact hsl.free_not_active hF hmem ((hsl.mine t).active hrow)
    · exact hsl.free_not_active hF hmem hactive
  case row =>
    intro i hfree hactive k hk b
    rw [h.mem_iff hkind (not_maps_of_unlocked hsl hl hfree hactive) hk b]
    exact and_iff_right hactive

end

variable [DecidableEq (Image n W)] {cfg : ShareCfg n W PK} {data : Int → Image n W}
  {c : Config (coreSig n W PK) (Share n W) (CoreOp n W PK) (Session n W) (CoreOut n W)}

/-- **The chains hold the rows at every moment.**  In every state that inserts, lookups and
write cycles reach the chains are sound. -/
theorem chains_sound_always (hhash : HashRespects cfg) (hkeys : cfg.keys ≤ 64)
    (h : (coreSystem cfg CoreOp.cycling).Reach (fun _ _ _ => True)
      (System.start (Share.fresh data) fun _ => Session.empty) c) :
      ∃ C, ChainsSound cfg c.world.mem C := by
  obtain ⟨γ, htrace, -⟩ := (serves_cycling data hhash hkeys).trace h
  have hfresh := (cyclingSetting_sound cfg data).1
  have htracks := tracks_cycling cfg (Share.fresh data)
  obtain ⟨C, hC⟩ := trace_chains hfresh.started htracks ⟨_, inPlace_fresh cfg _ data⟩ htrace
  exact ⟨C, hC.sound (fun hne => hne rfl) (trace_slots hfresh htracks.apart htrace)
    (trace_locked hfresh.owner htrace)⟩

/-- One thread is in the middle of an insert, the other has locked and read a row. -/
theorem chains_sound_always_two_threads :
    ∃ c, (coreSystem (wordTable 1) CoreOp.cycling).Reach (fun _ _ _ => True)
        (System.start (Share.fresh fun _ _ => 0) fun _ => Session.empty) c ∧
      c.world.mem.state 0 = .active ∧ c.world.mem.state 1 ≠ .active ∧ ∃ C, ChainsSound
        (wordTable 1) c.world.mem C := by
  let steps : List (Label (CoreOp 1 Nat Nat)) :=
    [Label.call 0 (.insertRow (fun _ => 7) fun _ => 0) 43,
      Label.call 1 (.insertRow (fun _ => 3) fun _ => 0) 15, Label.call 0 (.lockRow 0) 2,
      Label.call 0 (.reread 0 fun _ => 0) 8].flatten
  have hrun : (System.schedule (coreSystem (wordTable 1) CoreOp.cycling)
      (System.start (Share.fresh fun _ _ => 0) fun _ => Session.empty) steps).any
        (fun c => decide (c.world.mem.state 0 = .active ∧ c.world.mem.state 1 ≠ .active)) =
        true := by
    decide +kernel
  obtain ⟨c, hc, hstates⟩ := (Option.any_eq_true _ _).mp hrun
  obtain ⟨hactive, hfilling⟩ := of_decide_eq_true hstates
  have hreach := System.Reach.of_schedule _ _ steps hc
  exact ⟨c, hreach, hactive, hfilling,
    chains_sound_always (hashRespects_wordTable 1) (by decide) hreach⟩

omit [DecidableEq (Image n W)] in
/-- In a run of write cycles the store is whole when every thread is at rest. -/
theorem cycling_whole {w : CoreWorld n W PK (CoreOp n W PK) (CoreOut n W)} {γ : Nat → Role n W}
    (h : (cyclingSetting cfg (Share.fresh data)).Trace w γ)
    (hrest : ∀ t, (γ t).phase = .idle ∨ (γ t).phase = .row) : Whole cfg w.mem := by
  have hfresh := (cyclingSetting_sound cfg data).1
  have htracks := tracks_cycling cfg (Share.fresh data)
  obtain ⟨C, hC⟩ := trace_chains hfresh.started htracks ⟨_, inPlace_fresh cfg _ data⟩ h
  have hzero : (cyclingSetting cfg (Share.fresh data)).share.records =
      (cyclingSetting cfg (Share.fresh data)).share.rows.ncard := by
    simp [cyclingSetting, Share.fresh, Share.rows]
  exact whole_of_rest hC (fun hne => hne rfl) (trace_slots hfresh htracks.apart h)
    (trace_rowsCounted hfresh.started htracks.apart hzero h) hrest

/-- **The store is whole whenever no call is in progress.** -/
theorem whole_at_rest (hhash : HashRespects cfg) (hkeys : cfg.keys ≤ 64)
    (h : (coreSystem cfg CoreOp.cycling).Reach (fun _ _ _ => True)
      (System.start (Share.fresh data) fun _ => Session.empty) c)
    (hrest : ∀ t, ∃ l, c.thr t = .idle l) : Whole cfg c.world.mem := by
  obtain ⟨γ, htrace, hidle⟩ := (serves_cycling data hhash hkeys).trace h
  refine cycling_whole htrace fun t => ?_
  obtain ⟨l, hl⟩ := hrest t
  exact (hidle t l hl).phase_eq

/-- A row is inserted while another is moved to another bucket, and then deleted. -/
theorem whole_at_rest_two_threads :
    ∃ c, (coreSystem (wordTable 1) CoreOp.cycling).Reach (fun _ _ _ => True)
        (System.start (Share.fresh fun _ _ => 0) fun _ => Session.empty) c ∧
      c.world.mem.data 0 0 = 9 ∧ c.world.mem.records = 1 ∧ Whole (wordTable 1) c.world.mem := by
  let steps : List (Label (CoreOp 1 Nat Nat)) :=
    [Label.call 0 (.insertRow (fun _ => 7) fun _ => 0) 43,
      Label.call 1 (.insertRow (fun _ => 3) fun _ => 0) 15, Label.call 0 (.lockRow 0) 2,
      Label.call 0 (.reread 0 fun _ => 0) 8, Label.steps 1 8,
      Label.call 0 (.updateRowLocked 0 0 (fun _ => 7) (fun _ => 9) fun _ => 0) 21,
      Label.call 1 (.lockRow 1) 2, Label.call 1 (.reread 1 fun _ => 0) 8,
      Label.call 1 (.deleteRowLocked 1 0 fun _ => 0) 19].flatten
  have hrun : (System.schedule (coreSystem (wordTable 1) CoreOp.cycling)
      (System.start (Share.fresh fun _ _ => 0) fun _ => Session.empty) steps).any
        (fun c => decide (c.world.mem.data 0 0 = 9 ∧ c.world.mem.records = 1) &&
          (isIdle c 0 && isIdle c 1)) = true := by
    decide +kernel
  obtain ⟨c, hc, hstate⟩ := (Option.any_eq_true _ _).mp hrun
  obtain ⟨hrow, hidle⟩ := Bool.and_eq_true_iff.mp hstate
  have hreach := System.Reach.of_schedule _ _ steps hc
  have hrest := idle_of_schedule hc (by decide +kernel) (Bool.and_eq_true_iff.mp hidle)
  exact ⟨c, hreach, (of_decide_eq_true hrow).1, (of_decide_eq_true hrow).2,
    whole_at_rest (hashRespects_wordTable 1) (by decide) hreach hrest⟩

end FastMem
