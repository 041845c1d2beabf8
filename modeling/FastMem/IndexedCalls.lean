import FastMem.AnyCalls
import FastMem.StandingRows

/-!
# Calls that keep the index

The hash index is in order under any calls but clears, if every update is given, as the old
image, one that is in the same buckets as the image its row holds when it is rewritten.  A
handler's updates always are: they give the image that was re-read under the wlock.
-/

namespace FastMem

open Conc

variable {n : Nat} {W PK : Type}

/-- An update that begins to rewrite its row was given an old image that is in the buckets the
row is in. -/
def OldBuckets (cfg : ShareCfg n W PK) (c : Call (CoreOp n W PK)) (a : Act n W)
    (w : CoreWorld n W PK (CoreOp n W PK) (CoreOut n W)) : Prop :=
  ∀ idx v old new b, c.op = .updateRow idx v old new b ∨ c.op = .updateRowLocked idx v old new b →
    a = .addSeq idx → w.mem.seq idx % 2 = 0 → cfg.buckets (w.mem.data idx) = cfg.buckets old

/-- The setting of such calls. -/
def indexedSetting (cfg : ShareCfg n W PK) (s₀ : Share n W) : CoreSetting n W PK where
  cfg := cfg
  kinds := fun k => k ≠ .clear
  commits := fun _ w k =>
    match k with
    | .write i old _ => cfg.buckets (w.mem.data i) = cfg.buckets old
    | .flip _ => False
    | _ => True
  returns := Ended
  meets := OldBuckets cfg
  share := s₀

/-- The runs of inserts, updates and deletes keep to the protocol. -/
theorem indexedSetting_sound (cfg : ShareCfg n W PK) (data : Int → Image n W) :
    (indexedSetting cfg (Share.fresh data)).Sound :=
  ⟨⟨data, rfl⟩, fun _ _ _ h => h.elim⟩

/-- Their chains are in place. -/
theorem indexes_indexed (cfg : ShareCfg n W PK) (data : Int → Image n W) :
    (indexedSetting cfg (Share.fresh data)).Indexes where
  started := (indexedSetting_sound cfg data).1.started
  tracks :=
    { index := nofun
      write := fun _ _ _ _ _ h => h
      apart := fun _ _ _ h => h.elim
      flip := fun _ _ _ h => h.elim }
  chains := ⟨_, inPlace_fresh cfg _ data⟩
  kept := fun hne => hne rfl

variable {cfg : ShareCfg n W PK} {data : Int → Image n W}

/-- They insert, update and delete. -/
theorem indexed_kinds (s₀ : Share n W) :
    (indexedSetting cfg s₀).kinds .insert ∧ (indexedSetting cfg s₀).kinds .update ∧
    (indexedSetting cfg s₀).kinds .delete :=
  ⟨nofun, nofun, nofun⟩

/-- Nobody is rewriting a row that a thread has locked and seen ACTIVE. -/
theorem even_of_row {γ : Nat → Role n W} {w : CoreWorld n W PK (CoreOp n W PK) (CoreOut n W)}
    {t : Nat} {idx : Int} (h : (indexedSetting cfg (Share.fresh data)).Trace w γ)
    (hphase : (γ t).phase = .row) (hslot : (γ t).slot = idx) : w.mem.seq idx % 2 = 0 := by
  have hsound := indexedSetting_sound cfg data
  have hlocked := trace_locked hsound.1.owner h
  rw [← hslot]
  exact even_of_held hlocked (trace_images hsound.1 hsound.2 h)
    ((hlocked.ok t).rowed (by rw [hphase]; rfl)) (by simp [hphase])

/-- Their calls follow the protocol. -/
theorem serves_indexed (data : Int → Image n W) (hhash : HashRespects cfg) (hkeys : cfg.keys ≤ 64) :
    Serves (indexedSetting cfg (Share.fresh data)) CoreOp.rowCall where
  indexed := fun _ => ⟨hkeys, hhash⟩
  insertRow := fun rec b l h =>
    ⟨by simpa [CoreOp.rowCall, CoreOp.anyCall] using h, indexedSetting_sound cfg data,
      (indexed_kinds _).1, fun _ _ _ _ => trivial⟩
  updateRow := by
    intro idx v old new b l h
    refine ⟨by simpa [CoreOp.rowCall, CoreOp.anyCall] using h,
      (indexed_kinds _).2.1, fun _ _ _ => trivial, ?_⟩
    intro t st w γ htrace hphase hslot _ hmeets
    exact hmeets idx v old new b (Or.inl rfl) rfl (even_of_row htrace hphase hslot)
  deleteRow := fun idx v b l h =>
    ⟨by simpa [CoreOp.rowCall, CoreOp.anyCall] using h, indexedSetting_sound cfg data,
      (indexed_kinds _).2.2, fun _ _ _ _ _ _ _ _ _ => trivial⟩
  clear := nofun
  readRow := fun _ _ _ _ _ _ _ _ => ⟨fun _ => trivial, fun _ _ => trivial, fun _ _ _ => trivial⟩
  lockRow := fun idx l h => by simpa [CoreOp.rowCall, CoreOp.anyCall] using h
  reread := fun idx b l h => by simpa [CoreOp.rowCall, CoreOp.anyCall] using h
  updateRowLocked := by
    intro idx v old new b l h
    refine ⟨by simpa [CoreOp.rowCall, CoreOp.anyCall] using h,
      (indexed_kinds _).2.1, fun _ _ _ => trivial, ?_⟩
    intro t st w γ htrace hphase hslot _ hmeets
    exact hmeets idx v old new b (Or.inr rfl) rfl (even_of_row htrace hphase hslot)
  deleteRowLocked := by
    intro idx v b l h
    simp only [CoreOp.rowCall, CoreOp.anyCall, Bool.and_eq_true, decide_eq_true_eq] at h
    refine ⟨h.1, indexedSetting_sound cfg data, (indexed_kinds _).2.2, fun v' img hseen =>
      ?_, fun _ _ _ _ _ _ _ _ _ _ => trivial⟩
    have hall := h.2
    rw [hseen] at hall
    exact of_decide_eq_true hall
  unlockRow := fun idx l h => by simpa [CoreOp.rowCall, CoreOp.anyCall] using h
  returns := fun _ _ _ h => h

/-- Every run of these calls is a trace with its chains in order. -/
theorem indexed_trace (hhash : HashRespects cfg) (hkeys : cfg.keys ≤ 64)
    {c : Config (coreSig n W PK) (Share n W) (CoreOp n W PK) (Session n W) (CoreOut n W)}
    (h : (coreSystem cfg CoreOp.rowCall).Reach (OldBuckets cfg)
      (System.start (Share.fresh data) fun _ => Session.empty) c) :
    ∃ γ, (indexedSetting cfg (Share.fresh data)).Trace c.world γ ∧ ∀ t l, c.thr t = .idle l →
    AtRest l (γ t) :=
  (serves_indexed data hhash hkeys).trace h

/-- The accesses of calls that update nothing. -/
def updatesNothing (k : Call (CoreOp n W PK)) (_ : Act n W)
    (_ : CoreWorld n W PK (CoreOp n W PK) (CoreOut n W)) : Bool :=
  match k.op with
  | .updateRow .. | .updateRowLocked .. => false
  | _ => true

/-- Where nothing is updated no bucket changes. -/
theorem oldBuckets_of_updatesNothing (cfg : ShareCfg n W PK)
    {k : Call (CoreOp n W PK)} {a : Act n W} {w : CoreWorld n W PK (CoreOp n W PK) (CoreOut n W)}
    (h : updatesNothing k a w = true) :
    OldBuckets cfg k a w := by
  intro idx v old new b hop
  unfold updatesNothing at h
  obtain hop | hop := hop
  all_goals
    rw [hop] at h
    cases h

end FastMem
