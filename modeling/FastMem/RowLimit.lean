import FastMem.SeqInvariant
import FastMem.SeqCalls

/-!
# The row limit

The limit on the number of rows is kept by slot numbers alone: only slots numbered
below `max_records` ever get on the free list, and `fm_core_alloc_slot` takes a slot
from there or from a new chunk, whose slots it trims.  `fm_core_clear` does not trim:
it puts every slot of every chunk on the list.  So the limit holds in every run whose
clears find no slot beyond it, and fails right after any other clear.
-/

namespace FastMem

open Conc Versioned

variable {n : Nat} {W PK : Type} {cfg : ShareCfg n W PK} {t lim : Nat}
  {s s' : Share n W} {F : List Int}

/-- At most `max_records` rows are ACTIVE, and the next slot to be handed out, if any,
is numbered below `max_records`. -/
structure WithinLimit (cfg : ShareCfg n W PK) (s : Share n W) : Prop where
  finite : {i | s.state i = .active}.Finite
  rows : {i | s.state i = .active}.ncard ≤ cfg.maxRecords
  slot : ∀ t idx s', (machine cfg).Runs t (allocSlot cfg) (s.setOwner (some t) .mutex) idx s' →
    idx ≠ nullSlot → 0 ≤ idx ∧ idx < cfg.maxRecords

/-- The shares that calls can make of a fresh one, when every clear finds no slot
numbered `max_records` or above. -/
inductive TrimmedCalls (cfg : ShareCfg n W PK) (data : Int → Image n W) : Share n W → Prop
  | fresh : TrimmedCalls cfg data (Share.fresh data)
  | call {s s' : Share n W} {t : Nat} {op : CoreOp n W PK} {l l' : Session n W} {x : CoreOut n W}
      (before : TrimmedCalls cfg data s)
      (trimmed : op = .clear → slotCount s.chunkCnt ≤ cfg.maxRecords)
      (runs : (machine cfg).Runs t (op.code cfg l) s (x, l') s') : TrimmedCalls cfg data s'

/-- Calls that keep to the limit keep the slots in balance. -/
theorem TrimmedCalls.ledger {data : Int → Image n W} (h : TrimmedCalls cfg data s) :
    ∃ F, Ledger cfg cfg.maxRecords s F ∅ := by
  induction h with
  | fresh => exact ⟨[], ledger_fresh cfg _ data⟩
  | call _ trimmed runs ih =>
      obtain ⟨F, hled⟩ := ih
      exact (call_effect hled le_rfl trimmed runs).1

/-- A set of slots with numbers below `m` has at most `m` members. -/
theorem ncard_le_of_numbered {A : Set Int} {f : Nat → Int} {m : Nat}
    (h : A ⊆ (Finset.image f (Finset.range m) : Set Int)) : A.ncard ≤ m := by
  calc A.ncard ≤ (Finset.image f (Finset.range m) : Set Int).ncard :=
        Set.ncard_le_ncard h (Finset.finite_toSet _)
    _ = (Finset.image f (Finset.range m)).card := Set.ncard_coe_finset _
    _ ≤ (Finset.range m).card := Finset.card_image_le
    _ = m := Finset.card_range m

/-- The rows are among the slots of the balance. -/
theorem Ledger.active_subset (h : Ledger cfg lim s F ∅) :
    {i | s.state i = .active} ⊆ (Finset.image i32 (Finset.range lim) : Set Int) := by
  intro i hi
  obtain ⟨u, -, hu, rfl⟩ := h.used i (Or.inr (Or.inr hi))
  exact Finset.mem_coe.mpr (Finset.mem_image_of_mem i32 (Finset.mem_range.mpr hu))

/-- When nothing is free and no chunk may be added, every slot below the limit is
ACTIVE. -/
theorem Ledger.full (h : Ledger cfg lim s [] ∅) (hmax : cfg.maxRecords ≤ 2 ^ 31)
    (halloc : ∀ a, cfg.alloc a = true) (hroom : NoRoom cfg s) :
    cfg.chunkCap ≤ s.chunkCnt ∧ cfg.maxRecords ≤ {i | s.state i = .active}.ncard := by
  obtain ⟨heq, -⟩ := slotCount_of_le h.chunks
  have hcap : cfg.maxRecords ≤ cfg.chunkCap * 4096 ∧
      cfg.chunkCap * 4096 < cfg.maxRecords + 4096 := by
    unfold ShareCfg.chunkCap chunkSize
    omega
  have hreach : cfg.chunkCap ≤ s.chunkCnt := by
    rcases hroom with hroom | hroom | ⟨m, hm⟩
    · omega
    · exact hroom
    · rw [halloc m] at hm
      cases hm
  refine ⟨hreach, ?_⟩
  have hle : cfg.maxRecords ≤ slotCount s.chunkCnt := by
    have := Nat.mul_le_mul_right 4096 hreach
    omega
  have hsub : (Finset.image i32 (Finset.range cfg.maxRecords) : Set Int) ⊆
      {i | s.state i = .active} := by
    intro i hi
    obtain ⟨u, hu, rfl⟩ := Finset.mem_image.mp (Finset.mem_coe.mp hi)
    have hu := Finset.mem_range.mp hu
    by_contra hst
    rcases h.free_all u (by omega) hu hst with hmem | hmem
    · cases hmem
    · cases hmem
  have hinj : Set.InjOn i32 (Finset.range cfg.maxRecords) := by
    intro u hu v hv huv
    have hu := Finset.mem_range.mp (Finset.mem_coe.mp hu)
    have hv := Finset.mem_range.mp (Finset.mem_coe.mp hv)
    exact i32_inj (by omega) (by omega) huv
  calc cfg.maxRecords = (Finset.range cfg.maxRecords).card := (Finset.card_range _).symm
    _ = (Finset.image i32 (Finset.range cfg.maxRecords)).card :=
      (Finset.card_image_of_injOn hinj).symm
    _ = (Finset.image i32 (Finset.range cfg.maxRecords) : Set Int).ncard :=
      (Set.ncard_coe_finset _).symm
    _ ≤ {i | s.state i = .active}.ncard :=
      Set.ncard_le_ncard hsub ((Finset.finite_toSet _).subset h.active_subset)

/-- There are no more of them than the limit. -/
theorem Ledger.within (h : Ledger cfg cfg.maxRecords s F ∅) (hmax : cfg.maxRecords ≤ 2 ^ 31) :
    WithinLimit cfg s where
  finite := (Finset.finite_toSet _).subset h.active_subset
  rows := ncard_le_of_numbered h.active_subset
  slot := by
    intro t idx s' hruns hne
    obtain ⟨idx', s₁, halloc, -, -, hcase⟩ := runs_allocSlot (h.setOwner (some t) .mutex) le_rfl t
    obtain ⟨rfl, rfl⟩ := halloc.det hruns
    rcases hcase with ⟨hnull, -⟩ | ⟨F', -, hled⟩
    · exact absurd hnull hne
    · obtain ⟨u, -, hu, rfl⟩ := hled.used idx (Or.inr (Or.inl rfl))
      rw [i32_of_lt (by omega)]
      omega

/-- After a clear the slot handed out next is the last one of the share. -/
theorem runs_allocSlot_after_clear {c : Nat}
    (h : Ledger cfg lim s ((List.range (c + 1)).map i32).reverse ∅) :
    ∃ s', (machine cfg).Runs t (allocSlot cfg) s (i32 c) s' := by
  rw [List.range_succ, List.map_append, List.reverse_append] at h
  obtain ⟨hhead, hne, -⟩ := h.free
  refine ⟨s.withFree s.freeNext (s.freeNext (i32 c)), runs_access rfl ?_⟩
  rw [hhead, if_pos hne]
  exact runs_access rfl (runs_access rfl runs_pure)

/-- A clear that finds slots beyond the limit hands one of them out next. -/
theorem clear_beyond_limit (h : Ledger cfg (2 ^ 32) s F ∅) (hmax : cfg.maxRecords ≤ 2 ^ 31)
    (hbeyond : cfg.maxRecords < slotCount s.chunkCnt)
    (hruns : (machine cfg).Runs t (clear cfg) s () s') : ¬ WithinLimit cfg s' := by
  intro hwithin
  have hcnt : slotCount s.chunkCnt ≤ 2 ^ 32 := Nat.le_of_lt (Nat.mod_lt _ (by decide))
  obtain ⟨hled, -, -⟩ := clear_effect h hcnt hruns
  obtain ⟨c, hc⟩ : ∃ c, slotCount s.chunkCnt = c + 1 := ⟨slotCount s.chunkCnt - 1, by omega⟩
  rw [hc] at hled hbeyond
  obtain ⟨s₁, halloc⟩ := runs_allocSlot_after_clear (t := t) (hled.setOwner (some t) .mutex)
  have hne : i32 c ≠ nullSlot := i32_ne_null (by
    obtain ⟨heq, hle⟩ := slotCount_of_le h.chunks
    omega)
  obtain ⟨-, hlt⟩ := hwithin.slot t _ _ halloc hne
  have hc31 : c < 2 ^ 31 := by
    obtain ⟨heq, -⟩ := slotCount_of_le h.chunks
    have hcap : cfg.chunkCap * 4096 ≤ 2 ^ 31 := by
      unfold ShareCfg.chunkCap chunkSize
      omega
    have := h.chunks
    omega
  rw [i32_of_lt hc31] at hlt
  omega

/-- **The row limit, and when it holds.**  In every run whose clears find no slot
numbered `max_records` or above, the number of ACTIVE rows stays within the limit and
`fm_core_alloc_slot` hands out numbers below it; and a clear keeps it so exactly if it
finds no such slot. -/
theorem row_limit_between_trimmed_clears (cfg : ShareCfg n W PK) (hmax : cfg.maxRecords ≤ 2 ^ 31)
    (data : Int → Image n W) (s : Share n W) (h : TrimmedCalls cfg data s) :
    WithinLimit cfg s ∧ ∀ t s', (machine cfg).Runs t (clear cfg) s () s' →
      (WithinLimit cfg s' ↔ slotCount s.chunkCnt ≤ cfg.maxRecords) := by
  obtain ⟨F, hled⟩ := h.ledger
  refine ⟨hled.within hmax, fun t s' hruns => ?_⟩
  constructor
  · intro hwithin
    by_contra hbeyond
    have hled' : Ledger cfg (2 ^ 32) s F ∅ :=
      { hled with
        used := fun i hi => by
          obtain ⟨u, hu, -, rfl⟩ := hled.used i hi
          exact ⟨u, hu, lt_trans hu (Nat.mod_lt _ (by decide)), rfl⟩ }
    exact clear_beyond_limit hled' hmax (by omega) hruns hwithin
  · intro htrim
    exact (clear_effect hled htrim hruns).1.within hmax

/-- A table like `wordTable` with room for one chunk of rows. -/
def chunkTable : ShareCfg 1 Nat Nat :=
  { wordTable 0 with maxRecords := 4096, maxRecords_pos := by decide, maxRecords_lt := by decide }

/-- The first insert into such a table succeeds. -/
theorem runs_insertRow_chunkTable : ∃ idx s C F, (machine chunkTable).Runs 0
    (insertRow chunkTable (fun _ => 7) fun _ => 0)
    (Share.fresh fun _ _ => 0) ⟨.ok, some idx, none⟩ s ∧
    Consistent chunkTable s C F ∅ ∧ s.owner = (Share.fresh fun _ _ => 0 : Share 1 Nat).owner ∧
    s.state idx = .active := by
  have hfresh : ∀ l, (Share.fresh fun _ _ => 0 : Share 1 Nat).owner l = none :=
    fun l => by cases l <;> rfl
  obtain ⟨r, s, C, F, hruns, hcons, howner, hends⟩ := runs_insertRow
    (consistent_fresh chunkTable fun _ _ => 0) 0 (hfresh _) (fun _ _ => hfresh _)
    (fun _ => 7) fun _ => 0
  have hroom : ¬ NoRoom chunkTable (Share.fresh fun _ _ => 0 : Share 1 Nat) := by
    rintro (h | h | ⟨m, h⟩)
    · exact absurd h (by decide)
    · exact absurd h (by decide)
    · cases h
  obtain ⟨-, -, ⟨idx, rfl, -, hgrows⟩ | ⟨hdup, -⟩ | ⟨-, -, hno, -⟩⟩ :=
    insertRow_effect (ledger_fresh chunkTable (2 ^ 32) _) (by decide) hruns
  · have hrow : s.table.row idx = some fun _ => 7 := by
      rw [hgrows.row]
      simp [Table.after]
    refine ⟨idx, s, C, F, hruns, hcons, howner, ?_⟩
    by_contra hactive
    simp [Share.table, hactive] at hrow
  · rw [hdup] at hends
    obtain ⟨k, hk, -⟩ := hends
    cases hk
  · exact absurd hno hroom

/-- A row is inserted and the table, which has one full chunk, cleared: the limit holds. -/
theorem row_limit_one_insert :
    ∃ idx s s', TrimmedCalls chunkTable (fun _ _ => 0) s ∧ s.state idx = .active ∧
    WithinLimit chunkTable s ∧
      (machine chunkTable).Runs 0 (clear chunkTable) s () s' ∧ TrimmedCalls chunkTable
      (fun _ _ => 0) s' ∧ WithinLimit chunkTable s' := by
  obtain ⟨idx, s, C, F, hinsert, hcons, howner, hactive⟩ := runs_insertRow_chunkTable
  have hfree : ∀ l, s.owner l = none := by
    intro l
    rw [howner]
    cases l <;> rfl
  have htrim : slotCount s.chunkCnt ≤ chunkTable.maxRecords := by
    have hcnt : s.chunkCnt ≤ 1 := hcons.chunks
    have heq := (slotCount_of_le hcons.chunks).1
    show slotCount s.chunkCnt ≤ 4096
    omega
  obtain ⟨s', L, hclear, -⟩ := runs_clear hcons 0 (hfree _) (fun _ _ => hfree _) fun _ _ => hfree _
  have hcall : (machine chunkTable).Runs 0
      (CoreOp.code chunkTable (.insertRow (fun _ => 7) fun _ => 0) Session.empty)
      (Share.fresh fun _ _ => 0) (.write ⟨.ok, some idx, none⟩, Session.empty) s :=
    runs_then hinsert runs_pure
  have hcall' : (machine chunkTable).Runs 0 (CoreOp.code chunkTable .clear Session.empty) s (.done,
      Session.empty) s' :=
    runs_then hclear runs_pure
  have hcalls : TrimmedCalls chunkTable (fun _ _ => 0) s := .call .fresh (by exact nofun) hcall
  have hcalls' : TrimmedCalls chunkTable (fun _ _ => 0) s' := .call hcalls (fun _ => htrim) hcall'
  obtain ⟨hwithin, hclears⟩ := row_limit_between_trimmed_clears chunkTable (by decide) _ s hcalls
  exact ⟨idx, s, s', hcalls, hactive, hwithin, hclear, hcalls', (hclears 0 s' hclear).mpr htrim⟩

/-- A table of at most 8 rows, after one insert. -/
theorem one_insert_eval :
    ((machine (wordTable 0)).eval 0 200 (insertRow (wordTable 0) (fun _ => 7) fun _ => 0)
      (Share.fresh fun _ _ => 0)).any
      (fun x => x.2.chunkCnt = 1 && x.2.state 0 = .active) = true := by
  decide +kernel

/-- An insert and a clear in a table of at most 8 rows: the next slot handed out is
4095. -/
theorem row_limit_fails_after_clear :
    ∃ h s s', Calls (wordTable 0) (Share.fresh fun _ _ => 0) h s ∧
      (machine (wordTable 0)).Runs 0 (allocSlot (wordTable 0))
      (s.setOwner (some 0) .mutex) 4095 s' ∧ ¬ WithinLimit (wordTable 0) s := by
  obtain ⟨⟨r, s₁⟩, heval, hcond⟩ := (Option.any_eq_true _ _).mp one_insert_eval
  simp only [Bool.and_eq_true, decide_eq_true_eq] at hcond
  have hinsert := Machine.Runs.of_eval heval
  have hfresh : ∀ l, (Share.fresh fun _ _ => 0 : Share 1 Nat).owner l = none := by
    intro l
    cases l <;> rfl
  obtain ⟨r', s', C, F, hruns, hcons, howner, -⟩ := runs_insertRow
    (consistent_fresh (wordTable 0) fun _ _ => 0) 0 (hfresh _) (fun _ _ => hfresh _)
    (fun _ => 7) fun _ => 0
  obtain ⟨rfl, rfl⟩ := hinsert.det hruns
  have hcnt : slotCount s'.chunkCnt = 4095 + 1 := by
    rw [hcond.1]
    rfl
  have hfree : ∀ l, s'.owner l = none := by
    rw [howner]
    exact hfresh
  obtain ⟨s₂, L, hclear, -, -⟩ :=
    runs_clear hcons 0 (hfree _) (fun _ _ => hfree _) fun _ _ => hfree _
  have hbeyond : (wordTable 0).maxRecords < slotCount s'.chunkCnt := by
    rw [hcnt]
    decide
  have hled := (clear_effect hcons.ledger (by rw [hcnt]; decide) hclear).1
  rw [hcnt] at hled
  obtain ⟨s₃, halloc⟩ := runs_allocSlot_after_clear (t := 0) (hled.setOwner (some 0) .mutex)
  have hcall₁ : (machine (wordTable 0)).Runs 0
      (CoreOp.code (wordTable 0) (.insertRow (fun _ => 7) fun _ => 0) Session.empty)
      (Share.fresh fun _ _ => 0) (.write r', Session.empty) s' :=
    runs_then hinsert runs_pure
  have hcall₂ : (machine (wordTable 0)).Runs 0 (CoreOp.code (wordTable 0) .clear Session.empty) s'
      (.done, Session.empty) s₂ :=
    runs_then hclear runs_pure
  refine ⟨_, s₂, s₃, .call (.call .refl hcall₁) hcall₂, halloc, ?_⟩
  exact clear_beyond_limit hcons.ledger (by decide) hbeyond hclear

end FastMem
