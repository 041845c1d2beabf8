import FastMem.SlotLedger

/-!
# Inserting alone

The record is written into the slot that has been allocated and linked into the
chain of every key.  If a key turns out to be a duplicate, the links made so far are
taken back and the slot returns to the free list.  A failed allocation leaves a
consistent share behind.
-/

namespace FastMem

open Conc

variable {n : Nat} {W PK : Type} {cfg : ShareCfg n W PK} {t : Nat} {s s' : Share n W}
  {C : Index} {F : List Int} {out : Set Int}

/-- Another free list, when its ledger is in order. -/
theorem Consistent.withFree {F' : List Int} {out' : Set Int} {fn : Int → Int} {fh : Int} {lim : Nat}
    (h : Consistent cfg s C F out) (hl : Ledger cfg lim (s.withFree fn fh) F' out') :
    Consistent cfg (s.withFree fn fh) C F' out' := by
  refine h.of_ledger ⟨?_, rfl, fun _ _ => rfl, fun _ _ => rfl⟩
    ⟨rfl, fun _ _ _ => rfl, rfl, fun _ hi => hi, fun _ => Iff.rfl⟩ hl
  funext l
  cases l <;> rfl

/-- Returning the slot that is out. -/
theorem Consistent.push {i : Int} (h : Consistent cfg s C F {i}) :
    Consistent cfg (s.withFree (Function.update s.freeNext i s.freeHead) i) C (i :: F) ∅ :=
  h.withFree h.ledger.push

/-- The index with slot `idx` put in front of the bucket of `rec`, for the keys in
`done`. -/
def Index.linked (cfg : ShareCfg n W PK) (C : Index) (rec : Image n W) (idx : Int)
    (done : List Nat) : Index :=
  fun k b => if k ∈ done ∧ b = cfg.keyBucket k rec then idx :: C k b else C k b

/-- The chains of the other keys are as they were. -/
theorem Index.linked_of_not_mem {rec : Image n W} {idx : Int} {done : List Nat} {k : Nat}
    (hk : k ∉ done) (b : Nat) : C.linked cfg rec idx done k b = C k b := by
  simp [Index.linked, hk]

/-- With no key done all of them are. -/
@[simp] theorem Index.linked_nil {rec : Image n W} {idx : Int} : C.linked cfg rec idx [] = C := by
  funext k b
  simp [Index.linked]

/-- One more key is linked. -/
theorem Index.linked_concat {rec : Image n W} {idx : Int} {done : List Nat} {k : Nat}
    (hk : k ∉ done) :
    (C.linked cfg rec idx done).set k (cfg.keyBucket k rec)
      (idx :: C.linked cfg rec idx done k (cfg.keyBucket k rec)) =
    C.linked cfg rec idx (done ++ [k]) := by
  funext k' b'
  by_cases hkb : k' = k ∧ b' = cfg.keyBucket k rec
  · obtain ⟨rfl, rfl⟩ := hkb
    rw [Index.set_self, Index.linked_of_not_mem hk]
    simp [Index.linked]
  · rw [Index.set_of_ne _ _ hkb]
    have hiff : (k' ∈ done ++ [k] ∧ b' = cfg.keyBucket k' rec) ↔
        (k' ∈ done ∧ b' = cfg.keyBucket k' rec) := by
      constructor
      · rintro ⟨hmem, rfl⟩
        rcases List.mem_append.mp hmem with hmem | hmem
        · exact ⟨hmem, rfl⟩
        · rw [List.mem_singleton] at hmem
          subst hmem
          exact absurd ⟨rfl, rfl⟩ hkb
      · rintro ⟨hmem, rfl⟩
        exact ⟨List.mem_append_left _ hmem, rfl⟩
    simp only [Index.linked, hiff]

/-- What is in the chains of the keys that are done. -/
theorem Index.mem_linked {rec : Image n W} {idx : Int} {done : List Nat} {k b : Nat} {i : Int} :
    i ∈ C.linked cfg rec idx done k b ↔
      i ∈ C k b ∨ i = idx ∧ k ∈ done ∧ b = cfg.keyBucket k rec := by
  unfold Index.linked
  split
  · rename_i h
    simp [h, or_comm]
  · rename_i h
    simp [h]

/-- Links and owners are apart. -/
theorem unlock_withIndex {l : Lock} (hfree : s.owner l = none) (nx : Nat → Int → Int)
    (hd : Nat → Nat → Int) :
    ((s.setOwner (some t) l).withIndex nx hd).setOwner none l = s.withIndex nx hd := by
  have hfree' : (s.withIndex nx hd).owner l = none := by
    cases l <;> exact hfree
  rw [setOwner_withIndex, setOwner_none_setOwner hfree']

/-- The keys of an insert, from `done` on: the slot is linked into each chain, up to
the first duplicate. -/
theorem runs_linkKeys (t : Nat) {rec : Image n W} (scratch : Image n W) {idx : Int}
    {ks done : List Nat} (hC : s.Indexed (C.linked cfg rec idx done)) (heven : ∀ i, s.seq i % 2 = 0)
    (hout : ∀ k b, idx ∉ C k b) (hne : idx ≠ nullSlot)
    (hfree : ∀ k b, s.owner (.bucket k b) = none) (hnd : (done ++ ks).Nodup) :
    ∃ nx hd stop, (machine cfg).Runs t (linkKeys cfg rec scratch idx ks) s stop
      (s.withIndex nx hd) ∧
      ((stop = none ∧ (s.withIndex nx hd).Indexed (C.linked cfg rec idx (done ++ ks)) ∧
          ∀ k ∈ ks, ¬ DuplicateIn cfg s k rec (C k (cfg.keyBucket k rec))) ∨
        ∃ pre k post, stop = some k ∧ ks = pre ++ k :: post ∧
          DuplicateIn cfg s k rec (C k (cfg.keyBucket k rec)) ∧
          (s.withIndex nx hd).Indexed (C.linked cfg rec idx (done ++ pre))) := by
  induction ks generalizing s done with
  | nil =>
      refine ⟨s.next, s.head, none, runs_pure, Or.inl ⟨rfl, ?_, by simp⟩⟩
      rw [List.append_nil]
      exact hC
  | cons k ks ih =>
      have hk : k ∉ done := by
        intro hmem
        exact (List.nodup_append.mp hnd).2.2 k hmem k List.mem_cons_self rfl
      let l : Lock := .bucket k (cfg.keyBucket k rec)
      have hdup : (machine cfg).Runs t (dupCheck cfg k (cfg.keyBucket k rec) rec scratch)
          (s.setOwner (some t) l)
          (if DuplicateIn cfg s k rec (C k (cfg.keyBucket k rec)) then .dupKey else .ok)
          (s.setOwner (some t) l) := by
        have hC' : (s.setOwner (some t) l).Indexed (C.linked cfg rec idx done) := by
          intro k' b'
          simpa using hC k' b'
        have hsame : DuplicateIn cfg (s.setOwner (some t) l) k rec
            (C.linked cfg rec idx done k (cfg.keyBucket k rec)) ↔
            DuplicateIn cfg s k rec (C k (cfg.keyBucket k rec)) := by
          simp [DuplicateIn, Index.linked_of_not_mem hk]
        rw [← if_congr hsame rfl rfl]
        exact runs_dupCheck hC' (by simpa using heven) _ _ _ _
      by_cases hd : DuplicateIn cfg s k rec (C k (cfg.keyBucket k rec))
      · rw [if_pos hd] at hdup
        refine ⟨s.next, s.head, some k, ?_, Or.inr ⟨[], k, ks, rfl, rfl, hd, ?_⟩⟩
        · refine runs_access (exec_lock (hfree _ _)) (runs_then hdup (runs_access rfl ?_))
          rw [setOwner_none_setOwner (hfree _ _)]
          exact runs_pure
        · rw [List.append_nil]
          exact hC
      · rw [if_neg hd] at hdup
        have hout' : ∀ b', idx ∉ C.linked cfg rec idx done k b' := by
          intro b'
          rw [Index.linked_of_not_mem hk]
          exact hout k b'
        have hlink := indexed_link hC (b := cfg.keyBucket k rec) hout' hne
        rw [Index.linked_concat hk] at hlink
        obtain ⟨nx, hd', stop, hruns, hcases⟩ := ih hlink heven hfree (by simpa using hnd)
        refine ⟨nx, hd', stop, ?_, ?_⟩
        · refine runs_access (exec_lock (hfree _ _)) (runs_then hdup ?_)
          rw [if_pos rfl]
          refine runs_then (runs_chainLink _ _ _) (runs_access rfl ?_)
          rw [unlock_withIndex (hfree _ _)]
          simpa using hruns
        · rcases hcases with ⟨rfl, hindex, hnone⟩ | ⟨pre, k', post, rfl, rfl, hdup', hindex⟩
          · refine Or.inl ⟨rfl, by simpa using hindex, fun k' hk' => ?_⟩
            rcases List.mem_cons.mp hk' with rfl | hk'
            · exact hd
            · exact hnone k' hk'
          · exact Or.inr ⟨k :: pre, k', post, rfl, rfl, hdup', by simpa using hindex⟩

/-- The rollback loop takes the links back. -/
theorem runs_rollback (t : Nat) {rec : Image n W} {idx : Int} {k : Nat}
    (hC : s.Indexed (C.linked cfg rec idx (List.range k)))
    (hdisj : ∀ k b b' i, i ∈ C k b → i ∈ C k b' → b = b')
    (hout : ∀ k b, idx ∉ C k b) (hfree : ∀ k b, s.owner (.bucket k b) = none) :
    ∃ nx hd, (machine cfg).Runs t (rollback cfg rec idx k) s (2 ^ 32 - 1) (s.withIndex nx hd) ∧
      (s.withIndex nx hd).Indexed C := by
  induction k generalizing s with
  | zero =>
      refine ⟨s.next, s.head, runs_pure, ?_⟩
      rw [List.range_zero, Index.linked_nil] at hC
      exact hC
  | succ k ih =>
      have hk : k ∉ List.range k := by simp
      let l : Lock := .bucket k (cfg.keyBucket k rec)
      rw [List.range_succ] at hC
      have hC' : (s.setOwner (some t) l).Indexed (C.linked cfg rec idx (List.range k ++ [k])) := by
        intro k' b'
        simpa using hC k' b'
      have hdisj' : ∀ k' b b' i, i ∈ C.linked cfg rec idx (List.range k ++ [k]) k' b →
          i ∈ C.linked cfg rec idx (List.range k ++ [k]) k' b' → b = b' := by
        intro k' b b' i hi hi'
        rw [Index.mem_linked] at hi hi'
        rcases hi with hi | ⟨rfl, -, rfl⟩
        · rcases hi' with hi' | ⟨rfl, -, rfl⟩
          · exact hdisj k' b b' i hi hi'
          · exact absurd hi (hout k' b)
        · rcases hi' with hi' | ⟨-, -, rfl⟩
          · exact absurd hi' (hout k' b')
          · rfl
      obtain ⟨nx, hd, hunlink, hindex⟩ := runs_chainUnlink cfg t hC' hdisj' k
        (cfg.keyBucket k rec) idx
      have hback : (C.linked cfg rec idx (List.range k ++ [k])).set k (cfg.keyBucket k rec)
          ((C.linked cfg rec idx (List.range k ++ [k]) k (cfg.keyBucket k rec)).erase idx) =
          C.linked cfg rec idx (List.range k) := by
        rw [← Index.linked_concat hk, Index.set_self, List.erase_cons_head]
        funext k' b'
        by_cases hkb : k' = k ∧ b' = cfg.keyBucket k rec
        · obtain ⟨rfl, rfl⟩ := hkb
          rw [Index.set_self]
        · rw [Index.set_of_ne _ _ hkb, Index.set_of_ne _ _ hkb]
      rw [hback] at hindex
      obtain ⟨nx', hd', hruns, hindex'⟩ := ih (s := s.withIndex nx hd) hindex hfree
      refine ⟨nx', hd', ?_, hindex'⟩
      refine runs_access (exec_lock (hfree _ _)) (runs_then hunlink (runs_access rfl ?_))
      rw [unlock_withIndex (hfree _ _)]
      exact hruns

/-- Writing the image of the slot that is out. -/
theorem Consistent.fill {idx : Int} (h : Consistent cfg s C F {idx}) (rec : Image n W) :
    Consistent cfg (s.withData idx rec) C F {idx} := by
  have hne := (h.out_spec idx rfl).1
  refine { h with index_mem := ?_ }
  intro k hk b i
  by_cases hi : i = idx
  · subst hi
    have : i ∉ C k b := fun hmem => hne (h.active_of_mem hmem)
    simp [Share.withData, hne, this]
  · simpa [Share.withData, hi] using h.index_mem k hk b i

/-- The index may be laid out in other cells. -/
theorem Consistent.reindex {nx : Nat → Int → Int} {hd : Nat → Nat → Int}
    (h : Consistent cfg s C F out) (hC : (s.withIndex nx hd).Indexed C) :
    Consistent cfg (s.withIndex nx hd) C F out :=
  { h with index := hC }

/-- Making the slot that is out ACTIVE, once it is linked under every key. -/
theorem Consistent.publish {idx : Int} {rec : Image n W} {nx : Nat → Int → Int}
    {hd : Nat → Nat → Int} (h : Consistent cfg s C F {idx}) (hrec : s.data idx = rec)
    (hC : (s.withIndex nx hd).Indexed (C.linked cfg rec idx (List.range cfg.keys))) :
    Consistent cfg { s.withIndex nx hd with
        state := Function.update s.state idx .active, records := s.records + 1 }
      (C.linked cfg rec idx (List.range cfg.keys)) F ∅ := by
  obtain ⟨hne, hgrown, hnot⟩ := h.out_spec idx rfl
  have hactive : ∀ i, Function.update s.state idx .active i = .active ↔
      i = idx ∨ s.state i = .active := by
    intro i
    by_cases hi : i = idx
    · subst hi
      simp
    · simp [hi]
  have hother : ∀ i, i ≠ idx → Function.update s.state idx .active i = s.state i :=
    fun i hi => Function.update_of_ne hi _ _
  constructor
  case index => exact hC
  case index_mem =>
    intro k hk b i
    rw [Index.mem_linked]
    show _ ↔ Function.update s.state idx .active i = .active ∧ cfg.keyBucket k (s.data i) = b
    rw [hactive, h.index_mem k hk b i]
    constructor
    · rintro (⟨hi, hb⟩ | ⟨rfl, -, rfl⟩)
      · exact ⟨Or.inr hi, hb⟩
      · exact ⟨Or.inl rfl, by rw [hrec]⟩
    · rintro ⟨rfl | hi, hb⟩
      · exact Or.inr ⟨rfl, List.mem_range.mpr hk, by rw [← hb, hrec]⟩
      · exact Or.inl ⟨hi, hb⟩
  case index_other =>
    intro k hk b
    rw [Index.linked_of_not_mem (by simpa using hk)]
    exact h.index_other k hk b
  case free => exact h.free
  case free_inactive =>
    intro i hi
    have hi' : i ≠ idx := by
      rintro rfl
      exact hnot hi
    show Function.update s.state idx .active i ≠ .active
    rw [hother i hi']
    exact h.free_inactive i hi
  case free_grown => exact h.free_grown
  case free_all =>
    intro u hu hu' hne'
    have hi' : i32 u ≠ idx := by
      intro heq
      apply hne'
      show Function.update s.state idx .active (i32 u) = .active
      rw [heq, Function.update_self]
    have hne'' : Function.update s.state idx .active (i32 u) ≠ .active := hne'
    rw [hother _ hi'] at hne''
    rcases h.free_all u hu hu' hne'' with hmem | hmem
    · exact Or.inl hmem
    · exact absurd hmem hi'
  case out_spec => simp
  case records =>
    show s.records + 1 = _
    rw [h.records, show {i | Function.update s.state idx .active i = .active} =
      insert idx {i | s.state i = .active} from Set.ext hactive]
    have hnot' : idx ∉ {i | s.state i = .active} := hne
    rw [Set.ncard_insert_of_notMem hnot' h.active_finite, Nat.cast_succ]
  case active_grown =>
    intro i hi
    rcases (hactive i).mp hi with rfl | hi
    · exact hgrown
    · exact h.active_grown i hi
  case seq_even => exact h.seq_even
  case chunks => exact h.chunks

/-- A duplicate depends on the rows of the chain only. -/
theorem duplicateIn_congr {L : List Int} {k : Nat} {rec : Image n W}
    (h : ∀ i ∈ L, s'.state i = s.state i ∧ s'.data i = s.data i) :
    DuplicateIn cfg s' k rec L ↔ DuplicateIn cfg s k rec L := by
  unfold DuplicateIn
  refine and_congr_right fun _ => and_congr_right fun _ => exists_congr fun i => ?_
  refine and_congr_right fun hi => ?_
  rw [(h i hi).1, (h i hi).2]

/-- `rec` is a duplicate under some key of the share. -/
def Duplicate (cfg : ShareCfg n W PK) (s : Share n W) (C : Index) (rec : Image n W) : Prop :=
  ∃ k, k < cfg.keys ∧ DuplicateIn cfg s k rec (C k (cfg.keyBucket k rec))

/-- A duplicate depends on the rows of the chains only. -/
theorem duplicate_congr {rec : Image n W}
    (h : ∀ k b, ∀ i ∈ C k b, s'.state i = s.state i ∧ s'.data i = s.data i) :
    Duplicate cfg s' C rec ↔ Duplicate cfg s C rec :=
  exists_congr fun k => and_congr_right fun _ => duplicateIn_congr (h k _)

/-- How `fm_core_insert_row` ends: without a slot, with a duplicate, or with the row
in the table. -/
def InsertEnds (cfg : ShareCfg n W PK) (s : Share n W) (C : Index) (F : List Int)
    (rec : Image n W) : Rc → Prop
  | .full | .noMem => F = [] ∧ NoRoom cfg s
  | .dupKey => Duplicate cfg s C rec
  | .ok => ¬ Duplicate cfg s C rec
  | _ => False

/-- Every slot that is there, and every row, is as it was. -/
structure SlotsAsBefore (s s' : Share n W) : Prop where
  state : ∀ i, s.Grown i → s'.state i = s.state i
  gen : ∀ i, s.Grown i → s'.gen i = s.gen i
  seq : ∀ i, s.Grown i → s'.seq i = s.seq i
  data : ∀ i, s.state i = .active → s'.data i = s.data i
  records : s'.records = s.records

/-- The slots are the same, but for the image of slot `idx`. -/
structure SlotsBut (idx : Int) (s s' : Share n W) : Prop where
  state : s'.state = s.state
  gen : s'.gen = s.gen
  seq : s'.seq = s.seq
  data : ∀ i, i ≠ idx → s'.data i = s.data i
  records : s'.records = s.records
  chunkCnt : s'.chunkCnt = s.chunkCnt

/-- What is left of an insert once it has got a slot: the row is in the table, or it is a
duplicate and the slot is back on the free list. -/
theorem runs_insertAt {idx : Int} (h : Consistent cfg s C F {idx}) (hne : idx ≠ nullSlot)
    (hfree : ∀ k b, s.owner (.bucket k b) = none) (t : Nat) (rec scratch : Image n W) :
    ∃ r s' C' F', (machine cfg).Runs t (insertAt cfg rec scratch idx) s r s' ∧
      Consistent cfg s' C' F' ∅ ∧ s'.owner = (s.setOwner none .mutex).owner ∧
      (r.rc = .ok ∧ ¬ Duplicate cfg s C rec ∨
        r.rc = .dupKey ∧ Duplicate cfg s C rec ∧ SlotsBut idx s s' ∧ C' = C ∧ F' = idx :: F) := by
  have hout : ∀ k b, idx ∉ C k b :=
    fun k b hmem => (h.out_spec idx rfl).1 (h.active_of_mem hmem)
  have hfill := h.fill rec
  have hindex₀ : (s.withData idx rec).Indexed (C.linked cfg rec idx []) := by
    rw [Index.linked_nil]
    exact hfill.index
  have hdata : ∀ i, i ≠ idx → (s.withData idx rec).data i = s.data i :=
    fun i hi => Function.update_of_ne hi _ _
  have hdup : Duplicate cfg (s.withData idx rec) C rec ↔ Duplicate cfg s C rec :=
    duplicate_congr fun k b i hi => ⟨rfl, hdata i fun heq => hout k b (heq ▸ hi)⟩
  obtain ⟨nx, hd, stop, hlink, hstop⟩ :=
    runs_linkKeys t scratch hindex₀ hfill.seq_even hout hne hfree
    (show ([] ++ List.range cfg.keys).Nodup from List.nodup_range)
  rcases hstop with ⟨rfl, hindex, hnone⟩ | ⟨pre, k, post, rfl, hks, hfound, hindex⟩
  · have hpublish := hfill.publish (by simp [Share.withData]) hindex
    refine ⟨⟨.ok, some idx, none⟩, Share.setOwner _ none .mutex, _, F, ?_,
      hpublish.setOwner none .mutex, ?_, Or.inl ⟨rfl, fun hd' => ?_⟩⟩
    · refine runs_then (runs_copyIn_all idx rec) (runs_then hlink ?_)
      exact runs_access rfl (runs_access rfl (runs_access rfl runs_pure))
    · funext l
      rw [owner_setOwner, owner_setOwner]
      rfl
    · obtain ⟨k, hk, hdup'⟩ := hdup.mpr hd'
      exact hnone k (List.mem_range.mpr hk) hdup'
  · have hk : k ∈ List.range cfg.keys := by
      rw [hks]
      simp
    obtain rfl : pre = List.range k := range_prefix hks
    obtain ⟨nx', hd', hroll, hindex'⟩ := runs_rollback t hindex
      hfill.index_disjoint hout hfree
    refine ⟨⟨.dupKey, none, some (i32 (2 ^ 32 - 1) + 1)⟩, Share.setOwner _ none .mutex, C,
      idx :: F, ?_, ((hfill.reindex hindex').push).setOwner none .mutex, ?_, Or.inr ⟨rfl,
      hdup.mp ⟨k, List.mem_range.mp hk, hfound⟩, ⟨rfl, rfl, rfl, hdata, rfl, rfl⟩, rfl, rfl⟩⟩
    · refine runs_then (runs_copyIn_all idx rec) (runs_then hlink (runs_then hroll ?_))
      exact runs_then (runs_freeSlot idx) (runs_access rfl runs_pure)
    · funext l
      rw [owner_setOwner, owner_setOwner]
      rfl

/-- An insert with no slot gives the struct mutex back and reports why. -/
theorem runs_insertRow_noSlot (hmutex : s.owner .mutex = none)
    (halloc : (machine cfg).Runs t (allocSlot cfg) (s.setOwner (some t) .mutex) nullSlot s')
    (rec scratch : Image n W) : ∃ rc, (rc = .full ∨ rc = .noMem) ∧
      (machine cfg).Runs t (insertRow cfg rec scratch) s ⟨rc, none, none⟩
        (s'.setOwner none .mutex) := by
  refine ⟨if cfg.chunkCap ≤ s'.chunkCnt then .full else .noMem, ?_, ?_⟩
  · split
    · exact Or.inl rfl
    · exact Or.inr rfl
  · refine runs_access (exec_lock hmutex) (runs_then halloc ?_)
    rw [if_pos rfl]
    exact runs_access rfl (runs_access rfl runs_pure)

/-- `fm_core_insert_row` keeps the share consistent and every lock as it was,
whether it inserts the row, finds a duplicate, or gets no slot; without the row in the
table, the slots, the index and what is available are as they were. -/
theorem runs_insertRow_full (h : Consistent cfg s C F ∅) (t : Nat)
    (hmutex : s.owner .mutex = none) (hbucket : ∀ k b, s.owner (.bucket k b) = none)
    (rec scratch : Image n W) :
    ∃ r s' C' F', (machine cfg).Runs t (insertRow cfg rec scratch) s r s' ∧
      Consistent cfg s' C' F' ∅ ∧ s'.owner = s.owner ∧ InsertEnds cfg s C F rec r.rc ∧
      (r.rc ≠ .ok → SlotsAsBefore s s' ∧ C' = C ∧ availableSlots cfg s' F' =
        availableSlots cfg s F) := by
  have h₁ := h.setOwner (some t) .mutex
  obtain ⟨idx, s₁, halloc, hsame, hindex₁, hseq, hcase⟩ :=
    runs_allocSlot_available h₁.ledger (Nat.le_of_lt cfg.maxRecords_lt) t
  have howner : (s₁.setOwner none .mutex).owner = s.owner := by
    funext l
    rw [owner_setOwner, hsame.owner, owner_setOwner]
    split
    · rename_i hl
      rw [hl, hmutex]
    · rfl
  rcases hcase with ⟨rfl, rfl, hroom, hcnt, hled⟩ | ⟨F', hne, hled, havail⟩
  · have hcons := h₁.of_ledger hsame hindex₁ hled
    obtain ⟨rc, hrc, hruns⟩ := runs_insertRow_noSlot hmutex halloc rec scratch
    refine ⟨_, _, C, [], hruns, hcons.setOwner none .mutex, howner, ?_, fun _ =>
      ⟨⟨hsame.state, hsame.gen, hseq, fun i _ => congrFun hsame.data i, hindex₁.records⟩,
        rfl, ?_⟩⟩
    · rcases hrc with rfl | rfl <;> exact ⟨rfl, hroom⟩
    · have hcnt' : (s₁.setOwner none .mutex).chunkCnt = s.chunkCnt := hcnt
      rw [availableSlots, availableSlots, hcnt']
  · have hcons := h₁.of_ledger hsame hindex₁ hled
    have hfree : ∀ k b, s₁.owner (.bucket k b) = none := by
      intro k b
      rw [hsame.owner, owner_setOwner, if_neg (by simp)]
      exact hbucket k b
    have hdup : Duplicate cfg s₁ C rec ↔ Duplicate cfg s C rec :=
      duplicate_congr fun k b i hi =>
        ⟨hsame.state i (h₁.active_grown i (h₁.active_of_mem hi)), congrFun hsame.data i⟩
    obtain ⟨r, s', C', F'', hruns, hcons', howner', hends⟩ :=
      runs_insertAt hcons hne hfree t rec scratch
    refine ⟨r, s', C', F'', ?_, hcons', howner'.trans howner, ?_, fun hfail => ?_⟩
    · refine runs_access (exec_lock hmutex) (runs_then halloc ?_)
      rw [if_neg hne]
      exact hruns
    · rcases hends with ⟨hrc, hnot⟩ | ⟨hrc, hdup', -⟩
      · rw [hrc]
        exact fun hd => hnot (hdup.mpr hd)
      · rw [hrc]
        exact hdup.mp hdup'
    · obtain ⟨hrc, -⟩ | ⟨-, -, hbut, rfl, rfl⟩ := hends
      · exact absurd hrc hfail
      · refine ⟨⟨fun i hi => ?_, fun i hi => ?_, fun i hi => ?_, fun i hi => ?_, ?_⟩, rfl, ?_⟩
        · rw [hbut.state, hsame.state i hi]
          rfl
        · rw [hbut.gen, hsame.gen i hi]
          rfl
        · rw [hbut.seq, hseq i hi]
          rfl
        · -- the image was written to a slot that is not ACTIVE
          have hidx : i ≠ idx := by
            rintro rfl
            exact (hcons.out_spec i rfl).1 ((hindex₁.active i).mpr hi)
          rw [hbut.data i hidx, hsame.data]
          rfl
        · rw [hbut.records, hindex₁.records]
          rfl
        · have hsame' : availableSlots cfg s' (idx :: F') = availableSlots cfg s₁ (idx :: F') := by
            rw [availableSlots, availableSlots, hbut.chunkCnt]
          exact hsame'.trans havail

/-- `fm_core_insert_row` keeps the share consistent and every lock as it was. -/
theorem runs_insertRow (h : Consistent cfg s C F ∅) (t : Nat)
    (hmutex : s.owner .mutex = none) (hbucket : ∀ k b, s.owner (.bucket k b) = none)
    (rec scratch : Image n W) :
    ∃ r s' C' F', (machine cfg).Runs t (insertRow cfg rec scratch) s r s' ∧
      Consistent cfg s' C' F' ∅ ∧ s'.owner = s.owner ∧ InsertEnds cfg s C F rec r.rc := by
  obtain ⟨r, s', C', F', hruns, hcons, howner, hends, -⟩ :=
    runs_insertRow_full h t hmutex hbucket rec scratch
  exact ⟨r, s', C', F', hruns, hcons, howner, hends⟩

end FastMem
