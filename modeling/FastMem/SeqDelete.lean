import FastMem.SeqInsert

/-!
# Deleting and clearing alone

A delete unlinks the slot from the chain of every key and returns it to the free
list.  A clear resets every bucket head, flips every slot to FREE and rebuilds the
free list from all slots of the share, those above the row limit included.
-/

namespace FastMem

open Conc

variable {n : Nat} {W PK : Type} {cfg : ShareCfg n W PK} {t : Nat} {s s' : Share n W}
  {C : Index} {F : List Int} {out : Set Int}

/-- The index without slot `idx` in the chains of the keys in `done`. -/
def Index.without (C : Index) (idx : Int) (done : List Nat) : Index :=
  fun k b => if k ∈ done then (C k b).erase idx else C k b

/-- With no key done the chains are as they were. -/
@[simp] theorem Index.without_nil {idx : Int} : C.without idx [] = C := by
  funext k b
  simp [Index.without]

/-- One more key is unlinked. -/
theorem Index.without_concat {idx : Int} {done : List Nat} {k b : Nat} (hk : k ∉ done)
    (honly : ∀ b', idx ∈ C k b' → b' = b) :
    (C.without idx done).set k b ((C.without idx done k b).erase idx) = C.without idx
    (done ++ [k]) := by
  funext k' b'
  by_cases hkb : k' = k ∧ b' = b
  · obtain ⟨rfl, rfl⟩ := hkb
    rw [Index.set_self]
    simp [Index.without, hk]
  · rw [Index.set_of_ne _ _ hkb]
    by_cases hk' : k' = k
    · subst hk'
      have hnot : idx ∉ C k' b' := fun hmem => hkb ⟨rfl, honly b' hmem⟩
      simp [Index.without, hk, List.erase_of_not_mem hnot]
    · simp [Index.without, hk']

/-- The chains of a delete, key by key. -/
theorem runs_unlinkKeys (t : Nat) {img : Image n W} {idx : Int} {ks done : List Nat}
    (hC : s.Indexed (C.without idx done))
    (hdisj : ∀ k b b' i, i ∈ C k b → i ∈ C k b' → b = b')
    (honly : ∀ k b, idx ∈ C k b → b = cfg.keyBucket k img)
    (hfree : ∀ k b, s.owner (.bucket k b) = none) (hnd : (done ++ ks).Nodup) :
    ∃ nx hd, (machine cfg).Runs t (unlinkKeys cfg img idx ks) s () (s.withIndex nx hd) ∧
      (s.withIndex nx hd).Indexed (C.without idx (done ++ ks)) := by
  induction ks generalizing s done with
  | nil =>
      refine ⟨s.next, s.head, runs_pure, ?_⟩
      rw [List.append_nil]
      exact hC
  | cons k ks ih =>
      have hk : k ∉ done := by
        intro hmem
        exact (List.nodup_append.mp hnd).2.2 k hmem k List.mem_cons_self rfl
      let l : Lock := .bucket k (cfg.keyBucket k img)
      have hC' : (s.setOwner (some t) l).Indexed (C.without idx done) := by
        intro k' b'
        simpa using hC k' b'
      have hdisj' : ∀ k b b' i, i ∈ C.without idx done k b →
          i ∈ C.without idx done k b' → b = b' := by
        intro k b b' i hi hi'
        have hsub : ∀ b, i ∈ C.without idx done k b → i ∈ C k b := by
          intro b hi
          unfold Index.without at hi
          split at hi
          · exact List.mem_of_mem_erase hi
          · exact hi
        exact hdisj k b b' i (hsub b hi) (hsub b' hi')
      obtain ⟨nx, hd, hunlink, hindex⟩ :=
        runs_chainUnlink cfg t hC' hdisj' k (cfg.keyBucket k img) idx
      rw [Index.without_concat hk (honly k)] at hindex
      obtain ⟨nx', hd', hruns, hindex'⟩ :=
        ih (s := s.withIndex nx hd) hindex hfree (by simpa using hnd)
      refine ⟨nx', hd', ?_, by simpa using hindex'⟩
      refine runs_access (exec_lock (hfree _ _)) (runs_then hunlink (runs_access rfl ?_))
      rw [unlock_withIndex (hfree _ _)]
      exact hruns

/-- Whether the slot holds the row the caller expects. -/
theorem runs_verifySlot (idx : Int) (g : Nat) :
    (machine cfg).Runs t (verifySlot idx g) s
    (decide (s.state idx = .active ∧ s.gen idx = g)) s := by
  refine runs_access rfl ?_
  by_cases hactive : s.state idx = .active
  · rw [if_neg (by simpa using hactive)]
    refine runs_access rfl ?_
    have : (decide (s.gen idx = g)) = decide (s.state idx = .active ∧ s.gen idx = g) := by
      simp [hactive]
    rw [← this]
    exact runs_pure
  · rw [if_pos hactive]
    have : false = decide (s.state idx = .active ∧ s.gen idx = g) := by
      simp [hactive]
    rw [← this]
    exact runs_pure

/-- The share after an ACTIVE row has been taken out of it: the slot is DELETED and
no chain holds it any more. -/
theorem Consistent.remove {idx : Int} {nx : Nat → Int → Int} {hd : Nat → Nat → Int}
    (h : Consistent cfg s C F ∅) (hactive : s.state idx = .active)
    (hC : (s.withIndex nx hd).Indexed (C.without idx (List.range cfg.keys))) :
    Consistent cfg { s.withIndex nx hd with
        state := Function.update s.state idx .deleted
        gen := Function.update s.gen idx ((s.gen idx + 1) % 2 ^ 32)
        records := s.records + -1 }
      (C.without idx (List.range cfg.keys)) F {idx} := by
  have hstate : ∀ i, Function.update s.state idx .deleted i = .active ↔
      i ≠ idx ∧ s.state i = .active := by
    intro i
    by_cases hi : i = idx
    · subst hi
      simp
    · simp [hi]
  have hnot : idx ∉ F := fun hmem => h.free_inactive idx hmem hactive
  constructor
  case index => exact hC
  case index_mem =>
    intro k hk b i
    show _ ↔ Function.update s.state idx .deleted i = .active ∧ cfg.keyBucket k (s.data i) = b
    rw [hstate, and_assoc, ← h.index_mem k hk b i]
    unfold Index.without
    rw [if_pos (List.mem_range.mpr hk)]
    exact (h.index k b).nodup.mem_erase_iff
  case index_other =>
    intro k hk b
    unfold Index.without
    rw [h.index_other k hk b]
    simp
  case free => exact h.free
  case free_inactive =>
    intro i hi hst
    exact h.free_inactive i hi ((hstate i).mp hst).2
  case free_grown => exact h.free_grown
  case free_all =>
    intro u hu hu' hne
    by_cases hi : i32 u = idx
    · exact Or.inr hi
    · have hne' : s.state (i32 u) ≠ .active := fun hst => hne ((hstate _).mpr ⟨hi, hst⟩)
      rcases h.free_all u hu hu' hne' with hmem | hmem
      · exact Or.inl hmem
      · cases hmem
  case out_spec =>
    rintro i rfl
    exact ⟨fun hst => ((hstate i).mp hst).1 rfl, h.active_grown i hactive, hnot⟩
  case records =>
    have hset : {i | Function.update s.state idx .deleted i = .active} =
        {i | s.state i = .active} \ {idx} := by
      ext i
      simp only [Set.mem_ofPred_eq, hstate, Set.mem_sdiff, Set.mem_singleton_iff]
      exact And.comm
    have hmem : idx ∈ {i | s.state i = .active} := hactive
    have hcard := Set.ncard_sdiff_singleton_add_one hmem h.active_finite
    show s.records + -1 = _
    rw [hset, h.records, ← hcard]
    omega
  case active_grown => exact fun i hi => h.active_grown i ((hstate i).mp hi).2
  case seq_even => exact h.seq_even
  case chunks => exact h.chunks

/-- What a delete does once the slot is DELETING. -/
theorem runs_deleteTail (h : Consistent cfg s C F ∅) (t : Nat)
    (hmutex : s.owner .mutex = none) (hbucket : ∀ k b, s.owner (.bucket k b) = none)
    {idx : Int} (hactive : s.state idx = .active) (scratch : Image n W) :
    ∃ s' C' F', (machine cfg).Runs t (deleteTail cfg idx scratch)
        { s with state := Function.update s.state idx .deleting } .ok s' ∧
      Consistent cfg s' C' F' ∅ ∧ s'.owner = s.owner := by
  let s₀ : Share n W := { s with state := Function.update s.state idx .deleting }
  have honly : ∀ k b, idx ∈ C k b → b = cfg.keyBucket k (s.data idx) := by
    intro k b hmem
    by_cases hk : k < cfg.keys
    · exact ((h.index_mem k hk b idx).mp hmem).2.symm
    · rw [h.index_other k (by omega)] at hmem
      cases hmem
  have hindex₀ : s₀.Indexed (C.without idx []) := by
    rw [Index.without_nil]
    exact h.index
  have hfree₀ : ∀ k b, s₀.owner (.bucket k b) = none := hbucket
  obtain ⟨nx, hd, hunlink, hindex⟩ := runs_unlinkKeys t hindex₀ h.index_disjoint honly hfree₀
    (show ([] ++ List.range cfg.keys).Nodup from List.nodup_range)
  rw [List.nil_append] at hindex
  have hremove := (((h.remove hactive hindex).setOwner (some t) .mutex).push).setOwner none .mutex
  refine ⟨_, _, _, ?_, hremove, ?_⟩
  · refine runs_then (runs_copyOut_all idx scratch) (runs_then hunlink ?_)
    refine runs_access rfl (runs_access rfl (runs_access rfl ?_))
    refine runs_access (exec_lock hmutex) (runs_then (runs_freeSlot idx) (runs_access rfl ?_))
    simp only [Share.withIndex, s₀, Function.update_idem]
    exact runs_pure
  · funext l
    cases l with
    | mutex => exact hmutex.symm
    | bucket k b => rfl
    | row i => rfl

/-- `fm_core_delete_row` keeps the share consistent and every lock as it was. -/
theorem runs_deleteRow (h : Consistent cfg s C F ∅) (t : Nat)
    (hmutex : s.owner .mutex = none) (hbucket : ∀ k b, s.owner (.bucket k b) = none)
    {idx : Int} (hrow : s.owner (.row idx) = none) (g : Nat) (scratch : Image n W) :
    ∃ s' C' F', (machine cfg).Runs t (deleteRow cfg idx g scratch) s
        (if s.state idx = .active ∧ s.gen idx = g then .ok else .deleted) s' ∧
      Consistent cfg s' C' F' ∅ ∧ s'.owner = s.owner := by
  have hverify : (machine cfg).Runs t (verifySlot idx g) (s.setOwner (some t) (.row idx))
      (decide (s.state idx = .active ∧ s.gen idx = g)) (s.setOwner (some t) (.row idx)) :=
    runs_verifySlot idx g
  by_cases hvalid : s.state idx = .active ∧ s.gen idx = g
  · obtain ⟨s', C', F', hruns, hcons, howner⟩ :=
      runs_deleteTail h t hmutex hbucket hvalid.1 scratch
    refine ⟨s', C', F', ?_, hcons, howner⟩
    rw [decide_eq_true hvalid] at hverify
    rw [if_pos hvalid]
    refine runs_access (exec_lock hrow) (runs_then hverify ?_)
    rw [if_pos rfl]
    refine runs_access rfl (runs_access rfl ?_)
    have hunlock : Share.setOwner { s.setOwner (some t) (.row idx) with
        state := Function.update (s.setOwner (some t) (.row idx)).state idx .deleting }
          none (.row idx) =
        { s with state := Function.update s.state idx .deleting } := by
      have hw : s.wlock idx = none := hrow
      simp only [Share.setOwner, Function.update_idem]
      rw [← hw, Function.update_eq_self]
    rw [hunlock]
    exact hruns
  · refine ⟨s, C, F, ?_, h, rfl⟩
    rw [decide_eq_false hvalid] at hverify
    rw [if_neg hvalid]
    refine runs_access (exec_lock hrow) (runs_then hverify (runs_access rfl ?_))
    rw [setOwner_none_setOwner hrow]
    exact runs_pure

/-- `fm_core_delete_row_locked`. -/
theorem runs_deleteRowLocked (h : Consistent cfg s C F ∅) (t : Nat)
    (hmutex : s.owner .mutex = none) (hbucket : ∀ k b, s.owner (.bucket k b) = none)
    (idx : Int) (g : Nat) (scratch : Image n W) :
    ∃ s' C' F', (machine cfg).Runs t (deleteRowLocked cfg idx g scratch) s
        (if s.state idx = .active ∧ s.gen idx = g then .ok else .deleted) s' ∧
      Consistent cfg s' C' F' ∅ ∧ s'.owner = s.owner := by
  have hverify : (machine cfg).Runs t (verifySlot idx g) s
      (decide (s.state idx = .active ∧ s.gen idx = g)) s := runs_verifySlot idx g
  by_cases hvalid : s.state idx = .active ∧ s.gen idx = g
  · obtain ⟨s', C', F', hruns, hcons, howner⟩ :=
      runs_deleteTail h t hmutex hbucket hvalid.1 scratch
    refine ⟨s', C', F', ?_, hcons, howner⟩
    rw [decide_eq_true hvalid] at hverify
    rw [if_pos hvalid]
    exact runs_then hverify (runs_access rfl hruns)
  · refine ⟨s, C, F, ?_, h, rfl⟩
    rw [decide_eq_false hvalid] at hverify
    rw [if_neg hvalid]
    exact runs_then hverify runs_pure

/-- The bucket heads `bs` of one key are reset. -/
theorem runs_clearBuckets (cfg : ShareCfg n W PK) {k : Nat} (t : Nat) (bs : List Nat)
    (hfree : ∀ b, s.owner (.bucket k b) = none) :
    (machine cfg).Runs t (clearBuckets k bs) s ()
      (s.withIndex s.next
        (Function.update s.head k fun b => if b ∈ bs then nullSlot else s.head k b)) := by
  induction bs generalizing s with
  | nil =>
      have : s.withIndex s.next (Function.update s.head k fun b => if b ∈ [] then nullSlot
          else s.head k b) = s := by
        simp [Share.withIndex]
      rw [this]
      exact runs_pure
  | cons b bs ih =>
      refine runs_access (exec_lock (hfree b)) (runs_access rfl (runs_access rfl ?_))
      let s₁ :=
        s.withIndex s.next (Function.update s.head k (Function.update (s.head k) b nullSlot))
      have hunlock : Share.setOwner { s.setOwner (some t) (.bucket k b) with
          head := Function.update s.head k (Function.update (s.head k) b nullSlot) }
            none (.bucket k b) =
          s₁ :=
        unlock_withIndex (hfree b) s.next
          (Function.update s.head k (Function.update (s.head k) b nullSlot))
      have hrest := ih (s := s₁) hfree
      have hhead : s₁.withIndex s₁.next (Function.update s₁.head k fun b' =>
          if b' ∈ bs then nullSlot else s₁.head k b') =
          s.withIndex s.next (Function.update s.head k fun b' =>
            if b' ∈ b :: bs then nullSlot else s.head k b') := by
        simp only [s₁, Share.withIndex, Function.update_idem, Function.update_self]
        congr 2
        funext b'
        by_cases hb : b' = b
        · subst hb
          simp
        · simp [hb]
      rw [hhead] at hrest
      rw [← hunlock] at hrest
      exact hrest

/-- Every bucket head of the keys in `ks` is reset. -/
theorem runs_clearHeads (cfg : ShareCfg n W PK) (t : Nat) (ks : List Nat)
    (hfree : ∀ k b, s.owner (.bucket k b) = none) :
    ∃ hd, (machine cfg).Runs t (clearHeads cfg ks) s () (s.withIndex s.next hd) ∧
      ∀ k b, hd k b = if k ∈ ks ∧ b < (cfg.keydef k).nbuckets then nullSlot else s.head k b := by
  induction ks generalizing s with
  | nil => exact ⟨s.head, runs_pure, by simp⟩
  | cons k ks ih =>
      have hfirst := runs_clearBuckets cfg t (List.range (cfg.keydef k).nbuckets) (hfree k)
      obtain ⟨hd, hruns, hspec⟩ := ih (s := s.withIndex s.next (Function.update s.head k fun b =>
        if b ∈ List.range (cfg.keydef k).nbuckets then nullSlot else s.head k b)) hfree
      refine ⟨hd, runs_then hfirst hruns, fun k' b => ?_⟩
      rw [hspec]
      by_cases hk : k' = k
      · subst hk
        by_cases hb : b < (cfg.keydef k').nbuckets <;> simp [Share.withIndex, hb]
      · simp [Share.withIndex, hk]

/-- The flips of `fm_core_clear`. -/
theorem runs_clearSlots (cfg : ShareCfg n W PK) (t : Nat) (is : List Nat) (hnd : is.Nodup)
    (hlt : ∀ i ∈ is, i < 2 ^ 32) (hfree : ∀ i ∈ is, s.owner (.row (i32 i)) = none) :
    ∃ st gn, (machine cfg).Runs t (clearSlots is) s () { s with state := st, gen := gn } ∧
      (∀ i ∈ is, st (i32 i) = .free ∧ gn (i32 i) = (s.gen (i32 i) + 1) % 2 ^ 32) ∧
      (∀ j, (∀ i ∈ is, j ≠ i32 i) → st j = s.state j ∧ gn j = s.gen j) := by
  induction is generalizing s with
  | nil => exact ⟨s.state, s.gen, runs_pure, by simp, fun _ _ => ⟨rfl, rfl⟩⟩
  | cons i is ih =>
      obtain ⟨hi, hnd'⟩ := List.nodup_cons.mp hnd
      have hfi := hfree i List.mem_cons_self
      let s₁ : Share n W := { s with
        state := Function.update s.state (i32 i) .free
        gen := Function.update s.gen (i32 i) ((s.gen (i32 i) + 1) % 2 ^ 32) }
      obtain ⟨st, gn, hruns, hdone, hother⟩ := ih (s := s₁) hnd'
        (fun j hj => hlt j (List.mem_cons_of_mem _ hj))
        (fun j hj => hfree j (List.mem_cons_of_mem _ hj))
      have hnew : ∀ j ∈ is, i32 i ≠ i32 j := by
        intro j hj heq
        have := i32_inj (hlt i List.mem_cons_self) (hlt j (List.mem_cons_of_mem _ hj)) heq
        exact hi (this ▸ hj)
      refine ⟨st, gn, ?_, ?_, ?_⟩
      · refine runs_access (exec_lock hfi) (runs_access rfl (runs_access rfl (runs_access rfl ?_)))
        have hunlock : Share.setOwner { s.setOwner (some t) (.row (i32 i)) with
            state := Function.update (s.setOwner (some t) (.row (i32 i))).state (i32 i) .free
            gen := Function.update (s.setOwner (some t) (.row (i32 i))).gen (i32 i)
              (((s.setOwner (some t) (.row (i32 i))).gen (i32 i) + 1) % 2 ^ 32) } none
              (.row (i32 i)) = s₁ := by
          have hw : s.wlock (i32 i) = none := hfi
          simp only [Share.setOwner, Function.update_idem, s₁]
          rw [← hw, Function.update_eq_self]
        have hrest : ∀ s₂, s₂ = s₁ → (machine cfg).Runs t (clearSlots is) s₂ ()
            { s with state := st, gen := gn } := by
          rintro _ rfl
          exact hruns
        exact hrest _ hunlock
      · intro j hj
        rcases List.mem_cons.mp hj with rfl | hj
        · rw [(hother _ hnew).1, (hother _ hnew).2]
          simp [s₁]
        · have hne : i32 j ≠ i32 i := fun h => hnew j hj h.symm
          rw [(hdone j hj).1, (hdone j hj).2]
          simp [s₁, hne]
      · intro j hj
        have hj' : j ≠ i32 i := hj i List.mem_cons_self
        obtain ⟨h1, h2⟩ := hother j fun i' hi' => hj i' (List.mem_cons_of_mem _ hi')
        rw [h1, h2]
        simp [s₁, hj']

/-- The flips of a clear need every row lock. -/
theorem free_of_clearSlots {α : Type} {f : Unit → Core n W PK α} {x : α} {is : List Nat}
    (hruns : (machine cfg).Runs t (clearSlots is >>= f) s x s') :
    ∀ i ∈ is, s.owner (.row (i32 i)) = none := by
  induction is generalizing s with
  | nil => simp
  | cons i is ih =>
      cases hruns with
      | act hlock hrest =>
          have hfree : s.owner (.row (i32 i)) = none := by
            by_contra hheld
            simp [exec, hheld] at hlock
          rw [show (machine cfg).exec = exec cfg from rfl, exec_lock hfree] at hlock
          cases hlock
          cases hrest with
          | act hstore hrest =>
              cases hstore
              cases hrest with
              | act hgen hrest =>
                  cases hgen
                  cases hrest with
                  | act hunlock hrest =>
                      cases hunlock
                      intro j hj
                      rcases List.mem_cons.mp hj with rfl | hj
                      · exact hfree
                      · have hj' := ih hrest j hj
                        rw [owner_setOwner] at hj'
                        split at hj'
                        · rename_i heq
                          rw [heq]
                          exact hfree
                        · rename_i hne
                          have : (s.setOwner (some t) (.row (i32 i))).owner (.row (i32 j)) = none :=
                            hj'
                          rw [owner_setOwner, if_neg hne] at this
                          exact this

/-- The rebuild of the free list: every slot is pushed, the last one ends up in
front. -/
theorem runs_rebuildFree (cfg : ShareCfg n W PK) (t : Nat) (is : List Nat)
    (hF : s.FreeList F) (hnd : is.Nodup) (hlt : ∀ i ∈ is, i + 1 < 2 ^ 32)
    (hnew : ∀ i ∈ is, i32 i ∉ F) :
    ∃ fn fh, (machine cfg).Runs t (rebuildFree is) s () (s.withFree fn fh) ∧
      (s.withFree fn fh).FreeList ((is.map i32).reverse ++ F) := by
  induction is generalizing s F with
  | nil => exact ⟨s.freeNext, s.freeHead, runs_pure, hF⟩
  | cons i is ih =>
      obtain ⟨hi, hnd'⟩ := List.nodup_cons.mp hnd
      have hpush : (s.withFree (Function.update s.freeNext (i32 i) s.freeHead) (i32 i)).FreeList
          (i32 i :: F) :=
        IsChain.push hF (hnew i List.mem_cons_self) (i32_ne_null (hlt i List.mem_cons_self))
      obtain ⟨fn, fh, hruns, hlist⟩ :=
        ih hpush hnd' (fun j hj => hlt j (List.mem_cons_of_mem _ hj)) (by
        intro j hj hmem
        rcases List.mem_cons.mp hmem with heq | hmem
        · have hj' := hlt j (List.mem_cons_of_mem _ hj)
          have hi' := hlt i List.mem_cons_self
          have := i32_inj (by omega) (by omega) heq
          exact hi (this ▸ hj)
        · exact hnew j (List.mem_cons_of_mem _ hj) hmem)
      refine ⟨fn, fh, runs_then (runs_freeSlot _) hruns, ?_⟩
      rw [List.map_cons, List.reverse_cons, List.append_assoc]
      exact hlist

/-- Every slot of a share, the last one in front: the free list of a cleared share. -/
def Share.allSlots (s : Share n W) : List Int :=
  ((List.range (slotCount s.chunkCnt)).map i32).reverse

/-- They are the slots that lie in a chunk. -/
theorem mem_allSlots {i : Int} : i ∈ s.allSlots ↔ s.Grown i := by
  rw [Share.allSlots, List.mem_reverse, List.mem_map]
  constructor
  · rintro ⟨u, hu, rfl⟩
    exact ⟨u, List.mem_range.mp hu, rfl⟩
  · rintro ⟨u, hu, rfl⟩
    exact ⟨u, List.mem_range.mpr hu, rfl⟩

/-- The flips over all slots leave no row, and one generation more in each slot. -/
theorem runs_clearSlots_all (cfg : ShareCfg n W PK) (t : Nat) (hchunks : s.chunkCnt ≤ cfg.chunkCap)
    (hgrown : ∀ i, s.state i = .active → s.Grown i)
    (hfree : ∀ i, s.Grown i → s.owner (.row i) = none) :
    ∃ st gn, (machine cfg).Runs t (clearSlots (List.range (slotCount s.chunkCnt))) s ()
        { s with state := st, gen := gn } ∧
      (∀ i, st i ≠ .active) ∧ ∀ i, s.Grown i → gn i = (s.gen i + 1) % 2 ^ 32 := by
  obtain ⟨heq, hle⟩ := slotCount_of_le hchunks
  have hlt : ∀ i ∈ List.range (slotCount s.chunkCnt), i < 2 ^ 32 := by
    intro i hi
    have := List.mem_range.mp hi
    omega
  obtain ⟨st, gn, hflip, hfreed, hother⟩ := runs_clearSlots cfg (s := s) t
    (List.range (slotCount s.chunkCnt)) List.nodup_range hlt
    (fun i hi => hfree _ ⟨i, List.mem_range.mp hi, rfl⟩)
  refine ⟨st, gn, hflip, fun i => ?_, fun i hi => ?_⟩
  · by_cases hi : s.Grown i
    · obtain ⟨u, hu, rfl⟩ := hi
      rw [(hfreed u (List.mem_range.mpr hu)).1]
      decide
    · rw [(hother i (fun u hu heq => hi ⟨u, List.mem_range.mp hu, heq⟩)).1]
      exact fun hst => hi (hgrown i hst)
  · obtain ⟨u, hu, rfl⟩ := hi
    exact (hfreed u (List.mem_range.mpr hu)).2

/-- The rebuild over all slots, from an empty list. -/
theorem runs_rebuildFree_all (cfg : ShareCfg n W PK) (t : Nat) (hchunks : s.chunkCnt ≤ cfg.chunkCap)
    (hempty : s.freeHead = nullSlot) :
    ∃ fn fh, (machine cfg).Runs t (rebuildFree (List.range (slotCount s.chunkCnt))) s ()
        (s.withFree fn fh) ∧ (s.withFree fn fh).FreeList s.allSlots := by
  obtain ⟨heq, hle⟩ := slotCount_of_le hchunks
  have hlt : ∀ i ∈ List.range (slotCount s.chunkCnt), i + 1 < 2 ^ 32 := by
    intro i hi
    have := List.mem_range.mp hi
    omega
  have hF : s.FreeList [] := hempty
  obtain ⟨fn, fh, hrebuild, hlist⟩ := runs_rebuildFree cfg t (List.range (slotCount s.chunkCnt))
    hF List.nodup_range hlt (by simp)
  rw [List.append_nil] at hlist
  exact ⟨fn, fh, hrebuild, hlist⟩

/-- Once the buckets of the keys are emptied, every bucket is empty. -/
theorem Consistent.heads_null (h : Consistent cfg s C F out) {k b : Nat}
    (hkb : ¬ (k ∈ List.range cfg.keys ∧ b < (cfg.keydef k).nbuckets)) :
    s.head k b = nullSlot := by
  have hempty : C k b = [] := by
    by_cases hk : k < cfg.keys
    · rw [List.eq_nil_iff_forall_not_mem]
      intro i hi
      have hb := ((h.index_mem k hk b i).mp hi).2
      have := cfg.keyBucket_lt k (s.data i)
      exact hkb ⟨List.mem_range.mpr hk, by omega⟩
    · exact h.index_other k (by omega) b
  have hchain := h.index k b
  rw [hempty] at hchain
  exact hchain

/-- An empty share: no row, empty chains, every slot on the free list. -/
theorem consistent_empty {L : List Int} (hchunks : s.chunkCnt ≤ cfg.chunkCap)
    (hhead : ∀ k b, s.head k b = nullSlot) (hactive : ∀ i, s.state i ≠ .active)
    (hfree : s.FreeList L) (hL : ∀ i, i ∈ L ↔ s.Grown i) (hrecords : s.records = 0)
    (heven : ∀ i, s.seq i % 2 = 0) : Consistent cfg s (fun _ _ => []) L ∅ where
  index := hhead
  index_mem := by
    intro k _ b i
    simp [hactive i]
  index_other := fun _ _ _ => rfl
  free := hfree
  free_inactive := fun i _ => hactive i
  free_grown := fun i hi => (hL i).mp hi
  free_all := fun u hu _ _ => Or.inl ((hL _).mpr ⟨u, hu, rfl⟩)
  out_spec := by simp
  records := by
    have : {i | s.state i = .active} = ∅ := by
      ext i
      simp [hactive i]
    rw [this, hrecords]
    simp
  active_grown := fun i hi => absurd hi (hactive i)
  seq_even := heven
  chunks := hchunks

/-- `fm_core_clear` leaves an empty share and every lock as it was. -/
theorem runs_clear (h : Consistent cfg s C F ∅) (t : Nat)
    (hmutex : s.owner .mutex = none) (hbucket : ∀ k b, s.owner (.bucket k b) = none)
    (hrow : ∀ i, s.Grown i → s.owner (.row i) = none) :
    ∃ s' L, (machine cfg).Runs t (clear cfg) s () s' ∧
      Consistent cfg s' (fun _ _ => []) L ∅ ∧ s'.owner = s.owner := by
  let s₁ := s.setOwner (some t) .mutex
  have hfree₁ : ∀ k b, s₁.owner (.bucket k b) = none := hbucket
  obtain ⟨hd, hheads, hhd⟩ := runs_clearHeads cfg t (List.range cfg.keys) hfree₁
  have hhead : ∀ k b, hd k b = nullSlot := by
    intro k b
    rw [hhd]
    split
    · rfl
    · rename_i hkb
      exact h.heads_null hkb
  let s₂ := s₁.withIndex s₁.next hd
  obtain ⟨st, gn, hflip, hactive, -⟩ :=
    runs_clearSlots_all cfg (s := s₂) t h.chunks h.active_grown hrow
  let s₃ : Share n W := { s₂ with state := st, gen := gn, freeHead := nullSlot }
  obtain ⟨fn, fh, hrebuild, hlist⟩ := runs_rebuildFree_all cfg (s := s₃) t h.chunks rfl
  let s₄ : Share n W := Share.setOwner { s₃.withFree fn fh with records := 0 } none .mutex
  have hmem : ∀ i, i ∈ s₃.allSlots ↔ s₄.Grown i := fun _ => mem_allSlots
  refine ⟨s₄, _, ?_, consistent_empty h.chunks hhead hactive hlist hmem rfl h.seq_even, ?_⟩
  · refine runs_access (exec_lock hmutex) (runs_then hheads (runs_access rfl (runs_then hflip ?_)))
    exact runs_access rfl (runs_then hrebuild (runs_access rfl (runs_last rfl)))
  · funext l
    cases l with
    | mutex => exact hmutex.symm
    | bucket k b => rfl
    | row i => rfl

end FastMem
