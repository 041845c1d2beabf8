import FastMem.Consistency

/-!
# The slot ledger

Which slots are in use, which are on the free list and which may still come is kept
by slot allocation alone: the hash index plays no part in it.  The ledger of a share
says so.  It holds after calls that leave the index in any state whatever, so it
carries the results that ask nothing of the caller.

Inside a call one slot may be out, taken off the free list and not ACTIVE yet.  All
slots in circulation are numbered below `lim`.
-/

namespace FastMem

open Conc

variable {n : Nat} {W PK : Type} {cfg : ShareCfg n W PK} {t lim : Nat} {s s' : Share n W}
  {C : Index} {F F' : List Int} {out out' : Set Int}

/-- The free list of the share is `F`, the slots in `out` are out, and every slot
below the row limit is on the list, out, ACTIVE or not there yet. -/
structure Ledger (cfg : ShareCfg n W PK) (lim : Nat) (s : Share n W) (F : List Int)
    (out : Set Int) : Prop where
  free : s.FreeList F
  free_inactive : ∀ i ∈ F, s.state i ≠ .active
  free_all : ∀ u, u < slotCount s.chunkCnt → u < cfg.maxRecords → s.state (i32 u) ≠ .active →
    i32 u ∈ F ∨ i32 u ∈ out
  out_spec : ∀ i ∈ out, s.state i ≠ .active ∧ i ∉ F
  used : ∀ i, i ∈ F ∨ i ∈ out ∨ s.state i = .active →
    ∃ u, u < slotCount s.chunkCnt ∧ u < lim ∧ i = i32 u
  seq_even : ∀ i, s.seq i % 2 = 0
  chunks : s.chunkCnt ≤ cfg.chunkCap

/-- Every slot of the balance lies in a chunk. -/
theorem Ledger.grown (h : Ledger cfg lim s F out) {i : Int}
    (hi : i ∈ F ∨ i ∈ out ∨ s.state i = .active) : s.Grown i := by
  obtain ⟨u, hu, -, rfl⟩ := h.used i hi
  exact ⟨u, hu, rfl⟩

/-- A consistent share has its slots in balance. -/
theorem Consistent.ledger (h : Consistent cfg s C F out) : Ledger cfg (2 ^ 32) s F out where
  free := h.free
  free_inactive := h.free_inactive
  free_all := h.free_all
  out_spec := fun i hi => ⟨(h.out_spec i hi).1, (h.out_spec i hi).2.2⟩
  used := by
    intro i hi
    have hgrown : s.Grown i := by
      rcases hi with hi | hi | hi
      · exact h.free_grown i hi
      · exact (h.out_spec i hi).2.1
      · exact h.active_grown i hi
    obtain ⟨u, hu, rfl⟩ := hgrown
    exact ⟨u, hu, lt_trans hu (Nat.mod_lt _ (by decide)), rfl⟩
  seq_even := h.seq_even
  chunks := h.chunks

/-- Locks play no part in the ledger. -/
theorem Ledger.setOwner (h : Ledger cfg lim s F out) (o : Option Nat) (l : Lock) :
    Ledger cfg lim (s.setOwner o l) F out := by
  cases l <;> exact { h with }

/-- A fresh share has its slots in balance. -/
theorem ledger_fresh (cfg : ShareCfg n W PK) (lim : Nat) (data : Int → Image n W) :
    Ledger cfg lim (Share.fresh data) [] ∅ where
  free := rfl
  free_inactive := by simp
  free_all := by
    intro u hu
    simp [Share.fresh, slotCount] at hu
  out_spec := by simp
  used := by simp [Share.fresh]
  seq_even := by
    intro i
    rfl
  chunks := Nat.zero_le _

/-- The share after the constructor has run over the slots of chunk `c`, after the
chain cells of the keys `ks` have been filled, and with `a` allocations made. -/
def Share.initChunk (s : Share n W) (c : Nat) (ks : List Nat) (a : Nat) : Share n W :=
  { s with
    state := fun i => if u32 i / chunkSize = c then .free else s.state i
    seq := fun i => if u32 i / chunkSize = c then 0 else s.seq i
    gen := fun i => if u32 i / chunkSize = c then 0 else s.gen i
    freeNext := fun i => if u32 i / chunkSize = c then nullSlot else s.freeNext i
    next := fun k i => if k ∈ ks ∧ u32 i / chunkSize = c then nullSlot else s.next k i
    allocs := a }

/-- Filling the chain cells of further keys, until an allocation fails. -/
theorem runs_allocKeyNext (cfg : ShareCfg n W PK) (t : Nat) (s : Share n W) (c : Nat)
    (ks done : List Nat) (a : Nat) :
    ∃ done' a' rc, (machine cfg).Runs t (allocKeyNext c ks) (s.initChunk c done a) rc
      (s.initChunk c done' a') ∧ (rc = .ok ∨ rc = .noMem ∧ ∃ m, cfg.alloc m = false) := by
  induction ks generalizing done a with
  | nil => exact ⟨done, a, .ok, runs_pure, Or.inl rfl⟩
  | cons k ks ih =>
      by_cases halloc : cfg.alloc a = true
      · obtain ⟨done', a', rc, hruns, hrc⟩ := ih (done ++ [k]) (a + 1)
        refine ⟨done', a', rc, runs_access rfl ?_, hrc⟩
        rw [if_pos (show cfg.alloc (s.initChunk c done a).allocs = true from halloc)]
        refine runs_access rfl ?_
        convert hruns using 1
        simp only [Share.initChunk, Share.mk.injEq, true_and, and_true]
        funext k' i
        by_cases hk : k' = k
        · subst hk
          by_cases hi : u32 i / chunkSize = c <;> simp [hi]
        · simp [hk]
      · refine ⟨done, a + 1, .noMem, runs_access rfl ?_, Or.inr ⟨rfl, a, by simpa using halloc⟩⟩
        rw [if_neg (show ¬ cfg.alloc (s.initChunk c done a).allocs = true from halloc)]
        exact runs_pure

/-- Running a program that grows the share by a chunk: the new chunk, or an allocation
that fails and leaves the chunk unpublished. -/
def GrowsFrom (cfg : ShareCfg n W PK) (t : Nat) (s₀ s : Share n W) (p : Core n W PK Rc) : Prop :=
  ∃ ks a, (machine cfg).Runs t p s .ok
      { s₀.initChunk s₀.chunkCnt ks a with chunkCnt := s₀.chunkCnt + 1 } ∨
    (∃ m, cfg.alloc m = false) ∧
      ((machine cfg).Runs t p s .noMem (s₀.initChunk s₀.chunkCnt ks a) ∨
        (machine cfg).Runs t p s .noMem { s₀ with allocs := a })

/-- Publishing a chunk grows the share. -/
theorem grows_publishChunk (s : Share n W) (a : Nat) :
    GrowsFrom cfg t s (s.initChunk s.chunkCnt [] a) (publishChunk cfg s.chunkCnt) := by
  obtain ⟨ks, a', rc, hruns, hrc⟩ :=
    runs_allocKeyNext cfg t s s.chunkCnt (List.range cfg.keys) [] a
  refine ⟨ks, a', ?_⟩
  rcases hrc with rfl | ⟨rfl, hfail⟩
  · exact Or.inl (runs_then hruns (runs_access rfl runs_pure))
  · exact Or.inr ⟨hfail, Or.inl (runs_then hruns runs_pure)⟩

/-- A growth may begin with steps that do nothing about it. -/
theorem GrowsFrom.step {s₀ s s' : Share n W} {p q : Core n W PK Rc} (h : GrowsFrom cfg t s₀ s' p)
    (hstep : ∀ rc s'', (machine cfg).Runs t p s' rc s'' → (machine cfg).Runs t q s rc s'') :
    GrowsFrom cfg t s₀ s q := by
  obtain ⟨ks, a, h | ⟨hfail, h | h⟩⟩ := h
  · exact ⟨ks, a, Or.inl (hstep _ _ h)⟩
  · exact ⟨ks, a, Or.inr ⟨hfail, Or.inl (hstep _ _ h)⟩⟩
  · exact ⟨ks, a, Or.inr ⟨hfail, Or.inr (hstep _ _ h)⟩⟩

/-- Building a chunk grows the share, or fails on the way. -/
theorem grows_buildChunk (s : Share n W) :
    GrowsFrom cfg t s { s with allocs := s.allocs + 1 } (buildChunk cfg s.chunkCnt) := by
  have hinit : exec cfg t (.initSlots s.chunkCnt) { s with allocs := s.allocs + 1 } =
      some ((), s.initChunk s.chunkCnt [] (s.allocs + 1)) := by
    simp [exec, Share.initChunk]
  by_cases hkeys : cfg.keys = 0
  · refine (grows_publishChunk s (s.allocs + 1)).step fun rc s'' hruns => runs_access hinit ?_
    rw [allocKeyArray, if_pos hkeys]
    exact hruns
  · by_cases halloc : cfg.alloc (s.allocs + 1) = true
    · refine (grows_publishChunk s (s.allocs + 2)).step fun rc s'' hruns => runs_access hinit ?_
      rw [allocKeyArray, if_neg hkeys]
      refine runs_access rfl ?_
      rw [if_pos (show cfg.alloc (s.initChunk s.chunkCnt [] (s.allocs + 1)).allocs =
        true from halloc)]
      exact hruns
    · refine ⟨[], s.allocs + 2, Or.inr ⟨⟨s.allocs + 1, by simpa using halloc⟩,
        Or.inl (runs_access hinit ?_)⟩⟩
      rw [allocKeyArray, if_neg hkeys]
      refine runs_access rfl ?_
      rw [if_neg (show ¬ cfg.alloc (s.initChunk s.chunkCnt [] (s.allocs + 1)).allocs =
        true from halloc)]
      exact runs_pure

/-- `fm_core_grow_chunk` below the capacity. -/
theorem grows_growChunk (hcap : s.chunkCnt < cfg.chunkCap) : GrowsFrom cfg t s s
    (growChunk cfg) := by
  have hnot : ¬ cfg.chunkCap ≤ s.chunkCnt := by omega
  by_cases halloc : cfg.alloc s.allocs = true
  · refine (grows_buildChunk s).step fun rc s'' hruns => runs_access rfl ?_
    rw [if_neg hnot]
    refine runs_access rfl ?_
    rw [if_pos halloc]
    exact hruns
  · refine ⟨[], s.allocs + 1,
      Or.inr ⟨⟨s.allocs, by simpa using halloc⟩, Or.inr (runs_access rfl ?_)⟩⟩
    rw [if_neg hnot]
    refine runs_access rfl ?_
    rw [if_neg halloc]
    exact runs_pure

/-- Slots that do not exist yet may be constructed at any time. -/
theorem Ledger.initChunk (h : Ledger cfg lim s F out) (ks : List Nat) (a : Nat) :
    Ledger cfg lim (s.initChunk s.chunkCnt ks a) F out := by
  have hold : ∀ i, s.Grown i → ¬ u32 i / chunkSize = s.chunkCnt :=
    fun i hi hc => not_grown_of_chunk h.chunks hc hi
  have hstate : ∀ i, (s.initChunk s.chunkCnt ks a).state i = .active ↔ s.state i = .active := by
    intro i
    by_cases hi : u32 i / chunkSize = s.chunkCnt
    · have : s.state i ≠ .active := fun hactive => hold i (h.grown (Or.inr (Or.inr hactive))) hi
      simp [Share.initChunk, hi, this]
    · simp [Share.initChunk, hi]
  constructor
  case free =>
    refine IsChain.congr h.free fun i hi => ?_
    have := hold i (h.grown (Or.inl hi))
    simp [Share.initChunk, this]
  case free_inactive =>
    intro i hi
    rw [ne_eq, hstate]
    exact h.free_inactive i hi
  case free_all =>
    intro u hu hu' hne
    rw [ne_eq, hstate] at hne
    exact h.free_all u hu hu' hne
  case out_spec =>
    intro i hi
    rw [ne_eq, hstate]
    exact h.out_spec i hi
  case used =>
    intro i hi
    rw [hstate] at hi
    exact h.used i hi
  case seq_even =>
    intro i
    by_cases hi : u32 i / chunkSize = s.chunkCnt
    · simp [Share.initChunk, hi]
    · simpa [Share.initChunk, hi] using h.seq_even i
  case chunks => exact h.chunks

/-- Taking the first slot off the free list. -/
theorem Ledger.pop {i : Int} (h : Ledger cfg lim s (i :: F) ∅) :
    Ledger cfg lim (s.withFree s.freeNext (s.freeNext i)) F {i} := by
  have hnd : (i :: F).Nodup := IsChain.nodup h.free
  constructor
  case free => exact h.free.2.2
  case free_inactive => exact fun j hj => h.free_inactive j (List.mem_cons_of_mem _ hj)
  case free_all =>
    intro u hu hu' hne
    rcases h.free_all u hu hu' hne with hmem | hmem
    · rcases List.mem_cons.mp hmem with heq | hmem
      · exact Or.inr heq
      · exact Or.inl hmem
    · cases hmem
  case out_spec =>
    intro j hj
    have hj : j = i := hj
    subst hj
    exact ⟨h.free_inactive j List.mem_cons_self, (List.nodup_cons.mp hnd).1⟩
  case used =>
    intro j hj
    apply h.used
    rcases hj with hj | hj | hj
    · exact Or.inl (List.mem_cons_of_mem _ hj)
    · have hj : j = i := hj
      exact Or.inl (hj ▸ List.mem_cons_self)
    · exact Or.inr (Or.inr hj)
  case seq_even => exact h.seq_even
  case chunks => exact h.chunks

/-- Returning the slot that is out. -/
theorem Ledger.push {i : Int} (h : Ledger cfg lim s F {i}) :
    Ledger cfg lim (s.withFree (Function.update s.freeNext i s.freeHead) i) (i :: F) ∅ := by
  obtain ⟨hne, hnot⟩ := h.out_spec i rfl
  have hnull : i ≠ nullSlot := grown_ne_null h.chunks (h.grown (Or.inr (Or.inl rfl)))
  constructor
  case free => exact IsChain.push h.free hnot hnull
  case free_inactive =>
    intro j hj
    rcases List.mem_cons.mp hj with rfl | hj
    · exact hne
    · exact h.free_inactive j hj
  case free_all =>
    intro u hu hu' hne'
    rcases h.free_all u hu hu' hne' with hmem | hmem
    · exact Or.inl (List.mem_cons_of_mem _ hmem)
    · have hmem : i32 u = i := hmem
      exact Or.inl (hmem ▸ List.mem_cons_self)
  case out_spec => simp
  case used =>
    intro j hj
    apply h.used
    rcases hj with hj | hj | hj
    · rcases List.mem_cons.mp hj with hj | hj
      · exact Or.inr (Or.inl hj)
      · exact Or.inl hj
    · cases hj
    · exact Or.inr (Or.inr hj)
  case seq_even => exact h.seq_even
  case chunks => exact h.chunks

/-- Below the capacity, the slots of the next chunk are numbered from the slot count
on, and nothing wraps. -/
theorem slotCount_succ {c : Nat} (hc : c < cfg.chunkCap) :
    slotCount c = c * 4096 ∧ slotCount (c + 1) = c * 4096 + 4096 ∧ c * 4096 + 8192 ≤ 2 ^ 32 := by
  obtain ⟨heq, -⟩ := slotCount_of_le (Nat.le_of_lt hc)
  obtain ⟨heq', hle⟩ := slotCount_of_le (show c + 1 ≤ cfg.chunkCap from hc)
  omega

/-- Where a chunk ends. -/
theorem chunkEnd_spec {c : Nat} (hc : c < cfg.chunkCap) :
    chunkEnd cfg (slotCount c) ≤ c * 4096 + 4096 ∧ chunkEnd cfg (slotCount c) ≤ cfg.maxRecords ∧
      ∀ u, u < c * 4096 + 4096 → u < cfg.maxRecords → u < chunkEnd cfg (slotCount c) := by
  obtain ⟨heq, -, hle⟩ := slotCount_succ hc
  have hsum : (slotCount c + chunkSize) % 2 ^ 32 = c * 4096 + 4096 := by
    unfold chunkSize
    omega
  unfold chunkEnd
  rw [hsum]
  clear hsum heq hle
  by_cases htrim : cfg.maxRecords < c * 4096 + 4096
  · rw [if_pos htrim]
    exact ⟨by omega, le_rfl, fun u _ hu => hu⟩
  · rw [if_neg htrim]
    exact ⟨by omega, by omega, fun u hu _ => hu⟩

/-- The slots of a new chunk that may be used: one is handed out, the others go on
the free list. -/
theorem Ledger.addChunk (h : Ledger cfg lim s [] ∅) (hlim : cfg.maxRecords ≤ lim)
    (hfull : slotCount s.chunkCnt < cfg.maxRecords) (hcap : s.chunkCnt < cfg.chunkCap)
    (ks : List Nat) (a : Nat) (fn : Int → Int) (fh : Int)
    (hlist : IsChain nullSlot fn fh (slotsFrom (slotCount s.chunkCnt + 1)
      (chunkEnd cfg (slotCount s.chunkCnt) - (slotCount s.chunkCnt + 1)))) :
    Ledger cfg lim
      (Share.withFree { s.initChunk s.chunkCnt ks a with chunkCnt := s.chunkCnt + 1 } fn fh)
      (slotsFrom (slotCount s.chunkCnt + 1)
        (chunkEnd cfg (slotCount s.chunkCnt) - (slotCount s.chunkCnt + 1)))
        {i32 (slotCount s.chunkCnt)} := by
  have h' := h.initChunk ks a
  obtain ⟨heq, heq', hle⟩ := slotCount_succ hcap
  obtain ⟨hend, hend', hall⟩ := chunkEnd_spec hcap
  -- every slot of the new chunk is FREE
  have hnew : ∀ u, slotCount s.chunkCnt ≤ u → u < s.chunkCnt * 4096 + 4096 →
      (s.initChunk s.chunkCnt ks a).state (i32 u) ≠ .active := by
    intro u hu hu'
    have hdiv : u32 (i32 u) / chunkSize = s.chunkCnt := by
      rw [u32_i32 (by omega)]
      unfold chunkSize
      omega
    simp [Share.initChunk, hdiv]
  constructor
  case free => exact hlist
  case free_inactive =>
    intro i hi
    obtain ⟨j, hj, rfl⟩ := mem_slotsFrom.mp hi
    exact hnew _ (by omega) (by omega)
  case free_all =>
    intro u hu hu' hne
    have hu : u < s.chunkCnt * 4096 + 4096 := heq' ▸ hu
    by_cases hlo : u < slotCount s.chunkCnt
    · rcases h'.free_all u hlo hu' hne with hmem | hmem
      · cases hmem
      · cases hmem
    · by_cases htop : u = slotCount s.chunkCnt
      · exact Or.inr (by rw [htop]; rfl)
      · refine Or.inl (mem_slotsFrom.mpr ⟨u - (slotCount s.chunkCnt + 1), ?_, ?_⟩)
        · have := hall u hu hu'
          omega
        · congr 1
          omega
  case out_spec =>
    intro i hi
    have hi : i = i32 (slotCount s.chunkCnt) := hi
    subst hi
    refine ⟨hnew _ le_rfl (by omega), fun hmem => ?_⟩
    obtain ⟨j, hj, heq''⟩ := mem_slotsFrom.mp hmem
    have := i32_inj (by omega) (by omega) heq''
    omega
  case used =>
    intro i hi
    have hcnt : ∀ u, u < s.chunkCnt * 4096 + 4096 → u < lim →
        ∃ u', u' < slotCount (s.chunkCnt + 1) ∧ u' < lim ∧ i32 u = i32 u' := by
      intro u hu hu'
      exact ⟨u, by omega, hu', rfl⟩
    rcases hi with hi | hi | hi
    · obtain ⟨j, hj, rfl⟩ := mem_slotsFrom.mp hi
      exact hcnt _ (by omega) (by omega)
    · have hi : i = i32 (slotCount s.chunkCnt) := hi
      subst hi
      exact hcnt _ (by omega) (by omega)
    · obtain ⟨u, hu, hu', rfl⟩ := h'.used i (Or.inr (Or.inr hi))
      have hu : u < slotCount s.chunkCnt := hu
      exact hcnt u (by omega) hu'
  case seq_even => exact h'.seq_even
  case chunks => exact hcap

/-- What allocation leaves alone of the rows. -/
structure SameRows (s s' : Share n W) : Prop where
  owner : s'.owner = s.owner
  data : s'.data = s.data
  state : ∀ i, s.Grown i → s'.state i = s.state i
  gen : ∀ i, s.Grown i → s'.gen i = s.gen i

/-- A share has its own rows. -/
theorem SameRows.refl (s : Share n W) : SameRows s s := ⟨rfl, rfl, fun _ _ => rfl, fun _ _ => rfl⟩

/-- What allocation leaves alone of the index. -/
structure SameIndex (s s' : Share n W) : Prop where
  head : s'.head = s.head
  next : ∀ k i, s.Grown i → s'.next k i = s.next k i
  records : s'.records = s.records
  grown : ∀ i, s.Grown i → s'.Grown i
  active : ∀ i, s'.state i = .active ↔ s.state i = .active

/-- A share has its own index. -/
theorem SameIndex.refl (s : Share n W) : SameIndex s s :=
  ⟨rfl, fun _ _ _ => rfl, rfl, fun _ hi => hi, fun _ => Iff.rfl⟩

/-- A chunk that is built changes neither rows nor index. -/
theorem same_initChunk (h : Ledger cfg lim s F out) (ks : List Nat) (a : Nat) {c : Nat}
    (hc : slotCount s.chunkCnt ≤ slotCount c) (fn : Int → Int) (fh : Int) :
    SameRows s (Share.withFree { s.initChunk s.chunkCnt ks a with chunkCnt := c } fn fh) ∧
      SameIndex s (Share.withFree { s.initChunk s.chunkCnt ks a with chunkCnt := c } fn fh) := by
  have hold : ∀ i, s.Grown i → ¬ u32 i / chunkSize = s.chunkCnt :=
    fun i hi hdiv => not_grown_of_chunk h.chunks hdiv hi
  refine ⟨⟨?_, rfl, fun i hi => ?_, fun i hi => ?_⟩,
    ⟨rfl, fun k i hi => ?_, rfl, fun i hi => ?_, fun i => ?_⟩⟩
  · funext l
    cases l <;> rfl
  · simp [Share.withFree, Share.initChunk, hold i hi]
  · simp [Share.withFree, Share.initChunk, hold i hi]
  · simp [Share.withFree, Share.initChunk, hold i hi]
  · obtain ⟨u, hu, rfl⟩ := hi
    exact ⟨u, lt_of_lt_of_le hu hc, rfl⟩
  · by_cases hi : u32 i / chunkSize = s.chunkCnt
    · have : s.state i ≠ .active := fun hactive => hold i (h.grown (Or.inr (Or.inr hactive))) hi
      simp [Share.withFree, Share.initChunk, hi, this]
    · simp [Share.withFree, Share.initChunk, hi]

/-- The reasons for which allocation may give up. -/
def NoRoom (cfg : ShareCfg n W PK) (s : Share n W) : Prop :=
  cfg.maxRecords ≤ slotCount s.chunkCnt ∨ cfg.chunkCap ≤ s.chunkCnt ∨ ∃ m, cfg.alloc m = false

/-- The slots that may still be handed out: those on the free list, and those below the
row limit in chunks that are not there yet. -/
def availableSlots (cfg : ShareCfg n W PK) (s : Share n W) (F : List Int) : Set Int :=
  {i | i ∈ F ∨ ∃ u, slotCount s.chunkCnt ≤ u ∧ u < cfg.maxRecords ∧ i = i32 u}

/-- A new chunk makes slots usable that were counted as available before. -/
theorem availableSlots_addChunk (hfull : slotCount s.chunkCnt < cfg.maxRecords)
    (hcap : s.chunkCnt < cfg.chunkCap) (hcnt : s'.chunkCnt = s.chunkCnt + 1) :
    availableSlots cfg s' (i32 (slotCount s.chunkCnt) :: slotsFrom (slotCount s.chunkCnt + 1)
      (chunkEnd cfg (slotCount s.chunkCnt) - (slotCount s.chunkCnt + 1))) =
      availableSlots cfg s [] := by
  obtain ⟨heq, heq', hle⟩ := slotCount_succ hcap
  obtain ⟨hend, hend', hall⟩ := chunkEnd_spec hcap
  ext i
  simp only [availableSlots, Set.mem_ofPred_eq, List.mem_cons, List.not_mem_nil, false_or,
    mem_slotsFrom, hcnt]
  constructor
  · intro hi
    rcases hi with (rfl | ⟨j, hj, rfl⟩) | ⟨u, hu, hu', rfl⟩
    · exact ⟨_, le_rfl, hfull, rfl⟩
    · exact ⟨_, by omega, by omega, rfl⟩
    · exact ⟨u, by omega, hu', rfl⟩
  · intro hi
    obtain ⟨u, hu, hu', rfl⟩ := hi
    by_cases hnew : u < s.chunkCnt * 4096 + 4096
    · have hlt := hall u hnew hu'
      by_cases hfirst : u = slotCount s.chunkCnt
      · exact Or.inl (Or.inl (by rw [hfirst]))
      · refine Or.inl (Or.inr ⟨u - (slotCount s.chunkCnt + 1), by omega, ?_⟩)
        congr 1
        omega
    · exact Or.inr ⟨u, by omega, hu', rfl⟩

/-- Another free list and allocations asked for leave rows and index alone. -/
theorem same_withFree (s : Share n W) (fn : Int → Int) (fh : Int) (a : Nat) :
    SameRows s { s.withFree fn fh with allocs := a } ∧
      SameIndex s { s.withFree fn fh with allocs := a } := by
  refine ⟨⟨?_, rfl, fun _ _ => rfl, fun _ _ => rfl⟩,
    ⟨rfl, fun _ _ _ => rfl, rfl, fun _ hi => hi, fun _ => Iff.rfl⟩⟩
  funext l
  cases l <;> rfl

/-- A chunk being built changes no sequence number of a row. -/
theorem Ledger.seq_initChunk (h : Ledger cfg lim s F out) (ks : List Nat) (a : Nat) {i : Int}
    (hi : s.Grown i) : (s.initChunk s.chunkCnt ks a).seq i = s.seq i := by
  have hchunk : ¬ u32 i / chunkSize = s.chunkCnt :=
    fun hdiv => not_grown_of_chunk h.chunks hdiv hi
  simp [Share.initChunk, hchunk]

/-- `fm_core_alloc_slot` with a free slot takes the first one. -/
theorem runs_allocSlot_pop {i : Int} (hhead : s.freeHead = i) (hne : i ≠ nullSlot) (t : Nat) :
    (machine cfg).Runs t (allocSlot cfg) s i (s.withFree s.freeNext (s.freeNext i)) := by
  refine runs_access rfl ?_
  rw [hhead, if_pos hne]
  exact runs_access rfl (runs_access rfl runs_pure)

/-- With none it gives up at the row limit. -/
theorem runs_allocSlot_limit (hhead : s.freeHead = nullSlot)
    (hfull : cfg.maxRecords ≤ slotCount s.chunkCnt) (t : Nat) :
    (machine cfg).Runs t (allocSlot cfg) s nullSlot s := by
  refine runs_access rfl ?_
  rw [hhead, if_neg (by simp)]
  refine runs_access rfl ?_
  rw [if_pos hfull]
  exact runs_pure

/-- Below it the chunks are full, so that one more is needed. -/
theorem runs_allocSlot_grow {rc : Rc} (hhead : s.freeHead = nullSlot)
    (hchunks : s.chunkCnt ≤ cfg.chunkCap) (hroom : slotCount s.chunkCnt < cfg.maxRecords)
    {idx : Int} (hgrow : (machine cfg).Runs t (growChunk cfg) s rc s₁)
    (hrest : (machine cfg).Runs t (if rc = .ok then do
        pushSlots (slotCount s.chunkCnt + 1)
          (chunkEnd cfg (slotCount s.chunkCnt) - (slotCount s.chunkCnt + 1))
        pure (i32 (slotCount s.chunkCnt))
      else
        pure nullSlot) s₁ idx s') :
    (machine cfg).Runs t (allocSlot cfg) s idx s' := by
  have hmod : slotCount s.chunkCnt % chunkSize = 0 := by
    obtain ⟨heq, -⟩ := slotCount_of_le hchunks
    unfold chunkSize
    omega
  refine runs_access rfl ?_
  rw [hhead, if_neg (by simp)]
  refine runs_access rfl ?_
  rw [if_neg (by omega), if_pos hmod]
  exact runs_then hgrow hrest

/-- `fm_core_alloc_slot`: no slot and nothing lost, or one slot that is now out; what is
available with it is what was available before. -/
theorem runs_allocSlot_available (h : Ledger cfg lim s F ∅)
    (hlim : cfg.maxRecords ≤ lim) (t : Nat) :
    ∃ idx s', (machine cfg).Runs t (allocSlot cfg) s idx s' ∧ SameRows s s' ∧ SameIndex s s' ∧
      (∀ i, s.Grown i → s'.seq i = s.seq i) ∧
      ((idx = nullSlot ∧ F = [] ∧ NoRoom cfg s ∧ s'.chunkCnt = s.chunkCnt ∧
        Ledger cfg lim s' [] ∅) ∨ ∃ F', idx ≠ nullSlot ∧ Ledger cfg lim s' F' {idx} ∧
          availableSlots cfg s' (idx :: F') = availableSlots cfg s F) := by
  cases F with
  | cons i F =>
      obtain ⟨hhead, hne, -⟩ := h.free
      obtain ⟨hrows, hindex⟩ := same_withFree s s.freeNext (s.freeNext i) s.allocs
      exact ⟨i, _, runs_allocSlot_pop hhead hne t, hrows, hindex, fun _ _ => rfl,
        Or.inr ⟨F, hne, h.pop, rfl⟩⟩
  | nil =>
      have hhead : s.freeHead = nullSlot := h.free
      by_cases hfull : cfg.maxRecords ≤ slotCount s.chunkCnt
      · exact ⟨nullSlot, s, runs_allocSlot_limit hhead hfull t, .refl s, .refl s, fun _ _ => rfl,
          Or.inl ⟨rfl, rfl, Or.inl hfull, rfl, h⟩⟩
      by_cases hcap : s.chunkCnt < cfg.chunkCap
      · obtain ⟨heq, heq', hle⟩ := slotCount_succ hcap
        obtain ⟨hend, -, -⟩ := chunkEnd_spec hcap
        have hgrows : GrowsFrom cfg t s s (growChunk cfg) := grows_growChunk hcap
        obtain ⟨ks, a, hgrow | ⟨hfail, hgrow | hgrow⟩⟩ := hgrows
        · -- the chunk is there: push its slots
          have hfree : Share.FreeList
              { s.initChunk s.chunkCnt ks a with chunkCnt := s.chunkCnt + 1 } [] := hhead
          obtain ⟨fn, fh, hpush, hlist⟩ := runs_pushSlots cfg t (slotCount s.chunkCnt + 1)
            (chunkEnd cfg (slotCount s.chunkCnt) - (slotCount s.chunkCnt + 1)) hfree (by omega)
            (by simp)
          rw [List.append_nil] at hlist
          obtain ⟨hrows, hindex⟩ := same_initChunk h ks a
            (show slotCount s.chunkCnt ≤ slotCount (s.chunkCnt + 1) by omega) fn fh
          exact ⟨i32 (slotCount s.chunkCnt), _,
            runs_allocSlot_grow hhead h.chunks (by omega) hgrow (runs_then hpush runs_pure),
            hrows, hindex, fun _ hi => h.seq_initChunk ks a hi,
            Or.inr ⟨_, i32_ne_null (by omega), h.addChunk hlim (by omega) hcap ks a fn fh hlist,
              availableSlots_addChunk (by omega) hcap rfl⟩⟩
        · -- the chunk is there but the array cannot grow
          obtain ⟨hrows, hindex⟩ := same_initChunk h ks a (le_refl (slotCount s.chunkCnt))
            (s.initChunk s.chunkCnt ks a).freeNext s.freeHead
          exact ⟨nullSlot, _, runs_allocSlot_grow hhead h.chunks (by omega) hgrow runs_pure,
            hrows, hindex, fun _ hi => h.seq_initChunk ks a hi,
            Or.inl ⟨rfl, rfl, Or.inr (Or.inr hfail), rfl, h.initChunk ks a⟩⟩
        · obtain ⟨hrows, hindex⟩ := same_withFree s s.freeNext s.freeHead a
          exact ⟨nullSlot, _, runs_allocSlot_grow hhead h.chunks (by omega) hgrow runs_pure,
            hrows, hindex, fun _ _ => rfl,
            Or.inl ⟨rfl, rfl, Or.inr (Or.inr hfail), rfl, { h with }⟩⟩
      · -- the capacity has wrapped: the source reports a full table
        have hgrow : (machine cfg).Runs t (growChunk cfg) s .full s := by
          refine runs_access rfl ?_
          rw [if_pos (show cfg.chunkCap ≤ s.chunkCnt by omega)]
          exact runs_pure
        exact ⟨nullSlot, s, runs_allocSlot_grow hhead h.chunks (by omega) hgrow runs_pure,
          .refl s, .refl s, fun _ _ => rfl,
          Or.inl ⟨rfl, rfl, Or.inr (Or.inl (by omega)), rfl, h⟩⟩

/-- `alloc_slot` takes a slot off the free list, or grows the table, or fails. -/
theorem runs_allocSlot (h : Ledger cfg lim s F ∅) (hlim : cfg.maxRecords ≤ lim) (t : Nat) :
    ∃ idx s', (machine cfg).Runs t (allocSlot cfg) s idx s' ∧ SameRows s s' ∧ SameIndex s s' ∧
      ((idx = nullSlot ∧ F = [] ∧ NoRoom cfg s ∧ s'.chunkCnt = s.chunkCnt ∧
        Ledger cfg lim s' [] ∅) ∨ ∃ F', idx ≠ nullSlot ∧ Ledger cfg lim s' F' {idx}) := by
  obtain ⟨idx, s', hruns, hrows, hindex, -, hnone | ⟨F', hne, hled, -⟩⟩ :=
    runs_allocSlot_available h hlim t
  · exact ⟨idx, s', hruns, hrows, hindex, Or.inl hnone⟩
  · exact ⟨idx, s', hruns, hrows, hindex, Or.inr ⟨F', hne, hled⟩⟩

/-- A share whose ledger is in order is consistent if its index is that of a
consistent share. -/
theorem Consistent.of_ledger (h : Consistent cfg s C F out) (hrows : SameRows s s')
    (hindex : SameIndex s s') (hl : Ledger cfg lim s' F' out') : Consistent cfg s' C F' out' where
  index := by
    intro k b
    rw [hindex.head]
    refine (h.index k b).congr fun i hi => ?_
    exact hindex.next k i (h.active_grown i (h.active_of_mem hi))
  index_mem := by
    intro k hk b i
    rw [hindex.active, hrows.data]
    exact h.index_mem k hk b i
  index_other := h.index_other
  free := hl.free
  free_inactive := hl.free_inactive
  free_grown := fun i hi => hl.grown (Or.inl hi)
  free_all := hl.free_all
  out_spec :=
    fun i hi => ⟨(hl.out_spec i hi).1, hl.grown (Or.inr (Or.inl hi)), (hl.out_spec i hi).2⟩
  records := by
    rw [hindex.records, h.records]
    congr 1
    congr 1
    ext i
    exact (hindex.active i).symm
  active_grown := fun i hi => hl.grown (Or.inr (Or.inr hi))
  seq_even := hl.seq_even
  chunks := hl.chunks

end FastMem
