import FastMem.RowImages

/-!
# What the count of rows counts

An insert counts its row after it has made the slot ACTIVE, and a delete uncounts it after
the slot has stopped being ACTIVE, so `records` is not always the number of ACTIVE slots.
It differs by the inserts that have not counted their row yet, of which there is at most
one, and by the deletes that have not uncounted theirs.  A clear flips the slots first and
sets the count last: until it has done so, nothing is said about the count.
-/

namespace FastMem

open Conc

variable {n : Nat} {W PK Op Out : Type} {cfg : ShareCfg n W PK} {K : Kind → Prop}
  {G : Commit n W → Prop} {now t : Nat} {s s' : Share n W} {g g' : Role n W}
  {a : Act n W} {r : a.Res} {γ : Nat → Role n W}

/-- The phases of a delete that has not uncounted its row. -/
@[grind =] def Phase.dying (p : Phase) : Bool := p = .del || p = .dead || p = .aged

/-- The phases of a clear. -/
@[grind =] def Phase.clearing (p : Phase) : Bool := p = .flip || p = .rebuild

/-- The slots whose rows are counted though they are gone. -/
def dying (γ : Nat → Role n W) : Set Int := {i | ∃ t, (γ t).phase.dying = true ∧ (γ t).slot = i}

/-- The threads that have made a row they have not counted. -/
def published (γ : Nat → Role n W) : Set Nat := {t | (γ t).phase = .published}

/-- The ACTIVE slots. -/
def Share.rows (s : Share n W) : Set Int := {i | s.state i = .active}

/-- The count of rows is right but for what is under way. -/
def RowsCounted (s : Share n W) (γ : Nat → Role n W) : Prop :=
  (∃ t, (γ t).phase.clearing = true) ∨
    s.records + (published γ).ncard = s.rows.ncard + (dying γ).ncard

/-- Between the calls the count is right. -/
theorem RowsCounted.at_rest (h : RowsCounted s γ)
    (hrest : ∀ t, (γ t).phase = .idle ∨ (γ t).phase = .row) : s.records = s.rows.ncard := by
  have hdying : dying γ = ∅ := by
    apply Set.eq_empty_of_forall_notMem
    intro i hi
    obtain ⟨t, hp, -⟩ := hi
    grind
  have hpublished : published γ = ∅ := by
    apply Set.eq_empty_of_forall_notMem
    intro t hp
    have hp : (γ t).phase = .published := hp
    grind
  obtain ⟨t, hclear⟩ | hrows := h
  · grind
  · rw [hdying, hpublished] at hrows
    simpa using hrows

/-- There are finitely many rows. -/
theorem Slots.rows_finite (h : Slots cfg s γ) : s.rows.Finite :=
  (grown_finite s).subset fun _ hi => h.grown_of_active hi

/-- There are finitely many rows being deleted. -/
theorem Slots.dying_finite (h : Slots cfg s γ) : (dying γ).Finite := by
  refine (grown_finite s).subset fun i hi => ?_
  obtain ⟨t, hp, rfl⟩ := hi
  exact (h.mine t).grown _ (Or.inl ⟨by grind, rfl⟩)

/-- An insert has the struct mutex until it has counted its row. -/
theorem Locked.published_eq (hl : Locked cfg s γ) (ht : (γ t).phase = .published) :
    published γ = {t} := by
  apply Set.eq_singleton_iff_unique_mem.mpr
  refine ⟨ht, fun u hu => ?_⟩
  have hu : (γ u).phase = .published := hu
  exact hl.eq ((hl.ok u).mutexed (by rw [hu]; rfl)) ((hl.ok t).mutexed (by rw [ht]; rfl))

/-- Inside the struct mutex no other insert has yet to count its row. -/
theorem Locked.published_none (hl : Locked cfg s γ) (held : Lock.mutex ∈ (γ t).locks)
    (ht : (γ t).phase ≠ .published) : published γ = ∅ := by
  apply Set.eq_empty_of_forall_notMem
  intro u hu
  have hu : (γ u).phase = .published := hu
  have hut := hl.eq ((hl.ok u).mutexed (by rw [hu]; rfl)) held
  rw [hut] at hu
  exact ht hu

/-- A change of role that has nothing to do with the count. -/
structure Steady (g g' : Role n W) : Prop where
  dying : g'.phase.dying = g.phase.dying
  slot : g.phase.dying = true → g'.slot = g.slot
  published : g'.phase = .published ↔ g.phase = .published
  clearing : g.phase.clearing = true → g'.phase.clearing = true

/-- No change of role at all. -/
theorem Steady.refl (g : Role n W) : Steady g g := ⟨rfl, fun _ => rfl, Iff.rfl, id⟩

/-- The rows being deleted are the same if the role deletes the same one. -/
theorem dying_update (hg : g'.phase.dying = (γ t).phase.dying)
    (hslot : (γ t).phase.dying = true → g'.slot = (γ t).slot) :
    dying (Function.update γ t g') = dying γ := by
  ext i
  refine exists_congr fun u => ?_
  by_cases hu : u = t
  · subst hu
    rw [Function.update_self, hg]
    exact and_congr_right fun hp => by rw [hslot hp]
  · rw [Function.update_of_ne hu]

/-- The rows to be counted are the same if the role has the same one. -/
theorem published_update (hg : g'.phase = .published ↔ (γ t).phase = .published) :
    published (Function.update γ t g') = published γ := by
  ext u
  show (Function.update γ t g' u).phase = .published ↔ (γ u).phase = .published
  by_cases hu : u = t
  · subst hu
    rw [Function.update_self]
    exact hg
  · rw [Function.update_of_ne hu]

/-- A clear goes on. -/
theorem clearing_update (h : ∃ u, (γ u).phase.clearing = true)
    (hg : (γ t).phase.clearing = true → g'.phase.clearing = true) :
    ∃ u, (Function.update γ t g' u).phase.clearing = true := by
  obtain ⟨u, hu⟩ := h
  refine ⟨u, ?_⟩
  by_cases hut : u = t
  · subst hut
    rw [Function.update_self]
    exact hg hu
  · rw [Function.update_of_ne hut]
    exact hu

/-- The count is right after a step that is not about rows. -/
theorem RowsCounted.steady (h : RowsCounted s γ) (hg : Steady (γ t) g')
    (hrecords : s'.records = s.records)
    (hrows : s'.rows = s.rows) : RowsCounted s' (Function.update γ t g') := by
  rcases h with hclear | hcount
  · exact Or.inl (clearing_update hclear hg.clearing)
  · refine Or.inr ?_
    rw [dying_update hg.dying hg.slot, published_update hg.published, hrecords, hrows]
    exact hcount

/-- A lock operation counts no row. -/
theorem steady_lockStep (h : LockStep g a r g') : Steady g g' := by
  cases h with
  | lockAnew l phase => constructor <;> grind
  | unlockRow held quiet => constructor <;> grind
  | _ => exact { Steady.refl g with }

theorem steady_viewStep (h : ViewStep g a r g') : Steady g g' := by
  cases h with
  | active held phase unread => constructor <;> grind
  | _ => exact { Steady.refl g with }

theorem steady_freeStep (h : FreeStep K g a r g') : Steady g g' := by
  cases h <;> constructor <;> grind

theorem steady_growStep (h : GrowStep cfg K g a r g') : Steady g g' := by
  cases h <;> constructor <;> grind

theorem steady_imageStep (h : ImageStep cfg K G g a r g') : Steady g g' := by
  cases h <;> constructor <;> grind

theorem steady_chainStep (h : ChainStep cfg K g a r g') : Steady g g' := by
  cases h <;> constructor <;> grind

theorem steady_dupStep (h : DupStep cfg g a r g') : Steady g g' := by
  cases h <;> constructor <;> grind

theorem steady_readStep (h : ReadStep G now s g a r g') : Steady g g' := by
  cases h <;> exact { Steady.refl g with }

theorem steady_noteStep (h : NoteStep G s g a r g') : Steady g g' := by
  cases h with
  | see => exact { Steady.refl g with }
  | pin held phase unread commit => constructor <;> grind

/-- An ACTIVE row is not being deleted. -/
theorem Slots.not_dying_of_active (h : Slots cfg s γ) {i : Int} (hst : s.state i = .active) :
    i ∉ dying γ := by
  intro hi
  obtain ⟨u, hp, rfl⟩ := hi
  exact (h.mine u).not_active (Or.inl ⟨by grind, rfl⟩) hst

/-- A clear that has rebuilt the free list has left no row, and nothing under way. -/
theorem Slots.cleared (h : Slots cfg s γ) (hl : Locked cfg s γ) (hphase : (γ t).phase = .rebuild)
    (hextra : (γ t).extra = []) : s.rows = ∅ ∧ dying γ = ∅ ∧ published γ = ∅ := by
  have hlisted : ∀ i, s.Grown i → ∃ F, s.FreeList F ∧ i ∈ F := by
    intro i hi
    rcases h.rebuild t hphase i hi with hmem | hF
    · rw [hextra] at hmem
      cases hmem
    · exact hF
  refine ⟨?_, ?_, ?_⟩
  · apply Set.eq_empty_of_forall_notMem
    intro i hi
    have hst : s.state i = .active := hi
    obtain ⟨F, hF, hmem⟩ := hlisted i (h.grown_of_active hst)
    exact h.free_not_active hF hmem hst
  · apply Set.eq_empty_of_forall_notMem
    intro i hi
    obtain ⟨u, hp, rfl⟩ := hi
    have hown : (γ u).Owns (γ u).slot := Or.inl ⟨by grind, rfl⟩
    obtain ⟨F, hF, hmem⟩ := hlisted _ ((h.mine u).grown _ hown)
    exact h.free_not_owned hF hmem u hown
  · exact hl.published_none ((hl.ok t).mutexed (by rw [hphase]; rfl)) (by simp [hphase])

/-- A slot that becomes ACTIVE is one more row. -/
theorem Share.rows_activate (s : Share n W) (i : Int) :
    Share.rows { s with state := Function.update s.state i .active } = insert i s.rows := by
  ext j
  show Function.update s.state i .active j = .active ↔ j = i ∨ s.state j = .active
  by_cases hj : j = i
  · simp [hj]
  · simp [hj]

/-- A slot that stops being ACTIVE is one row less. -/
theorem Share.rows_retire {i : Int} (hactive : s.state i = .active) {x : SlotState}
    (hx : x ≠ .active) :
    s.rows = insert i (Share.rows { s with state := Function.update s.state i x }) ∧
      i ∉ Share.rows { s with state := Function.update s.state i x } := by
  constructor
  · ext j
    show s.state j = .active ↔ j = i ∨ Function.update s.state i x j = .active
    by_cases hj : j = i
    · simp [hj, hactive]
    · simp [hj]
  · show Function.update s.state i x i ≠ .active
    rwa [Function.update_self]

/-- A thread that enters a delete adds its slot to those whose rows are gone. -/
theorem dying_begin (hbefore : (γ t).phase.dying = false) (hafter : g'.phase.dying = true) :
    dying (Function.update γ t g') = insert g'.slot (dying γ) := by
  ext i
  constructor
  · rintro ⟨u, hp, hs⟩
    by_cases hu : u = t
    · subst hu
      rw [Function.update_self] at hs
      exact Or.inl hs.symm
    · rw [Function.update_of_ne hu] at hp hs
      exact Or.inr ⟨u, hp, hs⟩
  · intro hi
    rcases hi with rfl | ⟨u, hp, hs⟩
    · exact ⟨t, by rw [Function.update_self]; exact hafter, by rw [Function.update_self]⟩
    · have hu : u ≠ t := by
        rintro rfl
        rw [hbefore] at hp
        cases hp
      exact ⟨u, by rw [Function.update_of_ne hu]; exact hp, by
        rw [Function.update_of_ne hu]; exact hs⟩

/-- A thread that has uncounted its row takes its slot away from them. -/
theorem dying_end (hbefore : (γ t).phase.dying = true) (hafter : g'.phase.dying = false) :
    dying γ = insert (γ t).slot (dying (Function.update γ t g')) := by
  ext i
  constructor
  · rintro ⟨u, hp, hs⟩
    by_cases hu : u = t
    · exact Or.inl (by rw [← hs, hu])
    · exact Or.inr
        ⟨u, by rw [Function.update_of_ne hu]; exact hp, by rw [Function.update_of_ne hu]; exact hs⟩
  · intro hi
    rcases hi with rfl | ⟨u, hp, hs⟩
    · exact ⟨t, hbefore, rfl⟩
    · have hu : u ≠ t := by
        rintro rfl
        rw [Function.update_self, hafter] at hp
        cases hp
      rw [Function.update_of_ne hu] at hp hs
      exact ⟨u, hp, hs⟩

/-- A step of a thread that clears nothing: either a clear goes on elsewhere, or the counts are
to be compared. -/
theorem RowsCounted.compare (h : RowsCounted s γ) (hnot : (γ t).phase.clearing = false)
    (hcounts : s.records + (published γ).ncard = s.rows.ncard + (dying γ).ncard →
      s'.records + (published (Function.update γ t g')).ncard = s'.rows.ncard +
        (dying (Function.update γ t g')).ncard) :
    RowsCounted s' (Function.update γ t g') := by
  rcases h with hclear | hcount
  · refine Or.inl (clearing_update hclear fun ht => ?_)
    rw [hnot] at ht
    cases ht
  · exact Or.inr (hcounts hcount)

/-- An insert makes its slot ACTIVE, and has not counted the row yet. -/
theorem RowsCounted.publish (h : RowsCounted s γ) (hsl : Slots cfg s γ) (hl : Locked cfg s γ)
    (hl' : Locked cfg s' (Function.update γ t g')) (hphase : (γ t).phase = .fill)
    (hphase' : g'.phase = .published)
    (hs' : s' = { s with state := Function.update s.state (γ t).slot .active }) :
    RowsCounted s' (Function.update γ t g') := by
  subst hs'
  refine h.compare (by rw [hphase]; rfl) fun hcount => ?_
  have hinactive : (γ t).slot ∉ s.rows :=
    fun hst => (hsl.mine t).not_active (Or.inl ⟨by grind, rfl⟩) hst
  have hbefore := hl.published_none ((hl.ok t).mutexed (by rw [hphase]; rfl)) (by simp [hphase])
  have hafter := hl'.published_eq (t := t) (by rw [Function.update_self]; exact hphase')
  rw [hbefore, Set.ncard_empty] at hcount
  rw [hafter, Share.rows_activate, Set.ncard_singleton,
    Set.ncard_insert_of_notMem hinactive hsl.rows_finite,
    dying_update (by simp [hphase, hphase', Phase.dying]) (by simp [hphase, Phase.dying])]
  simp only
  omega

/-- The insert counts its row. -/
theorem RowsCounted.count (h : RowsCounted s γ) (hl : Locked cfg s γ)
    (hl' : Locked cfg s' (Function.update γ t g')) (hphase : (γ t).phase = .published)
    (hphase' : g'.phase = .idle) (hlocks : g'.locks = (γ t).locks)
    (hs' : s' = { s with records := s.records + 1 }) : RowsCounted s' (Function.update γ t g') := by
  subst hs'
  refine h.compare (by rw [hphase]; rfl) fun hcount => ?_
  have hheld := (hl.ok t).mutexed (by rw [hphase]; rfl)
  have hbefore := hl.published_eq hphase
  have hafter := hl'.published_none (t := t) (by rw [Function.update_self, hlocks]; exact hheld)
    (by rw [Function.update_self]; simp [hphase'])
  have hrows : Share.rows { s with records := s.records + 1 } = s.rows := rfl
  rw [hbefore, Set.ncard_singleton] at hcount
  rw [hafter, hrows, Set.ncard_empty,
    dying_update (by simp [hphase, hphase', Phase.dying]) (by simp [hphase, Phase.dying])]
  simp only
  omega

/-- A delete marks its slot, and has not uncounted the row yet. -/
theorem RowsCounted.mark (h : RowsCounted s γ) (hsl : Slots cfg s γ) (hphase : (γ t).phase = .row)
    (hphase' : g'.phase = .del) (hslot : g'.slot = (γ t).slot)
    (hs' : s' = { s with state := Function.update s.state (γ t).slot .deleting }) :
    RowsCounted s' (Function.update γ t g') := by
  subst hs'
  refine h.compare (by rw [hphase]; rfl) fun hcount => ?_
  have hactive : s.state (γ t).slot = .active := (hsl.mine t).active (by rw [hphase]; rfl)
  obtain ⟨hrows, hgone⟩ := Share.rows_retire (x := .deleting) hactive (by simp)
  have hfinite := hsl.rows_finite
  rw [hrows] at hfinite
  rw [hrows, Set.ncard_insert_of_notMem hgone (hfinite.subset (Set.subset_insert _ _))] at hcount
  rw [dying_begin (by rw [hphase]; rfl) (by rw [hphase']; rfl), hslot,
    Set.ncard_insert_of_notMem (hsl.not_dying_of_active hactive) hsl.dying_finite,
    published_update (by simp [hphase, hphase'])]
  simp only
  omega

/-- The delete uncounts its row. -/
theorem RowsCounted.uncount (h : RowsCounted s γ) (hsl : Slots cfg s γ)
    (hphase : (γ t).phase = .aged) (hphase' : g'.phase = .loose)
    (hs' : s' = { s with records := s.records + -1 }) :
    RowsCounted s' (Function.update γ t g') := by
  subst hs'
  refine h.compare (by rw [hphase]; rfl) fun hcount => ?_
  have hdying : dying γ = insert (γ t).slot (dying (Function.update γ t g')) :=
    dying_end (by rw [hphase]; rfl) (by rw [hphase']; rfl)
  have hgone : (γ t).slot ∉ dying (Function.update γ t g') := by
    rintro ⟨u, hp, hs⟩
    by_cases hu : u = t
    · subst hu
      rw [Function.update_self, hphase'] at hp
      cases hp
    · rw [Function.update_of_ne hu] at hp hs
      exact hu (hsl.unique u t _ (Or.inl ⟨by grind, hs⟩) (Or.inl ⟨by grind, rfl⟩))
  have hfinite := hsl.dying_finite
  rw [hdying] at hfinite
  have hrows : Share.rows { s with records := s.records + -1 } = s.rows := rfl
  rw [hdying, Set.ncard_insert_of_notMem hgone (hfinite.subset (Set.subset_insert _ _))] at hcount
  rw [hrows, published_update (by simp [hphase, hphase'])]
  simp only at hcount ⊢
  omega

/-- A clear sets the count when it has left no row. -/
theorem RowsCounted.zero (hsl : Slots cfg s γ) (hl : Locked cfg s γ)
    (hphase : (γ t).phase = .rebuild) (hextra : (γ t).extra = []) (hphase' : g'.phase = .idle) :
    RowsCounted { s with records := 0 } (Function.update γ t g') := by
  obtain ⟨hrows, hdying, hpublished⟩ := hsl.cleared hl hphase hextra
  refine Or.inr ?_
  have hrows' : Share.rows { s with records := 0 } = s.rows := rfl
  rw [dying_update (by simp [hphase, hphase', Phase.dying]) (by simp [hphase, Phase.dying]),
    published_update (by simp [hphase, hphase']), hrows', hrows, hdying, hpublished]
  simp

/-- Every step on the state of a slot keeps the count right. -/
theorem RowsCounted.slotStep (h : RowsCounted s γ) (hsl : Slots cfg s γ) (hl : Locked cfg s γ)
    (hl' : Locked cfg s' (Function.update γ t g')) (hexec : exec cfg t a s = some (r, s'))
    (hstep : SlotStep cfg K G s (γ t) a r g') : RowsCounted s' (Function.update γ t g') := by
  cases hstep with
  | publish phase extra free walk words map commit =>
    cases hexec
    exact h.publish hsl hl hl' phase rfl rfl
  | count phase =>
    cases hexec
    exact h.count hl hl' phase rfl rfl rfl
  | mark kind phase commit =>
    cases hexec
    exact h.mark hsl phase rfl rfl rfl
  | bury phase walk map =>
    cases hexec
    refine h.steady (by constructor <;> grind) rfl ?_
    ext i
    show Function.update s.state (γ t).slot .deleted i = .active ↔ s.state i = .active
    by_cases hi : i = (γ t).slot
    · have hst : s.state (γ t).slot = .deleting := (hsl.mine t).del phase
      simp [hi, hst]
    · simp [hi]
  | age phase =>
    cases hexec
    exact h.steady (by constructor <;> grind) rfl rfl
  | uncount phase =>
    cases hexec
    exact h.uncount hsl phase rfl rfl
  | begin kind held phase extra =>
    cases hexec
    exact Or.inl ⟨t, by rw [Function.update_self]; rfl⟩
  | flip kind phase held commit new grown =>
    cases hexec
    exact Or.inl ⟨t, by rw [Function.update_self, phase]; rfl⟩
  | flipGen phase held done =>
    cases hexec
    exact Or.inl ⟨t, by rw [Function.update_self, phase]; rfl⟩
  | zero phase extra =>
    cases hexec
    exact .zero hsl hl phase extra rfl

/-- Accesses that store neither a state nor the count. -/
@[grind =] def Act.rowless : Act n W → Bool
  | .storeState _ _ | .initSlots _ | .addRecords _ | .storeRecords _ => false
  | _ => true

/-- An action that is not about rows changes neither them nor the count. -/
theorem exec_rowless (ha : a.rowless = true) (hexec : exec cfg t a s = some (r, s')) :
    s'.records = s.records ∧ s'.rows = s.rows := by
  cases a with
  | lock l =>
    simp only [exec] at hexec
    split at hexec
    · cases hexec
      cases l <;> exact ⟨rfl, rfl⟩
    · cases hexec
  | unlock l =>
    cases hexec
    cases l <;> exact ⟨rfl, rfl⟩
  | casAutoInc cur new =>
    simp only [exec] at hexec
    split at hexec <;> cases hexec <;> exact ⟨rfl, rfl⟩
  | storeState | initSlots | addRecords | storeRecords => cases ha
  | _ =>
    cases hexec
    exact ⟨rfl, rfl⟩

/-- A load is not about rows. -/
theorem rowless_of_passive (ha : a.passive = true) : a.rowless = true := by
  cases a <;> first | rfl | cases ha

/-- The count is right after an action that is not about rows. -/
theorem RowsCounted.rowless (h : RowsCounted s γ) (hg : Steady (γ t) g') (ha : a.rowless = true)
    (hexec : exec cfg t a s = some (r, s')) : RowsCounted s' (Function.update γ t g') := by
  obtain ⟨hrecords, hrows⟩ := exec_rowless ha hexec
  exact h.steady hg hrecords hrows

/-- A growth makes no row. -/
theorem RowsCounted.growStep (h : RowsCounted s γ) (hsl : Slots cfg s γ)
    (hexec : exec cfg t a s = some (r, s'))
    (hstep : GrowStep cfg K (γ t) a r g') : RowsCounted s' (Function.update γ t g') := by
  have hg := steady_growStep hstep
  cases hstep with
  | @initSlots c kind held chunk free =>
    cases hexec
    refine h.steady hg rfl ?_
    -- the slots of the new chunk are not published yet, so no row is among them
    have hc : s.chunkCnt = c := (hsl.mine t).chunk c chunk
    ext i
    show (if u32 i / chunkSize = c then SlotState.free else s.state i) = .active ↔
      s.state i = .active
    split
    case isTrue hi => rw [hsl.ungrown i (not_grown_of_chunk hsl.chunks (hi.trans hc.symm))]
    case isFalse => rfl
  | initNext => exact h.rowless hg rfl hexec
  | publish => exact h.rowless hg rfl hexec

/-- **Every step keeps the count of the rows right.**. -/
theorem RowsCounted.step (h : RowsCounted s γ) (hsl : Slots cfg s γ) (hl : Locked cfg s γ)
    (hl' : Locked cfg s' (Function.update γ t g')) (hexec : exec cfg t a s = some (r, s'))
    (hstep : Step cfg K G now s (γ t) a r g') : RowsCounted s' (Function.update γ t g') := by
  cases hstep with
  | lock hs =>
    apply h.rowless (steady_lockStep hs) _ hexec
    cases hs <;> rfl
  | view hs =>
    apply h.rowless (steady_viewStep hs) _ hexec
    cases hs with
    | look passive unread => exact rowless_of_passive passive
    | _ => rfl
  | free hs =>
    apply h.rowless (steady_freeStep hs) _ hexec
    cases hs <;> rfl
  | grow hs => exact h.growStep hsl hexec hs
  | slot hs => exact h.slotStep hsl hl hl' hexec hs
  | image hs =>
    apply h.rowless (steady_imageStep hs) _ hexec
    cases hs <;> rfl
  | chain hs =>
    apply h.rowless (steady_chainStep hs) _ hexec
    cases hs <;> rfl
  | dup hs =>
    apply h.rowless (steady_dupStep hs) _ hexec
    cases hs <;> rfl
  | read hs =>
    apply h.rowless (steady_readStep hs) _ hexec
    cases hs with
    | miss passive => exact rowless_of_passive passive
    | _ => rfl
  | note hs =>
    apply h.rowless (steady_noteStep hs) _ hexec
    cases hs <;> rfl

variable {Op Out : Type} {T : Setting n W PK Op Out} {w : World (coreSig n W PK) (Share n W) Op Out}

/-- **The count is right along every trace**, but for what is under way. -/
theorem trace_rowsCounted (hstart : T.Started) (hclear : T.ClearsApart)
    (hcount : T.share.records = T.share.rows.ncard) (h : T.Trace w γ) : RowsCounted w.mem γ := by
  induction h with
  | init =>
    refine Or.inr ?_
    have hdying : dying (fun _ => Role.init : Nat → Role n W) = ∅ := by
      simp [dying, Role.init, Phase.dying]
    have hpublished : published (fun _ => Role.init : Nat → Role n W) = ∅ := by
      simp [published, Role.init]
    rw [hdying, hpublished]
    simp [hcount]
  | start t before ih => exact ih.steady { Steady.refl _ with } rfl rfl
  | @act w γ c a r s g before meets hexec hstep ih =>
    exact ih.step (trace_slots_from hstart.owner hstart.slots hclear before)
      (trace_locked hstart.owner before)
      (trace_locked hstart.owner (.act before meets hexec hstep)) hexec hstep
  | stop _ _ ih => exact ih

end FastMem
