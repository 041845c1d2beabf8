import FastMem.RoleLocks

/-!
# The life of a slot

The second layer of invariants: whom a slot belongs to.  A slot is on the free list,
or it belongs to one thread that has taken it off or is about to put it back, or it
holds a row.  What a thread's role says about the state of its slot is true whatever
the other threads do, since each of them may change the state of a slot only when it
belongs to it or when it holds the slot's wlock and the slot is ACTIVE.

A clear flips slots it does not own.  This layer asks of it that no delete is in the
middle of one of them.
-/

namespace FastMem

open Conc

variable {n : Nat} {W PK Op Out : Type} {cfg : ShareCfg n W PK} {K : Kind → Prop}
  {G : Commit n W → Prop} {now t : Nat} {s s' : Share n W} {g g' : Role n W}
  {a : Act n W} {r : a.Res} {γ : Nat → Role n W}

/-- What a thread has seen of the free list is still so. -/
def FreeView.Holds (s : Share n W) : FreeView → Prop
  | .none => True
  | .head h => s.freeHead = h
  | .next i nx => s.freeHead = i ∧ s.freeNext i = nx
  | .cell i => s.freeNext i = s.freeHead

/-- What a thread knows of its slots is so. -/
structure Mine (s : Share n W) (g : Role n W) : Prop where
  active : g.phase.rowed = true → s.state g.slot = .active
  fill : g.phase = .fill → s.state g.slot = .free ∨ s.state g.slot = .deleted
  del : g.phase = .del → s.state g.slot = .deleting
  dead : g.phase = .dead ∨ g.phase = .aged ∨ g.phase = .loose → s.state g.slot = .deleted
  extra : ∀ i ∈ g.extra, s.state i = .free
  flipped : ∀ i ∈ g.flipped, s.state i = .free ∧ s.Grown i
  grown : ∀ i, g.Owns i → s.Grown i
  nodup : g.extra.Nodup
  apart : g.phase.owning = true → g.slot ∉ g.extra
  view : g.free.Holds s
  cell : ∀ i, g.free = .cell i → g.Owns i
  chunk : ∀ c, g.chunk = some c → s.chunkCnt = c

/-- Every slot belongs to one thread, or is on the free list, or holds a row. -/
structure Slots (cfg : ShareCfg n W PK) (s : Share n W) (γ : Nat → Role n W) : Prop where
  mine : ∀ t, Mine s (γ t)
  unique : ∀ t u i, (γ t).Owns i → (γ u).Owns i → t = u
  flipped : ∀ t u i, i ∈ (γ t).flipped → ¬ (γ u).Owns i
  chunks : s.chunkCnt ≤ cfg.chunkCap
  ungrown : ∀ i, ¬ s.Grown i → s.state i = .free
  free : ∃ F, s.FreeList F ∧
    ∀ i ∈ F, s.Grown i ∧ (s.state i = .free ∨ s.state i = .deleted) ∧ ∀ t, ¬ (γ t).Owns i
  rebuild : ∀ t, (γ t).phase = .rebuild → ∀ i, s.Grown i →
    i ∈ (γ t).extra ∨ ∃ F, s.FreeList F ∧ i ∈ F

/-- No delete is in the middle of slot `i`: it is not marked DELETING, and if it is
DELETED it is back on the free list. -/
def Flippable (s : Share n W) (i : Int) : Prop :=
  s.state i ≠ .deleting ∧ (s.state i = .deleted → ∃ F, s.FreeList F ∧ i ∈ F)

/-- The phases in which the slot is DELETED and not on the free list. -/
@[grind =] def Phase.buried (p : Phase) : Bool := p = .dead || p = .aged || p = .loose

/-- A change of role that changes nothing about the slots. -/
structure Calm (s : Share n W) (g g' : Role n W) : Prop where
  owning : g'.phase.owning = g.phase.owning
  slot : g'.phase.owning = true → g'.slot = g.slot ∧
    (g'.phase = g.phase ∨ g.phase.buried = true ∧ g'.phase.buried = true)
  rowed : g'.phase.rowed = true → s.state g'.slot = .active
  rebuild : g'.phase = .rebuild → g.phase = .rebuild
  extra : g'.extra = g.extra
  flipped : g'.flipped = g.flipped
  view : g'.free.Holds s
  cell : ∀ i, g'.free = .cell i → g.free = .cell i
  chunk : ∀ c, g'.chunk = some c → s.chunkCnt = c

/-- Two shares with the same slots. -/
structure SameSlots (s s' : Share n W) : Prop where
  state : s'.state = s.state
  chunkCnt : s'.chunkCnt = s.chunkCnt
  freeNext : s'.freeNext = s.freeNext
  freeHead : s'.freeHead = s.freeHead

/-- The same slots lie in chunks. -/
theorem SameSlots.grown (h : SameSlots s s') {i : Int} : s'.Grown i ↔ s.Grown i := by
  unfold Share.Grown
  rw [h.chunkCnt]

/-- The free list is the same. -/
theorem SameSlots.freeList (h : SameSlots s s') {F : List Int} : s'.FreeList F ↔ s.FreeList F := by
  unfold Share.FreeList
  rw [h.freeNext, h.freeHead]

/-- What a thread has seen of it is still so. -/
theorem SameSlots.holds (h : SameSlots s s') {v : FreeView} : v.Holds s' ↔ v.Holds s := by
  cases v <;> simp [FreeView.Holds, h.freeNext, h.freeHead]

/-- What a thread knows of its slots is still so. -/
theorem SameSlots.mine (h : SameSlots s s') (hm : Mine s g) : Mine s' g where
  active := by rw [h.state]; exact hm.active
  fill := by rw [h.state]; exact hm.fill
  del := by rw [h.state]; exact hm.del
  dead := by rw [h.state]; exact hm.dead
  extra := by rw [h.state]; exact hm.extra
  flipped := fun i hi => by
    rw [h.state, h.grown]
    exact hm.flipped i hi
  grown := fun i hi => h.grown.mpr (hm.grown i hi)
  nodup := hm.nodup
  apart := hm.apart
  view := h.holds.mpr hm.view
  cell := hm.cell
  chunk := by rw [h.chunkCnt]; exact hm.chunk

/-- The role owns the same slots. -/
theorem Calm.owns (h : Calm s g g') {i : Int} : g'.Owns i ↔ g.Owns i := by
  unfold Role.Owns
  rw [h.extra, h.owning]
  have hslot := h.slot
  rw [h.owning] at hslot
  constructor
  · rintro (⟨hp, rfl⟩ | hi)
    · exact Or.inl ⟨hp, (hslot hp).1.symm⟩
    · exact Or.inr hi
  · rintro (⟨hp, rfl⟩ | hi)
    · exact Or.inl ⟨hp, (hslot hp).1⟩
    · exact Or.inr hi

/-- What it knows of them is still so. -/
theorem Mine.calm (hm : Mine s g) (h : Calm s g g') : Mine s g' := by
  have howns := fun i => h.owns (i := i)
  obtain ⟨howning, hslot, hrowed, hrebuild, hextra, hflipped, hview, hcell, hchunk⟩ := h
  constructor
  case active => exact hrowed
  case fill => have := hm.fill; grind
  case del => have := hm.del; grind
  case dead => have := hm.dead; grind
  case extra => rw [hextra]; exact hm.extra
  case flipped => rw [hflipped]; exact hm.flipped
  case grown => exact fun i hi => hm.grown i ((howns i).mp hi)
  case nodup => rw [hextra]; exact hm.nodup
  case apart => have := hm.apart; grind
  case view => exact hview
  case cell => exact fun i hi => (howns i).mpr (hm.cell i (hcell i hi))
  case chunk => exact hchunk

/-- A step that leaves the slots and the thread's own alone. -/
theorem Slots.calm (h : Slots cfg s γ) (hcalm : Calm s (γ t) g') (hsame : SameSlots s s') :
    Slots cfg s' (Function.update γ t g') := by
  have howns : ∀ u i, (Function.update γ t g' u).Owns i ↔ (γ u).Owns i := by
    intro u i
    by_cases hu : u = t
    · subst hu; simpa using hcalm.owns
    · simp [hu]
  have hflipped : ∀ u, (Function.update γ t g' u).flipped = (γ u).flipped := by
    intro u
    by_cases hu : u = t
    · subst hu; simpa using hcalm.flipped
    · simp [hu]
  constructor
  case mine =>
    rw [Function.forall_update_iff γ fun _ g => Mine s' g]
    exact ⟨hsame.mine ((h.mine t).calm hcalm), fun u _ => hsame.mine (h.mine u)⟩
  case unique =>
    intro u v i hu hv
    exact h.unique u v i ((howns u i).mp hu) ((howns v i).mp hv)
  case flipped =>
    intro u v i hi hv
    rw [hflipped] at hi
    exact h.flipped u v i hi ((howns v i).mp hv)
  case chunks => rw [hsame.chunkCnt]; exact h.chunks
  case ungrown =>
    intro i hi
    rw [hsame.state]
    exact h.ungrown i fun hg => hi (hsame.grown.mpr hg)
  case free =>
    obtain ⟨F, hF, hmem⟩ := h.free
    refine ⟨F, hsame.freeList.mpr hF, fun i hi => ?_⟩
    obtain ⟨hg, hst, hown⟩ := hmem i hi
    refine ⟨hsame.grown.mpr hg, by rw [hsame.state]; exact hst, fun u hu =>
      hown u ((howns u i).mp hu)⟩
  case rebuild =>
    intro u hu i hi
    have hphase : (γ u).phase = .rebuild ∧ (Function.update γ t g' u).extra = (γ u).extra := by
      by_cases hut : u = t
      · subst hut
        rw [Function.update_self] at hu ⊢
        exact ⟨hcalm.rebuild hu, hcalm.extra⟩
      · rw [Function.update_of_ne hut] at hu ⊢
        exact ⟨hu, rfl⟩
    rw [hphase.2]
    rcases h.rebuild u hphase.1 i (hsame.grown.mp hi) with hmem | ⟨F, hF, hmem⟩
    · exact Or.inl hmem
    · exact Or.inr ⟨F, hsame.freeList.mpr hF, hmem⟩

/-- What passive accesses leave alone. -/
theorem exec_passive (ha : a.passive = true) (hexec : exec cfg t a s = some (r, s')) :
    ∃ autoInc allocs cas, s' = { s with autoInc := autoInc, allocs := allocs, cas := cas } := by
  cases a <;> simp only [Act.passive, Bool.false_eq_true] at ha <;> simp only [exec] at hexec
  case casAutoInc cur new =>
    split at hexec <;> cases hexec
    · exact ⟨_, _, _, rfl⟩
    · exact ⟨_, _, _, rfl⟩
  all_goals
    cases hexec
    exact ⟨_, _, _, rfl⟩

/-- A load changes no slot. -/
theorem sameSlots_passive (ha : a.passive = true) (hexec : exec cfg t a s = some (r, s')) :
    SameSlots s s' := by
  obtain ⟨_, _, _, rfl⟩ := exec_passive ha hexec
  exact ⟨rfl, rfl, rfl, rfl⟩

theorem sameSlots_setOwner (o : Option Nat) (l : Lock) : SameSlots s (s.setOwner o l) := by
  cases l <;> exact ⟨rfl, rfl, rfl, rfl⟩

/-- No change of role at all. -/
theorem Mine.same (hm : Mine s g) : Calm s g g :=
  ⟨rfl, fun _ => ⟨rfl, Or.inl rfl⟩, hm.active, id, rfl, rfl, hm.view, fun _ hi => hi, hm.chunk⟩

/-- A lock operation changes nothing about the slots. -/
theorem calm_lockStep (hm : Mine s g) (hexec : exec cfg t a s = some (r, s'))
    (h : LockStep g a r g') : Calm s g g' ∧ SameSlots s s' := by
  cases h with
  | lock l =>
      simp only [exec] at hexec
      split at hexec
      · cases hexec
        exact ⟨{ hm.same with }, sameSlots_setOwner _ _⟩
      · cases hexec
  | lockAnew l phase =>
      simp only [exec] at hexec
      split at hexec
      · cases hexec
        refine ⟨{ hm.same with owning := ?_, slot := ?_, rowed := ?_, rebuild := ?_ },
          sameSlots_setOwner _ _⟩
        all_goals grind
      · cases hexec
  | unlockMutex held extra out =>
      cases hexec
      exact ⟨{ hm.same with view := trivial, cell := by simp, chunk := by simp },
        sameSlots_setOwner _ _⟩
  | unlockBucket held walk =>
      cases hexec
      exact ⟨{ hm.same with }, sameSlots_setOwner _ _⟩
  | unlockRow held quiet =>
      cases hexec
      refine ⟨{ hm.same with owning := ?_, slot := ?_, rowed := ?_, rebuild := ?_ },
        sameSlots_setOwner _ _⟩
      all_goals
        have := hm.active
        grind

theorem calm_viewStep (hm : Mine s g) (hexec : exec cfg t a s = some (r, s'))
    (h : ViewStep g a r g') : Calm s g g' ∧ SameSlots s s' := by
  have hsame : a.passive = true → SameSlots s s' := fun ha => sameSlots_passive ha hexec
  cases h with
  | look passive unread => exact ⟨hm.same, hsame passive⟩
  | @active i held phase unread =>
      refine ⟨{ hm.same with
        owning := by grind, slot := by simp [Phase.owning], rowed := fun _ => ?_, rebuild := by
          simp }, hsame rfl⟩
      simp only [exec, Option.some.injEq, Prod.mk.injEq] at hexec
      exact hexec.1
  | gen phase => exact ⟨{ hm.same with }, hsame rfl⟩
  | word phase => exact ⟨{ hm.same with }, hsame rfl⟩
  | freeHead held =>
      refine ⟨{ hm.same with view := ?_, cell := by simp }, hsame rfl⟩
      simp only [exec, Option.some.injEq, Prod.mk.injEq] at hexec
      exact hexec.1
  | @freeNext i r held free =>
      refine ⟨{ hm.same with view := ⟨?_, ?_⟩, cell := by simp }, hsame rfl⟩
      · have := hm.view
        rw [free] at this
        exact this
      · simp only [exec, Option.some.injEq, Prod.mk.injEq] at hexec
        exact hexec.1
  | @chunkCnt r held phase =>
      refine ⟨{ hm.same with chunk := ?_ }, hsame rfl⟩
      simp only [exec, Option.some.injEq, Prod.mk.injEq] at hexec
      rintro c hc
      cases hc
      exact hexec.1

theorem calm_imageStep (hm : Mine s g) (hexec : exec cfg t a s = some (r, s'))
    (h : ImageStep cfg K G g a r g') : Calm s g g' ∧ SameSlots s s' := by
  have hactive := hm.active
  cases h with
  | fill phase map =>
      cases hexec
      exact ⟨{ hm.same with }, ⟨rfl, rfl, rfl, rfl⟩⟩
  | begin kind phase commit checked locked =>
      cases hexec
      refine ⟨{ hm.same with owning := ?_, slot := ?_, rowed := ?_, rebuild := ?_ },
        ⟨rfl, rfl, rfl, rfl⟩⟩
      all_goals grind
  | word phase target =>
      cases hexec
      exact ⟨{ hm.same with }, ⟨rfl, rfl, rfl, rfl⟩⟩
  | finish phase target words commit after =>
      cases hexec
      refine ⟨{ hm.same with owning := ?_, slot := ?_, rowed := ?_, rebuild := ?_ },
        ⟨rfl, rfl, rfl, rfl⟩⟩
      all_goals grind

theorem calm_walkTo (hm : Mine s g) (k b : Nat) (link : Link) (h : Int) :
    Calm s g (g.walkTo k b link h) := by
  unfold Role.walkTo
  split
  · exact { hm.same with }
  · split <;> exact { hm.same with }

theorem calm_chainStep (hm : Mine s g) (hexec : exec cfg t a s = some (r, s'))
    (h : ChainStep cfg K g a r g') : Calm s g g' ∧ SameSlots s s' := by
  have hactive := hm.active
  cases h with
  | enter => cases hexec; exact ⟨calm_walkTo hm _ _ _ _, ⟨rfl, rfl, rfl, rfl⟩⟩
  | next => cases hexec; exact ⟨calm_walkTo hm _ _ _ _, ⟨rfl, rfl, rfl, rfl⟩⟩
  | join walk after fresh =>
      cases hexec
      refine ⟨{ hm.same with owning := ?_, slot := ?_, rowed := ?_, rebuild := ?_ },
        ⟨rfl, rfl, rfl, rfl⟩⟩
      all_goals grind
  | reset => cases hexec; exact ⟨hm.same, ⟨rfl, rfl, rfl, rfl⟩⟩
  | looseHead => cases hexec; exact ⟨hm.same, ⟨rfl, rfl, rfl, rfl⟩⟩
  | looseNext => cases hexec; exact ⟨hm.same, ⟨rfl, rfl, rfl, rfl⟩⟩
  | _ => cases hexec; exact ⟨{ hm.same with }, ⟨rfl, rfl, rfl, rfl⟩⟩

theorem calm_checkTo (hm : Mine s g) (k : Nat) (rec : Image n W) (h : Int) :
    Calm s g (g.checkTo k rec h) := by
  unfold Role.checkTo
  split <;> exact { hm.same with }

theorem calm_dupStep (hm : Mine s g) (hexec : exec cfg t a s = some (r, s'))
    (h : DupStep cfg g a r g') : Calm s g g' ∧ SameSlots s s' := by
  cases h with
  | enter => cases hexec; exact ⟨calm_checkTo hm _ _ _, ⟨rfl, rfl, rfl, rfl⟩⟩
  | next => cases hexec; exact ⟨calm_checkTo hm _ _ _, ⟨rfl, rfl, rfl, rfl⟩⟩
  | state => cases hexec; exact ⟨{ hm.same with }, ⟨rfl, rfl, rfl, rfl⟩⟩
  | word => cases hexec; exact ⟨{ hm.same with }, ⟨rfl, rfl, rfl, rfl⟩⟩

theorem calm_readStep (hm : Mine s g) (hexec : exec cfg t a s = some (r, s'))
    (h : ReadStep G now s g a r g') : Calm s g g' ∧ SameSlots s s' := by
  cases h with
  | state =>
      have hsame := sameSlots_passive rfl hexec
      exact ⟨{ hm.same with }, hsame⟩
  | gen => cases hexec; exact ⟨{ hm.same with }, ⟨rfl, rfl, rfl, rfl⟩⟩
  | seq => cases hexec; exact ⟨{ hm.same with }, ⟨rfl, rfl, rfl, rfl⟩⟩
  | word => cases hexec; exact ⟨{ hm.same with }, ⟨rfl, rfl, rfl, rfl⟩⟩
  | miss passive => exact ⟨{ hm.same with }, sameSlots_passive passive hexec⟩
  | done => exact ⟨{ hm.same with }, sameSlots_passive rfl hexec⟩
  | after => exact ⟨{ hm.same with }, sameSlots_passive rfl hexec⟩

theorem calm_noteStep (hm : Mine s g) (hexec : exec cfg t a s = some (r, s'))
    (h : NoteStep G s g a r g') : Calm s g g' ∧ SameSlots s s' := by
  cases h with
  | see => exact ⟨{ hm.same with }, sameSlots_passive rfl hexec⟩
  | pin held phase unread commit =>
      obtain ⟨hcalm, hsame⟩ := calm_viewStep hm hexec (.active held phase unread)
      exact ⟨{ hcalm with }, hsame⟩

/-- What a thread that does not hold the struct mutex is not in the middle of. -/
theorem RoleOk.outside (h : RoleOk cfg g) (hnot : Lock.mutex ∉ g.locks) :
    g.free = .none ∧ g.chunk = none ∧ g.phase.mutexed = false ∧ g.extra = [] ∧ g.flipped = [] := by
  have hphase : g.phase.mutexed = false := by
    have := h.mutexed
    grind
  refine ⟨?_, ?_, hphase, ?_, ?_⟩
  · by_contra hne
    exact hnot (h.free hne)
  · by_contra hne
    exact hnot (h.chunk hne)
  · by_contra hne
    have := h.extra hne
    grind
  · by_contra hne
    have := h.flipped hne
    grind

/-- Inside the struct mutex no other thread is in the middle of the free list. -/
theorem Locked.outside (hl : Locked cfg s γ) (hheld : Lock.mutex ∈ (γ t).locks)
    {u : Nat} (hu : u ≠ t) :
    (γ u).free = .none ∧ (γ u).chunk = none ∧ (γ u).phase.mutexed = false ∧ (γ u).extra = [] ∧
      (γ u).flipped = [] :=
  (hl.ok u).outside fun hmem => hu (hl.eq hmem hheld)

/-- A slot still belongs to one thread when thread `t` has only slots that no other
thread has. -/
theorem Slots.unique_update (h : Slots cfg s γ)
    (hown : ∀ u i, u ≠ t → g'.Owns i → ¬ (γ u).Owns i) (u v : Nat) (i : Int)
    (hu : (Function.update γ t g' u).Owns i) (hv : (Function.update γ t g' v).Owns i) :
    u = v := by
  by_cases hut : u = t
  · by_cases hvt : v = t
    · rw [hut, hvt]
    · subst hut
      rw [Function.update_self] at hu
      rw [Function.update_of_ne hvt] at hv
      exact absurd hv (hown v i hvt hu)
  · rw [Function.update_of_ne hut] at hu
    by_cases hvt : v = t
    · subst hvt
      rw [Function.update_self] at hv
      exact absurd hu (hown u i hut hv)
    · rw [Function.update_of_ne hvt] at hv
      exact h.unique u v i hu hv

/-- A flipped slot still belongs to no thread when the slots of thread `t` are not
flipped by the others and its flipped slots are not theirs. -/
theorem Slots.flipped_update (h : Slots cfg s γ)
    (hown : ∀ u i, u ≠ t → g'.Owns i → i ∉ (γ u).flipped)
    (hflipped : ∀ i ∈ g'.flipped, ¬ g'.Owns i ∧ ∀ u, u ≠ t → ¬ (γ u).Owns i) (u v : Nat) (i : Int)
    (hi : i ∈ (Function.update γ t g' u).flipped) : ¬ (Function.update γ t g' v).Owns i := by
  by_cases hut : u = t
  · subst hut
    rw [Function.update_self] at hi
    obtain ⟨hnot, hothers⟩ := hflipped i hi
    by_cases hvu : v = u
    · subst hvu
      rw [Function.update_self]
      exact hnot
    · rw [Function.update_of_ne hvu]
      exact hothers v hvu
  · rw [Function.update_of_ne hut] at hi
    by_cases hvt : v = t
    · subst hvt
      rw [Function.update_self]
      exact fun hv => hown u i hut hv hi
    · rw [Function.update_of_ne hvt]
      exact h.flipped u v i hi

/-- A thread inside the struct mutex changes the free list. -/
theorem Slots.refree (h : Slots cfg s γ) (hl : Locked cfg s γ) (hheld : Lock.mutex ∈ (γ t).locks)
    {fn : Int → Int} {fh : Int} (hmine : Mine (s.withFree fn fh) g') (hflipped : g'.flipped = [])
    (hown : ∀ u i, u ≠ t → g'.Owns i → ¬ (γ u).Owns i)
    (hfree : ∃ F, (s.withFree fn fh).FreeList F ∧ ∀ i ∈ F, s.Grown i ∧
      (s.state i = .free ∨ s.state i = .deleted) ∧ ¬ g'.Owns i ∧ ∀ u, u ≠ t → ¬ (γ u).Owns i)
    (hrebuild : g'.phase = .rebuild → ∀ i, s.Grown i →
      i ∈ g'.extra ∨ ∃ F, (s.withFree fn fh).FreeList F ∧ i ∈ F) :
    Slots cfg (s.withFree fn fh) (Function.update γ t g') := by
  constructor
  case mine =>
    rw [Function.forall_update_iff γ fun _ g => Mine (s.withFree fn fh) g]
    refine ⟨hmine, fun u hu => ?_⟩
    have hview := (hl.outside hheld hu).1
    exact { h.mine u with view := by rw [hview]; trivial }
  case unique => exact h.unique_update hown
  case flipped =>
    refine h.flipped_update (fun u i hu _ => ?_) (by simp [hflipped])
    simp [(hl.outside hheld hu).2.2.2.2]
  case chunks => exact h.chunks
  case ungrown => exact h.ungrown
  case free =>
    obtain ⟨F, hF, hmem⟩ := hfree
    refine ⟨F, hF, fun i hi => ⟨(hmem i hi).1, (hmem i hi).2.1, ?_⟩⟩
    rw [Function.forall_update_iff γ fun _ g => ¬ g.Owns i]
    exact (hmem i hi).2.2
  case rebuild =>
    rw [Function.forall_update_iff γ fun _ g => g.phase = .rebuild → ∀ i,
      (s.withFree fn fh).Grown i → i ∈ g.extra ∨ ∃ F, (s.withFree fn fh).FreeList F ∧ i ∈ F]
    refine ⟨hrebuild, fun u hu hphase => ?_⟩
    have := (hl.outside hheld hu).2.2.1
    grind

/-- A thread with no further slots, whose own slot is not its alone, owns nothing. -/
theorem Role.not_owns (howning : g.phase.owning = false) (hextra : g.extra = []) (i : Int) :
    ¬ g.Owns i := by
  rintro (⟨hp, -⟩ | hi)
  · rw [howning] at hp
    cases hp
  · rw [hextra] at hi
    cases hi

/-- Taking the first slot off the free list. -/
theorem Slots.pop (h : Slots cfg s γ) (hl : Locked cfg s γ) (held : Lock.mutex ∈ (γ t).locks)
    {i nx : Int} (free : (γ t).free = .next i nx) (hi : i ≠ nullSlot) (phase : (γ t).phase = .idle)
    (extra : (γ t).extra = []) :
    Slots cfg (s.withFree s.freeNext nx) (Function.update γ t { γ t with
      phase := .fill, slot := i, words := fun _ => none, map := fun _ => none,
        free := .none }) := by
  obtain ⟨F, hF, hmem⟩ := h.free
  have hm := h.mine t
  have hview := hm.view
  rw [free] at hview
  obtain ⟨hhead, hnext⟩ := hview
  have hownsE : ∀ y, Role.Owns { γ t with
      phase := .fill, slot := i, words := fun _ => none, map := fun _ => none, free := .none } y →
      y = i := by
    rintro y (⟨-, rfl⟩ | hy)
    · rfl
    · rw [show (γ t).extra = [] from extra] at hy
      cases hy
  cases F with
  | nil => exact absurd (hhead.symm.trans hF) hi
  | cons i' F =>
      have hnd := IsChain.nodup hF
      obtain ⟨hi', -, hrest⟩ := hF
      obtain rfl : i' = i := hi'.symm.trans hhead
      obtain ⟨hg, hst, hown⟩ := hmem i' List.mem_cons_self
      refine h.refree hl held ?_ ((hl.ok t).unflipped (by simp [phase])) ?_ ?_ ?_
      · exact
          { hm with
            active := by simp [Phase.rowed]
            fill := fun _ => hst
            del := by simp
            dead := by simp
            grown := fun y hy => (hownsE y hy) ▸ hg
            apart := by simp [extra]
            view := trivial
            cell := by simp }
      · intro u y _ hy
        rw [hownsE y hy]
        exact hown u
      · rw [hnext] at hrest
        refine ⟨F, hrest, fun y hy => ?_⟩
        obtain ⟨hgy, hsty, howny⟩ := hmem y (List.mem_cons_of_mem _ hy)
        refine ⟨hgy, hsty, fun hy' => ?_, fun u _ => howny u⟩
        rw [hownsE y hy'] at hy
        exact (List.nodup_cons.mp hnd).1 hy
      · intro hphase
        cases hphase

/-- Pointing a slot of one's own at the head of the free list. -/
theorem Slots.cell (h : Slots cfg s γ) (hl : Locked cfg s γ) (held : Lock.mutex ∈ (γ t).locks)
    {i x : Int} (free : (γ t).free = .head x)
    (mine : (γ t).slot = i ∧ ((γ t).phase = .fill ∨ (γ t).phase = .loose) ∨ i ∈ (γ t).extra) :
    Slots cfg (s.withFree (Function.update s.freeNext i x) s.freeHead)
      (Function.update γ t { γ t with free := .cell i }) := by
  obtain ⟨F, hF, hmem⟩ := h.free
  have hm := h.mine t
  have hok := hl.ok t
  have hown : (γ t).Owns i := by
    rcases mine with ⟨rfl, hp⟩ | hi
    · exact Or.inl ⟨by grind, rfl⟩
    · exact Or.inr hi
  have hflip : (γ t).phase ≠ .flip := by
    rcases mine with ⟨-, hp⟩ | hi
    · grind
    · have := hok.extra (List.ne_nil_of_mem hi)
      grind
  have hhead : s.freeHead = x := by
    have hview := hm.view
    rw [free] at hview
    exact hview
  have hnot : i ∉ F := fun hi => (hmem i hi).2.2 t hown
  have hF' := IsChain.update hF hnot x
  refine h.refree hl held ?_ (hok.unflipped hflip) ?_ ?_ ?_
  · refine { hm with view := ?_, cell := ?_ }
    · simp [FreeView.Holds, Share.withFree, hhead]
    · rintro y hy
      cases hy
      exact hown
  · exact fun u y hu hy hu' => hu (h.unique u t y hu' hy)
  · refine ⟨F, hF', fun y hy => ?_⟩
    obtain ⟨hg, hst, howny⟩ := hmem y hy
    exact ⟨hg, hst, howny t, fun u _ => howny u⟩
  · intro hphase y hy
    rcases h.rebuild t hphase y hy with hx | ⟨F₁, hF₁, hy'⟩
    · exact Or.inl hx
    · rw [IsChain.unique hF₁ hF] at hy'
      exact Or.inr ⟨F, hF', hy'⟩

/-- Putting a slot of one's own in front of the free list, which it already points
at.  The thread keeps the slots in `left`. -/
theorem Slots.pushed (h : Slots cfg s γ) (hl : Locked cfg s γ)
    (held : Lock.mutex ∈ (γ t).locks) {i : Int} (free : (γ t).free = .cell i)
    (hst : s.state i = .free ∨ s.state i = .deleted) (hmine : Mine (s.withFree s.freeNext i) g')
    (hflipped : g'.flipped = []) (hleft : ∀ y, g'.Owns y → (γ t).Owns y ∧ y ≠ i)
    (hrebuild : g'.phase = .rebuild → (γ t).phase = .rebuild ∧ g'.extra = (γ t).extra.erase i) :
    Slots cfg (s.withFree s.freeNext i) (Function.update γ t g') := by
  obtain ⟨F, hF, hmem⟩ := h.free
  have hm := h.mine t
  have hown : (γ t).Owns i := hm.cell i free
  have hg := hm.grown i hown
  have hview : s.freeNext i = s.freeHead := by
    have hview := hm.view
    rw [free] at hview
    exact hview
  have hchain : IsChain nullSlot s.freeNext i (i :: F) := by
    refine ⟨rfl, grown_ne_null h.chunks hg, ?_⟩
    rw [hview]
    exact hF
  refine h.refree hl held hmine hflipped ?_ ⟨i :: F, hchain, fun y hy => ?_⟩ ?_
  · exact fun u y hu hy hu' => hu (h.unique u t y hu' (hleft y hy).1)
  · rcases List.mem_cons.mp hy with rfl | hy
    · exact ⟨hg, hst, fun hy => (hleft _ hy).2 rfl, fun u hu hu' => hu (h.unique u t _ hu' hown)⟩
    · obtain ⟨hgy, hsty, howny⟩ := hmem y hy
      exact ⟨hgy, hsty, fun hy' => howny t (hleft y hy').1, fun u _ => howny u⟩
  · intro hphase y hy
    obtain ⟨hp, hextra⟩ := hrebuild hphase
    rcases h.rebuild t hp y hy with hx | ⟨F', hF', hy'⟩
    · by_cases hyi : y = i
      · exact Or.inr ⟨i :: F, hchain, by simp [hyi]⟩
      · rw [hextra]
        exact Or.inl (hm.nodup.mem_erase_iff.mpr ⟨hyi, hx⟩)
    · rw [IsChain.unique hF' hF] at hy'
      exact Or.inr ⟨i :: F, hchain, List.mem_cons_of_mem _ hy'⟩

/-- Putting the thread's slot back on the free list, which it already points at. -/
theorem Slots.push (h : Slots cfg s γ) (hl : Locked cfg s γ) (held : Lock.mutex ∈ (γ t).locks)
    (free : (γ t).free = .cell (γ t).slot)
    (phase : (γ t).phase = .fill ∧ (γ t).extra = [] ∨ (γ t).phase = .loose) :
    Slots cfg (s.withFree s.freeNext (γ t).slot)
      (Function.update γ t { γ t with phase := .idle, free := .none }) := by
  have hm := h.mine t
  have hok := hl.ok t
  have hextra : (γ t).extra = [] := by
    rcases phase with ⟨-, hx⟩ | hp
    · exact hx
    · exact hok.unspent (by simp [hp]) (by simp [hp])
  have hst : s.state (γ t).slot = .free ∨ s.state (γ t).slot = .deleted := by
    rcases phase with ⟨hp, -⟩ | hp
    · exact hm.fill hp
    · exact Or.inr (hm.dead (Or.inr (Or.inr hp)))
  have hnone := Role.not_owns (g := { γ t with phase := .idle, free := .none }) rfl hextra
  refine h.pushed hl held free hst ?_ (hok.unflipped (by grind))
    (fun y hy => absurd hy (hnone y)) (by simp)
  exact
    { hm with
      active := by simp [Phase.rowed]
      fill := by simp
      del := by simp
      dead := by simp
      grown := fun y hy => absurd hy (hnone y)
      apart := by simp [Phase.owning]
      view := trivial
      cell := by simp }

/-- Putting a further slot on the free list, which it already points at. -/
theorem Slots.pushExtra (h : Slots cfg s γ) (hl : Locked cfg s γ)
    (held : Lock.mutex ∈ (γ t).locks) {i : Int} (free : (γ t).free = .cell i)
    (mem : i ∈ (γ t).extra) :
    Slots cfg (s.withFree s.freeNext i)
      (Function.update γ t { γ t with extra := (γ t).extra.erase i, free := .none }) := by
  have hm := h.mine t
  have hok := hl.ok t
  have hflip : (γ t).phase ≠ .flip := by
    have := hok.extra (List.ne_nil_of_mem mem)
    grind
  have hleft : ∀ y, Role.Owns { γ t with extra := (γ t).extra.erase i, free := .none } y →
      (γ t).Owns y ∧ y ≠ i := by
    rintro y (⟨hp, hy⟩ | hy)
    · have hy' : (γ t).slot = y := hy
      refine ⟨Or.inl ⟨hp, hy'⟩, fun hyi => hm.apart hp ?_⟩
      rw [hy', hyi]
      exact mem
    · have := hm.nodup.mem_erase_iff.mp hy
      exact ⟨Or.inr this.2, this.1⟩
  refine h.pushed hl held free (Or.inl (hm.extra i mem)) ?_ (hok.unflipped hflip) hleft
    (fun hp => ⟨hp, rfl⟩)
  exact
    { hm with
      extra := fun y hy => hm.extra y (List.mem_of_mem_erase hy)
      grown := fun y hy => hm.grown y (hleft y hy).1
      nodup := hm.nodup.erase i
      apart := fun hp hy => hm.apart hp (List.mem_of_mem_erase hy)
      view := trivial
      cell := by simp }

/-- The free list is empty, and the thread has the slots it has flipped. -/
theorem Slots.reset (h : Slots cfg s γ) (hl : Locked cfg s γ) (held : Lock.mutex ∈ (γ t).locks)
    {c : Nat} (chunk : (γ t).chunk = some c) (all : ∀ u, u < slotCount c → i32 u ∈ (γ t).flipped) :
    Slots cfg (s.withFree s.freeNext nullSlot) (Function.update γ t { γ t with
      phase := .rebuild, extra := (γ t).flipped, flipped := [], free := .none }) := by
  have hm := h.mine t
  have howns : ∀ y, Role.Owns { γ t with
      phase := .rebuild, extra := (γ t).flipped, flipped := [], free := .none } y →
      y ∈ (γ t).flipped := by
    rintro y (⟨hp, -⟩ | hy)
    · cases hp
    · exact hy
  refine h.refree hl held ?_ rfl (fun u y _ hy => h.flipped t u y (howns y hy))
    ⟨[], rfl, by simp⟩ ?_
  · exact
      { hm with
        active := by simp [Phase.rowed]
        fill := by simp
        del := by simp
        dead := by simp
        extra := fun y hy => (hm.flipped y hy).1
        flipped := by simp
        grown := fun y hy => (hm.flipped y (howns y hy)).2
        nodup := (hl.ok t).flipped_nodup
        apart := by simp [Phase.owning]
        view := trivial
        cell := by simp }
  · rintro - y ⟨v, hv, rfl⟩
    rw [hm.chunk c chunk] at hv
    exact Or.inl (all v hv)

/-- Every step on the free list keeps the slots in order. -/
theorem Slots.freeStep (h : Slots cfg s γ) (hl : Locked cfg s γ)
    (hexec : exec cfg t a s = some (r, s')) (hstep : FreeStep K (γ t) a r g') :
    Slots cfg s' (Function.update γ t g') := by
  cases hstep with
  | pop kind held free some_slot phase extra =>
      cases hexec
      exact h.pop hl held free some_slot phase extra
  | cell held free mine =>
      cases hexec
      exact h.cell hl held free mine
  | push held free walk phase =>
      cases hexec
      exact h.push hl held free (phase.imp_left fun hp => ⟨hp.1, hp.2.2⟩)
  | pushExtra held free mem =>
      cases hexec
      exact h.pushExtra hl held free mem
  | reset kind held phase extra chunk all =>
      cases hexec
      exact h.reset hl held chunk all

/-- Building the slots of a chunk that is not published yet. -/
theorem Slots.initSlots (h : Slots cfg s γ) (hl : Locked cfg s γ)
    (held : Lock.mutex ∈ (γ t).locks) {c : Nat} (chunk : (γ t).chunk = some c)
    (free : (γ t).free = .head nullSlot) (hexec : exec cfg t (.initSlots c) s = some ((), s')) :
    Slots cfg s' γ := by
  cases hexec
  have hc : s.chunkCnt = c := (h.mine t).chunk c chunk
  have hnew : ∀ i, s.Grown i → ¬ u32 i / chunkSize = c := by
    intro i hi heq
    exact not_grown_of_chunk h.chunks (heq.trans hc.symm) hi
  have hstate : (fun i => if u32 i / chunkSize = c then SlotState.free else s.state i) =
      s.state := by
    funext i
    by_cases hi : s.Grown i
    · rw [if_neg (hnew i hi)]
    · rw [h.ungrown i hi]
      split <;> rfl
  have hfree : ∀ F, s.FreeList F → (∀ i ∈ F, s.Grown i) →
      IsChain nullSlot (fun i => if u32 i / chunkSize = c then nullSlot else s.freeNext i)
      s.freeHead F := by
    intro F hF hg
    refine IsChain.congr hF fun i hi => ?_
    rw [if_neg (hnew i (hg i hi))]
  obtain ⟨F, hF, hmem⟩ := h.free
  have hF' := hfree F hF fun i hi => (hmem i hi).1
  simp only [hstate]
  constructor
  case mine =>
    intro u
    refine { h.mine u with view := ?_ }
    by_cases hu : u = t
    · subst hu
      have hview := (h.mine u).view
      rw [free] at hview ⊢
      exact hview
    · rw [(hl.outside held hu).1]
      trivial
  case unique => exact h.unique
  case flipped => exact h.flipped
  case chunks => exact h.chunks
  case ungrown => exact h.ungrown
  case free => exact ⟨F, hF', hmem⟩
  case rebuild =>
    intro u hu i hi
    rcases h.rebuild u hu i hi with hx | ⟨F₁, hF₁, hmem₁⟩
    · exact Or.inl hx
    · rw [IsChain.unique hF₁ hF] at hmem₁
      exact Or.inr ⟨F, hF', hmem₁⟩

/-- The slots of the chunk a growth publishes. -/
theorem slotsFrom_fresh {c : Nat} (hcap : c < cfg.chunkCap) {i : Int}
    (hi : i = i32 (slotCount c) ∨
      i ∈ slotsFrom (slotCount c + 1) (chunkEnd cfg (slotCount c) - (slotCount c + 1))) :
    ∃ u, c * 4096 ≤ u ∧ u < (c + 1) * 4096 ∧ i = i32 u ∧ u < 2 ^ 32 := by
  obtain ⟨heq, -⟩ := slotCount_of_le (Nat.le_of_lt hcap)
  obtain ⟨-, hle⟩ := slotCount_of_le (c := c + 1) hcap
  rcases hi with rfl | hi
  · refine ⟨slotCount c, heq.ge, ?_, rfl, ?_⟩ <;> omega
  · obtain ⟨j, hj, rfl⟩ := mem_slotsFrom.mp hi
    have hend : chunkEnd cfg (slotCount c) ≤ slotCount c + 4096 := by
      unfold chunkEnd chunkSize
      split <;> omega
    have hlo : c * 4096 ≤ slotCount c + 1 + j := by
      have := heq.ge
      exact this.trans (by omega)
    have hhi : slotCount c + 1 + j < (c + 1) * 4096 := by
      have : (c + 1) * 4096 = c * 4096 + 4096 := Nat.succ_mul c 4096
      rw [this, ← heq]
      omega
    exact ⟨_, hlo, hhi, rfl, by omega⟩

/-- The slots of a chunk, the first one and those after it. -/
def ChunkSlot (cfg : ShareCfg n W PK) (c : Nat) (i : Int) : Prop :=
  i = i32 (slotCount c) ∨
    i ∈ slotsFrom (slotCount c + 1) (chunkEnd cfg (slotCount c) - (slotCount c + 1))

/-- The slots of the old chunks are slots of the share still. -/
theorem Share.Grown.publish {c : Nat} (hc : s.chunkCnt = c) (cap : c < cfg.chunkCap) {i : Int}
    (hi : s.Grown i) : Share.Grown { s with chunkCnt := c + 1 } i := by
  obtain ⟨u, hu, rfl⟩ := hi
  obtain ⟨heq, -⟩ := slotCount_of_le (Nat.le_of_lt cap)
  obtain ⟨heq', -⟩ := slotCount_of_le (c := c + 1) cap
  rw [hc] at hu
  refine ⟨u, ?_, rfl⟩
  show u < slotCount (c + 1)
  omega

/-- The slots of the chunk are new. -/
theorem ChunkSlot.fresh {c : Nat} (hc : s.chunkCnt = c) (cap : c < cfg.chunkCap) {i : Int}
    (hi : ChunkSlot cfg c i) : Share.Grown { s with chunkCnt := c + 1 } i ∧ ¬ s.Grown i := by
  obtain ⟨heq, -⟩ := slotCount_of_le (Nat.le_of_lt cap)
  obtain ⟨heq', hle⟩ := slotCount_of_le (c := c + 1) cap
  obtain ⟨u, hlo, hhi, rfl, hu32⟩ := slotsFrom_fresh cap hi
  refine ⟨⟨u, ?_, rfl⟩, ?_⟩
  · show u < slotCount (c + 1)
    omega
  · rintro ⟨v, hv, huv⟩
    rw [hc] at hv
    have := i32_inj (by omega) (by omega) huv
    omega

/-- A chunk ends at most 4096 slots after it begins. -/
theorem chunkEnd_le (cfg : ShareCfg n W PK) (c : Nat) :
    chunkEnd cfg (slotCount c) ≤ slotCount c + 4096 := by
  unfold chunkEnd chunkSize
  split <;> omega

/-- The slots of a chunk are different slots. -/
theorem nodup_chunkSlots {c : Nat} (cap : c < cfg.chunkCap) :
    (slotsFrom (slotCount c + 1) (chunkEnd cfg (slotCount c) - (slotCount c + 1))).Nodup ∧
      i32 (slotCount c) ∉
        slotsFrom (slotCount c + 1) (chunkEnd cfg (slotCount c) - (slotCount c + 1)) := by
  obtain ⟨heq, -⟩ := slotCount_of_le (Nat.le_of_lt cap)
  obtain ⟨heq', hle⟩ := slotCount_of_le (c := c + 1) cap
  have hend := chunkEnd_le cfg c
  constructor
  · refine List.Nodup.map_on ?_ List.nodup_range
    intro x hx y hy hxy
    have hx' := List.mem_range.mp hx
    have hy' := List.mem_range.mp hy
    have := i32_inj (by omega) (by omega) hxy
    omega
  · intro hmem
    obtain ⟨j, hj, hij⟩ := mem_slotsFrom.mp hmem
    have := i32_inj (by omega) (by omega) hij
    omega

/-- Publishing a chunk: its first slot is to be filled, the others are to be put on
the free list. -/
theorem Slots.grow (h : Slots cfg s γ) (hl : Locked cfg s γ)
    (held : Lock.mutex ∈ (γ t).locks) {c : Nat} (chunk : (γ t).chunk = some c)
    (free : (γ t).free = .head nullSlot) (phase : (γ t).phase = .idle) (cap : c < cfg.chunkCap) :
    Slots cfg { s with chunkCnt := c + 1 } (Function.update γ t { γ t with
      phase := .fill
      slot := i32 (slotCount c)
      extra := slotsFrom (slotCount c + 1) (chunkEnd cfg (slotCount c) - (slotCount c + 1))
      words := fun _ => none
      map := fun _ => none
      free := .none
      chunk := none }) := by
  have hm := h.mine t
  have hc : s.chunkCnt = c := hm.chunk c chunk
  have hfl : (γ t).flipped = [] := (hl.ok t).unflipped (by simp [phase])
  have hmono : ∀ i, s.Grown i → Share.Grown { s with chunkCnt := c + 1 } i :=
    fun i hi => hi.publish hc cap
  have hfresh : ∀ i, i32 (slotCount c) = i ∨
      i ∈ slotsFrom (slotCount c + 1) (chunkEnd cfg (slotCount c) - (slotCount c + 1)) →
      Share.Grown { s with chunkCnt := c + 1 } i ∧ ¬ s.Grown i :=
    fun i hi => ChunkSlot.fresh hc cap (hi.imp_left Eq.symm)
  obtain ⟨hnodup, hapart⟩ := nodup_chunkSlots cap
  obtain ⟨F, hF, hmem⟩ := h.free
  have hnil : F = [] := by
    have hview := hm.view
    rw [free] at hview
    exact IsChain.unique hF (show IsChain nullSlot s.freeNext s.freeHead [] from hview)
  constructor
  case mine =>
    rw [Function.forall_update_iff γ fun _ g => Mine { s with chunkCnt := c + 1 } g]
    constructor
    · exact
        { active := by simp [Phase.rowed]
          fill := fun _ => Or.inl (h.ungrown _ (hfresh _ (Or.inl rfl)).2)
          del := by simp
          dead := by simp
          extra := fun i hi => h.ungrown i (hfresh i (Or.inr hi)).2
          flipped := by simp [hfl]
          grown := fun i hi => (hfresh i (hi.imp_left And.right)).1
          nodup := hnodup
          apart := fun _ => hapart
          view := trivial
          cell := by simp
          chunk := by simp }
    · intro u hu
      have hmu := h.mine u
      refine { hmu with flipped := ?_, grown := ?_, chunk := ?_ }
      · exact fun i hi => ⟨(hmu.flipped i hi).1, hmono i (hmu.flipped i hi).2⟩
      · exact fun i hi => hmono i (hmu.grown i hi)
      · rw [(hl.outside held hu).2.1]
        simp
  case unique =>
    refine h.unique_update fun u i hu hi hi' => ?_
    exact (hfresh i (hi.imp_left And.right)).2 ((h.mine u).grown i hi')
  case flipped =>
    refine h.flipped_update (fun u i hu _ => ?_) (by simp [hfl])
    simp [(hl.outside held hu).2.2.2.2]
  case chunks => exact cap
  case ungrown => exact fun i hi => h.ungrown i fun hg => hi (hmono i hg)
  case free => exact ⟨[], hnil ▸ hF, by simp⟩
  case rebuild =>
    rw [Function.forall_update_iff γ fun _ g => g.phase = .rebuild → ∀ i,
      Share.Grown { s with chunkCnt := c + 1 } i →
      i ∈ g.extra ∨ ∃ F, Share.FreeList { s with chunkCnt := c + 1 } F ∧ i ∈ F]
    refine ⟨by simp, fun u hu hphase => ?_⟩
    have := (hl.outside held hu).2.2.1
    grind

/-- Every step of a growth keeps the slots in order. -/
theorem Slots.growStep (h : Slots cfg s γ) (hl : Locked cfg s γ)
    (hexec : exec cfg t a s = some (r, s')) (hstep : GrowStep cfg K (γ t) a r g') :
    Slots cfg s' (Function.update γ t g') := by
  cases hstep with
  | initSlots kind held chunk free =>
      rw [Function.update_eq_self]
      exact h.initSlots hl held chunk free hexec
  | initNext kind held chunk =>
      cases hexec
      exact h.calm (h.mine t).same ⟨rfl, rfl, rfl, rfl⟩
  | publish kind held chunk free phase extra cap limit =>
      cases hexec
      exact h.grow hl held chunk free phase cap

/-- The same share with another state in slot `i`. -/
def Share.withState (s : Share n W) (i : Int) (v : SlotState) : Share n W :=
  { s with state := Function.update s.state i v }

/-- The other slots keep their state. -/
theorem withState_of_ne {i j : Int} {v : SlotState} (hj : j ≠ i) :
    (s.withState i v).state j = s.state j :=
  Function.update_of_ne hj _ _

/-- The slot has its new state. -/
@[simp] theorem withState_self (i : Int) (v : SlotState) : (s.withState i v).state i = v :=
  Function.update_self ..

/-- A thread that is not concerned with slot `i`. -/
structure Role.Apart (g : Role n W) (i : Int) : Prop where
  rowed : g.phase.rowed = true → g.slot ≠ i
  owns : ¬ g.Owns i
  flipped : i ∉ g.flipped

/-- What a thread knows of its slots is still so when slot `i`, which it is not
concerned with, has another state. -/
theorem Mine.withState (hm : Mine s g) {i : Int} {v : SlotState} (hi : g.Apart i) :
    Mine (s.withState i v) g := by
  have hslot : g.phase.owning = true → g.slot ≠ i := fun hp heq => hi.owns (Or.inl ⟨hp, heq⟩)
  refine { hm with active := ?_, fill := ?_, del := ?_, dead := ?_, extra := ?_, flipped := ?_ }
  · intro hp
    rw [withState_of_ne (hi.rowed hp)]
    exact hm.active hp
  · intro hp
    rw [withState_of_ne (hslot (by grind))]
    exact hm.fill hp
  · intro hp
    rw [withState_of_ne (hslot (by grind))]
    exact hm.del hp
  · intro hp
    rw [withState_of_ne (hslot (by grind))]
    exact hm.dead hp
  · intro j hj
    have hji : j ≠ i := fun heq => hi.owns (Or.inr (heq ▸ hj))
    rw [withState_of_ne hji]
    exact hm.extra j hj
  · intro j hj
    have hji : j ≠ i := fun heq => hi.flipped (heq ▸ hj)
    rw [withState_of_ne hji]
    exact hm.flipped j hj

/-- A thread stores the state of slot `i`, which no other thread is concerned with. -/
theorem Slots.restate (h : Slots cfg s γ) {i : Int} {v : SlotState} (hg : s.Grown i)
    (hmine : Mine (s.withState i v) g') (hothers : ∀ u, u ≠ t → (γ u).Apart i)
    (hown : ∀ x, g'.Owns x → x = i ∨ (γ t).Owns x)
    (hflipped : ∀ x ∈ g'.flipped, ¬ g'.Owns x ∧ (x = i ∨ x ∈ (γ t).flipped))
    (hfree : ∀ F, s.FreeList F → i ∈ F → (v = .free ∨ v = .deleted) ∧ ¬ g'.Owns i)
    (hrebuild : g'.phase ≠ .rebuild) :
    Slots cfg (s.withState i v) (Function.update γ t g') := by
  constructor
  case mine =>
    rw [Function.forall_update_iff γ fun _ g => Mine (s.withState i v) g]
    exact ⟨hmine, fun u hu => (h.mine u).withState (hothers u hu)⟩
  case unique =>
    refine h.unique_update fun u x hu hx hx' => ?_
    rcases hown x hx with rfl | hx
    · exact (hothers u hu).owns hx'
    · exact hu (h.unique u t x hx' hx)
  case flipped =>
    refine h.flipped_update (fun u x hu hx hx' => ?_) fun x hx => ⟨(hflipped x hx).1, ?_⟩
    · rcases hown x hx with rfl | hx
      · exact (hothers u hu).flipped hx'
      · exact h.flipped u t x hx' hx
    · intro u hu hx'
      rcases (hflipped x hx).2 with rfl | hx
      · exact (hothers u hu).owns hx'
      · exact h.flipped t u x hx hx'
  case chunks => exact h.chunks
  case ungrown =>
    intro j hj
    rw [withState_of_ne (by rintro rfl; exact hj hg)]
    exact h.ungrown j hj
  case free =>
    obtain ⟨F, hF, hmem⟩ := h.free
    refine ⟨F, hF, fun j hj => ?_⟩
    obtain ⟨hgj, hst, hnot⟩ := hmem j hj
    refine ⟨hgj, ?_⟩
    rw [Function.forall_update_iff γ fun _ g => ¬ g.Owns j]
    by_cases hji : j = i
    · subst hji
      obtain ⟨hv, hnot'⟩ := hfree F hF hj
      rw [withState_self]
      exact ⟨hv, hnot', fun u _ => hnot u⟩
    · rw [withState_of_ne hji]
      exact ⟨hst, fun hj' => (hown j hj').elim hji (hnot t), fun u _ => hnot u⟩
  case rebuild =>
    rw [Function.forall_update_iff γ fun _ g => g.phase = .rebuild → ∀ j,
      (s.withState i v).Grown j → j ∈ g.extra ∨ ∃ F, (s.withState i v).FreeList F ∧ j ∈ F]
    exact ⟨fun hp => absurd hp hrebuild, fun u _ => h.rebuild u⟩

/-- An owned slot is not ACTIVE. -/
theorem Mine.not_active (hm : Mine s g) {i : Int} (hi : g.Owns i) : s.state i ≠ .active := by
  intro hst
  rcases hi with ⟨hp, rfl⟩ | hi
  · have h1 := hm.fill
    have h2 := hm.del
    have h3 := hm.dead
    grind
  · rw [hm.extra i hi] at hst
    cases hst

/-- An ACTIVE slot lies in a chunk of the share. -/
theorem Slots.grown_of_active (h : Slots cfg s γ) {i : Int} (hst : s.state i = .active) :
    s.Grown i := by
  by_contra hnot
  rw [h.ungrown i hnot] at hst
  cases hst

/-- No slot of the free list is ACTIVE. -/
theorem Slots.free_not_active (h : Slots cfg s γ) {F : List Int} (hF : s.FreeList F) {i : Int}
    (hi : i ∈ F) : s.state i ≠ .active := by
  obtain ⟨F', hF', hmem⟩ := h.free
  rw [IsChain.unique hF hF'] at hi
  intro hst
  rcases (hmem i hi).2.1 with h1 | h1 <;> rw [h1] at hst <;> cases hst

/-- No slot of the free list belongs to a thread. -/
theorem Slots.free_not_owned (h : Slots cfg s γ) {F : List Int} (hF : s.FreeList F) {i : Int}
    (hi : i ∈ F) (u : Nat) : ¬ (γ u).Owns i := by
  obtain ⟨F', hF', hmem⟩ := h.free
  rw [IsChain.unique hF hF'] at hi
  exact (hmem i hi).2.2 u

/-- What a thread with a slot of its own need not fear from the others. -/
theorem Slots.others_of_owns (h : Slots cfg s γ) {i : Int} (hi : (γ t).Owns i) :
    ∀ u, u ≠ t → (γ u).Apart i := by
  intro u hu
  refine ⟨fun hp heq => ?_, fun hown => hu (h.unique u t i hown hi), fun hfl =>
    h.flipped u t i hfl hi⟩
  have := (h.mine u).active hp
  rw [heq] at this
  exact (h.mine t).not_active hi this

/-- A row that holds the struct mutex and the wlock of an undisturbed slot has it to
itself. -/
theorem Slots.others_of_flippable (h : Slots cfg s γ) (hl : Locked cfg s γ) {i : Int}
    (hmutex : Lock.mutex ∈ (γ t).locks) (hrow : Lock.row i ∈ (γ t).locks) (hi : Flippable s i) :
    ∀ u, u ≠ t → (γ u).Apart i := by
  intro u hu
  obtain ⟨-, -, hphase, hextra, hfl⟩ := hl.outside hmutex hu
  have hmu := h.mine u
  refine ⟨fun hp heq => ?_, ?_, by simp [hfl]⟩
  · have hlock := (hl.ok u).rowed hp
    rw [heq] at hlock
    exact hu (hl.eq hlock hrow)
  · rintro (⟨hp, rfl⟩ | hmem)
    · have hcase : (γ u).phase = .del ∨ (γ u).phase.buried = true := by grind
      rcases hcase with hdel | hdead
      · exact hi.1 (hmu.del hdel)
      · obtain ⟨F, hF, hmem⟩ := hi.2 (hmu.dead (by grind))
        exact h.free_not_owned hF hmem u (Or.inl ⟨hp, rfl⟩)
    · rw [hextra] at hmem
      cases hmem

/-- The thread's slot, filled, holds a row from now on. -/
theorem Slots.publish (h : Slots cfg s γ) (hl : Locked cfg s γ) (phase : (γ t).phase = .fill)
    (extra : (γ t).extra = []) (free : (γ t).free = .none) :
    Slots cfg (s.withState (γ t).slot .active)
      (Function.update γ t { γ t with phase := .published }) := by
  have hm := h.mine t
  have hown : (γ t).Owns (γ t).slot := Or.inl ⟨by grind, rfl⟩
  have hnone := Role.not_owns (g := { γ t with phase := .published }) rfl extra
  have hfl : (γ t).flipped = [] := (hl.ok t).unflipped (by simp [phase])
  refine h.restate (hm.grown _ hown) ?_ (h.others_of_owns hown)
    (fun x hx => absurd hx (hnone x)) (by simp [hfl])
    (fun F hF hmem => absurd hown (h.free_not_owned hF hmem t)) (by simp)
  exact
    { hm with
      active := by simp [Phase.rowed]
      fill := by simp
      del := by simp
      dead := by simp
      extra := by simp [extra]
      flipped := by simp [hfl]
      grown := fun x hx => absurd hx (hnone x)
      apart := by simp [Phase.owning]
      cell := by simp [free] }

/-- The row of a locked slot is being deleted: the slot belongs to its thread. -/
theorem Slots.mark (h : Slots cfg s γ) (hl : Locked cfg s γ) (phase : (γ t).phase = .row)
    {words : Fin n → Option W} {map : Nat → Option Nat} {marked : Option (Int × Nat)} :
    Slots cfg (s.withState (γ t).slot .deleting) (Function.update γ t { γ t with
      phase := .del, words := words, map := map, marked := marked }) := by
  have hm := h.mine t
  have hok := hl.ok t
  have hactive := hm.active (by grind)
  have hg := h.grown_of_active hactive
  have hextra : (γ t).extra = [] := hok.unspent (by simp [phase]) (by simp [phase])
  have hfl : (γ t).flipped = [] := hok.unflipped (by simp [phase])
  have hnone := Role.not_owns (g := γ t) (by grind) hextra
  have hown : ∀ x, Role.Owns { γ t with
      phase := .del, words := words, map := map, marked := marked } x → x = (γ t).slot := by
    rintro x (⟨-, hx⟩ | hx)
    · exact hx.symm
    · rw [show (γ t).extra = [] from hextra] at hx
      cases hx
  refine h.restate hg ?_ (fun u hu => ⟨fun hp heq => ?_, ?_, fun hfl => ?_⟩)
    (fun x hx => Or.inl (hown x hx)) (by simp [hfl])
    (fun F hF hmem => absurd hactive (h.free_not_active hF hmem)) (by simp)
  · exact
      { hm with
        active := by simp [Phase.rowed]
        fill := by simp
        del := fun _ => withState_self ..
        dead := by simp
        extra := by simp [hextra]
        flipped := by simp [hfl]
        grown := fun x hx => hown x hx ▸ hg
        apart := by simp [hextra]
        cell := fun x hx => absurd (hm.cell x hx) (hnone x) }
  · have hlock := (hl.ok u).rowed hp
    rw [heq] at hlock
    exact hu (hl.eq hlock (hok.rowed (by grind)))
  · exact fun hown => (h.mine u).not_active hown hactive
  · rw [((h.mine u).flipped _ hfl).1] at hactive
    cases hactive

/-- The deleted row's slot is DELETED, and still its thread's. -/
theorem Slots.bury (h : Slots cfg s γ) (hl : Locked cfg s γ) (phase : (γ t).phase = .del) :
    Slots cfg (s.withState (γ t).slot .deleted)
      (Function.update γ t { γ t with phase := .dead }) := by
  have hm := h.mine t
  have hok := hl.ok t
  have hown : (γ t).Owns (γ t).slot := Or.inl ⟨by grind, rfl⟩
  have hextra : (γ t).extra = [] := hok.unspent (by simp [phase]) (by simp [phase])
  have hfl : (γ t).flipped = [] := hok.unflipped (by simp [phase])
  have howns : ∀ x, Role.Owns { γ t with phase := .dead } x ↔ (γ t).Owns x := by
    intro x
    simp [Role.Owns, hextra, phase, Phase.owning]
  refine h.restate (hm.grown _ hown) ?_ (h.others_of_owns hown)
    (fun x hx => Or.inr ((howns x).mp hx)) (by simp [hfl])
    (fun F hF hmem => absurd hown (h.free_not_owned hF hmem t)) (by simp)
  exact
    { hm with
      active := by simp [Phase.rowed]
      fill := by simp
      del := by simp
      dead := fun _ => withState_self ..
      extra := by simp [hextra]
      flipped := by simp [hfl]
      grown := fun x hx => hm.grown x ((howns x).mp hx)
      apart := by simp [hextra]
      cell := fun x hx => (howns x).mpr (hm.cell x hx) }

/-- A clear flips a slot that no delete is in the middle of. -/
theorem Slots.flip (h : Slots cfg s γ) (hl : Locked cfg s γ) {i : Int}
    (phase : (γ t).phase = .flip) (held : Lock.row i ∈ (γ t).locks) (hi : Flippable s i)
    (grown : s.Grown i) :
    Slots cfg (s.withState i .free)
      (Function.update γ t { γ t with flipped := i :: (γ t).flipped }) := by
  have hm := h.mine t
  have hok := hl.ok t
  have hextra : (γ t).extra = [] := hok.unspent (by simp [phase]) (by simp [phase])
  have hnone := Role.not_owns (g := γ t) (by grind) hextra
  refine h.restate grown ?_ (h.others_of_flippable hl (hok.mutexed (by grind)) held hi)
    (fun x hx => Or.inr hx) (fun x hx => ⟨hnone x, List.mem_cons.mp hx⟩)
    (fun F _ _ => ⟨Or.inl rfl, hnone i⟩) (by simp [phase])
  refine
    { hm with
      active := by simp [Phase.rowed, phase]
      fill := by simp [phase]
      del := by simp [phase]
      dead := by simp [phase]
      extra := by simp [hextra]
      flipped := fun x hx => ?_ }
  by_cases hxi : x = i
  · subst hxi
    exact ⟨withState_self .., grown⟩
  · rw [withState_of_ne hxi]
    exact hm.flipped x ((List.mem_cons.mp hx).resolve_left hxi)

/-- Every step on the state of a slot keeps the slots in order. -/
theorem Slots.slotStep (h : Slots cfg s γ) (hl : Locked cfg s γ)
    (hflip : ∀ i, G (.flip i) → Flippable s i) (hexec : exec cfg t a s = some (r, s'))
    (hstep : SlotStep cfg K G s (γ t) a r g') : Slots cfg s' (Function.update γ t g') := by
  have hm := h.mine t
  cases hstep with
  | publish phase extra free walk words map commit =>
      cases hexec
      exact h.publish hl phase extra free
  | mark kind phase commit =>
      cases hexec
      exact h.mark hl phase
  | bury phase walk map =>
      cases hexec
      exact h.bury hl phase
  | @flip i kind phase held commit new grown =>
      cases hexec
      exact h.flip hl phase held (hflip i commit) grown
  | begin kind held phase extra =>
      cases hexec
      have hfl : (γ t).flipped = [] := (hl.ok t).unflipped (by simp [phase])
      refine h.calm { hm.same with
        owning := ?_
        slot := ?_
        rowed := ?_
        rebuild := ?_
        flipped := hfl.symm
        chunk := by simp } ⟨rfl, rfl, rfl, rfl⟩
      all_goals grind
  | flipGen phase held done =>
      cases hexec
      exact h.calm hm.same ⟨rfl, rfl, rfl, rfl⟩
  | count phase | age phase | uncount phase | zero phase extra =>
      cases hexec
      refine h.calm { hm.same with owning := ?_, slot := ?_, rowed := ?_, rebuild := ?_ }
        ⟨rfl, rfl, rfl, rfl⟩
      all_goals grind

/-- **Every step keeps the slots in order.** -/
theorem Slots.step (h : Slots cfg s γ) (hl : Locked cfg s γ)
    (hflip : ∀ i, G (.flip i) → Flippable s i) (hexec : exec cfg t a s = some (r, s'))
    (hstep : Step cfg K G now s (γ t) a r g') : Slots cfg s' (Function.update γ t g') := by
  have hm := h.mine t
  cases hstep with
  | lock hs => exact h.calm (calm_lockStep hm hexec hs).1 (calm_lockStep hm hexec hs).2
  | view hs => exact h.calm (calm_viewStep hm hexec hs).1 (calm_viewStep hm hexec hs).2
  | free hs => exact h.freeStep hl hexec hs
  | grow hs => exact h.growStep hl hexec hs
  | slot hs => exact h.slotStep hl hflip hexec hs
  | image hs => exact h.calm (calm_imageStep hm hexec hs).1 (calm_imageStep hm hexec hs).2
  | chain hs => exact h.calm (calm_chainStep hm hexec hs).1 (calm_chainStep hm hexec hs).2
  | dup hs => exact h.calm (calm_dupStep hm hexec hs).1 (calm_dupStep hm hexec hs).2
  | read hs => exact h.calm (calm_readStep hm hexec hs).1 (calm_readStep hm hexec hs).2
  | note hs => exact h.calm (calm_noteStep hm hexec hs).1 (calm_noteStep hm hexec hs).2

variable {T : Setting n W PK Op Out} {w : World (coreSig n W PK) (Share n W) Op Out}

/-- What a setting starts from: a share just initialised. -/
def Setting.Fresh (T : Setting n W PK Op Out) : Prop := ∃ data, T.share = Share.fresh data

/-- The clears of a setting flip no slot that a delete is in the middle of. -/
def Setting.ClearsApart (T : Setting n W PK Op Out) : Prop :=
  ∀ c w i, T.commits c w (.flip i) → Flippable w.mem i

/-- No lock of a fresh share is owned. -/
theorem Setting.Fresh.owner (h : T.Fresh) (l : Lock) : T.share.owner l = none := by
  obtain ⟨data, hdata⟩ := h
  rw [hdata]
  cases l <;> rfl

/-- The slots of a share just initialised. -/
theorem slots_fresh (cfg : ShareCfg n W PK) (data : Int → Image n W) :
    Slots cfg (Share.fresh data) fun _ => (Role.init : Role n W) := by
  have hinit : ∀ i, ¬ (Role.init : Role n W).Owns i := by simp [Role.Owns, Role.init, Phase.owning]
  constructor
  case mine =>
    intro t
    constructor <;> simp [Role.init, Phase.rowed, Phase.owning, Role.Owns, FreeView.Holds]
  case unique => exact fun t u i ht => absurd ht (hinit i)
  case flipped => simp [Role.init]
  case chunks => exact Nat.zero_le _
  case ungrown => exact fun i _ => rfl
  case free => exact ⟨[], rfl, by simp⟩
  case rebuild => simp [Role.init]

/-- The slots are in order along every trace that starts with the slots in order. -/
theorem trace_slots_from (howner : ∀ l, T.share.owner l = none)
    (hslots : Slots T.cfg T.share fun _ => Role.init) (hclear : T.ClearsApart)
    (h : T.Trace w γ) : Slots T.cfg w.mem γ := by
  induction h with
  | init => exact hslots
  | @start w γ t _ ih => exact ih.calm { (ih.mine t).same with } ⟨rfl, rfl, rfl, rfl⟩
  | act before _ hexec hstep ih =>
      exact ih.step (trace_locked howner before) (fun i hi => hclear _ _ i hi) hexec hstep
  | stop _ _ ih => exact ih

/-- **The slots are in order along every trace.** -/
theorem trace_slots (hfresh : T.Fresh) (hclear : T.ClearsApart)
    (h : T.Trace w γ) : Slots T.cfg w.mem γ := by
  obtain ⟨data, hdata⟩ := hfresh
  refine trace_slots_from (Setting.Fresh.owner ⟨data, hdata⟩) ?_ hclear h
  rw [hdata]
  exact slots_fresh T.cfg data

end FastMem
