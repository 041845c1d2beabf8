import FastMem.Roles

/-!
# Roles and locks

The first layer of invariants: a lock's owner is the thread in whose role it is,
and a role is never in the middle of something without the lock for it.
-/

namespace FastMem

open Conc

variable {n : Nat} {W PK Op Out : Type}

/-- A role has the locks it needs. -/
structure RoleOk (cfg : ShareCfg n W PK) (g : Role n W) : Prop where
  rowed : g.phase.rowed = true → Lock.row g.slot ∈ g.locks
  mutexed : g.phase.mutexed = true → Lock.mutex ∈ g.locks
  extra : g.extra ≠ [] → g.phase = .fill ∨ g.phase = .rebuild
  flipped : g.flipped ≠ [] → g.phase = .flip
  flipped_nodup : g.flipped.Nodup
  flipping : g.phase = .flip → g.chunk ≠ none
  free : g.free ≠ .none → Lock.mutex ∈ g.locks
  chunk : g.chunk ≠ none → Lock.mutex ∈ g.locks
  walk : ∀ k b, g.walk.bucket = some (k, b) →
    Lock.bucket k b ∈ g.locks ∧ (g.phase = .fill ∨ g.phase = .del ∨ g.phase = .move)
  dup : ∀ k rec h words gone, g.dup = .at k rec h words gone →
    Lock.bucket k (cfg.keyBucket k rec) ∈ g.locks ∧ h ≠ nullSlot
  checked : ∀ p ∈ g.checked, Lock.bucket p.1 (cfg.keyBucket p.1 p.2) ∈ g.locks

/-- A thread begins with nothing that needs a lock. -/
theorem roleOk_init (cfg : ShareCfg n W PK) : RoleOk cfg (Role.init : Role n W) := by
  constructor <;> simp [Role.init, Phase.rowed, Phase.mutexed, Walk.bucket]

variable {cfg : ShareCfg n W PK} {K : Kind → Prop} {G : Commit n W → Prop} {now : Nat}
  {s : Share n W} {g g' : Role n W} {a : Act n W} {r : a.Res}

/-- A role that holds more locks. -/
theorem RoleOk.more (hok : RoleOk cfg g) (l : Lock) :
    RoleOk cfg { g with locks := l :: g.locks } where
  rowed := fun h => List.mem_cons_of_mem _ (hok.rowed h)
  mutexed := fun h => List.mem_cons_of_mem _ (hok.mutexed h)
  extra := hok.extra
  flipped := hok.flipped
  flipped_nodup := hok.flipped_nodup
  flipping := hok.flipping
  free := fun h => List.mem_cons_of_mem _ (hok.free h)
  chunk := fun h => List.mem_cons_of_mem _ (hok.chunk h)
  walk := fun k b h => ⟨List.mem_cons_of_mem _ (hok.walk k b h).1, (hok.walk k b h).2⟩
  dup :=
    fun k rec i words gone h => ⟨List.mem_cons_of_mem _ (hok.dup k rec i words gone h).1,
      (hok.dup k rec i words gone h).2⟩
  checked := fun p hp => List.mem_cons_of_mem _ (hok.checked p hp)

/-- A thread that has a row, or nothing, is in the middle of nothing else. -/
theorem RoleOk.settled (hok : RoleOk cfg g) (phase : g.phase = .idle ∨ g.phase = .row) :
    g.extra = [] ∧ g.flipped = [] ∧ g.walk.bucket = none := by
  refine ⟨?_, ?_, ?_⟩
  · by_contra hne
    rcases hok.extra hne with h | h <;> rcases phase with h' | h' <;> rw [h'] at h <;> cases h
  · by_contra hne
    have h := hok.flipped hne
    rcases phase with h' | h' <;> rw [h'] at h <;> cases h
  · cases hwalk : g.walk.bucket with
    | none => rfl
    | some kb =>
        rcases (hok.walk kb.1 kb.2 hwalk).2 with h | h | h <;> rcases phase with h' |
          h' <;> rw [h'] at h <;> cases h

/-- A thread forgets the row it has seen. -/
theorem RoleOk.forget (hok : RoleOk cfg g) (phase : g.phase = .row) :
    RoleOk cfg { g with phase := .idle } := by
  obtain ⟨hextra, hflipped, hwalk⟩ := hok.settled (Or.inr phase)
  exact { hok with
    rowed := fun h => (by cases h)
    mutexed := fun h => (by cases h)
    extra := fun h => absurd hextra h
    flipped := fun h => absurd hflipped h
    flipping := fun h => (by cases h)
    walk := fun k b h => (by rw [hwalk] at h; cases h) }

/-- A lock that is released was not needed for anything. -/
theorem RoleOk.fewer {l : Lock} (hok : RoleOk cfg g)
    (hrow : g.phase.rowed = true → Lock.row g.slot ≠ l)
    (hmutex : l = .mutex → g.phase.mutexed = false ∧ g.free = .none ∧ g.chunk = none)
    (hbucket : ∀ k b, l = .bucket k b → g.walk.bucket = none ∧ g.dup = .none ∧ g.checked = []) :
    RoleOk cfg { g with locks := g.locks.erase l } where
  rowed := fun h => (List.mem_erase_of_ne (hrow h)).mpr (hok.rowed h)
  mutexed := fun h => by
    refine (List.mem_erase_of_ne fun hl => ?_).mpr (hok.mutexed h)
    rw [(hmutex hl.symm).1] at h
    cases h
  extra := hok.extra
  flipped := hok.flipped
  flipped_nodup := hok.flipped_nodup
  flipping := hok.flipping
  free := fun h => (List.mem_erase_of_ne fun hl => h (hmutex hl.symm).2.1).mpr (hok.free h)
  chunk := fun h => (List.mem_erase_of_ne fun hl => h (hmutex hl.symm).2.2).mpr (hok.chunk h)
  walk := fun k b h => by
    refine ⟨(List.mem_erase_of_ne fun hl => ?_).mpr (hok.walk k b h).1, (hok.walk k b h).2⟩
    rw [(hbucket k b hl.symm).1] at h
    cases h
  dup := fun k rec i words gone h => by
    refine ⟨(List.mem_erase_of_ne fun hl => ?_).mpr (hok.dup k rec i words gone h).1,
      (hok.dup k rec i words gone h).2⟩
    rw [(hbucket _ _ hl.symm).2.1] at h
    cases h
  checked := fun p hp => by
    refine (List.mem_erase_of_ne fun hl => ?_).mpr (hok.checked p hp)
    rw [(hbucket _ _ hl.symm).2.2] at hp
    cases hp

/-- A lock operation keeps the locks of the role. -/
theorem RoleOk.lockStep (hok : RoleOk cfg g) (h : LockStep g a r g') : RoleOk cfg g' := by
  cases h with
  | lock l => exact hok.more l
  | lockAnew l phase => exact (hok.more l).forget phase
  | unlockMutex held extra out =>
      have hout : RoleOk cfg { g with free := .none, chunk := none } :=
        { hok with
          flipping := fun h => (by simp only at h; rw [h] at out; cases out)
          free := fun h => absurd rfl h
          chunk := fun h => absurd rfl h }
      exact hout.fewer (fun _ => nofun) (fun _ => ⟨out, rfl, rfl⟩) nofun
  | unlockBucket held walk =>
      have hout : RoleOk cfg { g with dup := .none, checked := [] } :=
        { hok with dup := nofun, checked := nofun }
      refine hout.fewer (fun _ => nofun) nofun fun k b _ => ⟨?_, rfl, rfl⟩
      simp only [walk, Walk.bucket]
  | unlockRow held quiet =>
      by_cases hphase : g.phase = .row
      · rw [if_pos hphase]
        exact (hok.forget hphase).fewer nofun nofun nofun
      · rw [if_neg hphase]
        refine hok.fewer (fun hrowed => ?_) nofun nofun
        grind

theorem RoleOk.viewStep (hok : RoleOk cfg g) (h : ViewStep g a r g') : RoleOk cfg g' := by
  cases h with
  | look => exact hok
  | gen => exact { hok with }
  | word => exact { hok with }
  | active held phase =>
      refine
        { hok with
          rowed := fun _ => held, mutexed := ?_, extra := ?_, flipped := ?_, flipping := ?_
          walk := ?_ }
      all_goals
        have := hok.extra
        have := hok.flipped
        have := hok.walk
        grind
  | freeHead held => exact { hok with free := fun _ => held }
  | freeNext held free => exact { hok with free := fun _ => held }
  | chunkCnt held phase => exact { hok with chunk := fun _ => held, flipping := fun h => by simp }

/-- A thread begins a new part of its work, with no walk in the middle. -/
theorem RoleOk.enter {p : Phase} (hok : RoleOk cfg g) (hwalk : g.walk.bucket = none)
    (hp : p = .idle ∨ p = .fill ∧ Lock.mutex ∈ g.locks ∨ p = .rebuild ∧ Lock.mutex ∈ g.locks ∨
      p = .published ∧ Lock.mutex ∈ g.locks ∨ p = .del ∨ p = .dead ∨ p = .aged ∨ p = .loose)
    (hextra : g.extra ≠ [] → p = .fill ∨ p = .rebuild) (hflipped : g.flipped = []) :
    RoleOk cfg { g with phase := p } :=
  { hok with
    rowed := fun h => (by simp only at h; grind)
    mutexed := fun h => (by simp only at h; grind)
    extra := hextra
    flipped := fun h => absurd hflipped h
    flipping := fun h => (by simp only at h; grind)
    walk := fun k b h => (by simp only at h; rw [hwalk] at h; cases h) }

/-- Only a clear has flipped slots. -/
theorem RoleOk.unflipped (hok : RoleOk cfg g) (hphase : g.phase ≠ .flip) : g.flipped = [] := by
  by_contra hne
  exact hphase (hok.flipped hne)

/-- Only a thread that grows the table or rebuilds the free list has further slots. -/
theorem RoleOk.unspent (hok : RoleOk cfg g) (hfill : g.phase ≠ .fill)
    (hrebuild : g.phase ≠ .rebuild) : g.extra = [] := by
  by_contra hne
  rcases hok.extra hne with h | h
  · exact hfill h
  · exact hrebuild h

/-- Only a thread that changes chains is in the middle of one. -/
theorem RoleOk.unwalking (hok : RoleOk cfg g) (hfill : g.phase ≠ .fill) (hdel : g.phase ≠ .del)
    (hmove : g.phase ≠ .move) : g.walk.bucket = none := by
  cases hwalk : g.walk.bucket with
  | none => rfl
  | some kb =>
      rcases (hok.walk kb.1 kb.2 hwalk).2 with h | h | h
      · exact absurd h hfill
      · exact absurd h hdel
      · exact absurd h hmove

/-- A step on the free list keeps the locks of the role. -/
theorem RoleOk.freeStep (hok : RoleOk cfg g) (h : FreeStep K g a r g') : RoleOk cfg g' := by
  cases h with
  | pop kind held free some_slot phase extra =>
      obtain ⟨-, hflipped, hwalk⟩ := hok.settled (Or.inl phase)
      have hfill :=
        hok.enter (p := .fill) hwalk (Or.inr (Or.inl ⟨rfl, held⟩))
          (fun h => absurd extra h) hflipped
      exact { hfill with rowed := nofun, free := fun h => absurd rfl h }
  | cell held free mine => exact { hok with free := fun _ => held }
  | push held free walk phase =>
      have hwalk : g.walk.bucket = none := by
        rw [walk]
        rfl
      have hextra : g.extra = [] := by
        rcases phase with ⟨-, -, extra⟩ | phase
        · exact extra
        · exact hok.unspent (by simp [phase]) (by simp [phase])
      have hflipped : g.flipped = [] :=
        hok.unflipped (by rcases phase with ⟨phase, -⟩ | phase <;> simp [phase])
      have hidle := hok.enter (p := .idle) hwalk (Or.inl rfl) (fun h => absurd hextra h) hflipped
      exact { hidle with free := fun h => absurd rfl h }
  | pushExtra held free mem =>
      exact { hok
        with extra := fun _ => hok.extra (List.ne_nil_of_mem mem), free := fun h => absurd rfl h }
  | reset kind held phase extra chunk all =>
      have hwalk := hok.unwalking (by simp [phase]) (by simp [phase]) (by simp [phase])
      exact { hok with
        rowed := nofun
        mutexed := fun _ => held
        extra := fun _ => Or.inr rfl
        flipped := fun h => absurd rfl h
        flipped_nodup := List.nodup_nil
        flipping := nofun
        free := fun h => absurd rfl h
        walk := fun k b h => (by simp only at h; rw [hwalk] at h; cases h) }

theorem RoleOk.growStep (hok : RoleOk cfg g) (h : GrowStep cfg K g a r g') : RoleOk cfg g' := by
  cases h with
  | initSlots => exact hok
  | initNext => exact hok
  | publish kind held chunk free phase extra cap limit =>
      obtain ⟨hrowed, hmutexed, hextra, hflipped, hnodup, hflipping, hfree, hchunk, hwalk, hdup,
        hchecked⟩ := hok
      constructor <;> grind

theorem RoleOk.slotStep (hok : RoleOk cfg g) (h : SlotStep cfg K G s g a r g') : RoleOk cfg g' := by
  have hnone : g.walk = .none → g.walk.bucket = none := by
    intro hwalk
    rw [hwalk]
    rfl
  cases h with
  | publish phase extra free walk words map commit =>
      have hmutex := hok.mutexed (by rw [phase]; rfl)
      exact hok.enter (hnone walk) (by simp [hmutex]) (fun h => absurd extra h)
        (hok.unflipped (by simp [phase]))
  | count phase =>
      have hextra := hok.unspent (by simp [phase]) (by simp [phase])
      exact hok.enter (hok.unwalking (by simp [phase]) (by simp [phase]) (by simp [phase]))
        (Or.inl rfl) (fun h => absurd hextra h) (hok.unflipped (by simp [phase]))
  | mark kind phase commit =>
      obtain ⟨hextra, hflipped, hwalk⟩ := hok.settled (Or.inr phase)
      have hdel := hok.enter (p := .del) hwalk (by simp) (fun h => absurd hextra h) hflipped
      exact { hdel with }
  | bury phase walk map =>
      have hextra := hok.unspent (by simp [phase]) (by simp [phase])
      exact hok.enter (hnone walk) (by simp) (fun h => absurd hextra h)
        (hok.unflipped (by simp [phase]))
  | age phase =>
      have hextra := hok.unspent (by simp [phase]) (by simp [phase])
      exact hok.enter (hok.unwalking (by simp [phase]) (by simp [phase]) (by simp [phase]))
        (by simp) (fun h => absurd hextra h) (hok.unflipped (by simp [phase]))
  | uncount phase =>
      have hextra := hok.unspent (by simp [phase]) (by simp [phase])
      exact hok.enter (hok.unwalking (by simp [phase]) (by simp [phase]) (by simp [phase]))
        (by simp) (fun h => absurd hextra h) (hok.unflipped (by simp [phase]))
  | begin kind held phase extra =>
      obtain ⟨-, -, hwalk⟩ := hok.settled (Or.inl phase)
      exact { hok with
        rowed := nofun
        mutexed := fun _ => held
        extra := fun h => absurd extra h
        flipped := fun _ => rfl
        flipped_nodup := List.nodup_nil
        flipping := fun _ => nofun
        chunk := fun _ => held
        walk := fun k b h => (by simp only at h; rw [hwalk] at h; cases h) }
  | flip kind phase held commit new grown =>
      exact
        { hok with
          flipped := fun _ => phase
          flipped_nodup := List.nodup_cons.mpr ⟨new, hok.flipped_nodup⟩ }
  | flipGen phase held done => exact hok
  | zero phase extra =>
      exact hok.enter (hok.unwalking (by simp [phase]) (by simp [phase]) (by simp [phase]))
        (Or.inl rfl) (fun h => absurd extra h) (hok.unflipped (by simp [phase]))

/-- A thread that keeps the wlock of its row goes on with it. -/
theorem RoleOk.keepRow {p : Phase} (hok : RoleOk cfg g) (hrowed : g.phase.rowed = true)
    (hp : p = .row ∨ p = .write ∨ p = .move) (hwalk : g.walk.bucket = none) :
    RoleOk cfg { g with phase := p } := by
  have hextra := hok.unspent (fun h => by rw [h] at hrowed; cases hrowed) fun h => by
    rw [h] at hrowed; cases hrowed
  have hflipped := hok.unflipped fun h => by rw [h] at hrowed; cases hrowed
  exact { hok with
    rowed := fun _ => hok.rowed hrowed
    mutexed := fun h => (by rcases hp with rfl | rfl | rfl <;> cases h)
    extra := fun h => absurd hextra h
    flipped := fun h => absurd hflipped h
    flipping := fun h => (by rcases hp with rfl | rfl | rfl <;> cases h)
    walk := fun k b h => (by simp only at h; rw [hwalk] at h; cases h) }

/-- An image write keeps the locks of the role. -/
theorem RoleOk.imageStep (hok : RoleOk cfg g) (h : ImageStep cfg K G g a r g') : RoleOk cfg g' := by
  cases h with
  | fill phase map => exact { hok with }
  | begin kind phase commit checked locked =>
      have hwrite :=
        hok.keepRow (p := .write) (by rw [phase]; rfl) (by simp) (hok.settled (Or.inr phase)).2.2
      exact { hwrite with }
  | word phase target => exact { hok with }
  | finish phase target words commit after =>
      refine hok.keepRow (by rw [phase]; rfl) ?_
        (hok.unwalking (by simp [phase]) (by simp [phase]) (by simp [phase]))
      rcases after with rfl | ⟨rfl, -⟩
      · exact Or.inr (Or.inr rfl)
      · exact Or.inl rfl

/-- A walk goes on under the lock of its bucket. -/
theorem RoleOk.walkTo (hok : RoleOk cfg g) {k b : Nat} (held : Lock.bucket k b ∈ g.locks)
    (phase : g.phase = .fill ∨ g.phase = .del ∨ g.phase = .move) (link : Link) (i : Int) :
    RoleOk cfg (g.walkTo k b link i) := by
  have hat : ∀ v : Walk, v.bucket = some (k, b) → RoleOk cfg { g with walk := v } := by
    intro v hv
    refine { hok with walk := fun k' b' h => ?_ }
    simp only [hv, Option.some.injEq, Prod.mk.injEq] at h
    obtain ⟨rfl, rfl⟩ := h
    exact ⟨held, phase⟩
  unfold Role.walkTo
  split
  · exact { hok with walk := nofun }
  · split
    · exact hat _ rfl
    · exact hat _ rfl

/-- A change of a chain keeps the locks of the role. -/
theorem RoleOk.chainStep (hok : RoleOk cfg g) (h : ChainStep cfg K g a r g') : RoleOk cfg g' := by
  have hwalk : ∀ {k b}, g.walk.bucket = some (k, b) →
      Lock.bucket k b ∈ g.locks ∧ (g.phase = .fill ∨ g.phase = .del ∨ g.phase = .move) :=
        fun h => hok.walk _ _ h
  cases h with
  | enter held walk phase map => exact hok.walkTo held phase _ _
  | next walk =>
      obtain ⟨held, phase⟩ := hwalk (by rw [walk]; rfl)
      exact hok.walkTo held phase _ _
  | after walk =>
      obtain ⟨held, phase⟩ := hwalk (by rw [walk]; rfl)
      refine { hok with walk := fun k b h => ?_ }
      cases h
      exact ⟨held, phase⟩
  | cutHead walk => exact { hok with walk := nofun }
  | cutNext walk => exact { hok with walk := nofun }
  | front held walk phase key map =>
      refine { hok with walk := fun k b h => ?_ }
      cases h
      exact ⟨held, phase.imp_right Or.inr⟩
  | point walk =>
      obtain ⟨held, phase⟩ := hwalk (by rw [walk]; rfl)
      refine { hok with walk := fun k b h => ?_ }
      cases h
      exact ⟨held, phase⟩
  | join walk after fresh =>
      have hnone : RoleOk cfg { g with walk := .none } := { hok with walk := nofun }
      rcases after with rfl | ⟨phase, rfl, -⟩
      · exact { hnone with }
      · have hrow := hnone.keepRow (p := .row) (by simp only [phase]; rfl) (Or.inl rfl) rfl
        exact { hrow with }
  | reset kind mutex held phase => exact hok
  | looseHead kind => exact hok
  | looseNext kind => exact hok

/-- A duplicate check goes on under the lock of its bucket. -/
theorem RoleOk.checkTo (hok : RoleOk cfg g) {k : Nat} {rec : Image n W}
    (held : Lock.bucket k (cfg.keyBucket k rec) ∈ g.locks)
    (i : Int) : RoleOk cfg (g.checkTo k rec i) := by
  unfold Role.checkTo
  split
  · exact { hok with dup := nofun, checked := List.forall_mem_cons.mpr ⟨held, hok.checked⟩ }
  · rename_i hi
    refine { hok with dup := fun k' rec' i' words gone h => ?_ }
    cases h
    exact ⟨held, hi⟩

/-- A step of a duplicate check keeps the locks of the role. -/
theorem RoleOk.dupStep (hok : RoleOk cfg g) (h : DupStep cfg g a r g') : RoleOk cfg g' := by
  cases h with
  | enter held => exact hok.checkTo held _
  | state dup unread =>
      have hat := hok.dup _ _ _ _ _ dup
      refine { hok with dup := fun k' rec' i' words gone h => ?_ }
      cases h
      exact hat
  | word dup =>
      have hat := hok.dup _ _ _ _ _ dup
      refine { hok with dup := fun k' rec' i' words gone h => ?_ }
      cases h
      exact hat
  | next dup passed => exact hok.checkTo (hok.dup _ _ _ _ _ dup).1 _

theorem RoleOk.readStep (hok : RoleOk cfg g) (h : ReadStep G now s g a r g') : RoleOk cfg g' := by
  cases h <;> exact { hok with }

theorem RoleOk.noteStep (hok : RoleOk cfg g) (h : NoteStep G s g a r g') : RoleOk cfg g' := by
  cases h with
  | see => exact { hok with }
  | pin held phase unread commit =>
      have hview := hok.viewStep (.active held phase unread)
      exact { hview with }

/-- Every step leaves a role with the locks it needs. -/
theorem RoleOk.step (hok : RoleOk cfg g) (h : Step cfg K G now s g a r g') : RoleOk cfg g' := by
  cases h with
  | lock h => exact hok.lockStep h
  | view h => exact hok.viewStep h
  | free h => exact hok.freeStep h
  | grow h => exact hok.growStep h
  | slot h => exact hok.slotStep h
  | image h => exact hok.imageStep h
  | chain h => exact hok.chainStep h
  | dup h => exact hok.dupStep h
  | read h => exact hok.readStep h
  | note h => exact hok.noteStep h

/-- A load is no lock operation. -/
theorem Act.quiet_of_passive (h : a.passive = true) : a.quiet = true := by
  cases a <;> simp_all [Act.passive, Act.quiet]

/-- Only lock steps take or release locks. -/
theorem Step.locks_eq (h : Step cfg K G now s g a r g') :
    LockStep g a r g' ∨ a.quiet = true ∧ g'.locks = g.locks := by
  cases h with
  | lock h => exact Or.inl h
  | view h =>
      right
      cases h with
      | look passive unread => exact ⟨Act.quiet_of_passive passive, rfl⟩
      | _ => exact ⟨rfl, rfl⟩
  | free h => right; cases h <;> exact ⟨rfl, rfl⟩
  | grow h => right; cases h <;> exact ⟨rfl, rfl⟩
  | slot h => right; cases h <;> exact ⟨rfl, rfl⟩
  | image h => right; cases h <;> exact ⟨rfl, rfl⟩
  | chain h => right; cases h <;> refine ⟨rfl, ?_⟩ <;> grind
  | dup h => right; cases h <;> refine ⟨rfl, ?_⟩ <;> grind
  | read h =>
      right
      cases h with
      | miss passive => exact ⟨Act.quiet_of_passive passive, rfl⟩
      | _ => exact ⟨rfl, rfl⟩
  | note h => right; cases h <;> exact ⟨rfl, rfl⟩

/-- A lock's owner is the thread in whose role it is, and every role has the locks
it needs. -/
structure Locked (cfg : ShareCfg n W PK) (s : Share n W) (γ : Nat → Role n W) : Prop where
  owner : ∀ l t, s.owner l = some t ↔ l ∈ (γ t).locks
  nodup : ∀ t, (γ t).locks.Nodup
  ok : ∀ t, RoleOk cfg (γ t)

/-- No two threads hold one lock. -/
theorem Locked.eq {γ : Nat → Role n W} (h : Locked cfg s γ) {l : Lock} {t u : Nat}
    (ht : l ∈ (γ t).locks) (hu : l ∈ (γ u).locks) : t = u := by
  have h1 := (h.owner l t).mpr ht
  have h2 := (h.owner l u).mpr hu
  rw [h1] at h2
  exact Option.some.inj h2

/-- Taking or releasing a lock. -/
theorem Locked.lockStep {γ : Nat → Role n W} {t : Nat} {s' : Share n W} (h : Locked cfg s γ)
    (hexec : exec cfg t a s = some (r, s')) (hstep : LockStep (γ t) a r g') :
    Locked cfg s' (Function.update γ t g') := by
  have hok' := (h.ok t).lockStep hstep
  have hok : ∀ u, RoleOk cfg (Function.update γ t g' u) := by
    intro u
    by_cases hu : u = t
    · subst hu; simpa using hok'
    · simpa [hu] using h.ok u
  -- a release takes the lock off the list of its owner
  have hrelease : ∀ l, l ∈ (γ t).locks → a = .unlock l → g'.locks = (γ t).locks.erase l →
      Locked cfg s' (Function.update γ t g') := by
    rintro l hl rfl hlocks
    cases hexec
    refine ⟨fun l' u => ?_, fun u => ?_, hok⟩
    · rw [owner_setOwner]
      by_cases hu : u = t
      · subst hu
        rw [Function.update_self, hlocks, (h.nodup u).mem_erase_iff]
        by_cases hl' : l' = l
        · simp [hl']
        · simp [hl', h.owner]
      · rw [Function.update_of_ne hu]
        by_cases hl' : l' = l
        · subst hl'
          simp only [if_true, reduceCtorEq, false_iff]
          exact fun hmem => hu (h.eq hmem hl)
        · simp [hl', h.owner]
    · by_cases hu : u = t
      · subst hu
        rw [Function.update_self, hlocks]
        exact (h.nodup u).erase l
      · rw [Function.update_of_ne hu]
        exact h.nodup u
  -- a lock that is taken was free, and goes on the list of its owner
  have hacquire : ∀ l, a = .lock l → g'.locks = l :: (γ t).locks →
      Locked cfg s' (Function.update γ t g') := by
    rintro l rfl hlocks
    simp only [exec] at hexec
    split at hexec
    · rename_i hfree
      cases hexec
      have hnot : ∀ u, l ∉ (γ u).locks := by
        intro u hmem
        rw [(h.owner l u).mpr hmem] at hfree
        cases hfree
      refine ⟨fun l' u => ?_, fun u => ?_, hok⟩
      · rw [owner_setOwner]
        by_cases hu : u = t
        · subst hu
          rw [Function.update_self, hlocks]
          by_cases hl' : l' = l
          · simp [hl']
          · simp [hl', h.owner]
        · rw [Function.update_of_ne hu]
          by_cases hl' : l' = l
          · subst hl'
            simp only [if_true, Option.some.injEq, hnot u, iff_false]
            exact fun heq => hu heq.symm
          · simp [hl', h.owner]
      · by_cases hu : u = t
        · subst hu
          rw [Function.update_self, hlocks]
          exact List.nodup_cons.mpr ⟨hnot u, h.nodup u⟩
        · rw [Function.update_of_ne hu]
          exact h.nodup u
    · cases hexec
  cases hstep with
  | lock l => exact hacquire l rfl rfl
  | lockAnew l phase => exact hacquire l rfl rfl
  | unlockMutex held extra out => exact hrelease _ held rfl rfl
  | unlockBucket held walk => exact hrelease _ held rfl rfl
  | unlockRow held quiet => exact hrelease _ held rfl rfl

/-- **Every step keeps the locks of the roles.**. -/
theorem Locked.step {γ : Nat → Role n W} {t : Nat} {s' : Share n W} (h : Locked cfg s γ)
    (hexec : exec cfg t a s = some (r, s')) (hstep : Step cfg K G now s (γ t) a r g') :
    Locked cfg s' (Function.update γ t g') := by
  rcases hstep.locks_eq with hlock | ⟨hquiet, hlocks⟩
  · exact h.lockStep hexec hlock
  · have howner := exec_owner hquiet hexec
    have hsame : ∀ u, (Function.update γ t g' u).locks = (γ u).locks := by
      intro u
      by_cases hu : u = t
      · subst hu; simpa using hlocks
      · simp [hu]
    refine ⟨fun l u => ?_, fun u => ?_, fun u => ?_⟩
    · rw [howner, hsame]
      exact h.owner l u
    · rw [hsame]
      exact h.nodup u
    · by_cases hu : u = t
      · subst hu; simpa using (h.ok u).step hstep
      · simpa [hu] using h.ok u

variable {T : Setting n W PK Op Out} {w : World (coreSig n W PK) (Share n W) Op Out}
  {γ : Nat → Role n W}

/-- **Roles and locks agree along every trace** that starts with every lock free. -/
theorem trace_locked (hfree : ∀ l, T.share.owner l = none) (h : T.Trace w γ) :
    Locked T.cfg w.mem γ := by
  induction h with
  | init =>
      refine ⟨fun l t => ?_, fun t => List.nodup_nil, fun t => roleOk_init T.cfg⟩
      rw [hfree l]
      simp [Role.init]
  | @start w γ t _ ih =>
      have hsame : ∀ u, (Function.update γ t (T.rules.start w.now (γ t)) u).locks =
          (γ u).locks := by
        intro u
        by_cases hu : u = t
        · subst hu; simp [Setting.rules]
        · simp [hu]
      refine ⟨fun l u => ?_, fun u => ?_, fun u => ?_⟩
      · rw [hsame]
        exact ih.owner l u
      · rw [hsame]
        exact ih.nodup u
      · by_cases hu : u = t
        · subst hu
          rw [Function.update_self]
          exact { ih.ok u with }
        · simpa [hu] using ih.ok u
  | act _ _ hexec hstep ih => exact ih.step hexec hstep
  | stop _ _ ih => exact ih

end FastMem
