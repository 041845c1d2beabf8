import FastMem.SlotLife

/-!
# What a thread knows of its row

The third layer of invariants: the words and the generation a thread has seen of a
slot it has to itself are still there, and the sequence number of a slot is odd
exactly while a thread is rewriting its image.
-/

namespace FastMem

open Conc

variable {n : Nat} {W PK Op Out : Type} {cfg : ShareCfg n W PK} {K : Kind → Prop}
  {G : Commit n W → Prop} {now t : Nat} {s s' : Share n W} {g g' : Role n W}
  {a : Act n W} {r : a.Res} {γ : Nat → Role n W}

/-- The phases in which nobody else may write the slot's image. -/
@[grind =] def Phase.knowing (p : Phase) : Bool :=
  p = .row || p = .write || p = .move || p = .fill || p = .del

/-- What a thread has seen of its slot is still so. -/
structure Seen (s : Share n W) (g : Role n W) : Prop where
  words : g.phase.knowing = true → ∀ j x, g.words j = some x → s.data g.slot j = x
  gen : g.phase.rowed = true → ∀ v, g.gen = some v → s.gen g.slot = v

/-- A thread that knows every word of its slot knows the image. -/
theorem Seen.image {img : Image n W} (h : Seen s g) (hphase : g.phase.knowing = true)
    (hwords : g.words = allWords img) : s.data g.slot = img := by
  funext j
  exact h.words hphase j (img j) (by rw [hwords]; rfl)

/-- What threads have seen is still so, and sequence numbers are odd exactly while
an image is being written. -/
structure Images (s : Share n W) (γ : Nat → Role n W) : Prop where
  seen : ∀ t, Seen s (γ t)
  odd : ∀ i, s.seq i % 2 = 1 ↔ ∃ t, (γ t).phase = .write ∧ (γ t).slot = i
  bound : ∀ i, s.seq i < 2 ^ 32

/-- Two threads never know one slot. -/
theorem Slots.alone (h : Slots cfg s γ) (hl : Locked cfg s γ) {u : Nat} (hu : u ≠ t)
    (ht : (γ t).phase.knowing = true) (hk : (γ u).phase.knowing = true) :
    (γ u).slot ≠ (γ t).slot := by
  intro heq
  have howner : ∀ v, (γ v).phase.knowing = true → (γ v).phase.rowed = true ∨
      (γ v).Owns (γ v).slot := by
    intro v hv
    have : (γ v).phase.rowed = true ∨ (γ v).phase.owning = true := by grind
    exact this.imp_right fun hp => Or.inl ⟨hp, rfl⟩
  rcases howner t ht with htr | hto
  · rcases howner u hk with hur | huo
    · have hlock := (hl.ok u).rowed hur
      rw [heq] at hlock
      exact hu (hl.eq hlock ((hl.ok t).rowed htr))
    · rw [heq] at huo
      exact (h.mine u).not_active huo ((h.mine t).active htr)
  · rcases howner u hk with hur | huo
    · exact ((h.others_of_owns hto) u hu).1 hur heq
    · rw [heq] at huo
      exact hu (h.unique u t _ huo hto)

/-- A change of role that claims nothing new about the slot. -/
structure Dull (s : Share n W) (g g' : Role n W) : Prop where
  seen : Seen s g'
  write : g'.phase = .write ↔ g.phase = .write
  slot : g.phase = .write → g'.slot = g.slot

/-- What the threads know of their rows is so after a step that is not about images. -/
theorem Images.dull (h : Images s γ) (hd : Dull s (γ t) g') (hdata : s'.data = s.data)
    (hgen : s'.gen = s.gen) (hseq : s'.seq = s.seq) : Images s' (Function.update γ t g') := by
  have hseen : ∀ {g : Role n W}, Seen s g → Seen s' g := by
    intro g hs
    exact ⟨by rw [hdata]; exact hs.words, by rw [hgen]; exact hs.gen⟩
  constructor
  case seen =>
    rw [Function.forall_update_iff γ fun _ g => Seen s' g]
    exact ⟨hseen hd.seen, fun u _ => hseen (h.seen u)⟩
  case odd =>
    intro i
    rw [hseq, h.odd i]
    constructor
    · rintro ⟨u, hp, hs⟩
      refine ⟨u, ?_⟩
      by_cases hu : u = t
      · subst hu
        rw [Function.update_self]
        exact ⟨hd.write.mpr hp, (hd.slot hp).trans hs⟩
      · rw [Function.update_of_ne hu]
        exact ⟨hp, hs⟩
    · rintro ⟨u, hp, hs⟩
      refine ⟨u, ?_⟩
      by_cases hu : u = t
      · subst hu
        rw [Function.update_self] at hp hs
        have hp' := hd.write.mp hp
        exact ⟨hp', (hd.slot hp').symm.trans hs⟩
      · rw [Function.update_of_ne hu] at hp hs
        exact ⟨hp, hs⟩
  case bound => rw [hseq]; exact h.bound

/-- No change of role at all. -/
theorem Seen.dull (hs : Seen s g) : Dull s g g := ⟨hs, Iff.rfl, fun _ => rfl⟩

/-- A lock operation is not about images. -/
theorem dull_lockStep (hs : Seen s g) (h : LockStep g a r g') : Dull s g g' := by
  have hwords := hs.words
  have hgen := hs.gen
  cases h with
  | lockAnew l phase =>
      refine ⟨⟨?_, ?_⟩, ?_, ?_⟩
      all_goals grind
  | unlockRow held quiet =>
      refine ⟨⟨?_, ?_⟩, ?_, ?_⟩
      all_goals grind
  | _ => exact ⟨⟨hwords, hgen⟩, Iff.rfl, fun _ => rfl⟩

/-- Looking at a row only adds to what the thread knows. -/
theorem dull_viewStep (hs : Seen s g) (hexec : exec cfg t a s = some (r, s'))
    (h : ViewStep g a r g') : Dull s g g' := by
  cases h with
  | active held phase unread =>
      refine ⟨⟨by simp, by simp⟩, ?_, ?_⟩
      all_goals grind
  | gen phase =>
      simp only [exec, Option.some.injEq, Prod.mk.injEq] at hexec
      refine ⟨⟨hs.words, fun _ v hv => ?_⟩, Iff.rfl, fun _ => rfl⟩
      cases hv
      exact hexec.1
  | @word j x phase =>
      simp only [exec, Option.some.injEq, Prod.mk.injEq] at hexec
      refine ⟨⟨fun hp k y hy => ?_, hs.gen⟩, Iff.rfl, fun _ => rfl⟩
      by_cases hk : k = j
      · subst hk
        simp only [Function.update_self, Option.some.injEq] at hy
        exact hexec.1.trans hy
      · simp only [Function.update_of_ne hk] at hy
        exact hs.words hp k y hy
  | _ => exact ⟨⟨hs.words, hs.gen⟩, Iff.rfl, fun _ => rfl⟩

/-- A step on the free list is not about images. -/
theorem dull_freeStep (hs : Seen s g) (h : FreeStep K g a r g') : Dull s g g' := by
  have hwords := hs.words
  have hgen := hs.gen
  cases h with
  | cell => exact ⟨⟨hwords, hgen⟩, Iff.rfl, fun _ => rfl⟩
  | pushExtra => exact ⟨⟨hwords, hgen⟩, Iff.rfl, fun _ => rfl⟩
  | _ =>
      refine ⟨⟨?_, ?_⟩, ?_, ?_⟩
      all_goals grind

theorem dull_chainStep (hs : Seen s g) (h : ChainStep cfg K g a r g') : Dull s g g' := by
  have hwords := hs.words
  have hgen := hs.gen
  cases h with
  | join => refine ⟨⟨?_, ?_⟩, ?_, ?_⟩ <;> grind
  | enter => refine ⟨⟨?_, ?_⟩, ?_, ?_⟩ <;> grind
  | next => refine ⟨⟨?_, ?_⟩, ?_, ?_⟩ <;> grind
  | _ => exact ⟨⟨hwords, hgen⟩, Iff.rfl, fun _ => rfl⟩

theorem dull_dupStep (hs : Seen s g) (h : DupStep cfg g a r g') : Dull s g g' := by
  have hwords := hs.words
  have hgen := hs.gen
  cases h with
  | enter => refine ⟨⟨?_, ?_⟩, ?_, ?_⟩ <;> grind
  | next => refine ⟨⟨?_, ?_⟩, ?_, ?_⟩ <;> grind
  | _ => exact ⟨⟨hwords, hgen⟩, Iff.rfl, fun _ => rfl⟩

theorem dull_readStep (hs : Seen s g) (h : ReadStep G now s g a r g') : Dull s g g' := by
  cases h <;> exact ⟨⟨hs.words, hs.gen⟩, Iff.rfl, fun _ => rfl⟩

theorem dull_noteStep (hs : Seen s g) (h : NoteStep G s g a r g') : Dull s g g' := by
  cases h with
  | see => exact ⟨⟨hs.words, hs.gen⟩, Iff.rfl, fun _ => rfl⟩
  | pin held phase unread commit =>
      refine ⟨⟨fun _ j x hx => ?_, fun _ v hv => ?_⟩, ?_, ?_⟩
      · simpa [allWords] using hx
      · simpa using hv
      all_goals grind

/-- A thread that has a slot to itself writes a word of it. -/
theorem Images.writeWord (h : Images s γ) (j : Fin n) (x : W)
    (halone : ∀ u, u ≠ t → (γ u).phase.knowing = true → (γ u).slot ≠ (γ t).slot) :
    Images
      { s with data := Function.update s.data (γ t).slot (Function.update (s.data (γ t).slot) j x) }
      (Function.update γ t { γ t with words := Function.update (γ t).words j (some x) }) := by
  constructor
  case seen =>
    intro u
    by_cases hu : u = t
    · subst hu
      rw [Function.update_self]
      refine ⟨fun hp k y hy => ?_, (h.seen u).gen⟩
      show Function.update s.data (γ u).slot _ (γ u).slot k = y
      rw [Function.update_self]
      by_cases hkj : k = j
      · subst hkj
        simp only [Function.update_self, Option.some.injEq] at hy ⊢
        exact hy
      · simp only [Function.update_of_ne hkj] at hy ⊢
        exact (h.seen u).words hp k y hy
    · rw [Function.update_of_ne hu]
      refine ⟨fun hp k y hy => ?_, (h.seen u).gen⟩
      show Function.update s.data (γ t).slot _ (γ u).slot k = y
      rw [Function.update_of_ne (halone u hu hp)]
      exact (h.seen u).words hp k y hy
  case odd =>
    intro i
    rw [show (s.seq i % 2 = 1 ↔ _) from h.odd i]
    have hsame : ∀ u,
        (Function.update γ t { γ t with words := Function.update (γ t).words j (some x) } u).phase =
        (γ u).phase ∧
        (Function.update γ t { γ t with words := Function.update (γ t).words j (some x) } u).slot =
        (γ u).slot := by
      intro u
      by_cases hu : u = t
      · subst hu; simp
      · simp [hu]
    simp only [hsame]
  case bound => exact h.bound

/-- A thread that holds the wlock of its row bumps the sequence number on its way
into or out of `fm_core_write_image`. -/
theorem Images.bumpSeq (h : Images s γ) (hl : Locked cfg s γ) (hrowed : (γ t).phase.rowed = true)
    (hslot : g'.slot = (γ t).slot) (hflip : g'.phase = .write ↔ (γ t).phase ≠ .write)
    (hseen : Seen s g') :
    Images { s with seq := Function.update s.seq (γ t).slot ((s.seq (γ t).slot + 1) % 2 ^ 32) }
      (Function.update γ t g') := by
  -- nobody else writes the image
  have hother : ∀ u, u ≠ t → (γ u).phase = .write → (γ u).slot ≠ (γ t).slot := by
    intro u hu hp heq
    have hlock := (hl.ok u).rowed (by grind)
    rw [heq] at hlock
    exact hu (hl.eq hlock ((hl.ok t).rowed hrowed))
  have hparity : s.seq (γ t).slot % 2 = 1 ↔ (γ t).phase = .write := by
    rw [h.odd]
    constructor
    · rintro ⟨u, hp, hs⟩
      by_cases hu : u = t
      · rw [← hu]
        exact hp
      · exact absurd hs (hother u hu hp)
    · exact fun hp => ⟨t, hp, rfl⟩
  constructor
  case seen =>
    rw [Function.forall_update_iff γ fun _ g => Seen { s with
      seq := Function.update s.seq (γ t).slot ((s.seq (γ t).slot + 1) % 2 ^ 32) } g]
    exact ⟨⟨hseen.words, hseen.gen⟩, fun u _ => ⟨(h.seen u).words, (h.seen u).gen⟩⟩
  case odd =>
    intro i
    show Function.update s.seq (γ t).slot ((s.seq (γ t).slot + 1) % 2 ^ 32) i % 2 = 1 ↔ _
    by_cases hi : i = (γ t).slot
    · subst hi
      rw [Function.update_self]
      have hnew : (s.seq (γ t).slot + 1) % 2 ^ 32 % 2 = 1 ↔ g'.phase = .write := by
        rw [hflip, Ne, ← hparity]
        omega
      rw [hnew]
      constructor
      · intro hp
        refine ⟨t, ?_⟩
        rw [Function.update_self]
        exact ⟨hp, hslot⟩
      · rintro ⟨u, hp, hs⟩
        by_cases hu : u = t
        · subst hu
          rw [Function.update_self] at hp
          exact hp
        · rw [Function.update_of_ne hu] at hp hs
          exact absurd hs (hother u hu hp)
    · rw [Function.update_of_ne hi, h.odd i]
      constructor
      · rintro ⟨u, hp, hs⟩
        have hu : u ≠ t := by
          rintro rfl
          exact hi hs.symm
        exact ⟨u, by rw [Function.update_of_ne hu]; exact ⟨hp, hs⟩⟩
      · rintro ⟨u, hp, hs⟩
        by_cases hu : u = t
        · subst hu
          rw [Function.update_self, hslot] at hs
          exact absurd hs.symm hi
        · rw [Function.update_of_ne hu] at hp hs
          exact ⟨u, hp, hs⟩
  case bound =>
    intro i
    show Function.update s.seq (γ t).slot ((s.seq (γ t).slot + 1) % 2 ^ 32) i < 2 ^ 32
    by_cases hi : i = (γ t).slot
    · subst hi
      rw [Function.update_self]
      exact Nat.mod_lt _ (by decide)
    · rw [Function.update_of_ne hi]
      exact h.bound i

/-- Every image write keeps what the threads know. -/
theorem Images.imageStep (h : Images s γ) (hl : Locked cfg s γ)
    (halone : (γ t).phase.knowing = true → ∀ u, u ≠ t → (γ u).phase.knowing = true →
      (γ u).slot ≠ (γ t).slot)
    (hexec : exec cfg t a s = some (r, s')) (hstep : ImageStep cfg K G (γ t) a r g') :
    Images s' (Function.update γ t g') := by
  cases hstep with
  | fill phase map =>
      cases hexec
      exact h.writeWord _ _ (halone (by grind))
  | word phase target =>
      cases hexec
      exact h.writeWord _ _ (halone (by grind))
  | begin kind phase commit checked locked =>
      cases hexec
      refine h.bumpSeq hl (by grind) rfl (by simp [phase]) ⟨by simp, fun _ => ?_⟩
      exact (h.seen t).gen (by grind)
  | finish phase target words commit after =>
      cases hexec
      have hwords := (h.seen t).words (by grind)
      have hgen := (h.seen t).gen (by grind)
      refine h.bumpSeq hl (by grind) rfl ?_ ⟨fun _ => hwords, fun _ => hgen⟩
      grind

/-- The generation of a slot is bumped that no thread has seen ACTIVE under its
wlock. -/
theorem Images.bumpGen (h : Images s γ) {i : Int} {v : Nat}
    (hnot : ∀ u, (γ u).phase.rowed = true → (γ u).slot ≠ i) (hd : Dull s (γ t) g')
    (hrowed : g'.phase.rowed = false ∨ g' = γ t) :
    Images { s with gen := Function.update s.gen i v } (Function.update γ t g') := by
  have hsame : Images s (Function.update γ t g') := h.dull hd rfl rfl rfl
  refine ⟨fun u => ⟨(hsame.seen u).words, fun hp x hx => ?_⟩, hsame.odd, hsame.bound⟩
  show Function.update s.gen i v (Function.update γ t g' u).slot = x
  have hne : (Function.update γ t g' u).slot ≠ i := by
    by_cases hu : u = t
    · subst hu
      rw [Function.update_self] at hp ⊢
      rcases hrowed with hf | rfl
      · rw [hf] at hp
        cases hp
      · exact hnot u hp
    · rw [Function.update_of_ne hu] at hp ⊢
      exact hnot u hp
  rw [Function.update_of_ne hne]
  exact (hsame.seen u).gen hp x hx

/-- Every step on the state of a slot keeps what the threads know. -/
theorem Images.slotStep (h : Images s γ) (hsl : Slots cfg s γ) (hl : Locked cfg s γ)
    (hexec : exec cfg t a s = some (r, s')) (hstep : SlotStep cfg K G s (γ t) a r g') :
    Images s' (Function.update γ t g') := by
  have hwords := (h.seen t).words
  have hgen := (h.seen t).gen
  cases hstep with
  | mark kind phase commit =>
      cases hexec
      refine h.dull ⟨⟨fun _ j x hx => ?_, by simp [Phase.rowed]⟩, by simp [phase], by simp [phase]⟩
        rfl rfl rfl
      simpa [allWords] using hx
  | age phase =>
      cases hexec
      have hown : (γ t).Owns (γ t).slot := Or.inl ⟨by grind, rfl⟩
      refine h.bumpGen (fun u hp heq => ?_) ⟨⟨?_, ?_⟩, ?_, ?_⟩ (Or.inl rfl)
      · have hactive := (hsl.mine u).active hp
        rw [heq] at hactive
        exact (hsl.mine t).not_active hown hactive
      all_goals grind
  | flipGen phase held done =>
      cases hexec
      refine h.bumpGen (fun u hp heq => ?_) (h.seen t).dull (Or.inr rfl)
      have hlock := (hl.ok u).rowed hp
      rw [heq] at hlock
      have hu := hl.eq hlock held
      subst hu
      grind
  | publish => cases hexec; refine h.dull ⟨⟨?_, ?_⟩, ?_, ?_⟩ rfl rfl rfl <;> grind
  | count => cases hexec; refine h.dull ⟨⟨?_, ?_⟩, ?_, ?_⟩ rfl rfl rfl <;> grind
  | bury => cases hexec; refine h.dull ⟨⟨?_, ?_⟩, ?_, ?_⟩ rfl rfl rfl <;> grind
  | uncount => cases hexec; refine h.dull ⟨⟨?_, ?_⟩, ?_, ?_⟩ rfl rfl rfl <;> grind
  | begin => cases hexec; refine h.dull ⟨⟨?_, ?_⟩, ?_, ?_⟩ rfl rfl rfl <;> grind
  | flip => cases hexec; exact h.dull ⟨⟨hwords, hgen⟩, Iff.rfl, fun _ => rfl⟩ rfl rfl rfl
  | zero => cases hexec; refine h.dull ⟨⟨?_, ?_⟩, ?_, ?_⟩ rfl rfl rfl <;> grind

theorem Images.growStep (h : Images s γ) (hsl : Slots cfg s γ)
    (hexec : exec cfg t a s = some (r, s')) (hstep : GrowStep cfg K (γ t) a r g') :
    Images s' (Function.update γ t g') := by
  cases hstep with
  | @initSlots c kind held chunk free =>
      cases hexec
      have hc : s.chunkCnt = c := (hsl.mine t).chunk c chunk
      -- a row that is being used is not in the chunk being built
      have hold : ∀ u, (γ u).phase.rowed = true → ¬ u32 (γ u).slot / chunkSize = c := by
        intro u hp heq
        have hactive := (hsl.mine u).active hp
        rw [hsl.ungrown _ (not_grown_of_chunk hsl.chunks (heq.trans hc.symm))] at hactive
        cases hactive
      rw [Function.update_eq_self]
      refine ⟨fun u => ⟨(h.seen u).words, fun hp v hv => ?_⟩, fun i => ?_, fun i => ?_⟩
      · show (if u32 (γ u).slot / chunkSize = c then 0 else s.gen (γ u).slot) = v
        rw [if_neg (hold u hp)]
        exact (h.seen u).gen hp v hv
      · show (if u32 i / chunkSize = c then 0 else s.seq i) % 2 = 1 ↔ _
        split
        · rename_i hi
          refine ⟨by simp, ?_⟩
          rintro ⟨u, hp, rfl⟩
          exact absurd hi (hold u (by grind))
        · exact h.odd i
      · show (if u32 i / chunkSize = c then 0 else s.seq i) < 2 ^ 32
        split
        · decide
        · exact h.bound i
  | initNext kind held chunk =>
      cases hexec
      exact h.dull (h.seen t).dull rfl rfl rfl
  | publish kind held chunk free phase extra cap limit =>
      cases hexec
      refine h.dull ⟨⟨by simp, by simp [Phase.rowed]⟩, by simp [phase], by simp [phase]⟩ rfl rfl rfl

/-- Every step keeps what threads have seen, if those do that change a slot's life. -/
theorem Images.step_of (h : Images s γ) (hl : Locked cfg s γ)
    (halone : (γ t).phase.knowing = true → ∀ u, u ≠ t → (γ u).phase.knowing = true →
      (γ u).slot ≠ (γ t).slot)
    (hgrow : GrowStep cfg K (γ t) a r g' → Images s' (Function.update γ t g'))
    (hslot : SlotStep cfg K G s (γ t) a r g' → Images s' (Function.update γ t g'))
    (hexec : exec cfg t a s = some (r, s'))
    (hstep : Step cfg K G now s (γ t) a r g') : Images s' (Function.update γ t g') := by
  have hs := h.seen t
  cases hstep with
  | lock hst =>
      have hd := dull_lockStep hs hst
      cases hst with
      | lock l | lockAnew l phase =>
          simp only [exec] at hexec
          split at hexec
          · cases hexec
            exact h.dull hd (setOwner_data _ _) (setOwner_gen _ _) (setOwner_seq _ _)
          · cases hexec
      | _ =>
          cases hexec
          exact h.dull hd (setOwner_data _ _) (setOwner_gen _ _) (setOwner_seq _ _)
  | view hst =>
      have hd := dull_viewStep hs hexec hst
      have hpassive : a.passive = true := by
        cases hst with
        | look passive unread => exact passive
        | _ => rfl
      obtain ⟨_, _, _, rfl⟩ := exec_passive hpassive hexec
      exact h.dull hd rfl rfl rfl
  | free hst =>
      have hd := dull_freeStep hs hst
      cases hst <;> cases hexec <;> exact h.dull hd rfl rfl rfl
  | grow hst => exact hgrow hst
  | slot hst => exact hslot hst
  | image hst => exact h.imageStep hl halone hexec hst
  | chain hst =>
      have hd := dull_chainStep hs hst
      cases hst <;> cases hexec <;> exact h.dull hd rfl rfl rfl
  | dup hst =>
      have hd := dull_dupStep hs hst
      cases hst <;> cases hexec <;> exact h.dull hd rfl rfl rfl
  | read hst =>
      have hd := dull_readStep hs hst
      have hpassive : a.passive = true := by
        cases hst with
        | miss passive => exact passive
        | _ => rfl
      obtain ⟨_, _, _, rfl⟩ := exec_passive hpassive hexec
      exact h.dull hd rfl rfl rfl
  | note hst =>
      have hd := dull_noteStep hs hst
      have hpassive : a.passive = true := by cases hst <;> rfl
      obtain ⟨_, _, _, rfl⟩ := exec_passive hpassive hexec
      exact h.dull hd rfl rfl rfl

/-- **Every step keeps what threads have seen.** -/
theorem Images.step (h : Images s γ) (hsl : Slots cfg s γ) (hl : Locked cfg s γ)
    (hexec : exec cfg t a s = some (r, s'))
    (hstep : Step cfg K G now s (γ t) a r g') : Images s' (Function.update γ t g') :=
  h.step_of hl (fun hk _ hu hk' => hsl.alone hl hu hk hk') (fun hst => h.growStep hsl hexec hst)
    (fun hst => h.slotStep hsl hl hexec hst) hexec hstep

variable {T : Setting n W PK Op Out} {w : World (coreSig n W PK) (Share n W) Op Out}

/-- Nobody knows anything at the start. -/
theorem images_fresh (data : Int → Image n W) :
    Images (Share.fresh data) fun _ => (Role.init : Role n W) := by
  refine ⟨fun t => ⟨by simp [Role.init], by simp [Role.init]⟩, fun i => ?_, fun i => ?_⟩
  · simp [Share.fresh, Role.init]
  · simp [Share.fresh]

/-- A setting starts with every lock free and the slots in order. -/
structure Setting.Started (T : Setting n W PK Op Out) : Prop where
  owner : ∀ l, T.share.owner l = none
  slots : Slots T.cfg T.share fun _ => Role.init
  images : Images T.share fun _ => Role.init

/-- A fresh share is a start. -/
theorem Setting.Fresh.started (h : T.Fresh) : T.Started := by
  obtain ⟨data, hdata⟩ := h
  constructor
  case owner => exact Setting.Fresh.owner ⟨data, hdata⟩
  case slots =>
    rw [hdata]
    exact slots_fresh T.cfg data
  case images =>
    rw [hdata]
    exact images_fresh data

/-- What threads have seen stays so along every trace that starts in order. -/
theorem trace_images_from (hstart : T.Started) (hclear : T.ClearsApart) (h : T.Trace w γ) :
    Images w.mem γ := by
  induction h with
  | init => exact hstart.images
  | @start w γ t _ ih =>
      exact ih.dull ⟨⟨(ih.seen t).words, (ih.seen t).gen⟩, Iff.rfl, fun _ => rfl⟩ rfl rfl rfl
  | act before _ hexec hstep ih =>
      exact ih.step (trace_slots_from hstart.owner hstart.slots hclear before)
        (trace_locked hstart.owner before) hexec hstep
  | stop _ _ ih => exact ih

/-- **What threads have seen stays so along every trace.** -/
theorem trace_images (hfresh : T.Fresh) (hclear : T.ClearsApart)
    (h : T.Trace w γ) : Images w.mem γ :=
  trace_images_from hfresh.started hclear h

end FastMem
