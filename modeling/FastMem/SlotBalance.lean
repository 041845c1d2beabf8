import FastMem.RowCount
import FastMem.SlotLedger

/-!
# No slot is lost

A slot that is neither in use nor on the free list is on its way from one to the other: a
delete has it and will put it back, an insert has taken it and will publish it or put it
back, or a clear has flipped it and will rebuild the free list with it.  So when nothing is
under way, every slot below the row limit holds a row or is on the free list.
-/

namespace FastMem

open Conc

variable {n : Nat} {W PK Op Out : Type} {cfg : ShareCfg n W PK} {K : Kind → Prop}
  {G : Commit n W → Prop} {now t : Nat} {s s' : Share n W} {g g' : Role n W}
  {a : Act n W} {r : a.Res} {γ : Nat → Role n W} {i : Int}

/-- A thread has slot `i` to itself. -/
def Role.Has (g : Role n W) (i : Int) : Prop := g.Owns i ∨ i ∈ g.flipped

/-- Slot `i` holds a row, or is on the free list, or a thread has it. -/
def Kept (s : Share n W) (γ : Nat → Role n W) (i : Int) : Prop :=
  s.state i = .active ∨ (∃ F, s.FreeList F ∧ i ∈ F) ∨ ∃ t, (γ t).Has i

/-- No slot below the row limit is lost. -/
def NoneLost (cfg : ShareCfg n W PK) (s : Share n W) (γ : Nat → Role n W) : Prop :=
  ∀ u, u < slotCount s.chunkCnt → u < cfg.maxRecords → Kept s γ (i32 u)

/-- A thread has moved on: what the others have they still have. -/
theorem Kept.move (h : Kept s γ i) (hrow : s.state i = .active → Kept s' (Function.update γ t g') i)
    (hfree : ∀ F, s.FreeList F → i ∈ F → Kept s' (Function.update γ t g') i)
    (hown : (γ t).Has i → Kept s' (Function.update γ t g') i) :
    Kept s' (Function.update γ t g') i := by
  obtain hactive | ⟨F, hF, hmem⟩ | ⟨u, hu⟩ := h
  · exact hrow hactive
  · exact hfree F hF hmem
  · by_cases hut : u = t
    · subst hut
      exact hown hu
    · exact Or.inr (Or.inr ⟨u, by rw [Function.update_of_ne hut]; exact hu⟩)

/-- A slot a thread has is kept. -/
theorem kept_of_has (h : g'.Has i) : Kept s' (Function.update γ t g') i :=
  Or.inr (Or.inr ⟨t, by rw [Function.update_self]; exact h⟩)

/-- A step that changes neither states nor the free list, of a thread that lets go of no
slot. -/
theorem Kept.same (h : Kept s γ i) (hstate : s'.state = s.state)
    (hfree : ∀ F, s.FreeList F → i ∈ F → s'.FreeList F)
    (hhas : (γ t).Has i → g'.Has i) : Kept s' (Function.update γ t g') i := by
  apply h.move
  · intro hactive
    exact Or.inl (by rw [hstate]; exact hactive)
  · intro F hF hmem
    exact Or.inr (Or.inl ⟨F, hfree F hF hmem, hmem⟩)
  · exact fun ht => kept_of_has (hhas ht)

/-- No slot is lost if each that was kept is kept. -/
theorem NoneLost.keep (h : NoneLost cfg s γ) (hchunks : s'.chunkCnt = s.chunkCnt)
    (hkept : ∀ i, s.Grown i → Kept s γ i → Kept s' (Function.update γ t g') i) :
    NoneLost cfg s' (Function.update γ t g') := by
  intro u hu hlimit
  rw [hchunks] at hu
  exact hkept _ ⟨u, hu, rfl⟩ (h u hu hlimit)

/-- None is lost in a step that leaves the slots alone. -/
theorem NoneLost.calm (h : NoneLost cfg s γ) (hcalm : Calm s (γ t) g') (hsame : SameSlots s s') :
    NoneLost cfg s' (Function.update γ t g') := by
  refine h.keep hsame.chunkCnt fun i _ hi =>
    hi.same hsame.state (fun F hF _ => hsame.freeList.mpr hF) ?_
  intro hhas
  obtain hown | hflip := hhas
  · exact Or.inl (hcalm.owns.mpr hown)
  · exact Or.inr (by rw [hcalm.flipped]; exact hflip)

/-- A thread in the middle of an insert or a delete has flipped nothing. -/
theorem RoleOk.owns_of_has (h : RoleOk cfg g) (hphase : g.phase ≠ .flip)
    (hi : g.Has i) : g.Owns i := by
  obtain hown | hflip := hi
  · exact hown
  · rw [h.unflipped hphase] at hflip
    cases hflip

/-- The free list with a slot in front that points at its head. -/
theorem Slots.pushable (h : Slots cfg s γ) (free : (γ t).free = .cell i) :
    ∃ F, s.FreeList F ∧ (s.withFree s.freeNext i).FreeList (i :: F) := by
  obtain ⟨F, hF, -⟩ := h.free
  have hm := h.mine t
  have hg := hm.grown i (hm.cell i free)
  have hview := hm.view
  rw [free] at hview
  have hnext : s.freeNext i = s.freeHead := hview
  refine ⟨F, hF, rfl, grown_ne_null h.chunks hg, ?_⟩
  show IsChain nullSlot s.freeNext (s.freeNext i) F
  rw [hnext]
  exact hF

/-- None is lost on the free list. -/
theorem NoneLost.freeStep (h : NoneLost cfg s γ) (hsl : Slots cfg s γ) (hl : Locked cfg s γ)
    (hexec : exec cfg t a s = some (r, s')) (hstep : FreeStep K (γ t) a r g') :
    NoneLost cfg s' (Function.update γ t g') := by
  have hm := hsl.mine t
  have hok := hl.ok t
  cases hstep with
  | @pop i nx kind held free some_slot phase extra =>
    cases hexec
    have hview := hm.view
    rw [free] at hview
    obtain ⟨hhead, hnext⟩ := hview
    refine h.keep rfl fun j _ hj => hj.move Or.inl ?_ ?_
    · intro F hF hmem
      cases F with
      | nil => cases hmem
      | cons i' F =>
        obtain ⟨hi', -, hrest⟩ := hF
        obtain rfl : i' = i := hi'.symm.trans hhead
        obtain rfl | hmem := List.mem_cons.mp hmem
        · exact kept_of_has (Or.inl (Or.inl ⟨rfl, rfl⟩))
        · rw [hnext] at hrest
          exact Or.inr (Or.inl ⟨F, hrest, hmem⟩)
    · intro hhas
      obtain ⟨hp, -⟩ | hmem := hok.owns_of_has (by simp [phase]) hhas
      · rw [phase] at hp
        cases hp
      · rw [extra] at hmem
        cases hmem
  | @cell i x held free mine =>
    cases hexec
    have hown : (γ t).Owns i := by
      obtain ⟨rfl, hp⟩ | hi := mine
      · exact Or.inl ⟨by grind, rfl⟩
      · exact Or.inr hi
    refine h.keep rfl fun j _ hj => hj.same rfl (fun F hF _ => ?_) id
    exact IsChain.update hF (fun hmem => hsl.free_not_owned hF hmem t hown) x
  | push held free walk phase =>
    cases hexec
    have hextra : (γ t).extra = [] := by
      obtain ⟨-, -, hx⟩ | hp := phase
      · exact hx
      · by_contra hne
        have := hok.extra hne
        grind
    have hown : (γ t).Owns (γ t).slot := hm.cell _ free
    obtain ⟨F, hF, hlist⟩ := hsl.pushable free
    refine h.keep rfl fun j _ hj => hj.move Or.inl ?_ ?_
    · intro F' hF' hmem
      rw [IsChain.unique hF' hF] at hmem
      exact Or.inr (Or.inl ⟨_, hlist, List.mem_cons_of_mem _ hmem⟩)
    · intro hhas
      obtain ⟨-, rfl⟩ | hmem := hok.owns_of_has (by grind) hhas
      · exact Or.inr (Or.inl ⟨_, hlist, List.mem_cons_self⟩)
      · rw [hextra] at hmem
        cases hmem
  | @pushExtra i held free mem =>
    cases hexec
    have hflip : (γ t).phase ≠ .flip := by
      have := hok.extra (List.ne_nil_of_mem mem)
      grind
    obtain ⟨F, hF, hlist⟩ := hsl.pushable free
    refine h.keep rfl fun j _ hj => hj.move Or.inl ?_ ?_
    · intro F' hF' hmem
      rw [IsChain.unique hF' hF] at hmem
      exact Or.inr (Or.inl ⟨_, hlist, List.mem_cons_of_mem _ hmem⟩)
    · intro hhas
      obtain hslot | hmem := hok.owns_of_has hflip hhas
      · exact kept_of_has (Or.inl (Or.inl hslot))
      · by_cases hji : j = i
        · exact Or.inr (Or.inl ⟨_, hlist, by rw [hji]; exact List.mem_cons_self⟩)
        · exact kept_of_has (Or.inl (Or.inr (hm.nodup.mem_erase_iff.mpr ⟨hji, hmem⟩)))
  | @reset c kind held phase extra chunk all =>
    cases hexec
    refine h.keep rfl fun j hj _ => ?_
    obtain ⟨u, hu, rfl⟩ := hj
    rw [hm.chunk c chunk] at hu
    exact kept_of_has (Or.inl (Or.inr (all u hu)))

/-- None is lost when the table grows. -/
theorem NoneLost.growStep (h : NoneLost cfg s γ) (hsl : Slots cfg s γ) (hl : Locked cfg s γ)
    (hexec : exec cfg t a s = some (r, s')) (hstep : GrowStep cfg K (γ t) a r g') :
    NoneLost cfg s' (Function.update γ t g') := by
  have hm := hsl.mine t
  cases hstep with
  | @initSlots c kind held chunk free =>
    cases hexec
    -- the slots of the new chunk are not published yet
    have hold : ∀ j, s.Grown j → ¬ u32 j / chunkSize = c := by
      intro j hj hc
      exact not_grown_of_chunk hsl.chunks (hc.trans (hm.chunk c chunk).symm) hj
    refine h.keep rfl fun j hj hkept => hkept.move ?_ ?_ kept_of_has
    · intro hactive
      refine Or.inl ?_
      show (if u32 j / chunkSize = c then SlotState.free else s.state j) = .active
      rw [if_neg (hold j hj)]
      exact hactive
    · intro F hF hmem
      obtain ⟨F', hF', hlisted⟩ := hsl.free
      have hgrown : ∀ x ∈ F, s.Grown x := fun x hx => (hlisted x (IsChain.unique hF hF' ▸ hx)).1
      refine Or.inr (Or.inl ⟨F, IsChain.congr hF fun x hx => ?_, hmem⟩)
      exact if_neg (hold x (hgrown x hx))
  | initNext =>
    cases hexec
    exact h.calm hm.same ⟨rfl, rfl, rfl, rfl⟩
  | @publish c kind held chunk free phase extra cap limit =>
    cases hexec
    intro u hu hlimit
    obtain ⟨heq, heq', -⟩ := slotCount_succ cap
    obtain ⟨-, -, hall⟩ := chunkEnd_spec cap
    have hu' : u < slotCount (c + 1) := hu
    by_cases hold : u < slotCount c
    · rw [← hm.chunk c chunk] at hold
      apply (h u hold hlimit).move Or.inl
      · exact fun F hF hmem => Or.inr (Or.inl ⟨F, hF, hmem⟩)
      · intro hhas
        obtain ⟨hp, -⟩ | hmem := (hl.ok t).owns_of_has (by simp [phase]) hhas
        · rw [phase] at hp
          cases hp
        · rw [extra] at hmem
          cases hmem
    · -- a slot of the new chunk is handed out or to be put on the free list
      refine kept_of_has (Or.inl ?_)
      by_cases hfirst : u = slotCount c
      · exact Or.inl ⟨rfl, by rw [hfirst]⟩
      · have hend := hall u (by omega) hlimit
        exact Or.inr (mem_slotsFrom.mpr ⟨u - (slotCount c + 1), by omega, by congr 1; omega⟩)

/-- A slot changes its state, and the thread has it from now on. -/
theorem NoneLost.restate (h : NoneLost cfg s γ) {i : Int} {v : SlotState} (hi : g'.Has i)
    (hhas : ∀ j, j ≠ i → (γ t).Has j → g'.Has j) :
    NoneLost cfg (s.withState i v) (Function.update γ t g') := by
  refine h.keep rfl fun j _ hkept => ?_
  by_cases hj : j = i
  · exact kept_of_has (by rw [hj]; exact hi)
  · apply hkept.move
    · intro hactive
      exact Or.inl ((withState_of_ne hj).trans hactive)
    · exact fun F hF hmem => Or.inr (Or.inl ⟨F, hF, hmem⟩)
    · exact fun ht => kept_of_has (hhas j hj ht)

/-- None is lost when a slot changes its state. -/
theorem NoneLost.slotStep (h : NoneLost cfg s γ) (hl : Locked cfg s γ)
    (hexec : exec cfg t a s = some (r, s'))
    (hstep : SlotStep cfg K G s (γ t) a r g') : NoneLost cfg s' (Function.update γ t g') := by
  have hok := hl.ok t
  cases hstep with
  | publish phase extra free walk words map commit =>
    cases hexec
    refine h.keep rfl fun j _ hkept => ?_
    have hslot : ∀ j, j = (γ t).slot ∨ s.state j = .active →
        Function.update s.state (γ t).slot .active j = .active := by
      intro j hj
      by_cases hjs : j = (γ t).slot
      · rw [hjs, Function.update_self]
      · rw [Function.update_of_ne hjs]
        exact hj.resolve_left hjs
    apply hkept.move
    · exact fun hactive => Or.inl (hslot j (Or.inr hactive))
    · exact fun F hF hmem => Or.inr (Or.inl ⟨F, hF, hmem⟩)
    · intro hhas
      obtain ⟨-, hj⟩ | hmem := hok.owns_of_has (by simp [phase]) hhas
      · exact Or.inl (hslot j (Or.inl hj.symm))
      · rw [extra] at hmem
        cases hmem
  | mark kind phase commit =>
    cases hexec
    refine h.restate (Or.inl (Or.inl ⟨rfl, rfl⟩)) fun j _ hhas => ?_
    obtain ⟨hp, -⟩ | hmem := hok.owns_of_has (by simp [phase]) hhas
    · rw [phase] at hp
      cases hp
    · exact Or.inl (Or.inr hmem)
  | bury phase walk map =>
    cases hexec
    refine h.restate (Or.inl (Or.inl ⟨rfl, rfl⟩)) fun j _ hhas => ?_
    obtain ⟨-, hslot⟩ | hmem := hok.owns_of_has (by simp [phase]) hhas
    · exact Or.inl (Or.inl ⟨rfl, hslot⟩)
    · exact Or.inl (Or.inr hmem)
  | flip kind phase held commit new grown =>
    cases hexec
    exact h.restate (Or.inr List.mem_cons_self) fun j _ hhas =>
      hhas.imp id (List.mem_cons_of_mem _)
  | begin kind held phase extra =>
    cases hexec
    refine h.keep rfl fun j _ hkept => hkept.same rfl (fun F hF _ => hF) fun hhas => ?_
    obtain ⟨hp, -⟩ | hmem := hok.owns_of_has (by simp [phase]) hhas
    · rw [phase] at hp
      cases hp
    · exact Or.inl (Or.inr hmem)
  | count phase | age phase | uncount phase | zero phase =>
    cases hexec
    refine h.keep rfl fun j _ hkept => hkept.same rfl (fun F hF _ => hF) fun hhas => ?_
    obtain ⟨hp, hslot⟩ | hmem := hok.owns_of_has (by simp [phase]) hhas
    · exact Or.inl (Or.inl ⟨by grind, hslot⟩)
    · exact Or.inl (Or.inr hmem)
  | flipGen phase held done =>
    cases hexec
    exact h.keep rfl fun j _ hkept => hkept.same rfl (fun F hF _ => hF) id

/-- **Every step keeps all slots.** -/
theorem NoneLost.step (h : NoneLost cfg s γ) (hsl : Slots cfg s γ) (hl : Locked cfg s γ)
    (hexec : exec cfg t a s = some (r, s')) (hstep : Step cfg K G now s (γ t) a r g') :
    NoneLost cfg s' (Function.update γ t g') := by
  have hm := hsl.mine t
  cases hstep with
  | lock hs => exact h.calm (calm_lockStep hm hexec hs).1 (calm_lockStep hm hexec hs).2
  | view hs => exact h.calm (calm_viewStep hm hexec hs).1 (calm_viewStep hm hexec hs).2
  | free hs => exact h.freeStep hsl hl hexec hs
  | grow hs => exact h.growStep hsl hl hexec hs
  | slot hs => exact h.slotStep hl hexec hs
  | image hs => exact h.calm (calm_imageStep hm hexec hs).1 (calm_imageStep hm hexec hs).2
  | chain hs => exact h.calm (calm_chainStep hm hexec hs).1 (calm_chainStep hm hexec hs).2
  | dup hs => exact h.calm (calm_dupStep hm hexec hs).1 (calm_dupStep hm hexec hs).2
  | read hs => exact h.calm (calm_readStep hm hexec hs).1 (calm_readStep hm hexec hs).2
  | note hs => exact h.calm (calm_noteStep hm hexec hs).1 (calm_noteStep hm hexec hs).2

variable {T : Setting n W PK Op Out} {w : World (coreSig n W PK) (Share n W) Op Out}

/-- **No slot is lost along a trace.** -/
theorem trace_noneLost (hfresh : T.Fresh) (hclear : T.ClearsApart) (h : T.Trace w γ) :
    NoneLost T.cfg w.mem γ := by
  induction h with
  | init =>
    obtain ⟨data, hdata⟩ := hfresh
    intro u hu
    have hzero : slotCount (Share.fresh data : Share n W).chunkCnt = 0 := by
      simp [Share.fresh, slotCount]
    rw [hdata, hzero] at hu
    cases hu
  | start t before ih => exact ih.keep rfl fun j _ hkept => hkept.same rfl (fun F hF _ => hF) id
  | @act w γ c a r s g before meets hexec hstep ih =>
    exact ih.step (trace_slots hfresh hclear before) (trace_locked hfresh.owner before) hexec hstep
  | stop _ _ ih => exact ih

end FastMem
