import FastMem.RowImages

/-!
# The chains while threads are at work

The fourth layer of invariants: which slots a chain of the index holds.  The thread that
fills, rewrites, moves or deletes a slot knows which chains the slot is in, since nobody
else puts the slot on a chain or takes it off; every other slot is in the chains of its
image, if it is ACTIVE, and in none if it is not.  A thread that walks along a chain holds
the lock of its bucket, so the chain stays as it is but for what the thread does.

Without clears a slot is in every chain it should be in.  A clear takes all slots off
their chains at once, so with clears only the other half is left: a chain holds no slot
that should not be in it.
-/

namespace FastMem

open Conc

variable {n : Nat} {W PK Op Out : Type} {cfg : ShareCfg n W PK} {K : Kind → Prop}
  {G : Commit n W → Prop} {now t : Nat} {s s' : Share n W} {g g' : Role n W}
  {a : Act n W} {r : a.Res} {γ : Nat → Role n W} {C : Index}

/-- Slot `i` belongs in bucket `b` of key `k`: the thread that has it to itself says so,
or nobody has it to himself and it is ACTIVE with an image of this bucket. -/
def Placed (cfg : ShareCfg n W PK) (s : Share n W) (γ : Nat → Role n W) (k b : Nat)
    (i : Int) : Prop :=
  (∃ t, (γ t).Maps i ∧ (γ t).map k = some b) ∨
    (∀ t, ¬ (γ t).Maps i) ∧ s.state i = .active ∧ cfg.buckets (s.data i) k = some b

/-- What a thread knows of the chain it is walking along is so. -/
def Role.Walking (C : Index) (s : Share n W) (g : Role n W) : Prop :=
  match g.walk with
  | .none => True
  | .at k b p => g.map k = some b ∧ ∃ pre post, C k b = pre ++ p :: post ∧ g.slot ∉ pre ++ [p]
  | .hit k b link =>
      g.map k = some b ∧ ∃ pre post, C k b = pre ++ g.slot :: post ∧ link = linkAfter b pre
  | .found k b link nx => g.map k = some b ∧ s.next k g.slot = nx ∧
      ∃ pre post, C k b = pre ++ g.slot :: post ∧ link = linkAfter b pre
  | .front k b h => g.map k = none ∧ s.head k b = h
  | .cell k b => g.map k = none ∧ s.next k g.slot = s.head k b

/-- The chains of the index are `C`, and they hold the slots that belong in them. -/
structure InPlace (cfg : ShareCfg n W PK) (K : Kind → Prop) (s : Share n W) (γ : Nat → Role n W)
    (C : Index) : Prop where
  index : s.Indexed C
  placed : ∀ k b i, i ∈ C k b → Placed cfg s γ k b i
  all : ¬ K .clear → ∀ k b i, Placed cfg s γ k b i → i ∈ C k b
  walk : ∀ t, (γ t).Walking C s
  moved : ∀ t, (γ t).phase = .move → ∃ new, (γ t).target = some new ∧ (γ t).words = allWords new

/-- At most one thread knows which chains a slot is in. -/
def MapsAlone (γ : Nat → Role n W) : Prop := ∀ t u i, (γ t).Maps i → (γ u).Maps i → t = u

/-- A slot is moved between chains by one thread at a time. -/
theorem Slots.mapsAlone (h : Slots cfg s γ) (hl : Locked cfg s γ) : MapsAlone γ := by
  intro t u i ht hu
  by_contra hne
  obtain ⟨hp, rfl⟩ := ht
  obtain ⟨hq, heq⟩ := hu
  refine h.alone hl (t := t) (u := u) (Ne.symm hne) ?_ ?_ heq
  · grind
  · grind

/-- It still is when the role moves the same slots. -/
theorem mapsAlone_of_same (halone : MapsAlone γ) (hsame : ∀ i, g'.Maps i ↔ (γ t).Maps i) :
    MapsAlone (Function.update γ t g') := by
  have hall : ∀ u i, (Function.update γ t g' u).Maps i ↔ (γ u).Maps i := by
    intro u i
    by_cases hu : u = t
    · subst hu
      rw [Function.update_self]
      exact hsame i
    · rw [Function.update_of_ne hu]
  intro u w i hu hw
  exact halone u w i ((hall u i).mp hu) ((hall w i).mp hw)

/-- A slot a thread moves is where that thread has it. -/
theorem placed_of_maps (halone : MapsAlone γ) {i : Int} (ht : (γ t).Maps i) {k b : Nat} :
    Placed cfg s γ k b i ↔ (γ t).map k = some b := by
  constructor
  · rintro (⟨u, hu, hmap⟩ | ⟨hnone, -⟩)
    · rw [halone t u i ht hu]
      exact hmap
    · exact absurd ht (hnone t)
  · exact fun hmap => Or.inl ⟨t, ht, hmap⟩

/-- A slot belongs in at most one bucket of a key. -/
theorem Placed.eq (halone : MapsAlone γ) {k b b' : Nat} {i : Int} (h : Placed cfg s γ k b i)
    (h' : Placed cfg s γ k b' i) : b = b' := by
  rcases h with ⟨t, ht, hmap⟩ | ⟨hnone, -, hb⟩
  · rw [placed_of_maps halone ht, hmap] at h'
    exact Option.some.inj h'
  · rcases h' with ⟨t, ht, -⟩ | ⟨-, -, hb'⟩
    · exact absurd ht (hnone t)
    · rw [hb] at hb'
      exact Option.some.inj hb'

/-- A slot is in one chain of each key. -/
theorem InPlace.disjoint (h : InPlace cfg K s γ C) (halone : MapsAlone γ) :
    ∀ k b b' i, i ∈ C k b → i ∈ C k b' → b = b' :=
  fun k b b' i hi hi' => (h.placed k b i hi).eq halone (h.placed k b' i hi')

/-- A slot that is moved lies in a chunk. -/
theorem Slots.grown_of_maps (h : Slots cfg s γ) {i : Int} (ht : (γ t).Maps i) : s.Grown i := by
  obtain ⟨hp, rfl⟩ := ht
  have hcases : (γ t).phase.owning = true ∨ (γ t).phase.rowed = true := by grind
  rcases hcases with hown | hrow
  · exact (h.mine t).grown _ (Or.inl ⟨hown, rfl⟩)
  · exact h.grown_of_active ((h.mine t).active hrow)

/-- Slots that belong in a chain lie in chunks of the share. -/
theorem Placed.grown (hsl : Slots cfg s γ) {k b : Nat} {i : Int} (h : Placed cfg s γ k b i) :
    s.Grown i := by
  rcases h with ⟨t, ht, -⟩ | ⟨-, hst, -⟩
  · exact hsl.grown_of_maps ht
  · exact hsl.grown_of_active hst

/-- What a thread and the slot itself say about where the slot belongs. -/
def Role.Places (cfg : ShareCfg n W PK) (s : Share n W) (g : Role n W) (k b : Nat)
    (i : Int) : Prop :=
  g.Maps i ∧ g.map k = some b ∨ ¬ g.Maps i ∧ s.state i = .active ∧ cfg.buckets (s.data i) k = some b

/-- Where a slot is, as the other threads and thread `t` have it. -/
theorem placed_iff (halone : MapsAlone γ) {k b : Nat} {i : Int} :
    Placed cfg s γ k b i ↔ (∃ u, u ≠ t ∧ (γ u).Maps i ∧ (γ u).map k = some b) ∨
      (∀ u, u ≠ t → ¬ (γ u).Maps i) ∧ (γ t).Places cfg s k b i := by
  constructor
  · rintro (⟨u, hu, hmap⟩ | ⟨hnone, hrow⟩)
    · by_cases hut : u = t
      · subst hut
        exact Or.inr ⟨fun v hv hvi => hv (halone v u i hvi hu), Or.inl ⟨hu, hmap⟩⟩
      · exact Or.inl ⟨u, hut, hu, hmap⟩
    · exact Or.inr ⟨fun u _ => hnone u, Or.inr ⟨hnone t, hrow⟩⟩
  · rintro (⟨u, -, hu, hmap⟩ | ⟨hothers, ⟨ht, hmap⟩ | ⟨ht, hrow⟩⟩)
    · exact Or.inl ⟨u, hu, hmap⟩
    · exact Or.inl ⟨t, ht, hmap⟩
    · refine Or.inr ⟨fun u hu => ?_, hrow⟩
      by_cases hut : u = t
      · subst hut
        exact ht hu
      · exact hothers u hut hu

/-- A step of thread `t` leaves a slot where it belongs if the thread and the slot itself
say the same as before. -/
theorem placed_update (halone : MapsAlone γ) (halone' : MapsAlone (Function.update γ t g'))
    {k b : Nat}
    {i : Int} (hplaces : (∀ u, u ≠ t → ¬ (γ u).Maps i) →
      (g'.Places cfg s' k b i ↔ (γ t).Places cfg s k b i)) :
    Placed cfg s' (Function.update γ t g') k b i ↔ Placed cfg s γ k b i := by
  rw [placed_iff (t := t) halone, placed_iff (t := t) halone', Function.update_self]
  have hothers : ∀ u, u ≠ t → Function.update γ t g' u = γ u :=
    fun u hu => Function.update_of_ne hu _ _
  refine or_congr (exists_congr fun u => and_congr_right fun hu => by rw [hothers u hu]) ?_
  have hsame : (∀ u, u ≠ t → ¬ (Function.update γ t g' u).Maps i) ↔ ∀ u, u ≠ t → ¬ (γ u).Maps i :=
    forall_congr' fun u => imp_congr_right fun hu => by rw [hothers u hu]
  rw [hsame]
  exact and_congr_right hplaces

/-- No walk, no claim. -/
theorem walking_none (h : g.walk = .none) : g.Walking C s := by
  unfold Role.Walking
  rw [h]
  trivial

/-- A walk knows its chain, the head of the chain, and what its slot points at. -/
theorem Role.Walking.frame {C' : Index} (h : g.Walking C s)
    (hsame : ∀ k b, g.walk.bucket = some (k, b) →
      C' k b = C k b ∧ s'.head k b = s.head k b ∧ s'.next k g.slot = s.next k g.slot) :
      g.Walking C' s' := by
  unfold Role.Walking at h ⊢
  cases hwalk : g.walk with
  | none => trivial
  | front k b x | cell k b | found k b link x | hit k b link | «at» k b x =>
    obtain ⟨hC, hhead, hnext⟩ := hsame k b (by rw [hwalk]; rfl)
    simp only [hwalk] at h ⊢
    simp only [hC, hhead, hnext]
    exact h

/-- A walk goes on where it was. -/
theorem Role.Walking.same (h : g.Walking C s) (hwalk : g'.walk = g.walk) (hmap : g'.map = g.map)
    (hslot : g'.slot = g.slot) (hnext : s'.next = s.next) (hhead : s'.head = s.head) :
    g'.Walking C s' := by
  unfold Role.Walking at h ⊢
  rw [hwalk, hmap, hslot, hnext, hhead]
  exact h

/-- A step that touches no chain and leaves every slot where it belongs. -/
theorem InPlace.still (h : InPlace cfg K s γ C) (halone : MapsAlone γ)
    (halone' : MapsAlone (Function.update γ t g')) (hnext : s'.next = s.next)
    (hhead : s'.head = s.head)
    (hplaces : ∀ k b i, (∀ u, u ≠ t → ¬ (γ u).Maps i) →
      (g'.Places cfg s' k b i ↔ (γ t).Places cfg s k b i))
    (hwalk : g'.Walking C s')
    (hmoved : g'.phase = .move → ∃ new, g'.target = some new ∧ g'.words = allWords new) :
    InPlace cfg K s' (Function.update γ t g') C := by
  have hplaced : ∀ k b i, Placed cfg s' (Function.update γ t g') k b i ↔ Placed cfg s γ k b i :=
    fun k b i => placed_update halone halone' (hplaces k b i)
  constructor
  case index =>
    intro k b
    rw [hnext, hhead]
    exact h.index k b
  case placed => exact fun k b i hi => (hplaced k b i).mpr (h.placed k b i hi)
  case all => exact fun hclear k b i hi => h.all hclear k b i ((hplaced k b i).mp hi)
  case walk =>
    rw [Function.forall_update_iff γ fun _ g => g.Walking C s']
    exact ⟨hwalk, fun u _ => (h.walk u).same rfl rfl rfl hnext hhead⟩
  case moved =>
    rw [Function.forall_update_iff γ fun _ g => g.phase = .move → ∃ new, g.target = some new ∧
      g.words = allWords new]
    exact ⟨hmoved, fun u _ => h.moved u⟩

/-- A change of role that does not touch the chains a slot is in. -/
structure OffChain (g g' : Role n W) : Prop where
  walk : g'.walk = g.walk
  mapping : g'.phase.mapping = g.phase.mapping
  slot : g.phase.mapping = true → g'.slot = g.slot
  map : g'.map = g.map
  moved : g'.phase = .move → g.phase = .move ∧ g'.target = g.target ∧ g'.words = g.words

/-- No change of role at all. -/
theorem OffChain.refl (g : Role n W) : OffChain g g :=
  ⟨rfl, rfl, fun _ => rfl, rfl, fun h => ⟨h, rfl, rfl⟩⟩

/-- The role moves the same slots. -/
theorem OffChain.maps (h : OffChain g g') {i : Int} : g'.Maps i ↔ g.Maps i := by
  unfold Role.Maps
  rw [h.mapping]
  exact and_congr_right fun hp => by rw [h.slot hp]

/-- A thread that walks along a chain has the slot to itself. -/
theorem RoleOk.maps_of_walk (hok : RoleOk cfg g) (hwalk : g.walk ≠ .none) : g.Maps g.slot := by
  have hbucket : ∃ kb, g.walk.bucket = some kb := by
    cases h : g.walk with
    | none => exact absurd h hwalk
    | _ => exact ⟨_, rfl⟩
  obtain ⟨⟨k, b⟩, hbucket⟩ := hbucket
  have hphase := (hok.walk k b hbucket).2
  exact ⟨by grind, rfl⟩

/-- A step that changes nothing about where slots belong, for the thread and for the rows. -/
theorem InPlace.offChain (h : InPlace cfg K s γ C) (hok : RoleOk cfg (γ t)) (halone : MapsAlone γ)
    (halone' : MapsAlone (Function.update γ t g')) (hg : OffChain (γ t) g')
    (hnext : s'.next = s.next) (hhead : s'.head = s.head)
    (hrow : ∀ i, ¬ (γ t).Maps i → (s'.state i = .active ↔ s.state i = .active) ∧
      (s.state i = .active → s'.data i = s.data i)) :
    InPlace cfg K s' (Function.update γ t g') C := by
  apply h.still halone halone' hnext hhead
  · intro k b i _
    unfold Role.Places
    rw [hg.maps, hg.map]
    refine or_congr Iff.rfl (and_congr_right fun hnot => ?_)
    obtain ⟨hstate, hdata⟩ := hrow i hnot
    rw [hstate]
    exact and_congr_right fun hst => by rw [hdata hst]
  · by_cases hw : (γ t).walk = .none
    · exact walking_none (hg.walk.trans hw)
    · exact (h.walk t).same hg.walk hg.map (hg.slot (hok.maps_of_walk hw).1) hnext hhead
  · intro hp
    obtain ⟨hp', htarget, hwords⟩ := hg.moved hp
    rw [htarget, hwords]
    exact h.moved t hp'

/-- One slot changes hands between its thread and the rows of the share. -/
theorem InPlace.handover (h : InPlace cfg K s γ C) (halone : MapsAlone γ)
    (halone' : MapsAlone (Function.update γ t g')) {j : Int} (hnext : s'.next = s.next)
    (hhead : s'.head = s.head) (hg : ∀ i, (γ t).Maps i → i = j) (hg' : ∀ i, g'.Maps i → i = j)
    (hrow : ∀ i, i ≠ j → s'.state i = s.state i ∧ s'.data i = s.data i)
    (hj : ∀ k b, g'.Places cfg s' k b j ↔ (γ t).Places cfg s k b j) (hwalk : g'.walk = .none)
    (hmoved : g'.phase ≠ .move) :
    InPlace cfg K s' (Function.update γ t g') C := by
  apply h.still halone halone' hnext hhead
  · intro k b i _
    by_cases hi : i = j
    · subst hi
      exact hj k b
    · have hnot : ¬ (γ t).Maps i := fun hm => hi (hg i hm)
      have hnot' : ¬ g'.Maps i := fun hm => hi (hg' i hm)
      obtain ⟨hstate, hdata⟩ := hrow i hi
      simp only [Role.Places, hnot, hnot', hstate, hdata, false_and, false_or]
  · exact walking_none hwalk
  · exact fun hp => absurd hp hmoved

/-- A lock operation moves no slot. -/
theorem offChain_lockStep (h : LockStep g a r g') : OffChain g g' := by
  cases h with
  | lockAnew l phase => constructor <;> grind
  | unlockRow held quiet => constructor <;> grind
  | _ => exact { OffChain.refl g with }

theorem offChain_viewStep (h : ViewStep g a r g') : OffChain g g' := by
  cases h with
  | look passive unread => exact OffChain.refl g
  | active held phase unread => constructor <;> grind
  | word phase =>
    refine { OffChain.refl g with moved := fun hp => ?_ }
    rw [phase] at hp
    cases hp
  | _ => exact { OffChain.refl g with }

theorem offChain_dupStep (h : DupStep cfg g a r g') : OffChain g g' := by
  cases h with
  | enter held => constructor <;> grind
  | next dup passed => constructor <;> grind
  | _ => exact { OffChain.refl g with }

theorem offChain_readStep (h : ReadStep G now s g a r g') : OffChain g g' := by
  cases h <;> exact { OffChain.refl g with }

theorem offChain_noteStep (h : NoteStep G s g a r g') : OffChain g g' := by
  cases h with
  | see => exact { OffChain.refl g with }
  | pin held phase unread commit => constructor <;> grind

/-- A walk with no bucket is none. -/
theorem walk_none_of_bucket {v : Walk} (h : v.bucket = none) : v = .none := by
  cases v with
  | none => rfl
  | _ => cases h

/-- A thread that fills a slot and has linked it nowhere says that it belongs nowhere. -/
theorem not_places_of_fill (hphase : g.phase = .fill) (hmap : ∀ k, g.map k = none) {k b : Nat} :
    ¬ g.Places cfg s k b g.slot := by
  intro h
  rcases h with ⟨-, hb⟩ | ⟨hnot, -⟩
  · rw [hmap k] at hb
    cases hb
  · exact hnot ⟨by grind, rfl⟩

/-- A thread that does not have the slot to itself says nothing about a slot that is not ACTIVE. -/
theorem not_places_of_inactive {i : Int} (hphase : g.phase.mapping = false)
    (hst : s.state i ≠ .active) {k b : Nat} : ¬ g.Places cfg s k b i := by
  intro h
  rcases h with ⟨⟨hp, -⟩, -⟩ | ⟨-, hactive, -⟩
  · rw [hphase] at hp
    cases hp
  · exact hst hactive

/-- A role in no such phase moves no slot. -/
theorem not_maps (hphase : g.phase.mapping = false) (i : Int) : ¬ g.Maps i := by
  intro h
  rw [h.1] at hphase
  cases hphase

/-- A slot the role moves is where it has it. -/
theorem places_of_maps {i : Int} (h : g.Maps i) {k b : Nat} :
    g.Places cfg s k b i ↔ g.map k = some b := by
  unfold Role.Places
  simp only [h, true_and, not_true_eq_false, false_and, or_false]

/-- An ACTIVE slot that nobody moves is in the chains of its image. -/
theorem places_of_row {i : Int} (h : ¬ g.Maps i) (hst : s.state i = .active) {k b : Nat} :
    g.Places cfg s k b i ↔ cfg.buckets (s.data i) k = some b := by
  unfold Role.Places
  simp only [h, hst, false_and, not_false_eq_true, true_and, false_or]

/-- Every step on the free list keeps the chains in place. -/
theorem InPlace.freeStep (h : InPlace cfg K s γ C) (hsl : Slots cfg s γ) (hl : Locked cfg s γ)
    (hsl' : Slots cfg s' (Function.update γ t g')) (hl' : Locked cfg s' (Function.update γ t g'))
    (hexec : exec cfg t a s = some (r, s')) (hstep : FreeStep K (γ t) a r g') :
    InPlace cfg K s' (Function.update γ t g') C := by
  have halone := hsl.mapsAlone hl
  have halone' := hsl'.mapsAlone hl'
  have hok := hl.ok t
  have hm := hsl.mine t
  have hm' := hsl'.mine t
  rw [Function.update_self] at hm'
  cases hstep with
  | @pop i nx kind held free some_slot phase extra =>
    cases hexec
    have hidle : (γ t).phase.mapping = false := by rw [phase]; rfl
    have hst : s.state i ≠ .active := by
      have hfill : s.state i = .free ∨ s.state i = .deleted := hm'.fill rfl
      rcases hfill with hst | hst <;> simp [hst]
    refine h.handover (j := i) halone halone' rfl rfl ?_ ?_ ?_ ?_ ?_ ?_
    · exact fun x hx => absurd hx (not_maps hidle x)
    · exact fun x hx => hx.2.symm
    · exact fun x _ => ⟨rfl, rfl⟩
    · intro k b
      exact iff_of_false (not_places_of_fill rfl fun _ => rfl) (not_places_of_inactive hidle hst)
    · exact walk_none_of_bucket (hok.settled (Or.inl phase)).2.2
    · simp
  | cell held free mine =>
    cases hexec
    exact h.offChain hok halone halone' { OffChain.refl (γ t) with } rfl rfl fun i _ =>
      ⟨Iff.rfl, fun _ => rfl⟩
  | push held free walk phase =>
    cases hexec
    have hst : s.state (γ t).slot ≠ .active := by
      have hcases : s.state (γ t).slot = .free ∨ s.state (γ t).slot = .deleted := by
        rcases phase with ⟨hp, -⟩ | hp
        · exact hm.fill hp
        · exact Or.inr (hm.dead (Or.inr (Or.inr hp)))
      rcases hcases with hst | hst <;> simp [hst]
    refine h.handover (j := (γ t).slot) halone halone' rfl rfl ?_ ?_ ?_ ?_ ?_ ?_
    · exact fun x hx => hx.2.symm
    · exact fun x hx => absurd hx (not_maps rfl x)
    · exact fun x _ => ⟨rfl, rfl⟩
    · intro k b
      refine iff_of_false (not_places_of_inactive rfl hst) ?_
      rcases phase with ⟨hp, hmap, -⟩ | hp
      · exact not_places_of_fill hp hmap
      · exact not_places_of_inactive (by rw [hp]; rfl) hst
    · exact walk
    · simp
  | pushExtra held free mem =>
    cases hexec
    exact h.offChain hok halone halone' { OffChain.refl (γ t) with } rfl rfl fun i _ =>
      ⟨Iff.rfl, fun _ => rfl⟩
  | reset kind held phase extra chunk all =>
    cases hexec
    have hun : OffChain (γ t)
        { γ t with phase := .rebuild, extra := (γ t).flipped, flipped := [], free := .none } := by
      constructor <;> grind
    exact h.offChain hok halone halone' hun rfl rfl fun i _ => ⟨Iff.rfl, fun _ => rfl⟩

/-- A clear flips a slot that is in no chain. -/
theorem InPlace.flip (h : InPlace cfg K s γ C) (halone : MapsAlone γ) {i : Int}
    (halone' : MapsAlone (Function.update γ t { γ t with flipped := i :: (γ t).flipped }))
    (kind : K .clear) (hout : ∀ k b, i ∉ C k b) :
    InPlace cfg K { s with state := Function.update s.state i .free }
      (Function.update γ t { γ t with flipped := i :: (γ t).flipped }) C := by
  have hplaced : ∀ k b j, j ≠ i → Placed cfg s γ k b j →
      Placed cfg { s with state := Function.update s.state i .free }
        (Function.update γ t { γ t with flipped := i :: (γ t).flipped }) k b j := by
    intro k b j hj
    refine (placed_update halone halone' fun _ => ?_).mpr
    show (γ t).Maps j ∧ _ ∨ ¬ (γ t).Maps j ∧ Function.update s.state i .free j = .active ∧ _ ↔ _
    rw [Function.update_of_ne hj]
    exact Iff.rfl
  constructor
  case index => exact h.index
  case placed =>
    intro k b j hj
    exact hplaced k b j (fun hji => hout k b (hji ▸ hj)) (h.placed k b j hj)
  case all => exact fun hclear => absurd kind hclear
  case walk =>
    rw [Function.forall_update_iff γ fun _ g =>
      g.Walking C { s with state := Function.update s.state i .free }]
    exact ⟨(h.walk t).same rfl rfl rfl rfl rfl, fun u _ => (h.walk u).same rfl rfl rfl rfl rfl⟩
  case moved =>
    rw [Function.forall_update_iff γ fun _ g => g.phase = .move → ∃ new, g.target = some new ∧
      g.words = allWords new]
    exact ⟨h.moved t, fun u _ => h.moved u⟩

theorem InPlace.slotStep (h : InPlace cfg K s γ C) (hsl : Slots cfg s γ) (hl : Locked cfg s γ)
    (him : Images s γ) (hsl' : Slots cfg s' (Function.update γ t g'))
    (hl' : Locked cfg s' (Function.update γ t g')) (hflip : ∀ i, G (.flip i) → ∀ k b, i ∉ C k b)
    (hexec : exec cfg t a s = some (r, s')) (hstep : SlotStep cfg K G s (γ t) a r g') :
    InPlace cfg K s' (Function.update γ t g') C := by
  have halone := hsl.mapsAlone hl
  have halone' := hsl'.mapsAlone hl'
  have hok := hl.ok t
  have hm := hsl.mine t
  have hsame : OffChain (γ t) g' → s'.next = s.next → s'.head = s.head → s'.state = s.state →
      s'.data = s.data → InPlace cfg K s' (Function.update γ t g') C := by
    intro hun hnext hhead hstate hdata
    apply h.offChain hok halone halone' hun hnext hhead
    intro i _
    rw [hstate, hdata]
    exact ⟨Iff.rfl, fun _ => rfl⟩
  cases hstep with
  | @publish img phase extra free walk words map commit =>
    cases hexec
    have hmaps : (γ t).Maps (γ t).slot := ⟨by grind, rfl⟩
    have hdata : s.data (γ t).slot = img := by
      funext j
      exact (him.seen t).words (by rw [phase]; rfl) j (img j) (by rw [words]; rfl)
    refine h.handover (j := (γ t).slot) halone halone' rfl rfl ?_ ?_ ?_ ?_ ?_ ?_
    · exact fun x hx => hx.2.symm
    · exact fun x hx => absurd hx (not_maps rfl x)
    · exact fun x hx => ⟨Function.update_of_ne hx _ _, rfl⟩
    · intro k b
      rw [places_of_maps hmaps, places_of_row (not_maps rfl _) (Function.update_self ..), map]
      exact iff_of_eq (congrArg (fun x => cfg.buckets x k = some b) hdata)
    · exact walk
    · simp
  | mark kind phase commit =>
    cases hexec
    have hrow : (γ t).phase.mapping = false := by rw [phase]; rfl
    have hactive := hm.active (by rw [phase]; rfl)
    refine h.handover (j := (γ t).slot) halone halone' rfl rfl ?_ ?_ ?_ ?_ ?_ ?_
    · exact fun x hx => absurd hx (not_maps hrow x)
    · exact fun x hx => hx.2.symm
    · exact fun x hx => ⟨Function.update_of_ne hx _ _, rfl⟩
    · intro k b
      rw [places_of_row (not_maps hrow _) hactive]
      exact places_of_maps ⟨rfl, rfl⟩
    · exact walk_none_of_bucket (hok.settled (Or.inr phase)).2.2
    · simp
  | bury phase walk map =>
    cases hexec
    have hmaps : (γ t).Maps (γ t).slot := ⟨by grind, rfl⟩
    refine h.handover (j := (γ t).slot) halone halone' rfl rfl ?_ ?_ ?_ ?_ ?_ ?_
    · exact fun x hx => hx.2.symm
    · exact fun x hx => absurd hx (not_maps rfl x)
    · exact fun x hx => ⟨Function.update_of_ne hx _ _, rfl⟩
    · intro k b
      rw [places_of_maps hmaps, map k]
      refine iff_of_false (not_places_of_inactive rfl ?_) nofun
      show Function.update s.state (γ t).slot .deleted (γ t).slot ≠ .active
      simp
    · exact walk
    · simp
  | @flip i kind phase held commit new grown =>
    cases hexec
    exact h.flip halone halone' kind (hflip i commit)
  | count phase => cases hexec; exact hsame (by constructor <;> grind) rfl rfl rfl rfl
  | age phase => cases hexec; exact hsame (by constructor <;> grind) rfl rfl rfl rfl
  | uncount phase => cases hexec; exact hsame (by constructor <;> grind) rfl rfl rfl rfl
  | begin kind held phase extra =>
      cases hexec; exact hsame (by constructor <;> grind) rfl rfl rfl rfl
  | flipGen phase held done => cases hexec; exact hsame (OffChain.refl _) rfl rfl rfl rfl
  | zero phase extra => cases hexec; exact hsame (by constructor <;> grind) rfl rfl rfl rfl

theorem InPlace.imageStep (h : InPlace cfg K s γ C) (hsl : Slots cfg s γ) (hl : Locked cfg s γ)
    (him : Images s γ) (hsl' : Slots cfg s' (Function.update γ t g'))
    (hl' : Locked cfg s' (Function.update γ t g')) (hindex : K .index)
    (hwrite : ∀ i old new, G (.write i old new) → cfg.buckets (s.data i) = cfg.buckets old)
    (hexec : exec cfg t a s = some (r, s')) (hstep : ImageStep cfg K G (γ t) a r g') :
    InPlace cfg K s' (Function.update γ t g') C := by
  have halone := hsl.mapsAlone hl
  have halone' := hsl'.mapsAlone hl'
  have hok := hl.ok t
  have hm := hsl.mine t
  -- a word of a slot the thread has to itself says nothing about where other slots belong
  have hword : ∀ (j : Fin n) (x : W) (i : Int), (γ t).phase.mapping = true → ¬ (γ t).Maps i →
      (s.state i = .active ↔ s.state i = .active) ∧ (s.state i = .active →
        Function.update s.data (γ t).slot (Function.update (s.data (γ t).slot) j x)
          i = s.data i) := by
    intro j x i hp hnot
    refine ⟨Iff.rfl, fun _ => Function.update_of_ne ?_ _ _⟩
    intro hi
    exact hnot ⟨hp, hi.symm⟩
  cases hstep with
  | fill phase map =>
    cases hexec
    refine h.offChain hok halone halone' ?_ rfl rfl fun i => hword _ _ i (by rw [phase]; rfl)
    constructor <;> grind
  | @begin old new kind phase commit checked locked =>
    cases hexec
    have hrow : (γ t).phase.mapping = false := by rw [phase]; rfl
    have hactive := hm.active (by rw [phase]; rfl)
    refine h.handover (j := (γ t).slot) halone halone' rfl rfl ?_ ?_ ?_ ?_ ?_ ?_
    · exact fun x hx => absurd hx (not_maps hrow x)
    · exact fun x hx => hx.2.symm
    · exact fun x _ => ⟨rfl, rfl⟩
    · intro k b
      rw [places_of_row (not_maps hrow _) hactive, hwrite _ old new commit]
      exact places_of_maps ⟨rfl, rfl⟩
    · exact walk_none_of_bucket (hok.settled (Or.inr phase)).2.2
    · simp
  | word phase target =>
    cases hexec
    refine h.offChain hok halone halone' ?_ rfl rfl fun i => hword _ _ i (by rw [phase]; rfl)
    constructor <;> grind
  | @finish new p phase target words commit after =>
    cases hexec
    have hmaps : (γ t).Maps (γ t).slot := ⟨by grind, rfl⟩
    have hactive := hm.active (by rw [phase]; rfl)
    have hwalk :=
      walk_none_of_bucket (hok.unwalking (by simp [phase]) (by simp [phase]) (by simp [phase]))
    rcases after with rfl | ⟨rfl, hmap⟩
    · refine h.still halone halone' rfl rfl ?_ (walking_none hwalk) fun _ => ⟨new, target, words⟩
      intro k b i _
      have hsame : Role.Maps { γ t with phase := .move } i ↔ (γ t).Maps i := by
        unfold Role.Maps
        rw [phase]
        exact Iff.rfl
      unfold Role.Places
      rw [hsame]
    · have hdata : s.data (γ t).slot = new := by
        funext j
        exact (him.seen t).words (by rw [phase]; rfl) j (new j) (by rw [words]; rfl)
      refine h.handover (j := (γ t).slot) halone halone' rfl rfl ?_ ?_ ?_ ?_ ?_ ?_
      · exact fun x hx => hx.2.symm
      · exact fun x hx => absurd hx (not_maps rfl x)
      · exact fun x _ => ⟨rfl, rfl⟩
      · intro k b
        rw [places_of_maps hmaps, hmap hindex]
        refine (places_of_row (not_maps rfl _) ?_).trans ?_
        · exact hactive
        · exact iff_of_eq (congrArg (fun x => cfg.buckets x k = some b) hdata)
      · exact hwalk
      · simp

/-- Chain cells outside the chains may change. -/
theorem InPlace.recell (h : InPlace cfg K s γ C) {nx : Nat → Int → Int} (hsl : Slots cfg s γ)
    (hl : Locked cfg s γ)
    (hnx : ∀ k i, s.Grown i → nx k i = s.next k i) : InPlace cfg K (s.withIndex nx s.head) γ C := by
  constructor
  case index =>
    intro k b
    exact (h.index k b).congr fun i hi => hnx k i ((h.placed k b i hi).grown hsl)
  case placed => exact fun k b i hi => h.placed k b i hi
  case all => exact h.all
  case walk =>
    intro u
    apply (h.walk u).frame
    intro k b hwalk
    have hmaps : (γ u).Maps (γ u).slot := (hl.ok u).maps_of_walk fun hnone => by
      rw [hnone] at hwalk; cases hwalk
    exact ⟨rfl, rfl, hnx k _ (hsl.grown_of_maps hmaps)⟩
  case moved => exact h.moved

/-- Every step of a growth keeps the chains in place. -/
theorem InPlace.growStep (h : InPlace cfg K s γ C) (hsl : Slots cfg s γ) (hl : Locked cfg s γ)
    (hsl' : Slots cfg s' (Function.update γ t g')) (hl' : Locked cfg s' (Function.update γ t g'))
    (hexec : exec cfg t a s = some (r, s')) (hstep : GrowStep cfg K (γ t) a r g') :
    InPlace cfg K s' (Function.update γ t g') C := by
  have halone := hsl.mapsAlone hl
  have halone' := hsl'.mapsAlone hl'
  have hok := hl.ok t
  have hm := hsl.mine t
  have hm' := hsl'.mine t
  rw [Function.update_self] at hm'
  cases hstep with
  | @initSlots c kind held chunk free =>
    cases hexec
    have hc : s.chunkCnt = c := hm.chunk c chunk
    refine h.offChain hok halone halone' (OffChain.refl _) rfl rfl fun i _ => ⟨?_, fun _ => rfl⟩
    show (if u32 i / chunkSize = c then SlotState.free else s.state i) = .active ↔ _
    split
    · rename_i hi
      rw [hsl.ungrown i (not_grown_of_chunk hsl.chunks (hi.trans hc.symm))]
    · exact Iff.rfl
  | @initNext k c kind held chunk =>
    cases hexec
    have hc : s.chunkCnt = c := hm.chunk c chunk
    rw [Function.update_eq_self]
    apply h.recell hsl hl
    intro k' i hi
    by_cases hk : k' = k
    · subst hk
      rw [Function.update_self, if_neg]
      exact fun hchunk => not_grown_of_chunk hsl.chunks (hchunk.trans hc.symm) hi
    · rw [Function.update_of_ne hk]
  | @publish c kind held chunk free phase extra cap limit =>
    cases hexec
    have hidle : (γ t).phase.mapping = false := by rw [phase]; rfl
    have hst : s.state (i32 (slotCount c)) ≠ .active := by
      have hfill : s.state (i32 (slotCount c)) = .free ∨ s.state (i32 (slotCount c)) = .deleted :=
        hm'.fill rfl
      rcases hfill with hst | hst <;> simp [hst]
    refine h.handover (j := i32 (slotCount c)) halone halone' rfl rfl ?_ ?_ ?_ ?_ ?_ ?_
    · exact fun x hx => absurd hx (not_maps hidle x)
    · exact fun x hx => hx.2.symm
    · exact fun x _ => ⟨rfl, rfl⟩
    · intro k b
      exact iff_of_false (not_places_of_fill rfl fun _ => rfl) (not_places_of_inactive hidle hst)
    · exact walk_none_of_bucket (hok.settled (Or.inl phase)).2.2
    · simp

end FastMem
